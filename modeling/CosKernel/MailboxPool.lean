import CosKernel.HeapContracts
import CosKernel.MailboxFifo

/-!
# The pool of a mailbox

The constructor that allocates the pool asks `kmalloc` for `size` bytes, and the mailbox
uses `size` words of four bytes. The block is longer than the request, so the words of the
smallest mailboxes are inside it all the same.
-/
namespace CosKernel
open SlabHeap Heap LockedPrograms LockedPrograms.Program

/-- The constructor that allocates the pool: the address of the pool and the mailbox, whose
words are what the block held before. -/
def MailBox.allocate (fuel : ℕ) (down : Bool) (size : Word) :
    HeapProgram (Word × MailBox) := do
  let pool ← kmalloc fuel down size
  let words ← get fun h => fun i => h.mem (pool+4*BitVec.ofNat 32 i)
  pure (pool,⟨words,size.setWidth 16,0,0,0⟩)

namespace MailboxFifo
open HeapBlocks TransitionRuns

section accesses

variable {σ ο κ θ : Type}

/-- The word that is stored, unless the mailbox is full. -/
def World.storeAt (w : World σ κ θ) : List ℕ :=
  if w.box.entry = w.box.size then [] else [w.box.inOffset.toNat]

/-- The word that is fetched, unless the mailbox is empty. -/
def World.fetchAt (w : World σ κ θ) : List ℕ :=
  if w.box.entry = 0 then [] else [w.box.outOffset.toNat]

/-- The words of the pool that a step of the calls accesses. -/
def accesses (w : World σ κ θ) : Step σ κ θ → List ℕ
  | .send c _ _ | .sendWait c _ _ _ =>
      match w.place c with
      | .idle => w.storeAt
      | _ => []
  | .recv c _ _ =>
      match w.place c with
      | .idle => w.fetchAt
      | _ => []
  | .proceed c =>
      match w.place c with
      | .idle => []
      | .sending t _ _ _ => if (w.kernel.thread t).error = ERR_OK then w.storeAt else []
      | .receiving t _ _ => if (w.kernel.thread t).error = ERR_OK then w.fetchAt else []
  | .system _ _ => []

/-- Every word that the step accesses is inside a block of `length` bytes. -/
def Inside (length : ℕ) (w : World σ κ θ) (a : Step σ κ θ) : Prop :=
  ∀ i ∈ accesses w a, 4*i+4 ≤ length

variable {w w' : World σ κ θ} {length : ℕ}

theorem mem_storeAt {i : ℕ} :
    i ∈ w.storeAt ↔ w.box.entry ≠ w.box.size ∧ i = w.box.inOffset.toNat := by
  unfold World.storeAt
  split_ifs with h
  · simp [h]
  · rw [List.mem_singleton,and_iff_right h]

theorem mem_fetchAt {i : ℕ} : i ∈ w.fetchAt ↔ w.box.entry ≠ 0 ∧ i = w.box.outOffset.toNat := by
  unfold World.fetchAt
  split_ifs with h
  · simp [h]
  · rw [List.mem_singleton,and_iff_right h]

theorem mem_accesses {a : Step σ κ θ} {i : ℕ} (h : i ∈ accesses w a) :
    i = w.box.inOffset.toNat ∨ i = w.box.outOffset.toNat := by
  have hstore : i ∈ w.storeAt → i = w.box.inOffset.toNat := fun h => (mem_storeAt.mp h).2
  have hfetch : i ∈ w.fetchAt → i = w.box.outOffset.toNat := fun h => (mem_fetchAt.mp h).2
  cases a with
  | send c t value =>
      simp only [accesses] at h
      split at h
      · exact .inl (hstore h)
      · cases h
  | sendWait c t value timeout =>
      simp only [accesses] at h
      split at h
      · exact .inl (hstore h)
      · cases h
  | recv c t timeout =>
      simp only [accesses] at h
      split at h
      · exact .inr (hfetch h)
      · cases h
  | proceed c =>
      simp only [accesses] at h
      split at h
      · cases h
      · exact .inl (hstore (List.mem_ite_nil_right.mp h).2)
      · exact .inr (hfetch (List.mem_ite_nil_right.mp h).2)
  | system k tick => cases h

/-- What a step does to the mailbox: nothing, or it stores or fetches at an offset that it
accesses. -/
inductive Accessed (w w' : World σ κ θ) (a : Step σ κ θ) : Prop where
  | none (hbox : w'.box = w.box)
  | store (value : BitVec 32) (hin : w.box.inOffset.toNat ∈ accesses w a)
      (hbox : w'.box = w.box.store value)
  | fetch (hout : w.box.outOffset.toNat ∈ accesses w a) (hbox : w'.box = withoutFirst w.box)

theorem accessed_of_sent {a : Step σ κ θ} {value : BitVec 32} {m : MailBox} {r : Progress ℤ}
    (hr : Sent w.box value m r) (ha : accesses w a = w.storeAt) (hm : w'.box = m) :
    Accessed w w' a := by
  cases hr with
  | waiting timeout tickDelta => exact .none hm
  | failed e he => exact .none hm
  | stored hfull =>
      refine .store value ?_ hm
      rw [ha]
      exact mem_storeAt.mpr ⟨hfull,rfl⟩

theorem accessed_of_received {a : Step σ κ θ} {m : MailBox}
    {r : Progress (ℤ × Option (BitVec 32))} (hr : Received w.box m r)
    (ha : accesses w a = w.fetchAt) (hm : w'.box = m) : Accessed w w' a := by
  cases hr with
  | waiting timeout tickDelta => exact .none hm
  | failed e he => exact .none hm
  | fetched hentry =>
      refine .fetch ?_ hm
      rw [ha]
      exact mem_fetchAt.mpr ⟨hentry,rfl⟩

variable [DecidableEq κ]

@[simp] theorem box_sent (c : κ) (t : θ) (value : BitVec 32) (k : Kernel σ θ) (m : MailBox)
    (r : Progress ℤ) : (w.sent c t value (k,m,r)).box = m := by
  cases r <;> rfl

@[simp] theorem box_received (c : κ) (t : θ) (k : Kernel σ θ) (m : MailBox)
    (r : Progress (ℤ × Option (BitVec 32))) : (w.received c t (k,m,r)).box = m := by
  cases r <;> rfl

variable [DecidableEq θ] [ListFamily σ (ListId ο) θ] {o : ο}

theorem step_accessed {a : Step σ κ θ} (h : step o w a = some w') : Accessed w w' a := by
  cases a with
  | send c t value =>
      simp only [step] at h
      split at h
      · next hp =>
          obtain ⟨⟨k,m,r⟩,hr,rfl⟩ := Option.map_eq_some_iff.mp h
          exact accessed_of_sent (sendWait_sent hr) (by simp only [accesses,hp]) (box_sent ..)
      · cases h
  | sendWait c t value timeout =>
      simp only [step] at h
      split at h
      · next hp =>
          obtain ⟨⟨k,m,r⟩,hr,rfl⟩ := Option.map_eq_some_iff.mp h
          exact accessed_of_sent (sendWait_sent hr) (by simp only [accesses,hp]) (box_sent ..)
      · cases h
  | recv c t timeout =>
      simp only [step] at h
      split at h
      · next hp =>
          obtain ⟨⟨k,m,r⟩,hr,rfl⟩ := Option.map_eq_some_iff.mp h
          exact accessed_of_received (recv_received hr) (by simp only [accesses,hp])
            (box_received ..)
      · cases h
  | proceed c =>
      simp only [step] at h
      split at h
      · cases h
      · next t value timeout tickDelta hp =>
          obtain ⟨⟨k,m,r⟩,hr,rfl⟩ := Option.map_eq_some_iff.mp h
          by_cases he : (w.kernel.thread t).error = ERR_OK
          · exact accessed_of_sent (sendProceed_sent hr) (by simp only [accesses,hp,he,↓reduceIte])
              (box_sent ..)
          · rw [MailBox.sendProceed,if_pos he] at hr
            cases hr
            exact .none (box_sent ..)
      · next t timeout tickDelta hp =>
          obtain ⟨⟨k,m,r⟩,hr,rfl⟩ := Option.map_eq_some_iff.mp h
          by_cases he : (w.kernel.thread t).error = ERR_OK
          · exact accessed_of_received (recvProceed_received hr)
              (by simp only [accesses,hp,he,↓reduceIte]) (box_received ..)
          · rw [MailBox.recvProceed,if_pos he] at hr
            cases hr
            exact .none (box_received ..)
  | system k tick =>
      cases h
      exact .none rfl

theorem step_size {a : Step σ κ θ} (h : step o w a = some w') : w'.box.size = w.box.size := by
  cases step_accessed h with
  | none hbox => rw [hbox]
  | store value hin hbox =>
      rw [hbox]
      rfl
  | fetch hout hbox =>
      rw [hbox]
      rfl

/-- The offsets stay below the size of the mailbox. -/
theorem inside_of_le {size : BitVec 16} (hstart : Start w) (hsize : w.box.size = size)
    (hle : 4*size.toNat ≤ length) (as : List (Step σ κ θ)) :
    AllSteps (step o) (Inside length) w as := by
  have hrun : Throughout (step o) (fun w => w.box.size = size ∧ ∃ xs, Invariant w xs) w as :=
    throughout_of_step (fun _ h => h)
      (fun _ _ _ h hstep => ⟨(step_size hstep).trans h.1,h.2.choose_spec.step hstep⟩) as
      ⟨hsize,_,hstart.invariant⟩
  refine hrun.allSteps.mono fun v a hv i hi => ?_
  obtain ⟨⟨hv,xs,H⟩,-⟩ := hv
  have hin := H.fifo.inOffset
  have hout := H.fifo.outOffset
  rcases mem_accesses hi with rfl | rfl
  · bv_omega
  · bv_omega

end accesses

section filling

variable {σ ο κ θ : Type} [ListFamily σ (ListId ο) θ]
variable {w : World σ κ θ} {o : ο} {c : κ} {t : θ} {j : ℕ}

/-- A mailbox that has stored `j` values and fetched none, and on which no thread waits. -/
structure Filled (o : ο) (c : κ) (size : BitVec 16) (j : ℕ) (w : World σ κ θ) : Prop where
  size : w.box.size = size
  inOffset : w.box.inOffset.toNat = j
  entry : w.box.entry.toNat = j
  idle : w.place c = .idle
  nobody : ListFamily.front w.kernel.lists (ListId.suspend o) = none

theorem Filled.not_full {size : BitVec 16} (H : Filled o c size j w) (hj : j < size.toNat) :
    w.box.entry ≠ w.box.size := by
  have hentry := H.entry
  rw [H.size]
  bv_omega

theorem Filled.access {size : BitVec 16} (H : Filled o c size j w) (hj : j < size.toNat) (t : θ)
    (value : BitVec 32) : j ∈ accesses w (.send c t value) := by
  simp only [accesses,H.idle]
  exact mem_storeAt.mpr ⟨H.not_full hj,H.inOffset.symm⟩

variable [DecidableEq κ] [DecidableEq θ]

/-- Nobody waits for the value, so `send` stores it and returns. -/
theorem Filled.send {size : BitVec 16} (H : Filled o c size j w) (hj : j+1 < size.toNat) (t : θ)
    (value : BitVec 32) :
    ∃ w', step o w (.send c t value) = some w' ∧ Filled o c size (j+1) w' := by
  have hfull := H.not_full (Nat.lt_of_succ_lt hj)
  have hsend : MailBox.send w.kernel o w.box w.tick t value =
      some (w.kernel,w.box.store value,.returned ERR_OK) := by
    have herr : -ERR_ERROR ≠ ERR_OK := by decide
    simp only [MailBox.send,MailBox.sendWait,MailBox.sendLoop,hfull,false_and,↓reduceIte,
      Kernel.listResume,H.nobody,Option.bind_eq_bind,Option.bind_some,herr]
  refine ⟨w.sent c t value (w.kernel,w.box.store value,.returned ERR_OK),?_,H.size,?_,?_,?_,
    H.nobody⟩
  · simp only [step,H.idle,hsend,Option.map_some]
  · have hin : w.box.inOffset.toNat < w.box.size.toNat := by
      rw [H.inOffset,H.size]
      omega
    have hnext : (MailBox.advance w.box.size w.box.inOffset).toNat = j+1 := by
      rw [advance_toNat hin,H.inOffset,H.size,Nat.mod_eq_of_lt hj]
    exact hnext
  · have hentry := H.entry
    have hnext : (w.box.entry+1).toNat = j+1 := by
      bv_omega
    exact hnext
  · exact Function.update_self ..

/-- Sends alone reach every word of the mailbox. -/
theorem Filled.reaches {size : BitVec 16} {n length : ℕ} (H : Filled o c size j w)
    (hn : j+n < size.toNat)
    (h : AllSteps (step o) (Inside length) w (List.replicate (n+1) (.send c t 0))) :
    4*(j+n)+4 ≤ length := by
  induction n generalizing j w with
  | zero => exact h.1 j (H.access hn t 0)
  | succ n ih =>
      obtain ⟨w',hstep,H'⟩ := H.send (by omega) t 0
      have hrest := ih H' (by omega) (h.2 w' hstep)
      omega

end filling

/-- A mailbox that has just been constructed. -/
structure Created {σ ο κ θ : Type} [ListFamily σ (ListId ο) θ] (o : ο) (m : MailBox)
    (w : World σ κ θ) : Prop where
  box : w.box = m
  start : Start w
  idle : ∀ c, w.place c = .idle
  nobody : ListFamily.front w.kernel.lists (ListId.suspend o) = none

section pool

variable {fuel : ℕ} {down : Bool} {size pool : Word} {m : MailBox} {h h' : SlabHeap}

theorem allocate_some (hrun : (MailBox.allocate fuel down size).run h = some ((pool,m),h')) :
    (kmalloc fuel down size).run h = some (pool,h') ∧
      ∃ words, m = ⟨words,size.setWidth 16,0,0,0⟩ := by
  simp only [MailBox.allocate,run_bind,Option.bind_eq_some_iff,run_get,run_pure,
    Option.some.injEq,Prod.mk.injEq] at hrun
  obtain ⟨⟨p,h₁⟩,hk,-,⟨-,rfl⟩,⟨rfl,rfl⟩,rfl⟩ := hrun
  exact ⟨hk,_,rfl⟩

/-- A block of `kmalloc` is long enough for as many words as it was asked for bytes only if
these are at most two. -/
theorem Config.words_fit_iff (c : Config) (hpos : 1 ≤ size.toNat) (hle : size.toNat ≤ 65535) :
    4*size.toNat ≤ c.usable size ↔ size.toNat ≤ 2 := by
  have hzones := c.zones
  unfold Config.usable
  constructor
  · intro h
    by_contra hthree
    split_ifs at h with hlimit
    · have := zoneindex_lt (n := size) (by omega)
      omega
    · rw [toNat_pageAlign] at h
      omega
  · intro h
    rw [if_pos (by omega)]
    obtain ⟨i,C⟩ := zoneindex_class (n := size) (by bv_omega) (by omega)
    have := (classSize_bounds i).1
    rw [C.size]
    omega

variable {σ ο κ θ : Type} [ListFamily σ (ListId ο) θ]
variable {w : World σ κ θ} {o : ο} {v : HeapBlocks.World}

theorem Created.filled (hw : Created o m w) (c : κ) : Filled o c m.size 0 w := by
  refine ⟨by rw [hw.box],?_,?_,hw.idle c,hw.nobody⟩
  · rw [hw.start.inOffset]
    rfl
  · rw [hw.start.entry]
    rfl

variable [DecidableEq κ] [DecidableEq θ]

/-- All accesses of a mailbox to the pool that its constructor has allocated are inside the
block, exactly when it is a mailbox for one or two values. -/
theorem mailbox_pool_inside_iff (H : Reached fuel down v) (hpos : 1 ≤ size.toNat)
    (hle : size.toNat ≤ 65535)
    (hrun : (MailBox.allocate fuel down size).run v.heap = some ((pool,m),h')) (hpool : pool ≠ 0)
    (hw : Created o m w) (c : κ) (t : θ) :
    (∀ as, AllSteps (step o) (Inside (usable h' pool)) w as) ↔ size.toNat ≤ 2 := by
  obtain ⟨hk,words,rfl⟩ := allocate_some hrun
  obtain ⟨cfg,husable,-⟩ := H.kmalloc_usable hk hpool
  have hsize : (size.setWidth 16).toNat = size.toNat := by
    rw [BitVec.toNat_setWidth,Nat.mod_eq_of_lt (by omega)]
  rw [← Config.words_fit_iff cfg hpos hle,← husable]
  constructor
  · intro h
    have hlast := (hw.filled c).reaches (n := size.toNat-1) (by simp only; omega)
      (h (List.replicate (size.toNat-1+1) (.send c t 0)))
    omega
  · intro hfit as
    exact inside_of_le hw.start (congrArg MailBox.size hw.box) (by simp only; omega) as

end pool

/-- Two threads, none of which waits for a value. -/
def idleKernel : Kernel (Sequences (ListId (Fin 1)) (Fin 2)) (Fin 2) :=
  Scheduler.startedKernel ![254,20]

theorem idleKernel_nobody :
    ListFamily.front idleKernel.lists (ListId.suspend (0 : Fin 1)) = none := by
  decide +kernel

/-- A mailbox that no call has used. -/
def unused (m : MailBox) : World (Sequences (ListId (Fin 1)) (Fin 2)) (Fin 1) (Fin 2) where
  kernel := idleKernel
  tick := 0
  box := m
  place := fun _ => .idle
  stored := []
  fetched := []
  changed := fun _ => False
  outcomes := []

theorem unused_created {words : ℕ → BitVec 32} {size : BitVec 16} (hsize : 1 ≤ size) :
    Created 0 ⟨words,size,0,0,0⟩ (unused ⟨words,size,0,0,0⟩) := by
  refine ⟨rfl,⟨hsize,rfl,rfl,rfl,rfl,rfl,fun _ => id,rfl⟩,fun _ => rfl,?_⟩
  simp only [unused]
  exact idleKernel_nobody

theorem allocate_smallHeap (size : Word) (hsize : size = 2 ∨ size = 3) :
    ∃ words h', (MailBox.allocate 50 true size).run smallHeap =
      some ((0x101028,⟨words,size.setWidth 16,0,0,0⟩),h') ∧ usable h' 0x101028 = 8 := by
  have hfacts : ((MailBox.allocate 50 true size).run smallHeap).map
      (fun r => (r.1.1,usable r.2 0x101028)) = some (0x101028,8) := by
    rcases hsize with rfl | rfl
    · decide +kernel
    · decide +kernel
  obtain ⟨⟨⟨pool,m⟩,h'⟩,hrun,heq⟩ := Option.map_eq_some_iff.mp hfacts
  obtain ⟨rfl,husable⟩ := Prod.mk.inj heq
  obtain ⟨-,words,rfl⟩ := allocate_some hrun
  exact ⟨words,h',hrun,husable⟩

theorem mailbox_pool_inside_iff_two : ∃ words h',
    (MailBox.allocate 50 true 2).run smallHeap = some ((0x101028,⟨words,2,0,0,0⟩),h') ∧
      ∀ as, AllSteps (step 0) (Inside (usable h' 0x101028)) (unused ⟨words,2,0,0,0⟩) as := by
  obtain ⟨words,h',hrun,-⟩ := allocate_smallHeap 2 (.inl rfl)
  exact ⟨words,h',hrun,(mailbox_pool_inside_iff reached_smallHeap (by decide) (by decide) hrun
    (by decide) (unused_created (by decide)) 0 1).mpr (by decide)⟩

/-- The third value that is sent to a mailbox for three is stored behind the block. -/
theorem third_word_outside : ∃ words h',
    (MailBox.allocate 50 true 3).run smallHeap = some ((0x101028,⟨words,3,0,0,0⟩),h') ∧
      usable h' 0x101028 = 8 ∧
      ¬AllSteps (step 0) (Inside (usable h' 0x101028)) (unused ⟨words,3,0,0,0⟩)
        (List.replicate 3 (.send 0 1 0)) := by
  obtain ⟨words,h',hrun,husable⟩ := allocate_smallHeap 3 (.inr rfl)
  refine ⟨words,h',hrun,husable,fun h => ?_⟩
  have hcreated : Created 0 ⟨words,3,0,0,0⟩ (unused ⟨words,3,0,0,0⟩) := unused_created (by decide)
  have hlast := (hcreated.filled 0).reaches (n := 2) (show 0+2 < (3 : BitVec 16).toNat by decide) h
  omega

end MailboxFifo

end CosKernel

import CosKernel.ExclusiveCustody
import CosKernel.IpcObjects
import CosKernel.LinkedChain
import CosKernel.SchedulerInvariant
import CosKernel.TransitionRuns
import Mathlib.Data.List.Forall2

/-!
# The message queue as a double-ended queue

Any number of calls of `send`, `urgent`, `recv` and `control` on one message queue.
The first three leave their critical section with a slot in their hands and enter it
again later, so a call is one or more steps here and the calls interleave. Next to the
slots runs the deque that the queue is meant to be: a list of messages, each with
the number of the link step that brought it in.

A blocked `recv` may go on at any time and the kernel may change in any way between
two steps, which allows for more runs than the scheduler does.
-/
namespace CosKernel.MessageDeque
open ExclusiveCustody LinkedChain TransitionRuns

structure Message where
  id : ℕ
  bytes : List (BitVec 8)
  deriving DecidableEq, Repr

/-- Where a call is. A `recv` that has unlinked a slot also remembers the front of the
deque at that moment. -/
inductive Place (θ : Type) where
  | idle
  | sending (msg : ℕ) (buffer : List (BitVec 8))
  | urging (msg : ℕ) (buffer : List (BitVec 8))
  | waiting (t : θ) (size : ℕ) (timeout tickDelta : BitVec 32)
  | copying (msg size : ℕ) (front : Option Message)
  deriving DecidableEq, Repr

/-- The slot in the hands of a call. -/
def Place.slot {θ : Type} : Place θ → Option ℕ
  | .sending msg _ | .urging msg _ | .copying msg _ _ => some msg
  | .idle | .waiting _ _ _ _ => none

/-- The message in the hands of a call. -/
def Place.fetched {θ : Type} : Place θ → Option (Option Message)
  | .copying _ _ front => some front
  | .idle | .sending _ _ | .urging _ _ | .waiting _ _ _ _ => none

/-- A `recv` that has returned `ERR_OK`: the message that it took from the deque, the
size of its buffer, and the bytes that it wrote there. -/
structure Receipt where
  message : Option Message
  size : ℕ
  bytes : List (BitVec 8)
  deriving DecidableEq, Repr

/-- The failures are what the calls of `recv` without a message have returned. -/
structure World (σ κ θ : Type) where
  kernel : Kernel σ θ
  tick : BitVec 32
  queue : MessageQueue
  place : κ → Place θ
  deque : List Message
  linked : ℕ
  receipts : List Receipt
  failures : List ℤ

/-- The steps of the calls `κ`. -/
inductive Step (σ κ θ : Type) where
  | send (c : κ) (buffer : List (BitVec 8))
  | urgent (c : κ) (buffer : List (BitVec 8))
  | link (c : κ)
  | recv (c : κ) (t : θ) (size : ℕ) (timeout : BitVec 32)
  | proceed (c : κ)
  | recycle (c : κ)
  | control (fuel : ℕ) (cmd : BitVec 8)
  | system (kernel : Kernel σ θ) (tick : BitVec 32)

section model

variable {σ ο κ θ : Type} [DecidableEq κ] [DecidableEq θ] [ListFamily σ (ListId ο) θ]

def World.move (w : World σ κ θ) (c : κ) (p : Place θ) : World σ κ θ :=
  {w with place := Function.update w.place c p}

/-- The first step of `send` and of `urgent`. -/
def World.reserve (w : World σ κ θ) (c : κ) (buffer : List (BitVec 8)) (p : ℕ → Place θ) :
    Option (World σ κ θ) :=
  (w.queue.reserve buffer).map fun r =>
    match r.2 with
    | .inl _ => {w with queue := r.1}
    | .inr msg => World.move {w with queue := r.1} c (p msg)

/-- Their second step. -/
def World.link (w : World σ κ θ) (o : ο) (c : κ) (q : MessageQueue) (deque : List Message) :
    Option (World σ κ θ) :=
  (MessageQueue.notify w.kernel o).map fun r =>
    World.move {w with kernel := r.1, queue := q, deque := deque, linked := w.linked+1} c .idle

/-- The end of a part of `recv`. -/
def World.received (w : World σ κ θ) (c : κ) (t : θ) (size : ℕ) :
    Kernel σ θ × MessageQueue × Progress (ℤ ⊕ ℕ) → World σ κ θ
  | (k,q,.waiting timeout tickDelta) =>
      World.move {w with kernel := k, queue := q} c (.waiting t size timeout tickDelta)
  | (k,q,.returned (.inl e)) =>
      World.move {w with kernel := k, queue := q, failures := e::w.failures} c .idle
  | (k,q,.returned (.inr msg)) =>
      World.move {w with kernel := k, queue := q, deque := w.deque.tail} c
        (.copying msg size w.deque.head?)

def step (o : ο) (w : World σ κ θ) : Step σ κ θ → Option (World σ κ θ)
  | .send c buffer =>
      match w.place c with
      | .idle => w.reserve c buffer fun msg => .sending msg buffer
      | _ => none
  | .urgent c buffer =>
      match w.place c with
      | .idle => w.reserve c buffer fun msg => .urging msg buffer
      | _ => none
  | .link c =>
      match w.place c with
      | .sending msg buffer =>
          w.link o c (w.queue.linkLast msg buffer) (w.deque++[⟨w.linked,buffer⟩])
      | .urging msg buffer =>
          w.link o c (w.queue.linkFirst msg buffer) (⟨w.linked,buffer⟩::w.deque)
      | _ => none
  | .recv c t size timeout =>
      match w.place c with
      | .idle =>
          (MessageQueue.recv w.kernel o w.queue w.tick t size timeout).map (w.received c t size)
      | _ => none
  | .proceed c =>
      match w.place c with
      | .waiting t size timeout tickDelta =>
          (MessageQueue.recvProceed w.kernel o w.queue w.tick t timeout tickDelta).map
            (w.received c t size)
      | _ => none
  | .recycle c =>
      match w.place c with
      | .copying msg size front =>
          let (q,bytes) := w.queue.recycle msg size
          some (World.move {w with queue := q, receipts := ⟨front,size,bytes⟩::w.receipts} c .idle)
      | _ => none
  | .control fuel cmd =>
      (MessageQueue.control fuel w.kernel o w.queue cmd).map fun r =>
        {w with kernel := r.1, queue := r.2.1, deque := if cmd = CMD_RESET then [] else w.deque}
  | .system k tick => some {w with kernel := k, tick := tick}

end model

/-- The slot `x` holds the message `m`. -/
def Carries (q : MessageQueue) (x : ℕ) (m : Message) : Prop :=
  m.bytes <+: q.payload x ∧ m.bytes.length ≤ q.msgSize.toNat

/-- The slots `fs` are free, the slots `hs` are those of the messages in the deque, and
the remaining slots are each held by one call. -/
structure Refines {σ κ θ : Type} (slots : List ℕ) (w : World σ κ θ) (fs hs : List ℕ) : Prop where
  free : Chain w.queue.next w.queue.free fs
  head : Chain w.queue.next w.queue.head hs
  tail : w.queue.tail = hs.getLast?
  entry : w.queue.entry.toNat = hs.length
  exclusive : Exclusive (fs++hs) (Place.slot ∘ w.place)
  slots : ∀ x, x ∈ slots ↔ Somewhere (fs++hs) (Place.slot ∘ w.place) x
  contents : List.Forall₂ (Carries w.queue) hs w.deque

/-- The bytes that were received are those of the message, as far as it goes and as far
as there is room. -/
def Receipt.Genuine (r : Receipt) : Prop :=
  ∃ m, r.message = some m ∧
    r.bytes.take (min r.size m.bytes.length) = m.bytes.take (min r.size m.bytes.length)

/-- The queue is the deque, every message was received at most once, and a call of `recv` without
a message has returned an error. -/
def Sound {σ κ θ : Type} (slots : List ℕ) (w : World σ κ θ) : Prop :=
  (∃ fs hs, Refines slots w fs hs) ∧ (∀ r ∈ w.receipts, r.Genuine) ∧
    (w.receipts.map Receipt.message).Nodup ∧ (∀ e ∈ w.failures, e ≠ ERR_OK) ∧
    ∀ fuel, slots.length < fuel → (w.queue.drain fuel).isSome = true

/-- A message queue after its constructor, and no call in progress. -/
structure Start {σ κ θ : Type} (slots : List ℕ) (w : World σ κ θ) : Prop where
  nodup : slots.Nodup
  length : slots.length < 2^16
  free : Chain w.queue.next w.queue.free slots
  head : w.queue.head = none
  tail : w.queue.tail = none
  entry : w.queue.entry = 0
  place : ∀ c, w.place c = .idle
  deque : w.deque = []
  receipts : w.receipts = []
  failures : w.failures = []

section queue

variable {q q' : MessageQueue} {msg : ℕ} {fs hs : List ℕ} {buffer : List (BitVec 8)}

theorem reserve_some {r : ℤ ⊕ ℕ} (h : q.reserve buffer = some (q',r)) :
    (∃ e, r = .inl e ∧ q' = q) ∨ ∃ msg, r = .inr msg ∧ q.free = some msg ∧
      q' = {q with free := q.next msg} ∧ buffer.length ≤ q.msgSize.toNat := by
  unfold MessageQueue.reserve at h
  split_ifs at h with h₁ h₂
  · cases h
    exact Or.inl ⟨_,rfl,rfl⟩
  · split at h
    · cases h
      exact Or.inl ⟨_,rfl,rfl⟩
    · next msg hf =>
        cases h
        exact Or.inr ⟨msg,rfl,hf,rfl,Nat.le_of_not_lt h₂⟩

/-- The queue without its first message. -/
def unlinked (q : MessageQueue) (msg : ℕ) : MessageQueue :=
  {q with
    head := q.next msg, tail := if q.tail = some msg then none else q.tail, entry := q.entry-1}

section recv

variable {σ ο θ : Type} [DecidableEq θ] [ListFamily σ (ListId ο) θ]
variable {k k' : Kernel σ θ} {o : ο} {tick timeout tickDelta : BitVec 32} {t : θ}

/-- How a part of `recv` can end. -/
inductive Received (q : MessageQueue) : MessageQueue → Progress (ℤ ⊕ ℕ) → Prop where
  | waiting (timeout tickDelta : BitVec 32) : Received q q (.waiting timeout tickDelta)
  | failed (e : ℤ) (he : e ≠ ERR_OK) : Received q q (.returned (.inl e))
  | fetched (msg : ℕ) (hentry : q.entry ≠ 0) (hhead : q.head = some msg) :
      Received q (unlinked q msg) (.returned (.inr msg))

theorem recvLoop_received {r : Progress (ℤ ⊕ ℕ)}
    (h : MessageQueue.recvLoop k o q tick t timeout tickDelta = some (k',q',r)) :
    Received q q' r := by
  unfold MessageQueue.recvLoop at h
  split_ifs at h with h₁ h₂
  · cases h
    exact .failed _ (by decide)
  · simp only [Option.bind_eq_bind,Option.bind_eq_some_iff,Option.some.injEq,Prod.mk.injEq] at h
    obtain ⟨k₁,-,k₂,-,k₃,-,-,rfl,rfl⟩ := h
    exact .waiting _ _
  · simp only [Option.bind_eq_bind,Option.bind_eq_some_iff,Option.some.injEq,Prod.mk.injEq] at h
    obtain ⟨msg,hmsg,-,rfl,rfl⟩ := h
    exact .fetched msg h₁ hmsg

theorem recv_received {size : ℕ} {r : Progress (ℤ ⊕ ℕ)}
    (h : MessageQueue.recv k o q tick t size timeout = some (k',q',r)) : Received q q' r := by
  unfold MessageQueue.recv at h
  split_ifs at h with h₁ h₂
  · cases h
    exact .failed _ (by decide)
  · exact recvLoop_received h

theorem recvProceed_received {r : Progress (ℤ ⊕ ℕ)}
    (h : MessageQueue.recvProceed k o q tick t timeout tickDelta = some (k',q',r)) :
    Received q q' r := by
  unfold MessageQueue.recvProceed at h
  split_ifs at h with h₁
  · cases h
    exact .failed _ h₁
  · exact recvLoop_received h

end recv

/-- Without its first slot the chain ends where it did, or is empty. -/
theorem tail_unlinked {tail : Option ℕ} (htail : tail = (msg::hs).getLast?) (hx : msg ∉ hs) :
    (if tail = some msg then none else tail) = hs.getLast? := by
  cases hs with
  | nil => simp [htail]
  | cons y ys =>
      have htail : tail = (y::ys).getLast? := by simpa using htail
      have hne : tail ≠ some msg := by
        intro h
        exact hx (List.mem_of_getLast? (htail ▸ h))
      rw [if_neg hne,htail]

/-- What `drain` does to the slots: those of the messages become free. -/
theorem drain_spec {fuel : ℕ} (hfree : Chain q.next q.free fs) (hhead : Chain q.next q.head hs)
    (htail : q.tail = hs.getLast?) (hnodup : (fs++hs).Nodup) :
    (hs.length < fuel → (q.drain fuel).isSome = true) ∧
      ∀ q', q.drain fuel = some q' → Chain q'.next q'.free (hs.reverse++fs) ∧ q'.head = none ∧
        q'.tail = none ∧ q'.payload = q.payload ∧ q'.msgSize = q.msgSize := by
  induction fuel generalizing q fs hs with
  | zero => exact ⟨fun h => absurd h (Nat.not_lt_zero _),fun _ h => nomatch h⟩
  | succ fuel ih =>
      cases hs with
      | nil =>
          have hhead : q.head = none := hhead
          have hdrain : q.drain (fuel+1) = some q := by simp [MessageQueue.drain,hhead]
          refine ⟨fun _ => by rw [hdrain]; rfl,fun q' h => ?_⟩
          obtain rfl := Option.some.inj (hdrain.symm.trans h)
          exact ⟨hfree,hhead,htail,rfl,rfl⟩
      | cons x hs =>
          obtain ⟨hx,hhead⟩ := hhead
          have hnodup' : (x::(fs++hs)).Nodup := (List.perm_middle.nodup_iff).mp hnodup
          obtain ⟨hxf,hxh⟩ : x ∉ fs ∧ x ∉ hs := by simpa using (List.nodup_cons.mp hnodup').1
          -- One round frees the first slot; the chain of free slots grows at its front.
          have hround := ih
            (q := {MessageQueue.setNext {q with
              head := q.next x, tail := if q.tail = some x then none else q.tail} x q.free with
                free := some x})
            (hfree.push hxf) (hhead.write hxh) (tail_unlinked htail hxh) (by simpa using hnodup')
          have hdrain : q.drain (fuel+1) = MessageQueue.drain fuel {MessageQueue.setNext {q with
              head := q.next x, tail := if q.tail = some x then none else q.tail} x q.free with
                free := some x} := by
            rw [MessageQueue.drain,hx]
          rw [hdrain]
          refine ⟨fun hlt => hround.1 (by simpa using hlt),fun q' h => ?_⟩
          obtain ⟨h1,h2⟩ := hround.2 q' h
          exact ⟨by simpa using h1,h2⟩

variable (buffer) in
theorem linkLast_spec (hhead : Chain q.next q.head hs) (htail : q.tail = hs.getLast?)
    (hn : hs.Nodup) (hx : msg ∉ hs) :
    Chain (q.linkLast msg buffer).next (q.linkLast msg buffer).head (hs++[msg]) ∧
      ∀ x, x ∉ hs → x ≠ msg → (q.linkLast msg buffer).next x = q.next x := by
  have hset : Chain (Function.update q.next msg none) q.head hs := hhead.write hx
  cases hs with
  | nil =>
      have htail : q.tail = none := htail
      have hhead : q.head = none := hhead
      simp only [MessageQueue.linkLast,MessageQueue.setNext,MessageQueue.copyIn,htail,hhead,
        ↓reduceIte]
      exact ⟨⟨rfl,Function.update_self ..⟩,fun x _ hxm => Function.update_of_ne hxm ..⟩
  | cons y ys =>
      obtain ⟨l,hl⟩ : ∃ l, (y::ys).getLast? = some l :=
        Option.ne_none_iff_exists'.mp (by simp)
      have hhead' : q.head = some y := hhead.1
      have hne : q.head ≠ none := by simp [hhead']
      simp only [MessageQueue.linkLast,MessageQueue.setNext,MessageQueue.copyIn,htail,hl,hne,
        ↓reduceIte]
      refine ⟨hset.concat hl hn hx (Function.update_self ..),fun x hxs hxm => ?_⟩
      have hxl : x ≠ l := by
        rintro rfl
        exact hxs (List.mem_of_getLast? hl)
      rw [Function.update_of_ne hxl,Function.update_of_ne hxm]

@[simp] theorem linkLast_tail : (q.linkLast msg buffer).tail = some msg := rfl

@[simp] theorem linkLast_entry : (q.linkLast msg buffer).entry = q.entry+1 := by
  unfold MessageQueue.linkLast
  cases h : q.tail <;> simp [MessageQueue.setNext,MessageQueue.copyIn,h]

@[simp] theorem linkLast_free : (q.linkLast msg buffer).free = q.free := by
  unfold MessageQueue.linkLast
  cases h : q.tail <;> simp [MessageQueue.setNext,MessageQueue.copyIn,h]

@[simp] theorem linkLast_msgSize : (q.linkLast msg buffer).msgSize = q.msgSize := by
  unfold MessageQueue.linkLast
  cases h : q.tail <;> simp [MessageQueue.setNext,MessageQueue.copyIn,h]

@[simp] theorem linkLast_payload : (q.linkLast msg buffer).payload =
    Function.update q.payload msg (buffer++(q.payload msg).drop buffer.length) := by
  unfold MessageQueue.linkLast
  cases h : q.tail <;> simp [MessageQueue.setNext,MessageQueue.copyIn,h]

end queue

/-- What a call in progress relies on. -/
def Holding {θ : Type} (q : MessageQueue) : Place θ → Prop
  | .sending _ buffer | .urging _ buffer => buffer.length ≤ q.msgSize.toNat
  | .copying msg _ front => ∃ m, front = some m ∧ Carries q msg m
  | .idle | .waiting _ _ _ _ => True

/-- All messages that were linked are different from each other: those in the deque,
those that a call has fetched, and those that were received. -/
structure Distinct (received : List (Option Message)) (deque : List Message)
    {κ : Type} (fetched : κ → Option (Option Message)) (linked : ℕ) : Prop where
  exclusive : Exclusive (received++deque.map some) fetched
  old : ∀ f, Somewhere (received++deque.map some) fetched f → ∃ m, f = some m ∧ m.id < linked

structure Invariant {σ κ θ : Type} (slots : List ℕ) (w : World σ κ θ) (fs hs : List ℕ) :
    Prop where
  refines : Refines slots w fs hs
  short : slots.length < 2^16
  holding : ∀ c, Holding w.queue (w.place c)
  genuine : ∀ r ∈ w.receipts, r.Genuine
  distinct : Distinct (w.receipts.map Receipt.message) w.deque (Place.fetched ∘ w.place) w.linked
  failures : ∀ e ∈ w.failures, e ≠ ERR_OK

section distinct

variable {κ : Type} {rs : List (Option Message)} {ds : List Message}
variable {fetched : κ → Option (Option Message)} {n : ℕ} {c : κ}

theorem Distinct.perm {ds' : List Message} (H : Distinct rs ds fetched n) (h : ds'.Perm ds) :
    Distinct rs ds' fetched n := by
  have hp : (rs++ds'.map some).Perm (rs++ds.map some) := (h.map some).append_left rs
  exact ⟨H.exclusive.perm hp,fun f hf => H.old f ((somewhere_perm hp).mp hf)⟩

/-- A message is linked. -/
theorem Distinct.link (H : Distinct rs ds fetched n) (bytes : List (BitVec 8)) :
    Distinct rs (⟨n,bytes⟩::ds) fetched (n+1) := by
  have hp : (rs++(⟨n,bytes⟩::ds : List Message).map some).Perm
      (some ⟨n,bytes⟩::(rs++ds.map some)) := List.perm_middle
  have hnew : ¬Somewhere (rs++ds.map some) fetched (some ⟨n,bytes⟩) := by
    intro h
    obtain ⟨m,hm,hlt⟩ := H.old _ h
    cases hm
    exact lt_irrefl n hlt
  obtain ⟨hrest,hhold⟩ := not_or.mp hnew
  refine ⟨(H.exclusive.fresh hrest (not_exists.mp hhold)).perm hp,fun f hf => ?_⟩
  rcases (somewhere_perm hp).mp hf with hf | hf
  · rcases List.mem_cons.mp hf with rfl | hf
    · exact ⟨_,rfl,Nat.lt_succ_self n⟩
    · obtain ⟨m,hm,hlt⟩ := H.old f (Or.inl hf)
      exact ⟨m,hm,Nat.lt_succ_of_lt hlt⟩
  · obtain ⟨m,hm,hlt⟩ := H.old f (Or.inr hf)
    exact ⟨m,hm,Nat.lt_succ_of_lt hlt⟩

/-- The deque is emptied. -/
theorem Distinct.clear (H : Distinct rs ds fetched n) : Distinct rs [] fetched n := by
  have hs : (rs++([] : List Message).map some).Sublist (rs++ds.map some) := by simp
  refine ⟨H.exclusive.sublist hs,fun f hf => H.old f ?_⟩
  rcases hf with hf | hf
  · exact Or.inl (hs.subset hf)
  · exact Or.inr hf

variable [DecidableEq κ]

/-- A call fetches the front of the deque. -/
theorem Distinct.fetch {m : Message} (H : Distinct rs (m::ds) fetched n) (hc : fetched c = none) :
    Distinct rs ds (Function.update fetched c (some (some m))) n := by
  have hp : (some m::(rs++ds.map some)).Perm (rs++(m::ds).map some) := List.perm_middle.symm
  refine ⟨(H.exclusive.perm hp).pickUp,fun f hf => H.old f ?_⟩
  exact (somewhere_perm hp).mp ((somewhere_pickUp hc).mp hf)

/-- A call returns its message. -/
theorem Distinct.receive {f : Option Message} (H : Distinct rs ds fetched n)
    (hc : fetched c = some f) : Distinct (f::rs) ds (Function.update fetched c none) n :=
  ⟨H.exclusive.putBack hc,fun g hg => H.old g ((somewhere_putBack hc).mp hg)⟩

end distinct

section frame

variable {θ : Type} {q q' : MessageQueue}

theorem contents_congr {hs : List ℕ} {ds : List Message} (H : List.Forall₂ (Carries q) hs ds)
    (hp : ∀ x ∈ hs, q'.payload x = q.payload x) (hm : q'.msgSize = q.msgSize) :
    List.Forall₂ (Carries q') hs ds := by
  refine ((List.forall₂_and_left _ _).mpr ⟨hp,H⟩).imp fun x m h => ?_
  unfold Carries
  rw [h.1,hm]
  exact h.2

theorem Holding.congr {p : Place θ} (H : Holding q p)
    (hp : ∀ x, p.slot = some x → q'.payload x = q.payload x) (hm : q'.msgSize = q.msgSize) :
    Holding q' p := by
  cases p with
  | idle | waiting => trivial
  | sending | urging =>
      unfold Holding
      rw [hm]
      exact H
  | copying msg size front =>
      obtain ⟨m,hf,hc⟩ := H
      refine ⟨m,hf,?_⟩
      unfold Carries
      rw [hp msg rfl,hm]
      exact hc

end frame

section steps

variable {σ ο κ θ : Type} [DecidableEq κ]
variable {w w' : World σ κ θ} {slots fs hs : List ℕ} {c : κ} {msg : ℕ}

/-- Only the place of one call and what holds of it changes. -/
theorem holding_update {q : MessageQueue} {place : κ → Place θ} {p : Place θ}
    (hp : Holding q p) (h : ∀ d, d ≠ c → Holding q (place d)) :
    ∀ d, Holding q (Function.update place c p d) := by
  intro d
  by_cases hd : d = c
  · rw [hd,Function.update_self]
    exact hp
  · rw [Function.update_of_ne hd]
    exact h d hd

/-- A call moves on without touching the queue. -/
theorem Invariant.move (H : Invariant slots w fs hs) {p : Place θ} (hc : (w.place c).slot = none)
    (hp : p.slot = none) (k : Kernel σ θ) :
    Invariant slots (World.move {w with kernel := k} c p) fs hs := by
  have hfetched : ∀ p : Place θ, p.slot = none → p.fetched = none ∧ Holding w.queue p := by
    intro p hp
    cases p <;> simp_all [Place.slot,Place.fetched,Holding]
  have hslots : Place.slot ∘ Function.update w.place c p = Place.slot ∘ w.place := by
    rw [Function.comp_update,hp,← hc]
    exact Function.update_eq_self c (Place.slot ∘ w.place)
  have hmessages : Place.fetched ∘ Function.update w.place c p = Place.fetched ∘ w.place := by
    rw [Function.comp_update,(hfetched p hp).1,← (hfetched _ hc).1]
    exact Function.update_eq_self c (Place.fetched ∘ w.place)
  obtain ⟨⟨h1,h2,h3,h4,h5,h6,h7⟩,hshort,hhold,hgen,hdist,hfail⟩ := H
  refine ⟨⟨h1,h2,h3,h4,?_,?_,h7⟩,hshort,holding_update (hfetched p hp).2 fun d _ => hhold d,hgen,?_,
    hfail⟩
  · simpa only [World.move,hslots] using h5
  · simpa only [World.move,hslots] using h6
  · simpa only [World.move,hmessages] using hdist

theorem Invariant.reserve (H : Invariant slots w fs hs) {buffer : List (BitVec 8)}
    {p : ℕ → Place θ} (hc : w.place c = .idle) (hslot : ∀ msg, (p msg).slot = some msg)
    (hfetched : ∀ msg, (p msg).fetched = none)
    (hhold : ∀ q msg, buffer.length ≤ q.msgSize.toNat → Holding q (p msg))
    (h : w.reserve c buffer p = some w') : ∃ fs hs, Invariant slots w' fs hs := by
  obtain ⟨⟨q,r⟩,hr,rfl⟩ := Option.map_eq_some_iff.mp h
  rcases reserve_some hr with ⟨e,rfl,rfl⟩ | ⟨msg,rfl,hfree,rfl,hlen⟩
  · exact ⟨fs,hs,H⟩
  · obtain ⟨⟨h1,h2,h3,h4,h5,h6,h7⟩,hshort,hold,hgen,hdist,hfail⟩ := H
    rw [hfree] at h1
    obtain ⟨fs',rfl,h1'⟩ := h1.eq_some
    have h5 : Exclusive (msg::(fs'++hs)) (Place.slot ∘ w.place) := h5
    have hnone : (Place.slot ∘ w.place) c = none := by simp [hc,Place.slot]
    have hmessages : Place.fetched ∘ Function.update w.place c (p msg) =
        Place.fetched ∘ w.place := by
      rw [Function.comp_update,hfetched,show none = (Place.fetched ∘ w.place) c by
        simp [hc,Place.fetched]]
      exact Function.update_eq_self c _
    refine ⟨fs',hs,⟨h1',h2,h3,h4,?_,fun x => ?_,h7⟩,hshort,?_,hgen,?_,hfail⟩
    · simpa only [World.move,Function.comp_update,hslot] using h5.pickUp (c := c)
    · refine (h6 x).trans ?_
      simpa only [World.move,Function.comp_update,hslot,List.cons_append] using
        (somewhere_pickUp hnone : _ ↔ Somewhere (msg::(fs'++hs)) (Place.slot ∘ w.place) x).symm
    · exact holding_update (hhold _ msg hlen) fun d _ => (hold d).congr (fun _ _ => rfl) rfl
    · simpa only [World.move,hmessages] using hdist

theorem Invariant.entry_lt (H : Invariant slots w fs hs) (hc : (w.place c).slot = some msg) :
    hs.length+1 < 2^16 := by
  have hc : (Place.slot ∘ w.place) c = some msg := hc
  have hn := (H.refines.exclusive.putBack hc).nodup
  have hsub : msg::(fs++hs) ⊆ slots := by
    intro x hx
    rw [H.refines.slots x]
    exact (somewhere_putBack hc).mp (Or.inl hx)
  have hle := (List.subperm_of_subset hn hsub).length_le
  have hshort := H.short
  simp only [List.length_cons,List.length_append] at hle
  omega

theorem entry_succ {e : BitVec 16} {n : ℕ} (h : e.toNat = n) (hn : n+1 < 2^16) :
    (e+1).toNat = n+1 := by bv_omega

/-- The slot of the call `c` becomes the slot of a message in the deque: the queue is `q`
now, and its chain `hs'`. -/
theorem Invariant.link (H : Invariant slots w fs hs) {q : MessageQueue} {hs' : List ℕ}
    {ds : List Message} {buffer : List (BitVec 8)} {k : Kernel σ θ}
    (hc : (w.place c).slot = some msg) (hf : (w.place c).fetched = none)
    (hperm : hs'.Perm (msg::hs)) (hds : ds.Perm (⟨w.linked,buffer⟩::w.deque))
    (hfree : q.free = w.queue.free) (hsize : q.msgSize = w.queue.msgSize)
    (hentry : q.entry = w.queue.entry+1) (hhead : Chain q.next q.head hs')
    (htail : q.tail = hs'.getLast?) (hnext : ∀ x, x ∉ hs → x ≠ msg → q.next x = w.queue.next x)
    (hpayload : ∀ x, x ≠ msg → q.payload x = w.queue.payload x)
    (hcontents : List.Forall₂ (Carries q) hs w.deque → List.Forall₂ (Carries q) hs' ds) :
    Invariant slots (World.move {w with
      kernel := k, queue := q, deque := ds, linked := w.linked+1} c .idle) fs hs' := by
  have hlt := H.entry_lt hc
  obtain ⟨⟨h1,h2,h3,h4,h5,h6,h7⟩,hshort,hold,hgen,hdist,hfail⟩ := H
  have hcomp : (Place.slot ∘ w.place) c = some msg := hc
  have hnot : msg ∉ fs++hs := h5.apart c msg hc
  have hall : (fs++hs').Perm (msg::(fs++hs)) := (hperm.append_left fs).trans List.perm_middle
  refine ⟨⟨?_,hhead,htail,?_,?_,fun x => ?_,?_⟩,hshort,?_,hgen,?_,hfail⟩
  · show Chain q.next q.free fs
    rw [hfree]
    refine h1.congr fun x hx => hnext x ?_ ?_
    · exact fun hxh => (List.disjoint_of_nodup_append h5.nodup) hx hxh
    · rintro rfl
      exact hnot (List.mem_append_left hs hx)
  · show q.entry.toNat = hs'.length
    rw [hentry,entry_succ h4 hlt,hperm.length_eq,List.length_cons]
  · simpa only [World.move,Function.comp_update,Place.slot] using (h5.putBack hcomp).perm hall
  · rw [h6 x,← somewhere_putBack hcomp,← somewhere_perm hall]
    simp only [World.move,Function.comp_update]
    rfl
  · refine hcontents (contents_congr h7 (fun x hx => hpayload x ?_) hsize)
    rintro rfl
    exact hnot (List.mem_append_right fs hx)
  · refine holding_update trivial fun d hd => (hold d).congr (fun x hx => hpayload x ?_) hsize
    rintro rfl
    exact hd (h5.once d c x hx hc)
  · have hcf : (Place.fetched ∘ w.place) c = none := hf
    have hmessages : Place.fetched ∘ Function.update w.place c .idle = Place.fetched ∘ w.place := by
      rw [Function.comp_update,show (Place.idle : Place θ).fetched = (Place.fetched ∘ w.place) c
        from hcf.symm]
      exact Function.update_eq_self c _
    simpa only [World.move,hmessages] using (hdist.link buffer).perm hds

theorem Invariant.unlink (H : Invariant slots w fs hs) {size : ℕ} {k : Kernel σ θ}
    (hc : (w.place c).slot = none) (hf : (w.place c).fetched = none)
    (hhead : w.queue.head = some msg) :
    ∃ hs, Invariant slots (World.move {w with
      kernel := k, queue := unlinked w.queue msg, deque := w.deque.tail} c
        (.copying msg size w.deque.head?)) fs hs := by
  obtain ⟨⟨h1,h2,h3,h4,h5,h6,h7⟩,hshort,hold,hgen,hdist,hfail⟩ := H
  rw [hhead] at h2
  obtain ⟨hs',rfl,h2'⟩ := h2.eq_some
  obtain ⟨m,ds,hm,h7',hds⟩ := List.forall₂_cons_left_iff.mp h7
  rw [hds] at hdist
  have hcomp : (Place.slot ∘ w.place) c = none := hc
  have hcf : (Place.fetched ∘ w.place) c = none := hf
  have hall : (fs++msg::hs').Perm (msg::(fs++hs')) := List.perm_middle
  have hnot : msg ∉ fs++hs' := (List.nodup_cons.mp (hall.nodup_iff.mp h5.nodup)).1
  refine ⟨hs',⟨h1,h2',?_,?_,?_,fun x => ?_,?_⟩,hshort,?_,hgen,?_,hfail⟩
  · exact tail_unlinked h3 fun h => hnot (List.mem_append_right fs h)
  · show (w.queue.entry-1).toNat = hs'.length
    rw [List.length_cons] at h4
    bv_omega
  · simpa only [World.move,Function.comp_update,Place.slot] using
      (h5.perm hall.symm).pickUp (c := c)
  · rw [h6 x,somewhere_perm hall,← somewhere_pickUp hcomp]
    simp only [World.move,Function.comp_update,Place.slot]
  · rw [hds]
    exact contents_congr h7' (fun _ _ => rfl) rfl
  · refine holding_update ⟨m,by simp [hds],hm⟩ fun d _ => (hold d).congr (fun _ _ => rfl) rfl
  · simpa only [World.move,Function.comp_update,Place.fetched,hds,List.head?_cons,List.tail_cons]
      using hdist.fetch hcf

omit [DecidableEq κ] in
theorem Invariant.fail (H : Invariant slots w fs hs) {e : ℤ} (he : e ≠ ERR_OK) :
    Invariant slots {w with failures := e::w.failures} fs hs := by
  obtain ⟨⟨h1,h2,h3,h4,h5,h6,h7⟩,hshort,hold,hgen,hdist,hfail⟩ := H
  exact ⟨⟨h1,h2,h3,h4,h5,h6,h7⟩,hshort,hold,hgen,hdist,List.forall_mem_cons.mpr ⟨he,hfail⟩⟩

theorem Invariant.received (H : Invariant slots w fs hs) {t : θ} {size : ℕ} {k : Kernel σ θ}
    {q : MessageQueue} {r : Progress (ℤ ⊕ ℕ)} (hc : (w.place c).slot = none)
    (hf : (w.place c).fetched = none) (hr : Received w.queue q r) :
    ∃ fs hs, Invariant slots (w.received c t size (k,q,r)) fs hs := by
  cases hr with
  | waiting timeout tickDelta => exact ⟨fs,hs,H.move hc rfl k⟩
  | failed e he => exact ⟨fs,hs,(H.fail he).move hc rfl k⟩
  | fetched msg hentry hhead => exact ⟨fs,H.unlink hc hf hhead⟩

/-- What `recycle` copies out begins like the message. -/
theorem genuine_of_carries {q : MessageQueue} {m : Message} (size : ℕ) (hm : Carries q msg m) :
    Receipt.Genuine ⟨some m,size,(q.recycle msg size).2⟩ := by
  obtain ⟨⟨rest,hrest⟩,hlen⟩ := hm
  refine ⟨m,rfl,?_⟩
  simp only [MessageQueue.recycle,← hrest,List.take_take]
  rw [min_eq_left (by split <;> omega),List.take_append_of_le_length (by omega)]

theorem Invariant.recycle (H : Invariant slots w fs hs) {size : ℕ} {front : Option Message}
    (hc : w.place c = .copying msg size front) :
    Invariant slots (World.move {w with
      queue := (w.queue.recycle msg size).1,
      receipts := ⟨front,size,(w.queue.recycle msg size).2⟩::w.receipts} c .idle) (msg::fs) hs := by
  obtain ⟨⟨h1,h2,h3,h4,h5,h6,h7⟩,hshort,hold,hgen,hdist,hfail⟩ := H
  have hcomp : (Place.slot ∘ w.place) c = some msg := by simp [hc,Place.slot]
  have hcf : (Place.fetched ∘ w.place) c = some front := by simp [hc,Place.fetched]
  obtain ⟨hnf,hnh⟩ : msg ∉ fs ∧ msg ∉ hs := by simpa using h5.apart c msg hcomp
  refine ⟨⟨h1.push hnf,h2.write hnh,h3,h4,?_,fun x => ?_,?_⟩,hshort,?_,?_,?_,hfail⟩
  · simpa only [World.move,Function.comp_update,Place.slot,List.cons_append] using
      h5.putBack hcomp
  · rw [h6 x,← somewhere_putBack hcomp]
    simp only [World.move,Function.comp_update,Place.slot,List.cons_append]
  · exact contents_congr h7 (fun _ _ => rfl) rfl
  · exact holding_update trivial fun d _ => (hold d).congr (fun _ _ => rfl) rfl
  · intro r hr
    rcases List.mem_cons.mp hr with rfl | hr
    · have hm := hold c
      rw [hc] at hm
      obtain ⟨m,rfl,hm⟩ := hm
      exact genuine_of_carries size hm
    · exact hgen r hr
  · simpa only [World.move,Function.comp_update,Place.fetched,List.map_cons] using
      hdist.receive hcf

omit [DecidableEq κ] in
theorem Invariant.reset (H : Invariant slots w fs hs) {fuel : ℕ} {q : MessageQueue}
    (hq : w.queue.drain fuel = some q) (k : Kernel σ θ) :
    Invariant slots {w with kernel := k, queue := {q with entry := 0}, deque := []}
      (hs.reverse++fs) [] := by
  obtain ⟨⟨h1,h2,h3,h4,h5,h6,h7⟩,hshort,hold,hgen,hdist,hfail⟩ := H
  obtain ⟨hfree,hhead,htail,hpay,hsize⟩ := (drain_spec h1 h2 h3 h5.nodup).2 q hq
  have hall : (hs.reverse++fs++[]).Perm (fs++hs) := by
    rw [List.append_nil]
    exact (hs.reverse_perm.append_right fs).trans List.perm_append_comm
  refine ⟨⟨hfree,hhead,htail,rfl,h5.perm hall,fun x => ?_,.nil⟩,hshort,fun d => ?_,hgen,hdist.clear,
    hfail⟩
  · rw [h6 x,somewhere_perm hall]
  · exact (hold d).congr (fun x _ => congrFun hpay x) hsize

omit [DecidableEq κ] in
theorem Start.invariant (H : Start slots w) : Invariant slots w slots [] := by
  have hslot : Place.slot ∘ w.place = fun _ => none := funext fun c => by simp [H.place,Place.slot]
  have hfetched : Place.fetched ∘ w.place = fun _ => none :=
    funext fun c => by simp [H.place,Place.fetched]
  refine ⟨⟨H.free,H.head,H.tail,by simp [H.entry],?_,fun x => ?_,by simp [H.deque]⟩,H.length,
    fun c => by simp [H.place,Holding],by simp [H.receipts],?_,by simp [H.failures]⟩
  · rw [hslot]
    exact .of_nodup (by simpa using H.nodup)
  · rw [hslot,somewhere_none,List.append_nil]
  · rw [hfetched,H.deque,H.receipts]
    exact ⟨.of_nodup (by simp),fun f hf => by simp [somewhere_none] at hf⟩

omit [DecidableEq κ] in
theorem Invariant.sound (H : Invariant slots w fs hs) : Sound slots w := by
  obtain ⟨R,hshort,hold,hgen,hdist,hfail⟩ := H
  refine ⟨⟨fs,hs,R⟩,hgen,(List.nodup_append.mp hdist.exclusive.nodup).1,hfail,fun fuel hfuel => ?_⟩
  have hsub : hs ⊆ slots := fun x hx => (R.slots x).mpr (Or.inl (List.mem_append_right fs hx))
  have hle := (List.subperm_of_subset (List.nodup_append.mp R.exclusive.nodup).2.1 hsub).length_le
  exact (drain_spec R.free R.head R.tail R.exclusive.nodup).1 (by omega)

end steps

section run

variable {σ ο κ θ : Type} [DecidableEq κ] [DecidableEq θ] [ListFamily σ (ListId ο) θ]
variable {o : ο} {w w' : World σ κ θ} {slots fs hs : List ℕ}

theorem Invariant.linkLast (H : Invariant slots w fs hs) {c : κ} {msg : ℕ}
    {buffer : List (BitVec 8)} (hc : w.place c = .sending msg buffer)
    (h : w.link o c (w.queue.linkLast msg buffer) (w.deque++[⟨w.linked,buffer⟩]) = some w') :
    Invariant slots w' fs (hs++[msg]) := by
  obtain ⟨⟨k,e⟩,-,rfl⟩ := Option.map_eq_some_iff.mp h
  have hx := H.refines.exclusive.apart c msg (by simp [hc,Place.slot])
  obtain ⟨-,hxh⟩ : msg ∉ fs ∧ msg ∉ hs := by simpa using hx
  have hlen : buffer.length ≤ w.queue.msgSize.toNat := by
    have := H.holding c
    rwa [hc] at this
  obtain ⟨hhead,hnext⟩ := linkLast_spec buffer H.refines.head H.refines.tail
    (List.nodup_append.mp H.refines.exclusive.nodup).2.1 hxh
  refine H.link (by simp [hc,Place.slot]) (by simp [hc,Place.fetched])
    (List.perm_append_singleton _ _) (List.perm_append_singleton _ _) (by simp) (by simp) (by simp)
    hhead (by simp) hnext (fun x hx => by simp [hx]) fun hcontents => ?_
  refine List.rel_append hcontents (.cons ⟨?_,by simpa using hlen⟩ .nil)
  simp

theorem Invariant.linkFirst (H : Invariant slots w fs hs) {c : κ} {msg : ℕ}
    {buffer : List (BitVec 8)} (hc : w.place c = .urging msg buffer)
    (h : w.link o c (w.queue.linkFirst msg buffer) (⟨w.linked,buffer⟩::w.deque) = some w') :
    Invariant slots w' fs (msg::hs) := by
  obtain ⟨⟨k,e⟩,-,rfl⟩ := Option.map_eq_some_iff.mp h
  have hx := H.refines.exclusive.apart c msg (by simp [hc,Place.slot])
  obtain ⟨-,hxh⟩ : msg ∉ fs ∧ msg ∉ hs := by simpa using hx
  have hlen : buffer.length ≤ w.queue.msgSize.toNat := by
    have := H.holding c
    rwa [hc] at this
  refine H.link (by simp [hc,Place.slot]) (by simp [hc,Place.fetched]) (.refl _) (.refl _)
    rfl rfl rfl (H.refines.head.push hxh) ?_
    (fun x _ hxm => Function.update_of_ne hxm ..) (fun x hx => Function.update_of_ne hx ..)
    fun hcontents => .cons ⟨?_,hlen⟩ hcontents
  · show (if w.queue.tail = none then some msg else w.queue.tail) = _
    rw [H.refines.tail]
    cases hs with
    | nil => rfl
    | cons y ys => simp
  · simp [MessageQueue.linkFirst,MessageQueue.setNext,MessageQueue.copyIn]

theorem Invariant.step (H : Invariant slots w fs hs) {a : Step σ κ θ}
    (h : step o w a = some w') : ∃ fs hs, Invariant slots w' fs hs := by
  cases a with
  | send c buffer =>
      simp only [MessageDeque.step] at h
      split at h
      · next hc =>
          refine H.reserve hc ?_ ?_ ?_ h
          · exact fun _ => rfl
          · exact fun _ => rfl
          · exact fun _ _ hlen => hlen
      · cases h
  | urgent c buffer =>
      simp only [MessageDeque.step] at h
      split at h
      · next hc =>
          refine H.reserve hc ?_ ?_ ?_ h
          · exact fun _ => rfl
          · exact fun _ => rfl
          · exact fun _ _ hlen => hlen
      · cases h
  | link c =>
      simp only [MessageDeque.step] at h
      split at h
      · next msg buffer hc => exact ⟨fs,_,H.linkLast hc h⟩
      · next msg buffer hc => exact ⟨fs,_,H.linkFirst hc h⟩
      · cases h
  | recv c t size timeout =>
      simp only [MessageDeque.step] at h
      split at h
      · next hc =>
          obtain ⟨⟨k,q,r⟩,hr,rfl⟩ := Option.map_eq_some_iff.mp h
          exact H.received (by simp [hc,Place.slot]) (by simp [hc,Place.fetched])
            (recv_received hr)
      · cases h
  | proceed c =>
      simp only [MessageDeque.step] at h
      split at h
      · next t size timeout tickDelta hc =>
          obtain ⟨⟨k,q,r⟩,hr,rfl⟩ := Option.map_eq_some_iff.mp h
          exact H.received (by simp [hc,Place.slot]) (by simp [hc,Place.fetched])
            (recvProceed_received hr)
      · cases h
  | recycle c =>
      simp only [MessageDeque.step] at h
      split at h
      · next msg size front hc =>
          cases h
          exact ⟨_,_,H.recycle hc⟩
      · cases h
  | control fuel cmd =>
      obtain ⟨⟨k,q,e⟩,hr,rfl⟩ := Option.map_eq_some_iff.mp h
      unfold MessageQueue.control at hr
      split_ifs at hr with hcmd
      · simp only [Option.bind_eq_bind,Option.bind_eq_some_iff,Option.some.injEq,
          Prod.mk.injEq] at hr
        obtain ⟨k₁,-,q₁,hq,k₂,-,rfl,rfl,-⟩ := hr
        refine ⟨hs.reverse++fs,[],?_⟩
        simpa only [hcmd,↓reduceIte] using H.reset hq k₂
      · cases hr
        refine ⟨fs,hs,?_⟩
        simpa only [hcmd,↓reduceIte] using H
  | system k tick =>
      cases h
      obtain ⟨⟨h1,h2,h3,h4,h5,h6,h7⟩,hshort,hold,hgen,hdist,hfail⟩ := H
      exact ⟨fs,hs,⟨h1,h2,h3,h4,h5,h6,h7⟩,hshort,hold,hgen,hdist,hfail⟩

/-- However the calls interleave, the message queue is a double-ended queue. -/
theorem message_queue_is_deque (hstart : Start slots w) (as : List (Step σ κ θ)) :
    Throughout (step o) (Sound slots) w as :=
  throughout_of_step (I := fun w => ∃ fs hs, Invariant slots w fs hs)
    (fun _ ⟨_,_,H⟩ => H.sound) (fun _ _ _ ⟨_,_,H⟩ h => H.step h) as ⟨_,_,hstart.invariant⟩

end run

/-- Two threads and an empty queue with the two slots 1 and 0. -/
def twoSlots : World (Sequences (ListId (Fin 1)) (Fin 2)) (Fin 3) (Fin 2) where
  kernel := Scheduler.startedKernel ![254,20]
  tick := 0
  queue := {
    next := fun x => if x = 1 then some 0 else none
    payload := fun _ => [0,0,0,0]
    msgSize := 4
    entry := 0
    head := none
    tail := none
    free := some 1 }
  place := fun _ => .idle
  deque := []
  linked := 0
  receipts := []
  failures := []

theorem twoSlots_start : Start [1,0] twoSlots where
  nodup := by decide
  length := by decide
  free := ⟨rfl,rfl,rfl⟩
  head := rfl
  tail := rfl
  entry := rfl
  place _ := rfl
  deque := rfl
  receipts := rfl
  failures := rfl

/-- A receiver blocks; two senders take a slot each and link it in turn, and a last receiver finds
nothing. -/
def crossing : List (Step (Sequences (ListId (Fin 1)) (Fin 2)) (Fin 3) (Fin 2)) :=
  [.recv 2 1 2 (-1),.send 0 [1,2,3],.urgent 1 [7],.link 0,.proceed 2,.link 1,.recycle 2,
    .send 0 [5],.recv 2 1 8 0,.control 3 CMD_RESET,.recv 1 1 8 0,.link 0,.recycle 2]

theorem message_queue_is_deque_crossing :
    ((crossing.foldlM (step 0) twoSlots).map fun w => (w.receipts,w.deque,w.failures)) =
      some ([⟨some ⟨1,[7]⟩,8,[7,0,0,0]⟩,⟨some ⟨0,[1,2,3]⟩,2,[1,2]⟩],[⟨2,[5]⟩],[-ERR_TIMEOUT]) ∧
    Throughout (step 0) (Sound [1,0]) twoSlots crossing :=
  ⟨by decide +kernel,message_queue_is_deque twoSlots_start crossing⟩

end CosKernel.MessageDeque

import CosKernel.IpcObjects
import CosKernel.RingBuffer
import CosKernel.SchedulerInvariant

/-!
# The mailbox as a bounded queue

Any number of calls of `send`, `send_wait` and `recv` on one mailbox. The values that
were stored and those that were fetched are recorded next to it, and for every call
that has returned what it was asked for or has returned, and whether one of its parts
has changed the mailbox. A blocked call may go on at any time and the kernel may change
in any way between two steps, which allows for more runs than the scheduler does.
-/
namespace CosKernel.MailboxFifo
open RingBuffer TransitionRuns

/-- Where a call is: not made, or blocked with the values of its local variables. -/
inductive Place (θ : Type) where
  | idle
  | sending (t : θ) (value timeout tickDelta : BitVec 32)
  | receiving (t : θ) (timeout tickDelta : BitVec 32)
  deriving DecidableEq, Repr

/-- A call of `send` or `send_wait` with its argument, or one of `recv` with what it has written
through its pointer. -/
inductive Request where
  | send (value : BitVec 32)
  | recv (result : Option (BitVec 32))
  deriving DecidableEq, Repr

/-- A call that has returned with `error`; some part of it may have changed the mailbox. -/
structure Outcome where
  request : Request
  error : ℤ
  changed : Prop

/-- The value of a call of `send` or `send_wait` that has succeeded. -/
def Outcome.sent : Outcome → Option (BitVec 32)
  | ⟨.send value,e,_⟩ => if e = ERR_OK then some value else none
  | ⟨.recv _,_,_⟩ => none

/-- The result of a call of `recv` that has succeeded. -/
def Outcome.received : Outcome → Option (Option (BitVec 32))
  | ⟨.send _,_,_⟩ => none
  | ⟨.recv result,e,_⟩ => if e = ERR_OK then some result else none

structure World (σ κ θ : Type) where
  kernel : Kernel σ θ
  tick : BitVec 32
  box : MailBox
  place : κ → Place θ
  stored : List (BitVec 32)
  fetched : List (BitVec 32)
  changed : κ → Prop
  outcomes : List Outcome

/-- The steps of the calls `κ`. -/
inductive Step (σ κ θ : Type) where
  | send (c : κ) (t : θ) (value : BitVec 32)
  | sendWait (c : κ) (t : θ) (value timeout : BitVec 32)
  | recv (c : κ) (t : θ) (timeout : BitVec 32)
  | proceed (c : κ)
  | system (kernel : Kernel σ θ) (tick : BitVec 32)

section model

variable {σ ο κ θ : Type} [DecidableEq κ] [DecidableEq θ] [ListFamily σ (ListId ο) θ]

/-- A part of the call `c` ends with its thread blocked. -/
def World.block (w : World σ κ θ) (c : κ) (k : Kernel σ θ) (m : MailBox) (p : Place θ) :
    World σ κ θ :=
  {w with
    kernel := k
    box := m
    place := Function.update w.place c p
    changed := Function.update w.changed c (w.changed c ∨ m ≠ w.box)}

/-- The call `c` returns `e`. -/
def World.finish (w : World σ κ θ) (c : κ) (k : Kernel σ θ) (m : MailBox) (r : Request) (e : ℤ) :
    World σ κ θ :=
  {w with
    kernel := k
    box := m
    place := Function.update w.place c .idle
    changed := Function.update w.changed c False
    outcomes := w.outcomes++[⟨r,e,w.changed c ∨ m ≠ w.box⟩]}

/-- The end of a part of `send_wait`. -/
def World.sent (w : World σ κ θ) (c : κ) (t : θ) (value : BitVec 32) :
    Kernel σ θ × MailBox × Progress ℤ → World σ κ θ
  | (k,m,.waiting timeout tickDelta) => w.block c k m (.sending t value timeout tickDelta)
  | (k,m,.returned e) =>
      {w.finish c k m (.send value) e with
        stored := if e = ERR_OK then w.stored++[value] else w.stored}

/-- The end of a part of `recv`. -/
def World.received (w : World σ κ θ) (c : κ) (t : θ) :
    Kernel σ θ × MailBox × Progress (ℤ × Option (BitVec 32)) → World σ κ θ
  | (k,m,.waiting timeout tickDelta) => w.block c k m (.receiving t timeout tickDelta)
  | (k,m,.returned (e,value)) =>
      {w.finish c k m (.recv value) e with
        fetched := if e = ERR_OK then w.fetched++value.toList else w.fetched}

def step (o : ο) (w : World σ κ θ) : Step σ κ θ → Option (World σ κ θ)
  | .send c t value =>
      match w.place c with
      | .idle => (MailBox.send w.kernel o w.box w.tick t value).map (w.sent c t value)
      | _ => none
  | .sendWait c t value timeout =>
      match w.place c with
      | .idle => (MailBox.sendWait w.kernel o w.box w.tick t value timeout).map (w.sent c t value)
      | _ => none
  | .recv c t timeout =>
      match w.place c with
      | .idle => (MailBox.recv w.kernel o w.box w.tick t timeout).map (w.received c t)
      | _ => none
  | .proceed c =>
      match w.place c with
      | .idle => none
      | .sending t value timeout tickDelta =>
          (MailBox.sendProceed w.kernel o w.box w.tick t value timeout tickDelta).map
            (w.sent c t value)
      | .receiving t timeout tickDelta =>
          (MailBox.recvProceed w.kernel o w.box w.tick t timeout tickDelta).map (w.received c t)
  | .system k tick => some {w with kernel := k, tick := tick}

end model

/-- The mailbox is a queue of at most `size_` values. What was stored are the values of the calls
of `send` that have succeeded, every call of `recv` that has succeeded has fetched one value, and
calls that fail leave the mailbox alone. -/
structure Fifo {σ κ θ : Type} (w : World σ κ θ) : Prop where
  sent : w.outcomes.filterMap Outcome.sent = w.stored
  received : w.outcomes.filterMap Outcome.received = w.fetched.map some
  order : w.fetched <+: w.stored
  entry : w.box.entry.toNat+w.fetched.length = w.stored.length
  bounded : w.box.entry ≤ w.box.size
  inOffset : w.box.inOffset < w.box.size
  outOffset : w.box.outOffset < w.box.size
  offsets : w.box.inOffset.toNat = (w.box.outOffset.toNat+w.box.entry.toNat)%w.box.size.toNat
  failures : ∀ a ∈ w.outcomes, a.error ≠ ERR_OK → ¬a.changed

/-- A mailbox after its constructor, and no call in progress. -/
structure Start {σ κ θ : Type} (w : World σ κ θ) : Prop where
  size : 1 ≤ w.box.size
  entry : w.box.entry = 0
  inOffset : w.box.inOffset = 0
  outOffset : w.box.outOffset = 0
  stored : w.stored = []
  fetched : w.fetched = []
  changed : ∀ c, ¬w.changed c
  outcomes : w.outcomes = []

/-- The values `xs` are in the mailbox. -/
structure Contents (m : MailBox) (xs : List (BitVec 32)) : Prop where
  ring : Ring m.size.toNat m.msgPool m.outOffset.toNat xs
  entry : m.entry.toNat = xs.length
  inOffset : m.inOffset.toNat = (m.outOffset.toNat+xs.length)%m.size.toNat

theorem advance_toNat {size offset : BitVec 16} (h : offset.toNat < size.toNat) :
    (MailBox.advance size offset).toNat = (offset.toNat+1)%size.toNat := by
  unfold MailBox.advance
  split_ifs with hle
  · have : offset.toNat+1 = size.toNat := by bv_omega
    rw [this,Nat.mod_self]
    rfl
  · rw [Nat.mod_eq_of_lt (by bv_omega)]
    bv_omega

section box

variable {m : MailBox} {xs : List (BitVec 32)}

theorem Contents.store (H : Contents m xs) (hfull : m.entry ≠ m.size) (value : BitVec 32) :
    Contents (m.store value) (xs++[value]) := by
  have hlen := H.ring.length
  have hentry := H.entry
  have hlt : xs.length < m.size.toNat := by bv_omega
  have hin : m.inOffset.toNat < m.size.toNat := by
    rw [H.inOffset]
    exact Nat.mod_lt _ (by omega)
  refine ⟨?_,?_,?_⟩
  · show Ring m.size.toNat (Function.update m.msgPool m.inOffset.toNat value) m.outOffset.toNat _
    rw [H.inOffset]
    exact H.ring.push hlt value
  · show (m.entry+1).toNat = _
    rw [List.length_append,List.length_singleton]
    bv_omega
  · show (MailBox.advance m.size m.inOffset).toNat = _
    rw [advance_toNat hin,H.inOffset,Nat.mod_add_mod,List.length_append,List.length_singleton,
      Nat.add_assoc]
    rfl

/-- The mailbox without its first value. -/
def withoutFirst (m : MailBox) : MailBox :=
  {m with outOffset := MailBox.advance m.size m.outOffset, entry := m.entry-1}

theorem Contents.fetch {x : BitVec 32} (H : Contents m (x::xs)) :
    m.msgPool m.outOffset.toNat = x ∧ Contents (withoutFirst m) xs := by
  have hadvance := advance_toNat H.ring.out_lt
  have hentry := H.entry
  rw [List.length_cons] at hentry
  refine ⟨H.ring.first,⟨?_,?_,?_⟩⟩
  · show Ring m.size.toNat m.msgPool (MailBox.advance m.size m.outOffset).toNat xs
    rw [hadvance]
    exact H.ring.pop
  · show (m.entry-1).toNat = xs.length
    bv_omega
  · show m.inOffset.toNat = ((MailBox.advance m.size m.outOffset).toNat+xs.length)%m.size.toNat
    rw [hadvance,H.inOffset,Nat.mod_add_mod,List.length_cons,Nat.add_assoc,Nat.add_comm 1]

end box

section parts

variable {σ ο θ : Type} [DecidableEq θ] [ListFamily σ (ListId ο) θ]
variable {k k' : Kernel σ θ} {o : ο} {m m' : MailBox} {tick timeout tickDelta value : BitVec 32}
variable {t : θ}

/-- How a part of `send_wait` can end. -/
inductive Sent (m : MailBox) (value : BitVec 32) : MailBox → Progress ℤ → Prop where
  | waiting (timeout tickDelta : BitVec 32) : Sent m value m (.waiting timeout tickDelta)
  | failed (e : ℤ) (he : e ≠ ERR_OK) : Sent m value m (.returned e)
  | stored (hfull : m.entry ≠ m.size) : Sent m value (m.store value) (.returned ERR_OK)

theorem sendLoop_sent {r : Progress ℤ}
    (h : MailBox.sendLoop k o m tick t value timeout tickDelta = some (k',m',r)) :
    Sent m value m' r := by
  unfold MailBox.sendLoop at h
  split_ifs at h with h₁ h₂
  · cases h
    exact .failed _ (by decide)
  · simp only [Option.bind_eq_bind,Option.bind_eq_some_iff,Option.some.injEq,Prod.mk.injEq] at h
    obtain ⟨⟨k₁,e⟩,-,s,-,k₂,-,k₃,-,-,rfl,rfl⟩ := h
    exact .waiting _ _
  · simp only [Option.bind_eq_bind] at h
    obtain ⟨⟨k₁,e⟩,-,h⟩ := Option.bind_eq_some_iff.mp h
    split at h <;>
      · obtain ⟨k₂,-,h⟩ := Option.bind_eq_some_iff.mp h
        cases h
        exact .stored h₁

theorem sendWait_sent {r : Progress ℤ}
    (h : MailBox.sendWait k o m tick t value timeout = some (k',m',r)) : Sent m value m' r := by
  unfold MailBox.sendWait at h
  split_ifs at h with h₁
  · cases h
    exact .failed _ (by decide)
  · exact sendLoop_sent h

theorem sendProceed_sent {r : Progress ℤ}
    (h : MailBox.sendProceed k o m tick t value timeout tickDelta = some (k',m',r)) :
    Sent m value m' r := by
  unfold MailBox.sendProceed at h
  split_ifs at h with h₁
  · cases h
    exact .failed _ h₁
  · exact sendLoop_sent h

/-- How a part of `recv` can end. -/
inductive Received (m : MailBox) : MailBox → Progress (ℤ × Option (BitVec 32)) → Prop where
  | waiting (timeout tickDelta : BitVec 32) : Received m m (.waiting timeout tickDelta)
  | failed (e : ℤ) (he : e ≠ ERR_OK) : Received m m (.returned (e,none))
  | fetched (hentry : m.entry ≠ 0) : Received m (withoutFirst m)
      (.returned (ERR_OK,some (m.msgPool m.outOffset.toNat)))

theorem recvLoop_received {r : Progress (ℤ × Option (BitVec 32))}
    (h : MailBox.recvLoop k o m tick t timeout tickDelta = some (k',m',r)) : Received m m' r := by
  unfold MailBox.recvLoop at h
  split_ifs at h with h₁ h₂ h₃
  · cases h
    exact .failed _ (by decide)
  · simp only [Option.bind_eq_bind,Option.bind_eq_some_iff,Option.some.injEq,Prod.mk.injEq] at h
    obtain ⟨k₁,-,k₂,-,k₃,-,-,rfl,rfl⟩ := h
    exact .waiting _ _
  · cases h
    exact .fetched h₁
  · simp only [Option.bind_eq_bind,Option.bind_eq_some_iff,Option.some.injEq,Prod.mk.injEq] at h
    obtain ⟨u,-,s,-,⟨k₁,e⟩,-,k₂,-,-,rfl,rfl⟩ := h
    exact .fetched h₁

theorem recv_received {r : Progress (ℤ × Option (BitVec 32))}
    (h : MailBox.recv k o m tick t timeout = some (k',m',r)) : Received m m' r := by
  unfold MailBox.recv at h
  split_ifs at h with h₁
  · cases h
    exact .failed _ (by decide)
  · exact recvLoop_received h

theorem recvProceed_received {r : Progress (ℤ × Option (BitVec 32))}
    (h : MailBox.recvProceed k o m tick t timeout tickDelta = some (k',m',r)) :
    Received m m' r := by
  unfold MailBox.recvProceed at h
  split_ifs at h with h₁
  · cases h
    exact .failed _ h₁
  · exact recvLoop_received h

end parts

/-- What was stored and not fetched is in the mailbox, and no call in progress has
changed it. -/
structure Invariant {σ κ θ : Type} (w : World σ κ θ) (xs : List (BitVec 32)) : Prop where
  contents : Contents w.box xs
  stored : w.stored = w.fetched++xs
  sends : w.outcomes.filterMap Outcome.sent = w.stored
  receives : w.outcomes.filterMap Outcome.received = w.fetched.map some
  unchanged : ∀ c, ¬w.changed c
  failures : ∀ a ∈ w.outcomes, a.error ≠ ERR_OK → ¬a.changed

section run

variable {σ ο κ θ : Type} {w w' : World σ κ θ} {xs : List (BitVec 32)}

theorem Start.invariant (H : Start w) : Invariant w [] := by
  refine ⟨⟨.empty ?_,by simp [H.entry],by simp [H.inOffset,H.outOffset]⟩,
    by simp [H.stored,H.fetched],by simp [H.outcomes,H.stored],by simp [H.outcomes,H.fetched],
    H.changed,by simp [H.outcomes]⟩
  have := H.size
  rw [H.outOffset]
  bv_omega

theorem Invariant.fifo (H : Invariant w xs) : Fifo w := by
  obtain ⟨⟨hring,hentry,hin⟩,hstored,hsent,hreceived,-,hfail⟩ := H
  have hlen := hring.length
  have hout := hring.out_lt
  refine ⟨hsent,hreceived,⟨xs,hstored.symm⟩,?_,?_,?_,?_,?_,hfail⟩
  · rw [hstored,List.length_append,hentry,Nat.add_comm]
  · bv_omega
  · rw [BitVec.lt_def,hin]
    exact Nat.mod_lt _ (by omega)
  · exact hout
  · rw [hentry,hin]

variable [DecidableEq κ] {c : κ} {t : θ} {k : Kernel σ θ}

theorem Invariant.block (H : Invariant w xs) (p : Place θ) :
    Invariant (w.block c k w.box p) xs := by
  refine ⟨H.contents,H.stored,H.sends,H.receives,fun d => ?_,H.failures⟩
  by_cases hd : d = c
  · simpa [World.block,hd] using H.unchanged c
  · simpa [World.block,hd] using H.unchanged d

/-- A call returns; what it has stored and fetched is what it tells, and if it fails, the mailbox
has not changed. -/
theorem Invariant.finish (H : Invariant w xs) {m : MailBox} {r : Request} {e : ℤ}
    {ys stored fetched : List (BitVec 32)} (hcontents : Contents m ys)
    (hstored : stored = fetched++ys)
    (hsent : stored = w.stored++(Outcome.sent ⟨r,e,w.changed c ∨ m ≠ w.box⟩).toList)
    (hreceived : fetched.map some =
      w.fetched.map some++(Outcome.received ⟨r,e,w.changed c ∨ m ≠ w.box⟩).toList)
    (he : e = ERR_OK ∨ m = w.box) :
    Invariant {w.finish c k m r e with stored := stored, fetched := fetched} ys := by
  refine ⟨hcontents,hstored,?_,?_,fun d => ?_,fun a ha => ?_⟩
  · simp only [World.finish,List.filterMap_append,H.sends,hsent,
      List.filterMap_eq_flatMap_toList Outcome.sent [_],List.flatMap_singleton]
  · simp only [World.finish,List.filterMap_append,H.receives,hreceived,
      List.filterMap_eq_flatMap_toList Outcome.received [_],List.flatMap_singleton]
  · by_cases hd : d = c
    · simp [World.finish,hd]
    · simpa [World.finish,hd] using H.unchanged d
  · rcases List.mem_append.mp ha with ha | ha
    · exact H.failures a ha
    · obtain rfl := List.mem_singleton.mp ha
      intro hne
      simpa [H.unchanged c] using he.resolve_left hne

theorem Invariant.sent (H : Invariant w xs) {m : MailBox} {value : BitVec 32} {r : Progress ℤ}
    (hr : Sent w.box value m r) : ∃ ys, Invariant (w.sent c t value (k,m,r)) ys := by
  cases hr with
  | waiting timeout tickDelta => exact ⟨xs,H.block _⟩
  | failed e he =>
      refine ⟨xs,?_⟩
      simp only [World.sent,he,↓reduceIte]
      exact H.finish H.contents H.stored (by simp [Outcome.sent,he])
        (by simp [World.finish,Outcome.received]) (Or.inr rfl)
  | stored hfull =>
      refine ⟨xs++[value],?_⟩
      simp only [World.sent,↓reduceIte]
      refine H.finish (H.contents.store hfull value) ?_ (by simp [Outcome.sent])
        (by simp [World.finish,Outcome.received]) (Or.inl rfl)
      rw [H.stored,List.append_assoc]
      rfl

theorem Invariant.received (H : Invariant w xs) {m : MailBox}
    {r : Progress (ℤ × Option (BitVec 32))} (hr : Received w.box m r) :
    ∃ ys, Invariant (w.received c t (k,m,r)) ys := by
  cases hr with
  | waiting timeout tickDelta => exact ⟨xs,H.block _⟩
  | failed e he =>
      refine ⟨xs,?_⟩
      simp only [World.received,he,↓reduceIte]
      exact H.finish H.contents H.stored (by simp [World.finish,Outcome.sent])
        (by simp [Outcome.received,he]) (Or.inr rfl)
  | fetched hentry =>
      cases xs with
      | nil =>
          have := H.contents.entry
          exact absurd (BitVec.eq_of_toNat_eq this) hentry
      | cons x ys =>
          obtain ⟨hx,hcontents⟩ := H.contents.fetch
          refine ⟨ys,?_⟩
          simp only [World.received,↓reduceIte,hx,Option.toList_some]
          refine H.finish hcontents ?_ (by simp [World.finish,Outcome.sent])
            (by simp [Outcome.received]) (Or.inl rfl)
          show w.stored = w.fetched++[x]++ys
          rw [H.stored,List.append_assoc]
          rfl

variable [DecidableEq θ] [ListFamily σ (ListId ο) θ] {o : ο}

theorem Invariant.step (H : Invariant w xs) {a : Step σ κ θ} (h : step o w a = some w') :
    ∃ ys, Invariant w' ys := by
  cases a with
  | send c t value =>
      simp only [MailboxFifo.step] at h
      split at h
      · obtain ⟨⟨k,m,r⟩,hr,rfl⟩ := Option.map_eq_some_iff.mp h
        exact H.sent (sendWait_sent hr)
      · cases h
  | sendWait c t value timeout =>
      simp only [MailboxFifo.step] at h
      split at h
      · obtain ⟨⟨k,m,r⟩,hr,rfl⟩ := Option.map_eq_some_iff.mp h
        exact H.sent (sendWait_sent hr)
      · cases h
  | recv c t timeout =>
      simp only [MailboxFifo.step] at h
      split at h
      · obtain ⟨⟨k,m,r⟩,hr,rfl⟩ := Option.map_eq_some_iff.mp h
        exact H.received (recv_received hr)
      · cases h
  | proceed c =>
      simp only [MailboxFifo.step] at h
      split at h
      · cases h
      · obtain ⟨⟨k,m,r⟩,hr,rfl⟩ := Option.map_eq_some_iff.mp h
        exact H.sent (sendProceed_sent hr)
      · obtain ⟨⟨k,m,r⟩,hr,rfl⟩ := Option.map_eq_some_iff.mp h
        exact H.received (recvProceed_received hr)
  | system k tick =>
      cases h
      exact ⟨xs,H.contents,H.stored,H.sends,H.receives,H.unchanged,H.failures⟩

/-- However the calls interleave, the mailbox is a bounded queue. -/
theorem mailbox_is_bounded_fifo (hstart : Start w) (as : List (Step σ κ θ)) :
    Throughout (step o) Fifo w as :=
  throughout_of_step (I := fun w => ∃ xs, Invariant w xs) (fun _ ⟨_,H⟩ => H.fifo)
    (fun _ _ _ ⟨_,H⟩ h => H.step h) as ⟨_,hstart.invariant⟩

end run

/-- Three threads and a mailbox for two values. -/
def twoCells : World (Sequences (ListId (Fin 1)) (Fin 3)) (Fin 3) (Fin 3) where
  kernel := Scheduler.startedKernel ![254,20,20]
  tick := 0
  box := ⟨fun _ => 0,2,0,0,0⟩
  place := fun _ => .idle
  stored := []
  fetched := []
  changed := fun _ => False
  outcomes := []

theorem twoCells_start : Start twoCells where
  size := by decide
  entry := rfl
  inOffset := rfl
  outOffset := rfl
  stored := rfl
  fetched := rfl
  changed _ := id
  outcomes := rfl

/-- A receiver blocks on the empty mailbox until a value has been stored. Then a sender blocks on
the full one until a receiver has made room, and the ring wraps around; the last call of `send`
fails. -/
def aroundTheRing : List (Step (Sequences (ListId (Fin 1)) (Fin 3)) (Fin 3) (Fin 3)) :=
  [.recv 2 2 (-1),.send 1 1 7,.proceed 2,.send 1 1 8,.send 1 1 9,.sendWait 1 1 10 (-1),
    .recv 2 2 0,.proceed 1,.send 2 2 11,.recv 2 2 0]

theorem mailbox_is_bounded_fifo_aroundTheRing :
    ((aroundTheRing.foldlM (step 0) twoCells).map fun w =>
      (w.stored,w.fetched,w.outcomes.map fun a => (a.request,a.error))) =
      some ([7,8,9,10],[7,8,9],[(.send 7,0),(.recv (some 7),0),(.send 8,0),(.send 9,0),
        (.recv (some 8),0),(.send 10,0),(.send 11,-ERR_FULL),(.recv (some 9),0)]) ∧
    Throughout (step 0) Fifo twoCells aroundTheRing :=
  ⟨by decide +kernel,mailbox_is_bounded_fifo twoCells_start aroundTheRing⟩

end CosKernel.MailboxFifo

import CosKernel.WaitQueues

/-!
# Wake-ups of the senders of a mailbox

Threads send to one mailbox and receive from it, with any timeouts, and the timers of
blocked threads expire. A sender that finds the mailbox full waits in the sender list;
each `recv` that makes room resumes the thread at the head of that list. A thread whose
timer has expired stays in the list, though, and the wake-up that reaches it is lost.

While a sender is blocked, there are not more free cells than resumed senders that have
not tested the mailbox again, as long as each `recv` finds a blocked sender at the head
of the list, or enough senders are already on their way.
-/
namespace CosKernel.MailboxSenders
open Kernel MailBox MailboxFifo TransitionRuns

/-- Where a thread is: in no call, or blocked in one with its local variables. -/
inductive Place where
  | idle
  | sending (value timeout tickDelta : BitVec 32)
  | receiving (timeout tickDelta : BitVec 32)
  deriving DecidableEq, Repr

def Place.isSending : Place → Bool
  | .sending _ _ _ => true
  | .idle | .receiving _ _ => false

/-- The mailbox with its threads. A thread is `resumed` from the `recv` that resumes it
inside `send_wait` to its next test of the mailbox. -/
structure World (ο θ : Type) where
  kernel : IdealKernel ο θ
  tick : BitVec 32
  box : MailBox
  place : θ → Place
  resumed : θ → Bool

inductive Call (θ : Type) where
  | sendWait (t : θ) (value timeout : BitVec 32)
  | recv (t : θ) (timeout : BitVec 32)
  | proceed (t : θ)
  | expire (t : θ)
  | tick
  deriving DecidableEq, Repr

section model

variable {ο θ : Type}

/-- The thread is suspended inside `send_wait`. -/
def World.Blocked (w : World ο θ) (t : θ) : Prop :=
  (w.place t).isSending = true ∧ (w.kernel.thread t).stat = .suspend

instance (w : World ο θ) (t : θ) : Decidable (w.Blocked t) := inferInstanceAs (Decidable (_ ∧ _))

def World.free (w : World ο θ) : ℕ := w.box.size.toNat-w.box.entry.toNat

def World.resumedCount [Fintype θ] (w : World ο θ) : ℕ :=
  (Finset.univ.filter fun t => w.resumed t = true).card

variable [DecidableEq θ]

/-- The end of a part of `send_wait`. -/
def World.sent (w : World ο θ) (t : θ) (value : BitVec 32) (k : IdealKernel ο θ) (m : MailBox)
    (r : Progress ℤ) : World ο θ :=
  {w with
    kernel := k
    box := m
    place := Function.update w.place t (match r with
      | .waiting timeout tickDelta => .sending value timeout tickDelta
      | .returned _ => .idle)
    resumed := Function.update w.resumed t false}

/-- The end of a part of `recv`, which may have resumed a blocked sender. -/
def World.received (w : World ο θ) (t : θ) (k : IdealKernel ο θ) (m : MailBox)
    (r : Progress (ℤ × Option (BitVec 32))) : World ο θ :=
  {w with
    kernel := k
    box := m
    place := Function.update w.place t (match r with
      | .waiting timeout tickDelta => .receiving timeout tickDelta
      | .returned _ => .idle)
    resumed := fun u => w.resumed u || decide (w.Blocked u ∧ (k.thread u).stat = .ready)}

variable [DecidableEq ο]

def call (o : ο) (w : World ο θ) : Call θ → Option (World ο θ)
  | .sendWait t value timeout => do
      let (k,m,r) ← MailBox.sendWait w.kernel o w.box w.tick t value timeout
      some (w.sent t value k m r)
  | .recv t timeout => do
      let (k,m,r) ← MailBox.recv w.kernel o w.box w.tick t timeout
      some (w.received t k m r)
  | .proceed t =>
      match w.place t with
      | .idle => none
      | .sending value timeout tickDelta => do
          let (k,m,r) ← MailBox.sendProceed w.kernel o w.box w.tick t value timeout tickDelta
          some (w.sent t value k m r)
      | .receiving timeout tickDelta => do
          let (k,m,r) ← MailBox.recvProceed w.kernel o w.box w.tick t timeout tickDelta
          some (w.received t k m r)
  | .expire t => do
      let k ← w.kernel.expire t
      some {w with kernel := k}
  | .tick => some {w with tick := w.tick+1}

end model

variable {ο θ : Type}

/-- Ready threads act, and the timers of blocked threads expire. -/
def Legal (w : World ο θ) : Call θ → Prop
  | .sendWait t _ _ | .recv t _ => w.place t = .idle ∧ (w.kernel.thread t).stat = .ready
  | .proceed t => w.place t ≠ .idle ∧ (w.kernel.thread t).stat = .ready
  | .expire t => w.place t ≠ .idle ∧ (w.kernel.thread t).timerActive = true
  | .tick => True

/-- The call takes a value out of the mailbox. -/
def Fetches (w : World ο θ) : Call θ → Prop
  | .recv _ _ => w.box.entry ≠ 0
  | .proceed t => (w.place t).isSending = false ∧ (w.kernel.thread t).error = ERR_OK ∧
      w.box.entry ≠ 0
  | .sendWait _ _ _ | .expire _ | .tick => False

variable [Fintype θ]

/-- While a sender is blocked, every free cell has a resumed sender on its way to it. -/
def NoLostWakeup (w : World ο θ) : Prop :=
  (∃ t, w.Blocked t) → w.free ≤ w.resumedCount

/-- A `recv` that makes room finds a blocked sender, or there is none, or the resumed
senders suffice for the new free cell too. -/
def Served (o : ο) (w : World ο θ) : Prop :=
  (∃ u ∈ (w.kernel.lists.get (.sender o)).head?, w.Blocked u) ∨
    (∀ t, ¬w.Blocked t) ∨ w.free+1 ≤ w.resumedCount

/-- No call has been made yet. -/
structure Start (w : World ο θ) : Prop where
  bounded : w.box.entry ≤ w.box.size
  place : ∀ t, w.place t = .idle
  resumed : ∀ t, w.resumed t = false

structure Invariant (o : ο) (w : World ο θ) : Prop where
  counted : NoLostWakeup w
  bounded : w.box.entry.toNat ≤ w.box.size.toNat
  blocked : ∀ t, w.Blocked t →
    t ∈ w.kernel.lists.get (.sender o) ∧ (w.kernel.thread t).error = ERR_OK
  resumed : ∀ t, w.resumed t = true → (w.place t).isSending = true ∧
    (w.kernel.thread t).stat = .ready ∧ (w.kernel.thread t).error = ERR_OK

variable {o : ο} {w w' : World ο θ} {t : θ}

omit [Fintype θ] in
theorem not_blocked (h : (w.kernel.thread t).stat = .ready) : ¬w.Blocked t := by
  simp [World.Blocked,h]

theorem Start.invariant (H : Start w) : Invariant o w := by
  have hb : ∀ t, ¬w.Blocked t := fun t => by simp [World.Blocked,H.place,Place.isSending]
  refine ⟨fun ⟨t,ht⟩ => absurd ht (hb t),H.bounded,fun t ht => absurd ht (hb t),fun t ht => ?_⟩
  simp [H.resumed t] at ht

theorem NoLostWakeup.of_full (h : w.box.entry = w.box.size) : NoLostWakeup w := by
  intro _
  simp [World.free,h]

section counting

variable {f g : θ → Bool}

def count (f : θ → Bool) : ℕ := (Finset.univ.filter fun t => f t = true).card

theorem resumedCount_eq (w : World ο θ) : w.resumedCount = count w.resumed := rfl

variable [DecidableEq θ]

/-- At most the flag of `t` is cleared. -/
theorem count_clear (f : θ → Bool) (t : θ) :
    count f ≤ count (Function.update f t false)+1 := by
  have hsub : (Finset.univ.filter fun u => f u = true) ⊆
      insert t (Finset.univ.filter fun u => Function.update f t false u = true) := by
    intro u hu
    by_cases hut : u = t
    · simp [hut]
    · simpa [hut] using hu
  exact (Finset.card_le_card hsub).trans (Finset.card_insert_le _ _)

theorem count_set {u : θ} (hu : f u = false) (hg : ∀ v, g v = (f v || decide (v = u))) :
    count g = count f+1 := by
  have hset : (Finset.univ.filter fun v => g v = true) =
      insert u (Finset.univ.filter fun v => f v = true) := by
    ext v
    simp [hg,or_comm]
  unfold count
  rw [hset,Finset.card_insert_of_notMem (by simp [hu])]

end counting

variable [DecidableEq θ]

/-- What a part of `send_wait` of `t` has to do for the invariant. -/
theorem Invariant.sent (H : Invariant o w) {value : BitVec 32} {k : IdealKernel ο θ} {m : MailBox}
    {r : Progress ℤ} (hcounted : NoLostWakeup (w.sent t value k m r))
    (hbounded : m.entry.toNat ≤ m.size.toNat)
    (hasleep : ∀ u, u ≠ t → (k.thread u).stat = .suspend → (w.kernel.thread u).stat = .suspend)
    (hready : ∀ u, u ≠ t → (w.kernel.thread u).stat = .ready → (k.thread u).stat = .ready)
    (herror : ∀ u, u ≠ t → (k.thread u).error = (w.kernel.thread u).error)
    (hlist : ∀ u ∈ w.kernel.lists.get (.sender o), u ∈ k.lists.get (.sender o))
    (hown : (w.sent t value k m r).Blocked t →
      t ∈ k.lists.get (.sender o) ∧ (k.thread t).error = ERR_OK) :
    Invariant o (w.sent t value k m r) := by
  refine ⟨hcounted,hbounded,fun u hu => ?_,fun u hu => ?_⟩
  · by_cases hut : u = t
    · subst hut
      exact hown hu
    · simp only [World.Blocked,World.sent,Function.update_of_ne hut] at hu
      obtain ⟨hin,he⟩ := H.blocked u ⟨hu.1,hasleep u hut hu.2⟩
      exact ⟨hlist u hin,(herror u hut).trans he⟩
  · by_cases hut : u = t
    · simp [World.sent,hut] at hu
    · simp only [World.sent,Function.update_of_ne hut] at hu ⊢
      obtain ⟨hp,hs,he⟩ := H.resumed u hu
      exact ⟨hp,hready u hut hs,(herror u hut).trans he⟩

/-- A value is stored: one free cell less, and perhaps one resumed sender less. -/
theorem Invariant.counted_store (H : Invariant o w) {value : BitVec 32} {k : IdealKernel ο θ}
    (hfree : w.box.entry ≠ w.box.size)
    (hasleep : ∀ u, u ≠ t → (k.thread u).stat = .suspend → (w.kernel.thread u).stat = .suspend) :
    (w.box.store value).entry.toNat ≤ (w.box.store value).size.toNat ∧
      NoLostWakeup (w.sent t value k (w.box.store value) (.returned ERR_OK)) := by
  have hb := H.bounded
  have hentry : (w.box.entry+1).toNat = w.box.entry.toNat+1 := by bv_omega
  have hlt : w.box.entry.toNat < w.box.size.toNat := by bv_omega
  refine ⟨by simp only [MailBox.store]; omega,?_⟩
  rintro ⟨u,hu⟩
  have hut : u ≠ t := by
    rintro rfl
    simp [World.Blocked,World.sent,Place.isSending] at hu
  simp only [World.Blocked,World.sent,Function.update_of_ne hut] at hu
  have hcount := H.counted ⟨u,hu.1,hasleep u hut hu.2⟩
  have hclear := count_clear w.resumed t
  rw [resumedCount_eq] at hcount ⊢
  simp only [World.free,World.sent,MailBox.store] at hcount ⊢
  omega

theorem Invariant.sends (H : Invariant o w) {value : BitVec 32} {k : IdealKernel ο θ} {m : MailBox}
    {r : Progress ℤ} (hs : Sends w.kernel o w.box t value k m r) :
    Invariant o (w.sent t value k m r) := by
  cases hs with
  | full hfull hk =>
      refine H.sent (NoLostWakeup.of_full hfull) H.bounded (fun u _ h => (hk.stat u).symm.trans h)
        (fun u _ h => (hk.stat u).trans h) hk.error (fun u hu => ?_) ?_
      · rwa [hk.queue (.sender o) trivial]
      · intro hb
        simp [World.Blocked,World.sent,Place.isSending] at hb
  | blocked timeout tickDelta hfull hk =>
      refine H.sent (NoLostWakeup.of_full hfull) H.bounded
        (fun u hu h => (hk.others u hu).1.symm.trans h) (fun u hu h => (hk.others u hu).1.trans h)
        (fun u hu => (hk.others u hu).2) (fun u hu => ?_) (fun _ => ⟨?_,hk.error⟩)
      · rw [hk.own]
        exact List.mem_append_left _ hu
      · rw [hk.own]
        exact List.mem_append_right _ (List.mem_singleton_self t)
  | alone hfree hq =>
      obtain ⟨hb,hcounted⟩ := H.counted_store (t := t) (k := w.kernel) hfree fun _ _ h => h
      refine H.sent hcounted hb (fun _ _ h => h) (fun _ _ h => h) (fun _ _ => rfl) (fun _ h => h) ?_
      intro hb
      simp [World.Blocked,World.sent,Place.isSending] at hb
  | @waking k u us hfree hq hk =>
      have hasleep : ∀ v, v ≠ t → (k.thread v).stat = .suspend →
          (w.kernel.thread v).stat = .suspend := fun v _ hv => (hk.asleep_before hv).2
      obtain ⟨hb,hcounted⟩ := H.counted_store (t := t) (k := k) hfree hasleep
      refine H.sent hcounted hb hasleep (fun v _ hv => hk.ready_after hv) (fun v _ => hk.error v)
        (fun v hv => ?_) ?_
      · rwa [hk.queue (.sender o) trivial (by simp)]
      · intro hb
        simp [World.Blocked,World.sent,Place.isSending] at hb

/-- A thread leaves `send_wait` after a timeout, without a test of the mailbox. -/
theorem Invariant.giveUp (H : Invariant o w) {value : BitVec 32} {e : ℤ}
    (ht : (w.kernel.thread t).stat = .ready) (he : (w.kernel.thread t).error ≠ ERR_OK) :
    Invariant o (w.sent t value w.kernel w.box (.returned e)) := by
  have hres : w.resumed t = false := by
    by_contra h
    exact he (H.resumed t (by simpa using h)).2.2
  have hresumed : Function.update w.resumed t false = w.resumed := by
    rw [← hres]
    exact Function.update_eq_self t w.resumed
  have hb : ∀ u, (w.sent t value w.kernel w.box (.returned e)).Blocked u ↔ w.Blocked u := by
    intro u
    by_cases hu : u = t
    · subst hu
      simp [World.Blocked,World.sent,ht]
    · simp [World.Blocked,World.sent,hu]
  refine ⟨?_,H.bounded,fun u hu => ?_,fun u hu => ?_⟩
  · rintro ⟨u,hu⟩
    rw [hb u] at hu
    rw [resumedCount_eq]
    simp only [World.sent,hresumed]
    exact H.counted ⟨u,hu⟩
  · rw [hb u] at hu
    exact H.blocked u hu
  · simp only [World.sent,hresumed] at hu ⊢
    have hut : u ≠ t := by
      rintro rfl
      simp [hres] at hu
    rw [Function.update_of_ne hut]
    exact H.resumed u hu

/-- What a part of `recv` of `t` has to do for the invariant, when the blocked senders
and those that are ready stay as they are. -/
theorem Invariant.received (H : Invariant o w) {k : IdealKernel ο θ} {m : MailBox}
    {r : Progress (ℤ × Option (BitVec 32))} (ht : (w.kernel.thread t).stat = .ready)
    (hp : (w.place t).isSending = false)
    (hcounted : NoLostWakeup (w.received t k m r)) (hbounded : m.entry.toNat ≤ m.size.toNat)
    (hasleep : ∀ u, u ≠ t → (k.thread u).stat = .suspend → (w.kernel.thread u).stat = .suspend ∧
      (u ∈ w.kernel.lists.get (.sender o) → u ∈ k.lists.get (.sender o)))
    (hready : ∀ u, u ≠ t → (w.kernel.thread u).stat = .ready → (k.thread u).stat = .ready)
    (herror : ∀ u, u ≠ t → (k.thread u).error = (w.kernel.thread u).error) :
    Invariant o (w.received t k m r) := by
  have hplace : ((w.received t k m r).place t).isSending = false := by
    cases r <;> simp [World.received,Place.isSending]
  refine ⟨hcounted,hbounded,fun u hu => ?_,fun u hu => ?_⟩
  · have hut : u ≠ t := by
      rintro rfl
      simp [World.Blocked,hplace] at hu
    simp only [World.Blocked,World.received,Function.update_of_ne hut] at hu
    obtain ⟨hs,hlist⟩ := hasleep u hut hu.2
    obtain ⟨hin,he⟩ := H.blocked u ⟨hu.1,hs⟩
    exact ⟨hlist hin,(herror u hut).trans he⟩
  · simp only [World.received,Bool.or_eq_true,decide_eq_true_eq] at hu
    rcases hu with hu | ⟨hu,hs⟩
    · obtain ⟨hp',hs,he⟩ := H.resumed u hu
      have hut : u ≠ t := by
        rintro rfl
        simp [hp] at hp'
      simp only [World.received,Function.update_of_ne hut]
      exact ⟨hp',hready u hut hs,(herror u hut).trans he⟩
    · have hut : u ≠ t := by
        rintro rfl
        exact not_blocked ht hu
      simp only [World.received,Function.update_of_ne hut]
      exact ⟨hu.1,hs,(herror u hut).trans (H.blocked u hu).2⟩

omit [Fintype θ] in
theorem received_blocked {k : IdealKernel ο θ} {m : MailBox}
    {r : Progress (ℤ × Option (BitVec 32))} {u : θ} :
    (w.received t k m r).Blocked u ↔
      u ≠ t ∧ (w.place u).isSending = true ∧ (k.thread u).stat = .suspend := by
  by_cases hut : u = t
  · subst hut
    cases r <;> simp [World.Blocked,World.received,Place.isSending]
  · simp [World.Blocked,World.received,hut]

/-- Nobody is resumed, and the mailbox has not changed. -/
theorem Invariant.counted_same (H : Invariant o w) {k : IdealKernel ο θ}
    {r : Progress (ℤ × Option (BitVec 32))}
    (hstat : ∀ u, u ≠ t → (k.thread u).stat = (w.kernel.thread u).stat) :
    NoLostWakeup (w.received t k w.box r) := by
  rintro ⟨u,hu⟩
  obtain ⟨hut,hp,hs⟩ := received_blocked.mp hu
  have hcount := H.counted ⟨u,hp,(hstat u hut).symm.trans hs⟩
  refine hcount.trans (Finset.card_le_card fun v hv => ?_)
  simp only [Finset.mem_filter,Finset.mem_univ,true_and] at hv ⊢
  simp [World.received,hv]

omit [DecidableEq θ] in
theorem Invariant.free_withoutFirst (H : Invariant o w) (hentry : w.box.entry ≠ 0) :
    w.box.size.toNat-(withoutFirst w.box).entry.toNat = w.free+1 := by
  have hb := H.bounded
  have : (w.box.entry-1).toNat+1 = w.box.entry.toNat := by bv_omega
  simp only [withoutFirst,World.free]
  omega

omit [Fintype θ] in
/-- Which threads count as resumed when the thread `u` at the head of the list is woken. -/
theorem resumed_waking {k : IdealKernel ο θ} {u : θ} (hk : Wakes w.kernel k (.sender o) u) (v : θ) :
    (w.Blocked v ∧ (k.thread v).stat = .ready) ↔ v = u ∧ w.Blocked u := by
  constructor
  · rintro ⟨hv,hs⟩
    have hvu : v = u := by
      by_contra hvu
      cases hs.symm.trans ((hk.others v hvu).trans hv.2)
    exact ⟨hvu,hvu ▸ hv⟩
  · rintro ⟨rfl,hv⟩
    exact ⟨hv,hk.asleep hv.2⟩

theorem Invariant.counted_fetch (H : Invariant o w) {k : IdealKernel ο θ} {u : θ} {us : List θ}
    {value : BitVec 32} (hentry : w.box.entry ≠ 0) (hq : w.kernel.lists.get (.sender o) = u::us)
    (hk : Wakes w.kernel k (.sender o) u) (hserved : Served o w) :
    NoLostWakeup (w.received t k (withoutFirst w.box) (.returned (ERR_OK,some value))) := by
  rintro ⟨v,hv⟩
  obtain ⟨-,hp,hs⟩ := received_blocked.mp hv
  have hcount := H.counted ⟨v,hp,(hk.asleep_before hs).2⟩
  have hfree := H.free_withoutFirst hentry
  simp only [World.free,World.received] at hfree ⊢
  rw [show (withoutFirst w.box).size = w.box.size from rfl,hfree,resumedCount_eq]
  simp only [resumed_waking hk]
  rw [resumedCount_eq] at hcount
  rcases hserved with ⟨x,hx,hb⟩ | hnone | hmore
  · obtain rfl : u = x := by simpa [hq] using hx
    have hres : w.resumed u = false := by
      by_contra hres
      cases hb.2.symm.trans (H.resumed u (by simpa using hres)).2.1
    rw [count_set hres fun y => by simp [hb]]
    simp only [World.free] at hcount
    omega
  · exact absurd ⟨hp,(hk.asleep_before hs).2⟩ (hnone v)
  · rw [resumedCount_eq] at hmore
    refine hmore.trans (Finset.card_le_card fun y hy => ?_)
    simp only [Finset.mem_filter,Finset.mem_univ,true_and] at hy ⊢
    simp [hy]

theorem Invariant.receives (H : Invariant o w) {k : IdealKernel ο θ} {m : MailBox}
    {r : Progress (ℤ × Option (BitVec 32))} (ht : (w.kernel.thread t).stat = .ready)
    (hp : (w.place t).isSending = false) (hr : Receives w.kernel o w.box t k m r)
    (hserved : w.box.entry ≠ 0 → Served o w) : Invariant o (w.received t k m r) := by
  cases hr with
  | empty hempty hk =>
      refine H.received ht hp (H.counted_same fun u _ => hk.stat u) H.bounded
        (fun u _ hu => ⟨(hk.stat u).symm.trans hu,?_⟩) (fun u _ hu => (hk.stat u).trans hu) hk.error
      rw [hk.queue (.sender o) trivial]
      exact id
  | blocked timeout tickDelta hempty hk =>
      have hstat : ∀ u, u ≠ t → (k.thread u).stat = (w.kernel.thread u).stat :=
        fun u hu => (hk.others u hu).1
      refine H.received ht hp (H.counted_same hstat) H.bounded
        (fun u hu hs => ⟨(hstat u hu).symm.trans hs,?_⟩) (fun u hu hs => (hstat u hu).trans hs)
        fun u hu => (hk.others u hu).2
      rw [hk.queue (.sender o) trivial (by simp)]
      exact id
  | alone value hentry hq =>
      have hb := H.bounded
      refine H.received ht hp ?_ ?_ (fun u _ hs => ⟨hs,id⟩) (fun u _ hs => hs) fun u _ => rfl
      · rintro ⟨v,hv⟩
        obtain ⟨-,hp,hs⟩ := received_blocked.mp hv
        have hin := (H.blocked v ⟨hp,hs⟩).1
        simp [hq] at hin
      · simp only [withoutFirst]
        bv_omega
  | @waking k u us value hentry hq hk =>
      have hb := H.bounded
      refine H.received ht hp (H.counted_fetch hentry hq hk (hserved hentry)) ?_
        (fun v _ hs => ?_) (fun v _ hs => hk.ready_after hs) fun v _ => hk.error v
      · simp only [withoutFirst]
        bv_omega
      · obtain ⟨hvu,hs⟩ := hk.asleep_before hs
        refine ⟨hs,fun hin => ?_⟩
        rw [hk.own]
        exact (List.mem_erase_of_ne hvu).mpr hin

/-- A wake-up that reaches no blocked sender is missing at once. -/
theorem Invariant.receives_bad (H : Invariant o w) {k : IdealKernel ο θ} {m : MailBox}
    {r : Progress (ℤ × Option (BitVec 32))} (ht : (w.kernel.thread t).stat = .ready)
    (hr : Receives w.kernel o w.box t k m r) (hentry : w.box.entry ≠ 0) (hserved : ¬Served o w) :
    ¬NoLostWakeup (w.received t k m r) := by
  obtain ⟨hhead,hsome,hfew⟩ : (∀ u ∈ (w.kernel.lists.get (.sender o)).head?, ¬w.Blocked u) ∧
      (∃ t, w.Blocked t) ∧ w.resumedCount < w.free+1 := by
    simpa [Served] using hserved
  obtain ⟨v,hv⟩ := hsome
  cases hr with
  | empty hempty => exact absurd hempty hentry
  | blocked _ _ hempty => exact absurd hempty hentry
  | alone value _ hq =>
      have hin := (H.blocked v hv).1
      simp [hq] at hin
  | @waking k u us value _ hq hk =>
      have hu : ¬w.Blocked u := hhead u (by simp [hq])
      have hvu : v ≠ u := by
        rintro rfl
        exact hu hv
      have hvt : v ≠ t := by
        rintro rfl
        exact not_blocked ht hv
      intro h
      have hcount := h ⟨v,received_blocked.mpr ⟨hvt,hv.1,(hk.others v hvu).trans hv.2⟩⟩
      have hfree := H.free_withoutFirst hentry
      simp only [World.free,World.received] at hcount hfree
      rw [show (withoutFirst w.box).size = w.box.size from rfl,hfree,resumedCount_eq] at hcount
      simp only [resumed_waking hk,hu,and_false,decide_false,Bool.or_false] at hcount
      rw [resumedCount_eq] at hfew
      simp only [World.free] at hfew
      exact absurd hcount (Nat.not_le.mpr hfew)

variable [DecidableEq ο]

theorem Invariant.expire (H : Invariant o w) {k : IdealKernel ο θ}
    (h : w.kernel.expire t = some k) : Invariant o {w with kernel := k} := by
  obtain ⟨ht,x,hx,hxs,-⟩ := expire_thread h
  have hq := expire_queue (l := .sender o) h trivial
  have hblocked : ∀ u, World.Blocked {w with kernel := k} u → u ≠ t ∧ w.Blocked u := by
    intro u hu
    have hut : u ≠ t := by
      rintro rfl
      simp [World.Blocked,hx,hxs] at hu
    simp only [World.Blocked,hx,Function.update_of_ne hut] at hu
    exact ⟨hut,hu⟩
  refine ⟨fun ⟨u,hu⟩ => H.counted ⟨u,(hblocked u hu).2⟩,H.bounded,fun u hu => ?_,fun u hu => ?_⟩
  · obtain ⟨hut,hu⟩ := hblocked u hu
    obtain ⟨hin,he⟩ := H.blocked u hu
    refine ⟨hq.symm ▸ hin,?_⟩
    simp only [hx,Function.update_of_ne hut]
    exact he
  · obtain ⟨hp,hs,he⟩ := H.resumed u hu
    have hut : u ≠ t := by
      rintro rfl
      cases hs.symm.trans ht
    simp only [hx,Function.update_of_ne hut]
    exact ⟨hp,hs,he⟩

theorem Invariant.step {c : Call θ} (H : Invariant o w) (hl : Legal w c)
    (hserved : Fetches w c → Served o w) (h : call o w c = some w') : Invariant o w' := by
  cases c with
  | sendWait t value timeout =>
      simp only [call,Option.bind_eq_bind,Option.bind_eq_some_iff,Option.some.injEq] at h
      obtain ⟨⟨k,m,r⟩,hr,rfl⟩ := h
      exact H.sends (sendWait_sends hl.2 hr)
  | recv t timeout =>
      simp only [call,Option.bind_eq_bind,Option.bind_eq_some_iff,Option.some.injEq] at h
      obtain ⟨⟨k,m,r⟩,hr,rfl⟩ := h
      exact H.receives hl.2 (by simp [hl.1,Place.isSending]) (recv_receives hl.2 hr) hserved
  | proceed t =>
      simp only [call] at h
      split at h
      · cases h
      · next value timeout tickDelta hp =>
          simp only [Option.bind_eq_bind,Option.bind_eq_some_iff,Option.some.injEq] at h
          obtain ⟨⟨k,m,r⟩,hr,rfl⟩ := h
          unfold MailBox.sendProceed at hr
          split_ifs at hr with he
          · cases hr
            exact H.giveUp hl.2 he
          · exact H.sends (sendLoop_sends hl.2 hr)
      · next timeout tickDelta hp =>
          simp only [Option.bind_eq_bind,Option.bind_eq_some_iff,Option.some.injEq] at h
          obtain ⟨⟨k,m,r⟩,hr,rfl⟩ := h
          have hsend : (w.place t).isSending = false := by simp [hp,Place.isSending]
          unfold MailBox.recvProceed at hr
          split_ifs at hr with he
          · cases hr
            refine H.received hl.2 hsend (H.counted_same fun _ _ => rfl) H.bounded
              (fun u _ hs => ⟨hs,id⟩) (fun u _ hs => hs) fun u _ => rfl
          · exact H.receives hl.2 hsend (recvLoop_receives hl.2 hr) fun hentry =>
              hserved ⟨hsend,not_not.mp he,hentry⟩
  | expire t =>
      simp only [call,Option.bind_eq_bind,Option.bind_eq_some_iff,Option.some.injEq] at h
      obtain ⟨k,hk,rfl⟩ := h
      exact H.expire hk
  | tick =>
      cases h
      exact ⟨H.counted,H.bounded,H.blocked,H.resumed⟩

theorem Invariant.step_bad {c : Call θ} (H : Invariant o w) (hl : Legal w c)
    (hbad : ¬(Fetches w c → Served o w)) (h : call o w c = some w') : ¬NoLostWakeup w' := by
  obtain ⟨hf,hserved⟩ := Classical.not_imp.mp hbad
  cases c with
  | sendWait | expire | tick => exact hf.elim
  | recv t timeout =>
      simp only [call,Option.bind_eq_bind,Option.bind_eq_some_iff,Option.some.injEq] at h
      obtain ⟨⟨k,m,r⟩,hr,rfl⟩ := h
      exact H.receives_bad hl.2 (recv_receives hl.2 hr) hf hserved
  | proceed t =>
      obtain ⟨hsend,he,hentry⟩ := hf
      simp only [call] at h
      split at h
      · cases h
      · next hp => simp [hp,Place.isSending] at hsend
      · simp only [Option.bind_eq_bind,Option.bind_eq_some_iff,Option.some.injEq] at h
        obtain ⟨⟨k,m,r⟩,hr,rfl⟩ := h
        simp only [MailBox.recvProceed,he,ne_eq,not_true_eq_false,↓reduceIte] at hr
        exact H.receives_bad hl.2 (recvLoop_receives hl.2 hr) hentry hserved

/-- No wake-up of a sender is lost along a run if and only if every `recv` that makes room
while senders are blocked resumes one of them, or enough senders are already resumed. -/
theorem senders_not_forgotten_iff {cs : List (Call θ)} (hstart : Start w)
    (hlegal : AllSteps (call o) Legal w cs) :
    Throughout (call o) NoLostWakeup w cs ↔
      AllSteps (call o) (fun w c => (Fetches w c → Served o w) ∨ (call o w c).isNone = true) w cs :=
  throughout_iff (fun _ H => H.counted) (fun _ _ _ H hl hs h => H.step hl hs h)
    (fun _ _ _ H hl hs h => H.step_bad hl hs h) hstart.invariant hlegal

section concrete

omit [DecidableEq ο] in
instance (w : World ο θ) : ∀ c, Decidable (Legal w c)
  | .sendWait t _ _ | .recv t _ =>
      inferInstanceAs (Decidable (w.place t = .idle ∧ (w.kernel.thread t).stat = .ready))
  | .proceed t =>
      inferInstanceAs (Decidable (w.place t ≠ .idle ∧ (w.kernel.thread t).stat = .ready))
  | .expire t =>
      inferInstanceAs (Decidable (w.place t ≠ .idle ∧ (w.kernel.thread t).timerActive = true))
  | .tick => .isTrue trivial

instance (w : World ο θ) : ∀ c, Decidable (Fetches w c)
  | .recv _ _ => inferInstanceAs (Decidable (w.box.entry ≠ 0))
  | .proceed t => inferInstanceAs (Decidable ((w.place t).isSending = false ∧
      (w.kernel.thread t).error = ERR_OK ∧ w.box.entry ≠ 0))
  | .sendWait _ _ _ | .expire _ | .tick => .isFalse id

instance (w : World ο θ) : Decidable (Served o w) := inferInstanceAs (Decidable (_ ∨ _ ∨ _))

instance (w : World ο θ) : Decidable (NoLostWakeup w) := inferInstanceAs (Decidable (_ → _))

end concrete

/-- An idle thread, three others and a mailbox for one value. -/
def oneCell : World Unit (Fin 4) where
  kernel := Scheduler.startedKernel ![254,20,20,20]
  tick := 0
  box := ⟨fun _ => 0,1,0,0,0⟩
  place _ := .idle
  resumed _ := false

theorem oneCell_start : Start oneCell := ⟨by decide,fun _ => rfl,fun _ => rfl⟩

/-- Two senders block, the first one is resumed, its cell is taken by a third, and it
blocks again. -/
def stolenCell : List (Call (Fin 4)) :=
  [.sendWait 1 7 0,.sendWait 1 8 (-1),.sendWait 2 9 (-1),.recv 3 0,.sendWait 3 10 0,.proceed 1,
    .recv 3 0,.tick,.proceed 2]

theorem senders_not_forgotten_stolenCell :
    (stolenCell.foldlM (call ()) oneCell).isSome = true ∧
    Throughout (call ()) NoLostWakeup oneCell stolenCell :=
  ⟨by decide +kernel,(senders_not_forgotten_iff oneCell_start (by decide +kernel)).mpr
    (by decide +kernel)⟩

/-- The wait of thread 1 ends by a timeout, but it stays at the head of the sender list,
where the `recv` finds it; thread 2 stays blocked before an empty mailbox. -/
def timedOutSender : List (Call (Fin 4)) :=
  [.sendWait 1 7 0,.sendWait 1 8 5,.expire 1,.proceed 1,.sendWait 2 9 (-1),.recv 3 0]

theorem timedOutSender_swallows_wakeup : AllSteps (call ()) Legal oneCell timedOutSender ∧
    ((timedOutSender.foldlM (call ()) oneCell).map fun w =>
      (decide (w.Blocked 2),w.free,w.resumedCount)) = some (true,1,0) ∧
    ¬Throughout (call ()) NoLostWakeup oneCell timedOutSender := by
  have hfacts : ((timedOutSender.foldlM (call ()) oneCell).map fun w =>
      (decide (w.Blocked 2),w.free,w.resumedCount)) = some (true,1,0) := by decide +kernel
  refine ⟨by decide +kernel,hfacts,fun h => ?_⟩
  obtain ⟨w,hw,hfacts⟩ := Option.map_eq_some_iff.mp hfacts
  simp only [Prod.mk.injEq,decide_eq_true_eq] at hfacts
  obtain ⟨hb,hfree,hcount⟩ := hfacts
  have := h.last hw ⟨2,hb⟩
  omega

end CosKernel.MailboxSenders

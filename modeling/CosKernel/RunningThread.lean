import CosKernel.KernelInvariants

/-!
# The running thread is the most urgent one

Every call that changes the ready lists ends with `process`, except for `suspend`, `resume` and
`control` of a thread and the deletion of threads, which leave that to their callers. Therefore the
current thread is the one that `next_thread` selects whenever the scheduler is not locked, whatever
the lists are. One more call misses a switch: the last `release` of a mutex that nobody waits for
lowers the priority of its owner again and does not call `process`.

No ready thread is more urgent than the selected one in a state in which the priority tree knows the
lists in use and these hold the ready threads. If the lists are sequences, they always do.
-/
namespace CosKernel
open PartialMorphisms TransitionRuns Kernel Ipc RedBlackHeap

namespace Kernel

section choice

variable {σ ο θ : Type} [DecidableEq θ] [ListFamily σ (ListId ο) θ]

/-- Nothing has changed for the choice of the thread to run, or it has just been made. -/
def Reschedules (k k' : Kernel σ θ) : Prop :=
  (k'.lists = k.lists ∧ k'.priorityTree = k.priorityTree ∧ k'.currentThread = k.currentThread ∧
    k'.lockNest = k.lockNest) ∨ ∃ k₁ : Kernel σ θ, k₁.process = some k'

/-- A started and unlocked scheduler runs the thread that it would select. -/
def Settled (k : Kernel σ θ) : Prop :=
  k.currentThread ≠ none → k.lockNest = 0 → k.nextThread = some k.currentThread

variable {k k' : Kernel σ θ} {o : ο} {t : θ}

theorem Reschedules.refl (k : Kernel σ θ) : Reschedules k k := .inl ⟨rfl,rfl,rfl,rfl⟩

theorem reschedules_modify (k : Kernel σ θ) (t : θ) (g : Thread → Thread) :
    Reschedules k (k.modify t g) := .inl ⟨rfl,rfl,rfl,rfl⟩

theorem yields_process (k₀ k : Kernel σ θ) {α : Type} (r : α) :
    Yields (fun r => Reschedules k₀ r.1) (do let k ← k.process; some (k,r)) :=
  yields_bind fun _ hk => yields_some (.inr ⟨k,hk⟩)

omit [DecidableEq θ] in
theorem nextThread_congr (hl : k'.lists = k.lists) (ht : k'.priorityTree = k.priorityTree) :
    k'.nextThread = k.nextThread := by
  unfold nextThread firstReady
  rw [hl,ht]

theorem settled_of_process (h : k.process = some k') : Settled k' := by
  intro _ hlock
  obtain ⟨c,rfl⟩ := process_some h
  simp only [process,if_pos (show k.lockNest = 0 from hlock),Option.bind_eq_bind,
    Option.bind_eq_some_iff] at h
  obtain ⟨u,hu,h⟩ := h
  refine ((nextThread_congr (k := k) rfl rfl).trans hu).trans ?_
  split_ifs at h with hc
  · exact congrArg some (hc.trans (congrArg Kernel.currentThread (Option.some.inj h)))
  · split at h
    · exact congrArg some (congrArg Kernel.currentThread (Option.some.inj h))
    · cases h

theorem Settled.reschedule (H : Settled k) (h : Reschedules k k') : Settled k' := by
  rcases h with ⟨hl,ht,hc,hn⟩ | ⟨k₁,hk₁⟩
  · intro hstarted hlock
    rw [nextThread_congr hl ht,hc]
    exact H (hc ▸ hstarted) (hn ▸ hlock)
  · exact settled_of_process hk₁

theorem settled_expire (k : Kernel σ θ) (t : θ) : Yields Settled (k.expire t) := by
  refine Yields.bind (P := Settled) (Yields.ite (fun _ => yields_none) fun _ => ?_) fun k₁ h₁ => ?_
  · exact yields_bind fun k₁ _ _ hk => settled_of_process hk
  · exact yields_some (h₁.reschedule (reschedules_modify k₁ t _))

theorem Settled.inclock (H : Settled k) : Yields Settled k.inclock := by
  unfold Kernel.inclock
  cases k.currentThread with
  | none => exact yields_some H
  | some t =>
      have H₁ := H.reschedule (reschedules_modify k t fun x => {x with remainingTick := x.remainingTick-1})
      refine Yields.ite (fun _ => yields_some H₁) fun _ => ?_
      refine Yields.ite (fun _ => yields_some (H₁.reschedule (reschedules_modify _ t _))) fun _ => ?_
      exact yields_bind fun s₁ _ => yields_bind fun s₂ _ _ hk => settled_of_process hk

/-- Before the scheduler is started nothing is to be selected. -/
theorem settled_startup (k : Kernel σ θ) (t : θ) : Yields Settled (k.startup t) := by
  refine Yields.ite (fun _ => yields_none) fun _ => yields_bind fun r _ => ?_
  refine Yields.ite (fun _ _ hk => settled_of_process hk) fun hnone => yields_some fun hstarted => ?_
  exact absurd (not_not.mp hnone) hstarted

omit [DecidableEq θ] in
theorem settled_start (k : Kernel σ θ) : Yields Settled k.start := by
  refine yields_bind fun c hc => ?_
  cases c with
  | none => exact yields_none
  | some t => exact yields_some fun _ _ => (nextThread_congr (k := k) rfl rfl).trans hc

theorem settled_sleep (k : Kernel σ θ) (tick : ℕ) : Yields Settled (k.sleep tick) :=
  yields_bind fun _ _ => yields_bind fun _ _ => yields_bind fun _ _ _ hk => settled_of_process hk

theorem settled_exit (k : Kernel σ θ) : Yields Settled k.exit :=
  yields_bind fun _ _ => yields_bind fun _ _ => yields_bind fun _ _ _ hk => settled_of_process hk

theorem settled_exitCritical (k : Kernel σ θ) :
    Yields Settled (CriticalSections.exitCritical ο k) := by
  refine Yields.ite (fun _ _ hk => settled_of_process hk) fun hpos => yields_some fun _ hlock => ?_
  exact absurd (le_of_eq hlock) hpos

theorem yields_block (k₀ k : Kernel σ θ) (o : ο) (t : θ) (time : BitVec 32) {α : Type} (r : α) :
    Yields (fun r => Reschedules k₀ r.1)
      (do let k ← k.listSuspend o t
          let k ← k.startTimer t time
          let k ← k.process
          some (k,r)) :=
  yields_bind fun _ _ => yields_bind fun k₂ _ => yields_process k₀ k₂ r

theorem listResume_quiet {e : ℤ} (h : k.listResume o = some (k',e)) (he : e ≠ ERR_OK) : k' = k := by
  cases hf : ListFamily.front k.lists (ListId.suspend o) with
  | none => exact (listResume_none hf h).1
  | some u => exact absurd (listResume_some hf h).1 he

/-- After `list_resume` a call reschedules if a thread was found. -/
theorem yields_resumed (k : Kernel σ θ) (o : ο) {α : Type} (r r' : α) :
    Yields (fun r => Reschedules k r.1)
      (do let (k,e) ← k.listResume o
          if e = ERR_OK then do
            let k ← k.process
            some (k,r)
          else some (k,r')) := by
  refine yields_bind fun r₁ h₁ => Yields.ite (fun _ => yields_process k r₁.1 r) fun he => ?_
  rw [listResume_quiet h₁ he]
  exact yields_some (.refl k)

/-- The priority tree holds the nodes of the ready lists in use. -/
def TreeSound (k : Kernel σ θ) : Prop :=
  ∃ X, Priorities k.priorityTree X ∧ ∀ p, p ∈ X ↔
    ListFamily.empty k.lists (ListId.ready (ο := ο) p) = false

/-- The lists in use are in the tree and begin with ready threads of their priority, and no list of a
ready thread is empty. -/
structure InOrder (k : Kernel σ θ) : Prop where
  tree : TreeSound k
  front : ∀ p t, ListFamily.front k.lists (ListId.ready (ο := ο) p) = some t →
    (k.thread t).stat = .ready ∧ (k.thread t).currentPriority = p
  ready : ∀ t, (k.thread t).stat = .ready →
    ListFamily.empty k.lists (ListId.ready (ο := ο) (k.thread t).currentPriority) = false

omit [DecidableEq θ] in
/-- `next_thread` selects a ready thread of the most urgent priority. -/
theorem InOrder.urgent [LocalLists σ] (H : InOrder k) {c : Option θ} (h : k.nextThread = some c) :
    ∃ t, c = some t ∧ (k.thread t).stat = .ready ∧ ∀ u, (k.thread u).stat = .ready →
      (k.thread t).currentPriority ≤ (k.thread u).currentPriority := by
  obtain ⟨X,hX,hmem⟩ := H.tree
  have hne : X.Nonempty := by
    by_contra he
    rw [Finset.not_nonempty_iff_eq_empty] at he
    have hroot := hX.empty_iff.mpr he
    simp [nextThread,firstReady,Heap.min,Heap.extreme,hroot] at h
  obtain ⟨p,hp,hmin⟩ := X.exists_min_image id hne
  have hnext : k.nextThread = some (ListFamily.front k.lists (ListId.ready (ο := ο) p)) := by
    simp only [nextThread,firstReady,hX.min hp hmin]
    rfl
  cases hfront : ListFamily.front k.lists (ListId.ready (ο := ο) p) with
  | none =>
      have hempty := (hmem p).mp hp
      rw [LocalLists.front.mp hfront] at hempty
      cases hempty
  | some t =>
      obtain ⟨hready,hprio⟩ := H.front p t hfront
      refine ⟨t,?_,hready,fun u hu => ?_⟩
      · rw [hnext,hfront] at h
        exact (Option.some.inj h).symm
      · rw [hprio]
        exact hmin _ ((hmem _).mpr (H.ready u hu))

/-- The scheduler runs the thread that it would select. If tree and lists are in order, this thread is
ready and no ready thread is more urgent. -/
structure Dispatched (k : Kernel σ θ) : Prop where
  next : k.nextThread = some k.currentThread
  urgent : InOrder k → ∃ t, k.currentThread = some t ∧ (k.thread t).stat = .ready ∧
    ∀ u, (k.thread u).stat = .ready → (k.thread t).currentPriority ≤ (k.thread u).currentPriority

end choice

end Kernel

section calls

variable {σ ο θ : Type} [DecidableEq θ] [ListFamily σ (ListId ο) θ] (k : Kernel σ θ) (o : ο) (t : θ)
variable (tick timeout tickDelta : BitVec 32)

theorem Semaphore.take_reschedules (value : BitVec 16) (time : BitVec 32) :
    Yields (fun r => Reschedules k r.1) (take k o value t time) :=
  Yields.ite (fun _ => yields_some (.refl k)) fun _ => Yields.ite (fun _ => yields_some (.refl k))
    fun _ => yields_block k _ o t time _

theorem Semaphore.release_reschedules (value : BitVec 16) :
    Yields (fun r => Reschedules k r.1) (release k o value) := yields_resumed k o _ _

theorem Mutex.take_reschedules (m : Mutex θ) (time : BitVec 32) :
    Yields (fun r => Reschedules k r.1) (take k o m t time) := by
  have hk := reschedules_modify k t fun x => {x with error := ERR_OK}
  refine Yields.ite (fun _ => yields_some hk) fun _ => Yields.ite (fun _ => yields_some hk) fun _ => ?_
  refine Yields.ite (fun _ => yields_some (.inl ⟨rfl,rfl,rfl,rfl⟩)) fun _ => ?_
  exact yields_bind fun u _ => yields_bind fun k₁ _ => yields_block k k₁ o t time _

/-- The release restores no priority, or somebody is woken. -/
theorem Mutex.release_reschedules (m : Mutex θ)
    (h : m.owner = some t → m.hold-1 = 0 → ∀ k₁, restore k m t = some k₁ →
      ListFamily.empty k₁.lists (ListId.suspend o) = true →
      m.originalPriority = some (k.thread t).currentPriority) :
    Yields (fun r => Reschedules k r.1) (release k o m t) := by
  refine Yields.ite (fun _ => yields_some (reschedules_modify k t _)) fun hown => ?_
  refine Yields.ite (fun hhold => ?_) fun _ => yields_some (.refl k)
  refine Yields.bind (P := fun r : Kernel σ θ × Mutex θ => Reschedules k r.1) ?_
    fun r hr => yields_some hr
  refine yields_bind fun k₁ h₁ => Yields.ite (fun hq => yields_some ?_) fun _ => ?_
  · have hsame := h (not_not.mp hown) hhold k₁ h₁ hq
    unfold restore at h₁
    rw [if_neg (not_not.mpr hsame)] at h₁
    cases h₁
    exact .refl k
  · exact yields_bind fun u _ => yields_bind fun r _ => yields_process k r.1 _

/-- Giving a priority back leaves the suspend lists alone. -/
theorem Mutex.restore_empty [LocalLists σ] (m : Mutex θ) :
    Yields (fun k₁ => ListFamily.empty k₁.lists (ListId.suspend o) =
      ListFamily.empty k.lists (ListId.suspend o)) (restore k m t) :=
  Yields.ite (fun _ => yields_bind fun p _ => Holds.changePriority
    (reads_empty (ListId.suspend o)) trivial rfl p)
    fun _ => yields_some rfl

theorem Semaphore.control_reschedules (fuel : ℕ) (value : BitVec 16) (cmd : BitVec 8)
    (arg : BitVec 32) : Yields (fun r => Reschedules k r.1) (control fuel k o value cmd arg) :=
  Yields.ite (fun _ => yields_bind fun k₁ _ => yields_process k k₁ _) fun _ => yields_some (.refl k)

namespace Event

theorem control_reschedules (fuel : ℕ) (set_ : BitVec 32) (cmd : BitVec 8) :
    Yields (fun r => Reschedules k r.1) (control fuel k o set_ cmd) :=
  Yields.ite (fun _ => yields_bind fun k₁ _ => yields_process k k₁ _) fun _ => yields_some (.refl k)

theorem recv_reschedules (set_ set : BitVec 32) (option : BitVec 8) :
    Yields (fun r => Reschedules k r.1) (recv k o set_ t set option timeout) := by
  have hk := reschedules_modify k t fun x => {x with error := ERR_OK}
  refine Yields.ite (fun _ => yields_some (.refl k)) fun _ => Yields.ite (fun _ => yields_none) fun _ => ?_
  refine Yields.ite (fun _ => yields_some hk) fun _ => ?_
  refine Yields.ite (fun _ => yields_some (.inl ⟨rfl,rfl,rfl,rfl⟩)) fun _ => ?_
  exact yields_block k _ o t timeout _

/-- A thread that is woken is reported. -/
theorem sendLoop_quiet {fuel : ℕ} {k k' : Kernel σ θ} {set_ set' : BitVec 32} {next : Option θ}
    {need : Bool} (h : sendLoop o fuel k set_ next need = some (k',set',false)) :
    k' = k ∧ need = false := by
  induction fuel generalizing k set_ next need with
  | zero =>
      cases next with
      | none =>
          cases h
          exact ⟨rfl,rfl⟩
      | some t => cases h
  | succ fuel ih =>
      cases next with
      | none =>
          cases h
          exact ⟨rfl,rfl⟩
      | some t =>
          unfold sendLoop at h
          dsimp only at h
          split_ifs at h
          all_goals first
            | exact ih h
            | obtain ⟨s,-,h⟩ := Option.bind_eq_some_iff.mp h
              obtain ⟨r,-,h⟩ := Option.bind_eq_some_iff.mp h
              cases (ih h).2

theorem send_reschedules (fuel : ℕ) (set_ set : BitVec 32) :
    Yields (fun r => Reschedules k r.1) (send fuel k o set_ set) := by
  refine Yields.ite (fun _ => yields_some (.refl k)) fun _ => yields_bind fun r hr => ?_
  obtain ⟨k₁,set₁,need⟩ := r
  refine Yields.ite (fun _ => yields_process k k₁ _) fun hneed => ?_
  obtain rfl : need = false := by simpa using hneed
  obtain rfl := (sendLoop_quiet o hr).1
  exact (yields_some (.refl k₁)).bind fun _ h => yields_some h

end Event

namespace MailBox

variable (m : MailBox)

theorem sendLoop_reschedules (value : BitVec 32) :
    Yields (fun r => Reschedules k r.1) (sendLoop k o m tick t value timeout tickDelta) := by
  refine Yields.ite (fun _ => ?_) fun _ => yields_bind fun r hr => ?_
  · refine Yields.ite (fun _ => yields_some (reschedules_modify k t _)) fun _ => ?_
    exact yields_bind fun r _ => yields_bind fun s _ => yields_bind fun k₂ _ => yields_process k k₂ _
  · refine Yields.ite (fun _ => yields_process k r.1 _) fun he => ?_
    rw [listResume_quiet hr he]
    exact (yields_some (.refl k)).bind fun _ h => yields_some h

theorem sendWait_reschedules (value : BitVec 32) :
    Yields (fun r => Reschedules k r.1) (sendWait k o m tick t value timeout) :=
  Yields.ite (fun _ => yields_some (.refl k)) fun _ => sendLoop_reschedules k o t tick timeout 0 m value

theorem sendProceed_reschedules (value : BitVec 32) :
    Yields (fun r => Reschedules k r.1) (sendProceed k o m tick t value timeout tickDelta) :=
  Yields.ite (fun _ => yields_some (.refl k)) fun _ => sendLoop_reschedules k o t tick _ _ m value

theorem recvLoop_reschedules :
    Yields (fun r => Reschedules k r.1) (recvLoop k o m tick t timeout tickDelta) := by
  refine Yields.ite (fun _ => ?_) fun _ => Yields.ite (fun _ => yields_some (.refl k)) fun _ => ?_
  · refine Yields.ite (fun _ => yields_some (.inl ⟨rfl,rfl,rfl,rfl⟩)) fun _ => ?_
    exact yields_block k _ o t timeout _
  · exact yields_bind fun u _ => yields_bind fun s _ => yields_bind fun r _ => yields_process k r.1 _

theorem recv_reschedules :
    Yields (fun r => Reschedules k r.1) (recv k o m tick t timeout) :=
  Yields.ite (fun _ => yields_some (.refl k)) fun _ => recvLoop_reschedules k o t tick timeout 0 m

theorem recvProceed_reschedules :
    Yields (fun r => Reschedules k r.1) (recvProceed k o m tick t timeout tickDelta) :=
  Yields.ite (fun _ => yields_some (.refl k)) fun _ => recvLoop_reschedules k o t tick _ _ m

theorem control_reschedules (fuel : ℕ) (cmd : BitVec 8) :
    Yields (fun r => Reschedules k r.1) (control fuel k o m cmd) :=
  Yields.ite (fun _ => yields_bind fun _ _ => yields_bind fun k₂ _ => yields_process k k₂ _) fun _ =>
    yields_some (.refl k)

end MailBox

namespace MessageQueue

variable (q : MessageQueue)

theorem control_reschedules (fuel : ℕ) (cmd : BitVec 8) :
    Yields (fun r => Reschedules k r.1) (control fuel k o q cmd) :=
  Yields.ite (fun _ => yields_bind fun k₁ _ => yields_bind fun _ _ => yields_process k k₁ _) fun _ =>
    yields_some (.refl k)

theorem notify_reschedules : Yields (fun r => Reschedules k r.1) (notify k o) :=
  Yields.ite (fun _ => yields_some (.refl k)) fun _ => yields_bind fun r _ => yields_process k r.1 _

theorem recvLoop_reschedules :
    Yields (fun r => Reschedules k r.1) (recvLoop k o q tick t timeout tickDelta) := by
  refine Yields.ite (fun _ => ?_) fun _ => yields_bind fun msg _ => yields_some (.refl k)
  refine Yields.ite (fun _ => yields_some (.inl ⟨rfl,rfl,rfl,rfl⟩)) fun _ => ?_
  exact yields_block k _ o t timeout _

theorem recv_reschedules (size : ℕ) :
    Yields (fun r => Reschedules k r.1) (recv k o q tick t size timeout) :=
  Yields.ite (fun _ => yields_none) fun _ => Yields.ite (fun _ => yields_some (.refl k)) fun _ =>
    recvLoop_reschedules k o t tick timeout 0 q

theorem recvProceed_reschedules :
    Yields (fun r => Reschedules k r.1) (recvProceed k o q tick t timeout tickDelta) :=
  Yields.ite (fun _ => yields_some (.refl k)) fun _ => recvLoop_reschedules k o t tick _ _ q

end MessageQueue

end calls

section ready

variable {ο θ : Type}

/-- The ready lists of a family. -/
def readyLists (s : Sequences (ListId ο) θ) : Sequences Priority θ := ⟨fun p => s.get (.ready p)⟩

namespace Kernel

/-- The ready list of a thread. -/
def readyAt (k : IdealKernel ο θ) (t : θ) : Option Priority :=
  if (k.thread t).stat = .ready then some (k.thread t).currentPriority else none

/-- The ready threads are in the lists of their priorities, once, and no other threads are. -/
def Queued (k : IdealKernel ο θ) : Prop := (readyLists k.lists).Housed (readyAt k)

variable {k k' : IdealKernel ο θ} {t : θ} {p : Priority} {l : ListId ο} {x : Thread}

theorem readyAt_ready (h : (k.thread t).stat = .ready) :
    readyAt k t = some (k.thread t).currentPriority := if_pos h

theorem readyAt_none (h : (k.thread t).stat ≠ .ready) : readyAt k t = none := if_neg h

theorem Queued.congr (H : Queued k) (hl : readyLists k'.lists = readyLists k.lists)
    (h : ∀ u, readyAt k' u = readyAt k u) : Queued k' := by
  unfold Queued
  rw [hl,funext h]
  exact H

variable [DecidableEq θ]

theorem readyAt_update (k : IdealKernel ο θ) (t : θ) (x : Thread) (s : Sequences (ListId ο) θ)
    (r : Heap Priority Priority) (c : Option θ) (n : ℤ) :
    readyAt ⟨s,r,Function.update k.thread t x,c,n⟩ =
      Function.update (readyAt k) t (if x.stat = .ready then some x.currentPriority else none) := by
  funext u
  by_cases hu : u = t
  · subst hu
    simp [readyAt]
  · simp [readyAt,hu]

/-- A thread changes its fields but not its ready list. -/
theorem Queued.update (H : Queued k) {s : Sequences (ListId ο) θ} {r : Heap Priority Priority}
    {c : Option θ} {n : ℤ} (hl : readyLists s = readyLists k.lists)
    (hx : (if x.stat = .ready then some x.currentPriority else none) = readyAt k t) :
    Queued (⟨s,r,Function.update k.thread t x,c,n⟩ : IdealKernel ο θ) := by
  refine H.congr hl fun u => ?_
  rw [readyAt_update,hx,Function.update_eq_self]

variable [DecidableEq ο]

omit [DecidableEq θ] in
theorem readyLists_ready (s : Sequences (ListId ο) θ) (p : Priority) (xs : List θ) :
    readyLists (s.set (.ready p) xs) = (readyLists s).set p xs := by
  unfold readyLists Sequences.set
  congr 1
  funext q
  by_cases hq : q = p
  · simp [hq]
  · simp [hq]

omit [DecidableEq θ] in
theorem readyLists_other (s : Sequences (ListId ο) θ) (hl : ∀ p, l ≠ .ready p) (xs : List θ) :
    readyLists (s.set l xs) = readyLists s := by
  unfold readyLists Sequences.set
  congr 1
  funext q
  simp [(hl q).symm]

/-- A thread that is not in a ready list becomes ready. -/
theorem Queued.enter (H : Queued k) (ht : readyAt k t = none) {r : Heap Priority Priority}
    {c : Option θ} {n : ℤ} (hx : x.stat = .ready) :
    Queued (⟨k.lists.set (.ready x.currentPriority) (k.lists.get (.ready x.currentPriority)++[t]),r,
      Function.update k.thread t x,c,n⟩ : IdealKernel ο θ) := by
  unfold Queued
  rw [readyAt_update,if_pos hx,readyLists_ready]
  exact Sequences.Housed.push H ht x.currentPriority

/-- A thread leaves its ready list. -/
theorem Queued.leave (H : Queued k) (ht : readyAt k t = some p) {r : Heap Priority Priority}
    {c : Option θ} {n : ℤ} (hx : x.stat ≠ .ready) :
    Queued (⟨k.lists.set (.ready p) ((k.lists.get (.ready p)).erase t),r,
      Function.update k.thread t x,c,n⟩ : IdealKernel ο θ) := by
  unfold Queued
  rw [readyAt_update,if_neg hx,readyLists_ready]
  exact Sequences.Housed.erase H ht

/-- A ready thread goes to the end of a ready list. -/
theorem Queued.requeue (H : Queued k) (ht : readyAt k t = some p) {r : Heap Priority Priority}
    {c : Option θ} {n : ℤ} {s₁ s₂ : Sequences (ListId ο) θ}
    (h₁ : ListFamily.erase k.lists (ListId.ready p) t = some s₁)
    (h₂ : ListFamily.pushBack s₁ (ListId.ready x.currentPriority) t = some s₂) (hx : x.stat = .ready) :
    Queued (⟨s₂,r,Function.update k.thread t x,c,n⟩ : IdealKernel ο θ) := by
  obtain rfl := Option.some.inj h₁
  obtain rfl := Option.some.inj h₂
  have hout := H.leave (x := {x with stat := .suspend}) (r := r) (c := c) (n := n) ht (by simp)
  have hin := hout.enter (t := t) (x := x) (r := r) (c := c) (n := n) (by simp [readyAt]) hx
  simpa using hin

theorem Queued.resume (H : Queued k) : Yields (fun r => Queued r.1) (k.resume t) := by
  intro r hr
  by_cases ht : (k.thread t).stat = .suspend
  · obtain ⟨s,q,hs,hk⟩ := resume_some ht hr
    obtain rfl := Option.some.inj hs
    rw [hk]
    exact H.enter (x := {k.thread t with stat := .ready, timerActive := false})
      (readyAt_none (by simp [ht])) rfl
  · obtain ⟨k',e⟩ := r
    rw [resume_other ht hr]
    exact H

omit [DecidableEq ο] in
theorem Queued.altered (H : Queued k) (h : Altered t k k₁) : Queued k₁ := by
  obtain ⟨x,hx,rfl⟩ := h
  refine H.update rfl ?_
  rw [hx.stat,hx.priority]
  rfl

theorem queued_kept : KernelInvariant (.all ο θ) (Queued : IdealKernel ο θ → Prop) where
  found _ _ _ := trivial
  modify _ hg _ H := H.altered (altered_modify hg)
  request _ hg H := H.altered (altered_modify hg)
  suspend {k t} _ H r hr := by
    by_cases ht : (k.thread t).stat = .ready
    · obtain ⟨s,q,hs,hk⟩ := suspend_some ht hr
      obtain rfl := Option.some.inj hs
      rw [hk]
      exact H.leave (readyAt_ready ht) (by simp)
    · rw [suspend,if_pos ht] at hr
      cases hr
      exact H
  changePriority {k} t p H k' hk' := by
    obtain ⟨hthread,hready,hother⟩ := changePriority_some hk'
    obtain ⟨l,r,th,c,n⟩ := k'
    simp only at hthread hready hother
    subst hthread
    by_cases ht : (k.thread t).stat = .ready
    · obtain ⟨s₁,s₂,hs₁,hs₂,rfl⟩ := hready ht
      exact H.requeue (x := {k.thread t with currentPriority := p}) (readyAt_ready ht) hs₁ hs₂ ht
    · rw [hother ht]
      exact H.update rfl (by rw [readyAt_none ht]; exact if_neg ht)
  timerStart tick _ _ H :=
    Yields.ite (fun _ => yields_some (H.update rfl rfl)) fun _ => yields_none
  pushBack hl _ H := yields_some (H.congr (readyLists_other _ (isWait_ne_ready hl) _) fun _ => rfl)
  wake {k k₁ l t} hl _ hk H := by
    refine Yields.bind (P := fun s => Queued {k₁ with lists := s}) ?_ fun s hs => hs.resume
    exact yields_some ((H.altered hk).congr (readyLists_other _ (isWait_ne_ready hl) _) fun _ => rfl)
  process {k} H k' hk' := by
    obtain ⟨c,rfl⟩ := process_some hk'
    exact H

/-- A ready thread goes behind the others of its priority. -/
theorem Queued.rotate (H : Queued k) (ht : (k.thread t).stat = .ready)
    {s₁ s₂ : Sequences (ListId ο) θ}
    (h₁ : ListFamily.erase k.lists (ListId.ready (k.thread t).currentPriority) t = some s₁)
    (h₂ : ListFamily.pushBack s₁ (ListId.ready (k.thread t).currentPriority) t = some s₂) :
    Queued ({k with lists := s₂} : IdealKernel ο θ) := by
  have h := H.requeue (r := k.priorityTree) (c := k.currentThread) (n := k.lockNest)
    (readyAt_ready ht) h₁ h₂ ht
  rwa [Function.update_eq_self] at h

theorem Queued.expire (H : Queued k) : Yields Queued (k.expire t) := by
  intro k' hk'
  obtain ⟨hs,s,r,c,hs',rfl⟩ := expire_some hk'
  obtain rfl := Option.some.inj hs'
  exact H.enter (x := {k.thread t with error := -ERR_TIMEOUT, stat := .ready, timerActive := false})
    (readyAt_none (by simp [hs])) rfl

theorem Queued.inclock (H : Queued k) : Yields Queued k.inclock := by
  unfold Kernel.inclock
  cases k.currentThread with
  | none => exact yields_some H
  | some t =>
      refine Yields.ite (fun _ => yields_some (H.update rfl rfl)) fun _ => ?_
      have H₂ : Queued ((k.modify t fun x => {x with remainingTick := x.remainingTick-1}).modify t
          fun x => {x with remainingTick := x.initTick}) := by
        rw [modify_modify]
        exact H.update rfl rfl
      refine Yields.ite (fun _ => yields_some H₂) fun hready => yields_bind fun s₁ h₁ => ?_
      exact yields_bind fun s₂ h₂ => queued_kept.process (H₂.rotate (not_not.mp hready) h₁ h₂)

theorem Queued.startup (H : Queued k) : Yields Queued (k.startup t) := by
  refine Yields.ite (fun _ => yields_none) fun hinit => ?_
  have hnone := readyAt_none (k := k) (t := t) (by rw [not_not.mp hinit]; decide)
  have H₁ : Queued (k.modify t fun x =>
      {x with currentPriority := x.initPriority, stat := .suspend}) := H.update rfl hnone.symm
  refine H₁.resume.bind fun r hr => ?_
  exact Yields.ite (fun _ => queued_kept.process hr) fun _ => yields_some hr

theorem Queued.sleep (H : Queued k) (tick : ℕ) : Yields Queued (k.sleep tick) := by
  refine yields_bind fun t _ => (queued_kept.suspend (t := t) trivial H).bind fun r hr => ?_
  have H₂ : Yields Queued (r.1.timerStart t tick) :=
    Yields.ite (fun _ => yields_some (hr.update rfl rfl)) fun _ => yields_none
  exact H₂.bind fun k₂ h₂ => queued_kept.process h₂

/-- A thread that is taken out of the list of its priority and is not ready afterwards. -/
theorem Queued.retire (H : Queued k) {r : Heap Priority Priority} {c : Option θ} {n : ℤ}
    (hx : x.stat ≠ .ready) :
    Queued (⟨k.lists.set (.ready (k.thread t).currentPriority)
      ((k.lists.get (.ready (k.thread t).currentPriority)).erase t),r,
      Function.update k.thread t x,c,n⟩ : IdealKernel ο θ) := by
  by_cases ht : (k.thread t).stat = .ready
  · exact H.leave (readyAt_ready ht) hx
  · have hout : t ∉ k.lists.get (.ready (k.thread t).currentPriority) := by
      intro hmem
      have := (Sequences.Housed.mem H (k.thread t).currentPriority t).mp hmem
      rw [readyAt_none ht] at this
      cases this
    refine H.update ?_ (by rw [readyAt_none ht,if_neg hx])
    rw [readyLists_ready,List.erase_of_not_mem hout]
    simp [readyLists,Sequences.set]

/-- The node of the thread is erased twice. -/
theorem Queued.exit (H : Queued k) : Yields Queued k.exit := by
  refine yields_bind fun t _ => yields_bind fun k₁ h₁ => Yields.bind (P := Queued) ?_ fun k₂ h₂ =>
    queued_kept.process h₂
  obtain ⟨s₁,r₁,hs₁,rfl⟩ := removeThread_some h₁
  obtain rfl := Option.some.inj hs₁
  refine yields_bind fun k₂ h₂ => Yields.ite (fun _ => yields_some ?_) fun hn => absurd rfl hn
  obtain ⟨s₂,r₂,hs₂,rfl⟩ := removeThread_some h₂
  obtain rfl := Option.some.inj hs₂
  have hnodup := Sequences.Housed.nodup H (k.thread t).currentPriority
  have hout : t ∉ (k.lists.get (.ready (k.thread t).currentPriority)).erase t :=
    fun hmem => (hnodup.mem_erase_iff.mp hmem).1 rfl
  have H₁ := H.retire (t := t) (x := {k.thread t with timerActive := false, stat := .close})
    (r := r₂) (c := k.currentThread) (n := k.lockNest) (by simp)
  refine H₁.congr ?_ fun _ => rfl
  change readyLists (Sequences.set (Sequences.set _ _ _) .defunct _) = _
  rw [readyLists_other _ (by simp)]
  simp only [readyLists_ready,Sequences.set_get_self,List.erase_of_not_mem hout]
  simp [Sequences.set]

/-- Sequences hold the ready threads. -/
theorem Queued.inOrder (H : Queued k) (hT : TreeSound k) : InOrder k where
  tree := hT
  front p t ht := by
    have hmem : readyAt k t = some p :=
      (Sequences.Housed.mem H p t).mp (List.mem_of_mem_head? ht)
    have hready : (k.thread t).stat = .ready := by
      by_contra hn
      rw [readyAt_none hn] at hmem
      cases hmem
    rw [readyAt_ready hready] at hmem
    exact ⟨hready,Option.some.inj hmem⟩
  ready t ht := by
    have hmem : t ∈ k.lists.get (.ready (k.thread t).currentPriority) :=
      (Sequences.Housed.mem H _ t).mpr (readyAt_ready ht)
    exact List.isEmpty_eq_false_iff.mpr (List.ne_nil_of_mem hmem)

end Kernel

end ready

namespace System

variable {σ ο θ : Type} [ListFamily σ (ListId ο) θ]

/-- The last release of a mutex that nobody waits for has no priority to restore. -/
def NothingToRestore (w : System σ ο θ) : Ipc.Call ο θ → Prop
  | .release t o =>
      match w.object o with
      | .mutex m => m.owner = some t → m.hold = 1 →
          ListFamily.empty w.kernel.lists (ListId.suspend o) = true →
          m.originalPriority = some (w.kernel.thread t).currentPriority
      | _ => True
  | _ => True

/-- Calls that reschedule by themselves, and critical sections that the counter can count. -/
def Permitted (w : System σ ο θ) : Call ο θ → Prop
  | .ipc c => w.Lawful c ∧ w.NothingToRestore c
  | .control _ _ _ | .startup _ | .start | .sleep _ | .sleepReturn _ | .exit | .exitCritical => True
  | .enterCritical => 0 ≤ w.kernel.lockNest ∧ w.kernel.lockNest < 32767
  | .suspend _ | .resume _ | .changePriority _ _ | .excute => False

variable [DecidableEq ο] [DecidableEq θ] {w w' : System σ ο θ}

theorem proceed_settled (H : Settled w.kernel) (t : θ) :
    Yields (fun w => Settled w.kernel) (w.proceed t) := by
  unfold proceed
  cases w.place t with
  | idle => exact yields_none
  | taking o | locking o | watching o => exact yields_some H
  | posting o value timeout tickDelta =>
      dsimp only
      cases w.object o with
      | mailbox m =>
          exact (MailBox.sendProceed_reschedules _ o t _ _ _ m value).map fun r hr => by
            rw [posted_kernel]
            exact H.reschedule hr
      | _ => exact yields_none
  | fetching o timeout tickDelta =>
      dsimp only
      cases w.object o with
      | mailbox m =>
          exact (MailBox.recvProceed_reschedules _ o t _ _ _ m).map fun r hr => by
            rw [fetched_kernel]
            exact H.reschedule hr
      | _ => exact yields_none
  | receiving o size timeout tickDelta =>
      dsimp only
      cases w.object o with
      | queue q =>
          exact (MessageQueue.recvProceed_reschedules _ o t _ _ _ q).map fun r hr => by
            rw [received_kernel]
            exact H.reschedule hr
      | _ => exact yields_none
  | sending o urgent msg buffer =>
      dsimp only
      cases w.object o with
      | queue q => exact (MessageQueue.notify_reschedules _ o).map fun _ hr => H.reschedule hr
      | _ => exact yields_none
  | copying o msg size =>
      dsimp only
      cases w.object o with
      | queue q => exact yields_some H
      | _ => exact yields_none

variable [LocalLists σ]

omit [DecidableEq ο] in
theorem release_settled (H : Settled w.kernel) {t : θ} {o : ο} {m : Mutex θ}
    (h : m.owner = some t → m.hold = 1 →
      ListFamily.empty w.kernel.lists (ListId.suspend o) = true →
      m.originalPriority = some (w.kernel.thread t).currentPriority) :
    Yields (fun r => Settled r.1) (Mutex.release w.kernel o m t) := by
  refine (Mutex.release_reschedules w.kernel o t m fun hown hhold k₁ hk₁ hq => ?_).imp
    fun r hr => H.reschedule hr
  exact h hown (by bv_omega) ((Mutex.restore_empty w.kernel o t m k₁ hk₁).symm.trans hq)

theorem ipc_settled (H : Settled w.kernel) (fuel : ℕ) {c : Ipc.Call ο θ}
    (hc : w.NothingToRestore c) : Yields (fun w => Settled w.kernel) (w.ipc fuel c) := by
  unfold ipc
  cases c with
  | take t o time =>
      dsimp only
      cases w.object o with
      | semaphore value =>
          exact (Semaphore.take_reschedules _ o t value time).map fun _ hr => H.reschedule hr
      | mutex m => exact (Mutex.take_reschedules _ o t m time).map fun _ hr => H.reschedule hr
      | _ => exact yields_none
  | release t o =>
      unfold NothingToRestore at hc
      dsimp only at hc ⊢
      revert hc
      cases w.object o with
      | semaphore value =>
          exact fun _ => (Semaphore.release_reschedules _ o value).map fun _ hr => H.reschedule hr
      | mutex m => exact fun hc => (release_settled H hc).map fun _ hr => hr
      | _ => exact fun _ => yields_none
  | recvEvent t o set option timeout =>
      dsimp only
      cases w.object o with
      | event set_ =>
          exact (Event.recv_reschedules _ o t timeout set_ set option).map fun _ hr => H.reschedule hr
      | _ => exact yields_none
  | sendEvent o set =>
      dsimp only
      cases w.object o with
      | event set_ => exact (Event.send_reschedules _ o fuel set_ set).map fun _ hr => H.reschedule hr
      | _ => exact yields_none
  | sendWait t o value timeout =>
      dsimp only
      cases w.object o with
      | mailbox m =>
          exact (MailBox.sendWait_reschedules _ o t _ _ m value).map fun r hr => by
            rw [posted_kernel]
            exact H.reschedule hr
      | _ => exact yields_none
  | recvMail t o timeout =>
      dsimp only
      cases w.object o with
      | mailbox m =>
          exact (MailBox.recv_reschedules _ o t _ _ m).map fun r hr => by
            rw [fetched_kernel]
            exact H.reschedule hr
      | _ => exact yields_none
  | sendMessage t o urgent buffer =>
      dsimp only
      cases w.object o with
      | queue q =>
          refine yields_map fun r _ => ?_
          obtain ⟨q,e | msg⟩ := r <;> exact H
      | _ => exact yields_none
  | recvMessage t o size timeout =>
      dsimp only
      cases w.object o with
      | queue q =>
          exact (MessageQueue.recv_reschedules _ o t _ _ q size).map fun r hr => by
            rw [received_kernel]
            exact H.reschedule hr
      | _ => exact yields_none
  | proceed t => exact proceed_settled H t
  | expire t => exact (settled_expire _ t).map fun _ hk => hk
  | tick => exact H.inclock.map fun _ hk => hk

omit [LocalLists σ] in
theorem control_settled (H : Settled w.kernel) (fuel : ℕ) (o : ο) (cmd : BitVec 8)
    (arg : BitVec 32) : Yields (fun w => Settled w.kernel) (w.control fuel o cmd arg) := by
  unfold control
  cases w.object o with
  | semaphore value =>
      exact (Semaphore.control_reschedules _ o fuel value cmd arg).map fun _ hr => H.reschedule hr
  | mutex m => exact yields_some H
  | event set_ => exact (Event.control_reschedules _ o fuel set_ cmd).map fun _ hr => H.reschedule hr
  | mailbox m => exact (MailBox.control_reschedules _ o m fuel cmd).map fun _ hr => H.reschedule hr
  | queue q => exact (MessageQueue.control_reschedules _ o q fuel cmd).map fun _ hr => H.reschedule hr

theorem step_settled (H : Settled w.kernel) (fuel : ℕ) {c : Call ο θ} (hc : w.Permitted c) :
    Yields (fun w => Settled w.kernel) (step fuel w c) := by
  cases c with
  | ipc c => exact ipc_settled H fuel hc.2
  | control o cmd arg => exact control_settled H fuel o cmd arg
  | startup t => exact (settled_startup w.kernel t).map fun _ hk => hk
  | start => exact (settled_start w.kernel).map fun _ hk => hk
  | sleep tick => exact (settled_sleep w.kernel tick).map fun _ hk => hk
  | sleepReturn t => exact yields_some (H.reschedule (reschedules_modify w.kernel t _))
  | exit => exact (settled_exit w.kernel).map fun _ hk => hk
  | enterCritical =>
      refine yields_some fun _ hlock => ?_
      obtain ⟨hnn,hlt⟩ := hc
      change (w.kernel.lockNest+1).bmod (2^16) = 0 at hlock
      rw [Int.bmod_def] at hlock
      split_ifs at hlock <;> omega
  | exitCritical => exact (settled_exitCritical w.kernel).map fun _ hk => hk
  | suspend | resume | changePriority | excute => exact hc.elim

section concrete

omit [DecidableEq θ] in
instance {σ : Type} (w : System σ ο θ) : ∀ c, Decidable (w.Lawful c)
  | .take t _ _ | .recvEvent t _ _ _ _ | .sendWait t _ _ _ | .recvMail t _ _
  | .sendMessage t _ _ _ | .recvMessage t _ _ _ =>
      inferInstanceAs (Decidable ((True ∧ True) ∧ w.place t = .idle ∧ (w.kernel.thread t).stat = .ready))
  | .proceed t => inferInstanceAs (Decidable ((True ∧ True) ∧ (w.kernel.thread t).stat = .ready))
  | .expire t => inferInstanceAs (Decidable (True ∧ (w.kernel.thread t).timerActive = true))
  | .release t _ => inferInstanceAs (Decidable (True ∧ w.place t = .idle))
  | .sendEvent _ _ | .tick => .isTrue trivial

omit [DecidableEq ο] in
instance (w : System σ ο θ) : ∀ c, Decidable (w.NothingToRestore c)
  | .release t o =>
      match h : w.object o with
      | .mutex m =>
          decidable_of_iff (m.owner = some t → m.hold = 1 →
            ListFamily.empty w.kernel.lists (ListId.suspend o) = true →
            m.originalPriority = some (w.kernel.thread t).currentPriority)
            (by simp only [NothingToRestore,h])
      | .semaphore _ | .event _ | .mailbox _ | .queue _ =>
          .isTrue (by simp only [NothingToRestore,h])
  | .take _ _ _ | .recvEvent _ _ _ _ _ | .sendWait _ _ _ _ | .recvMail _ _ _
  | .sendMessage _ _ _ _ | .recvMessage _ _ _ _ | .proceed _ | .expire _ | .sendEvent _ _
  | .tick => .isTrue trivial

instance (w : System σ ο θ) : ∀ c, Decidable (w.Permitted c)
  | .ipc c => inferInstanceAs (Decidable (w.Lawful c ∧ w.NothingToRestore c))
  | .enterCritical => inferInstanceAs (Decidable (0 ≤ w.kernel.lockNest ∧ w.kernel.lockNest < 32767))
  | .control _ _ _ | .startup _ | .start | .sleep _ | .sleepReturn _ | .exit | .exitCritical =>
      .isTrue trivial
  | .suspend _ | .resume _ | .changePriority _ _ | .excute => .isFalse id

end concrete

section sequences

/-- After `Scheduler::init`, with lists that are sequences. -/
structure Initial (w : IdealSystem ο θ) : Prop where
  ready : ∀ p, w.kernel.lists.get (.ready p) = []
  stat : ∀ t, (w.kernel.thread t).stat = .init
  current : w.kernel.currentThread = none

variable {w : IdealSystem ο θ}

omit [DecidableEq ο] [DecidableEq θ] in
theorem Initial.queued (H : Initial w) : Queued w.kernel where
  mem p t := by simp [readyLists,H.ready,readyAt,H.stat]
  nodup p := by simp [readyLists,H.ready]

theorem step_queued (H : Queued w.kernel) (fuel : ℕ) {c : Call ο θ} (hc : w.Permitted c) :
    Yields (fun w => Queued w.kernel) (step fuel w c) := by
  cases c with
  | ipc c =>
      exact ipc_keeps queued_kept (fun _ _ => ⟨trivial,trivial⟩) (fun _ _ H => H.expire)
        (fun H => H.inclock) fuel hc.1 H
  | control o cmd arg => exact control_keeps queued_kept ⟨trivial,trivial⟩ fuel cmd arg H
  | startup t => exact H.startup.map fun _ hk => hk
  | start =>
      refine Yields.map (P := Queued) (yields_bind fun c _ => ?_) fun _ hk => hk
      cases c with
      | none => exact yields_none
      | some t => exact yields_some H
  | sleep tick => exact (H.sleep tick).map fun _ hk => hk
  | sleepReturn t => exact yields_some (H.update rfl rfl)
  | exit => exact H.exit.map fun _ hk => hk
  | enterCritical => exact yields_some H
  | exitCritical =>
      refine Yields.map (P := Queued) (Yields.ite (fun _ => ?_) fun _ => yields_some H) fun _ hk => hk
      exact queued_kept.process (k := {w.kernel with lockNest := 0}) H
  | suspend | resume | changePriority | excute => exact hc.elim

/-- Over sequences the running thread is ready and the most urgent one whenever the tree knows the
lists in use. -/
theorem running_thread_over_sequences {fuel : ℕ} {cs : List (Call ο θ)} (hstart : Initial w)
    (hcs : AllSteps (step fuel) Permitted w cs) :
    Throughout (step fuel) (fun w => w.kernel.currentThread ≠ none → w.kernel.lockNest = 0 →
      TreeSound w.kernel → ∃ t, w.kernel.currentThread = some t ∧
        (w.kernel.thread t).stat = .ready ∧ ∀ u, (w.kernel.thread u).stat = .ready →
          (w.kernel.thread t).currentPriority ≤ (w.kernel.thread u).currentPriority) w cs :=
  throughout_of_invariant (I := fun w : IdealSystem ο θ => Settled w.kernel ∧ Queued w.kernel)
    (fun _ H hc hn hT => (H.2.inOrder hT).urgent (H.1 hc hn))
    (fun _ _ _ H hc h => ⟨step_settled H.1 fuel hc _ h,step_queued H.2 fuel hc _ h⟩)
    ⟨fun hc => absurd hstart.current hc,hstart.queued⟩ hcs

end sequences

end System

end CosKernel

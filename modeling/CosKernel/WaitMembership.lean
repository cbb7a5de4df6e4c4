import CosKernel.IpcSystem
import CosKernel.SchedulerInvariant
import CosKernel.ThreadHomes

/-!
# Who is in a suspend list

Any number of semaphores, mutexes, events, mailboxes and message queues, threads that wait
on them with any timeout and are woken by the matching operations, and timers that expire,
over ideal lists. A thread is in a wait list if and only if it sleeps there, as long as no
timer of a thread in a wait expires: `Thread::timeout` makes the thread ready but leaves it
in the list.
-/
namespace CosKernel.WaitMembership
open TransitionRuns Kernel Ipc

/-- The kernel over ideal lists. -/
abbrev World (ο θ : Type) := IdealSystem ο θ

abbrev step {ο θ : Type} [DecidableEq ο] [DecidableEq θ] (fuel : ℕ) (w : World ο θ)
    (c : Call ο θ) : Option (World ο θ) := w.ipc fuel c

variable {ο θ : Type}

/-- Ready threads act, and active timers expire. A release and an event may also come from
an interrupt. -/
def Legal (w : World ο θ) : Call ο θ → Prop
  | .take t _ _ | .recvEvent t _ _ _ _ | .sendWait t _ _ _ | .recvMail t _ _
  | .sendMessage t _ _ _ | .recvMessage t _ _ _ =>
      w.place t = .idle ∧ (w.kernel.thread t).stat = .ready
  | .proceed t => (w.kernel.thread t).stat = .ready
  | .expire t => (w.kernel.thread t).timerActive = true
  | .release _ _ | .sendEvent _ _ | .tick => True

/-- The step is not the timeout of a wait. -/
def NoTimeout (w : World ο θ) : Call ο θ → Prop
  | .expire t => (w.place t).list = none
  | _ => True

/-- In the wait lists are the threads that sleep in them, and each thread is in at most one
list and in it once. -/
structure Membership (w : World ο θ) : Prop where
  wait : ∀ l : ListId ο, l.IsWait → ∀ t, t ∈ w.kernel.lists.get l ↔
    (w.kernel.thread t).stat = .suspend ∧ (w.place t).list = some l
  single : ∀ t l l', t ∈ w.kernel.lists.get l → t ∈ w.kernel.lists.get l' → l = l'
  nodup : ∀ l, (w.kernel.lists.get l).Nodup

/-- No call is in progress, the ready threads are in the lists of their priorities, and the
only other list with threads is that of the defunct ones. -/
structure Start (w : World ο θ) : Prop where
  place : ∀ t, w.place t = .idle
  wait : ∀ l : ListId ο, l.IsWait → w.kernel.lists.get l = []
  ready : ∀ p t, t ∈ w.kernel.lists.get (.ready p) ↔
    (w.kernel.thread t).stat = .ready ∧ (w.kernel.thread t).currentPriority = p
  defunct : ∀ t ∈ w.kernel.lists.get .defunct, (w.kernel.thread t).stat = .close
  nodup : ∀ l, (w.kernel.lists.get l).Nodup

def Invariant (d : θ → Option (ListId ο)) (w : World ο θ) : Prop :=
  Homes w.kernel (Place.list ∘ w.place) d

variable {w w' : World ο θ} {d : θ → Option (ListId ο)} {t : θ} {o : ο}

theorem Start.invariant (H : Start w) : ∃ d : θ → Option (ListId ο),
    (∀ t l, d t = some l → ¬l.IsWait) ∧ Invariant d w := by
  classical
  let d : θ → Option (ListId ο) := fun t =>
    if t ∈ w.kernel.lists.get .defunct then some .defunct else none
  have hd : ∀ t l, d t = some l ↔ l = .defunct ∧ t ∈ w.kernel.lists.get .defunct := by
    intro t l
    by_cases ht : t ∈ w.kernel.lists.get .defunct
    · simp [d,ht,eq_comm]
    · simp [d,ht]
  refine ⟨d,fun t l h => ?_,fun l t => ?_,H.nodup⟩
  · rw [((hd t l).mp h).1]
    exact id
  · have hready : ∀ p, home w.kernel (Place.list ∘ w.place) d t = some (.ready p) ↔
        (w.kernel.thread t).stat = .ready ∧ (w.kernel.thread t).currentPriority = p := by
      intro p
      cases hs : (w.kernel.thread t).stat <;> simp [home,hs,H.place,Place.list,hd]
    have hdefunct : home w.kernel (Place.list ∘ w.place) d t = some .defunct ↔
        t ∈ w.kernel.lists.get .defunct := by
      have hclose := H.defunct t
      cases hs : (w.kernel.thread t).stat <;> simp_all [home,H.place,Place.list]
    cases l with
    | ready p => rw [H.ready,hready]
    | defunct => exact hdefunct.symm
    | suspend o =>
        rw [H.wait (.suspend o) trivial]
        cases hs : (w.kernel.thread t).stat <;> simp [home,hs,H.place,Place.list,hd]
    | sender o =>
        rw [H.wait (.sender o) trivial]
        cases hs : (w.kernel.thread t).stat <;> simp [home,hs,H.place,Place.list,hd]

theorem Invariant.membership (hd : ∀ t l, d t = some l → ¬l.IsWait) (H : Invariant d w) :
    Membership w := by
  refine ⟨fun l hl t => H.mem_wait hd hl,fun t l l' h h' => ?_,H.nodup⟩
  exact Option.some.inj (((H.mem l t).mp h).symm.trans ((H.mem l' t).mp h'))

variable [DecidableEq θ]

theorem sleeps_update (b : θ → Option (ListId ο)) (t : θ) (l : ListId ο) (blocked : Bool) :
    sleeps (Function.update b t none) t l blocked =
      Function.update b t (if blocked then some l else none) := by
  cases blocked <;> simp [sleeps]

/-- The waits of the others count when `t` acts. -/
theorem Invariant.acting (H : Invariant d w) (ht : (w.kernel.thread t).stat = .ready) :
    Homes w.kernel (Function.update (Place.list ∘ w.place) t none) d :=
  Homes.awake H (by simp [ht]) none

variable [DecidableEq ο]

theorem finish_invariant {k : IdealKernel ο θ} {x : Object θ} {p : Place ο} {l : ListId ο}
    {blocked : Bool}
    (H : Homes k (sleeps (Function.update (Place.list ∘ w.place) t none) t l blocked) d)
    (hp : p.list = if blocked then some l else none) : Invariant d (w.finish o t k x p) := by
  unfold Invariant System.finish
  rw [Function.comp_update,hp,← sleeps_update]
  exact H

theorem finish_idle {k : IdealKernel ο θ} {x : Object θ} {p : Place ο}
    (H : Homes k (Function.update (Place.list ∘ w.place) t none) d) (hp : p.list = none) :
    Invariant d (w.finish o t k x p) := by
  unfold Invariant System.finish
  rw [Function.comp_update,hp]
  exact H

theorem posted_invariant {k : IdealKernel ο θ} {m : MailBox} {value : BitVec 32} {r : Progress ℤ}
    (H : Homes k (sleeps (Function.update (Place.list ∘ w.place) t none) t (.sender o) r.isWaiting) d) :
    Invariant d (w.posted o t value (k,m,r)) := by
  cases r with
  | returned e => exact finish_invariant H rfl
  | waiting timeout tickDelta => exact finish_invariant H rfl

theorem fetched_invariant {k : IdealKernel ο θ} {m : MailBox}
    {r : Progress (ℤ × Option (BitVec 32))}
    (H : Homes k (sleeps (Function.update (Place.list ∘ w.place) t none) t (.suspend o) r.isWaiting) d) :
    Invariant d (w.fetched o t (k,m,r)) := by
  cases r with
  | returned e => exact finish_invariant H rfl
  | waiting timeout tickDelta => exact finish_invariant H rfl

theorem received_invariant {k : IdealKernel ο θ} {q : MessageQueue} {size : ℕ}
    {r : Progress (ℤ ⊕ ℕ)}
    (H : Homes k (sleeps (Function.update (Place.list ∘ w.place) t none) t (.suspend o) r.isWaiting) d) :
    Invariant d (w.received o t size (k,q,r)) := by
  cases r with
  | returned e =>
      cases e with
      | inl e => exact finish_invariant H rfl
      | inr msg => exact finish_invariant H rfl
  | waiting timeout tickDelta => exact finish_invariant H rfl

theorem Invariant.proceed (hd : ∀ t l, d t = some l → ¬l.IsWait) (H : Invariant d w)
    (ht : (w.kernel.thread t).stat = .ready) (h : w.proceed t = some w') : Invariant d w' := by
  have Ht := H.acting ht
  unfold System.proceed at h
  split at h
  · cases h
  · cases h
    exact finish_idle Ht rfl
  · cases h
    exact finish_idle Ht rfl
  · cases h
    exact finish_idle Ht rfl
  · split at h
    · obtain ⟨⟨k,m,r⟩,hr,rfl⟩ := Option.map_eq_some_iff.mp h
      apply posted_invariant
      unfold MailBox.sendProceed at hr
      split_ifs at hr
      · cases hr
        exact Ht
      · exact MailBox.sendLoop_homes Ht hd ht hr
    · cases h
  · split at h
    · obtain ⟨⟨k,m,r⟩,hr,rfl⟩ := Option.map_eq_some_iff.mp h
      apply fetched_invariant
      unfold MailBox.recvProceed at hr
      split_ifs at hr
      · cases hr
        exact Ht
      · exact MailBox.recvLoop_homes Ht hd ht hr
    · cases h
  · split at h
    · obtain ⟨⟨k,q,r⟩,hr,rfl⟩ := Option.map_eq_some_iff.mp h
      apply received_invariant
      unfold MessageQueue.recvProceed at hr
      split_ifs at hr
      · cases hr
        exact Ht
      · exact MessageQueue.recvLoop_homes Ht ht hr
    · cases h
  · split at h
    · obtain ⟨⟨k,e⟩,hr,rfl⟩ := Option.map_eq_some_iff.mp h
      exact finish_idle (MessageQueue.notify_homes hd Ht hr) rfl
    · cases h
  · split at h
    · cases h
      exact finish_idle Ht rfl
    · cases h

theorem Invariant.step {fuel : ℕ} (hd : ∀ t l, d t = some l → ¬l.IsWait) {c : Call ο θ}
    (H : Invariant d w) (hl : Legal w c) (hc : NoTimeout w c) (h : step fuel w c = some w') :
    Invariant d w' := by
  cases c with
  | take t o time =>
      have Ht := H.acting hl.2
      simp only [WaitMembership.step,System.ipc] at h
      split at h
      · obtain ⟨⟨k,v,r⟩,hr,rfl⟩ := Option.map_eq_some_iff.mp h
        exact finish_invariant (Semaphore.take_homes Ht hl.2 hr) (by cases r <;> rfl)
      · obtain ⟨⟨k,m,r⟩,hr,rfl⟩ := Option.map_eq_some_iff.mp h
        exact finish_invariant (Mutex.take_homes Ht hl.2 hr) (by cases r <;> rfl)
      · cases h
  | release t o =>
      simp only [WaitMembership.step,System.ipc] at h
      split at h
      · obtain ⟨⟨k,v,e⟩,hr,rfl⟩ := Option.map_eq_some_iff.mp h
        exact Semaphore.release_homes hd H hr
      · obtain ⟨⟨k,m,e⟩,hr,rfl⟩ := Option.map_eq_some_iff.mp h
        exact Mutex.release_homes hd H hr
      · cases h
  | recvEvent t o set option timeout =>
      have Ht := H.acting hl.2
      simp only [WaitMembership.step,System.ipc] at h
      split at h
      · obtain ⟨⟨k,v,r⟩,hr,rfl⟩ := Option.map_eq_some_iff.mp h
        exact finish_invariant (Event.recv_homes Ht hl.2 hr) (by cases r <;> rfl)
      · cases h
  | sendEvent o set =>
      simp only [WaitMembership.step,System.ipc] at h
      split at h
      · obtain ⟨⟨k,v,e⟩,hr,rfl⟩ := Option.map_eq_some_iff.mp h
        exact Event.send_homes hd H hr
      · cases h
  | sendWait t o value timeout =>
      have Ht := H.acting hl.2
      simp only [WaitMembership.step,System.ipc] at h
      split at h
      · obtain ⟨⟨k,m,r⟩,hr,rfl⟩ := Option.map_eq_some_iff.mp h
        apply posted_invariant
        unfold MailBox.sendWait at hr
        split_ifs at hr
        · cases hr
          exact Ht
        · exact MailBox.sendLoop_homes Ht hd hl.2 hr
      · cases h
  | recvMail t o timeout =>
      have Ht := H.acting hl.2
      simp only [WaitMembership.step,System.ipc] at h
      split at h
      · obtain ⟨⟨k,m,r⟩,hr,rfl⟩ := Option.map_eq_some_iff.mp h
        apply fetched_invariant
        unfold MailBox.recv at hr
        split_ifs at hr
        · cases hr
          exact Ht
        · exact MailBox.recvLoop_homes Ht hd hl.2 hr
      · cases h
  | sendMessage t o urgent buffer =>
      have Ht := H.acting hl.2
      simp only [WaitMembership.step,System.ipc] at h
      split at h
      · obtain ⟨⟨q,r⟩,-,rfl⟩ := Option.map_eq_some_iff.mp h
        cases r with
        | inl e => exact H
        | inr msg => exact finish_idle Ht rfl
      · cases h
  | recvMessage t o size timeout =>
      have Ht := H.acting hl.2
      simp only [WaitMembership.step,System.ipc] at h
      split at h
      · obtain ⟨⟨k,q,r⟩,hr,rfl⟩ := Option.map_eq_some_iff.mp h
        apply received_invariant
        unfold MessageQueue.recv at hr
        split_ifs at hr
        · cases hr
          exact Ht
        · exact MessageQueue.recvLoop_homes Ht hl.2 hr
      · cases h
  | proceed t => exact H.proceed hd hl h
  | expire t =>
      obtain ⟨k,hk,rfl⟩ := Option.map_eq_some_iff.mp h
      exact Homes.expire H hc hk
  | tick =>
      obtain ⟨k,hk,rfl⟩ := Option.map_eq_some_iff.mp h
      exact Homes.inclock H hk

/-- A thread whose wait has timed out is still in the list. -/
theorem Invariant.timeout {fuel : ℕ} (hd : ∀ t l, d t = some l → ¬l.IsWait) {c : Call ο θ}
    (H : Invariant d w) (hc : ¬NoTimeout w c) (h : WaitMembership.step fuel w c = some w') :
    ¬Membership w' := by
  cases c with
  | expire t =>
      obtain ⟨k,hk,rfl⟩ := Option.map_eq_some_iff.mp h
      obtain ⟨l,hl⟩ := Option.ne_none_iff_exists'.mp hc
      have hwait : l.IsWait := by
        cases hp : w.place t <;> simp_all [Place.list]
        all_goals
          subst hl
          trivial
      obtain ⟨hs,x,hx,hxs,-⟩ := expire_thread hk
      have ht : t ∈ w.kernel.lists.get l := (H.mem_wait hd hwait).mpr ⟨hs,hl⟩
      intro hm
      have := ((hm.wait l hwait t).mp (by rw [expire_queue hk hwait]; exact ht)).1
      simp [hx,hxs] at this
  | _ => exact absurd trivial hc

/-- In every state of a run the wait lists hold the threads that sleep in them, if and only
if no timer of a thread in a wait expires. -/
theorem wait_lists_hold_sleepers_iff {fuel : ℕ} {cs : List (Call ο θ)} (hstart : Start w)
    (hlegal : AllSteps (WaitMembership.step fuel) Legal w cs) :
    Throughout (WaitMembership.step fuel) Membership w cs ↔
      AllSteps (WaitMembership.step fuel)
        (fun w c => NoTimeout w c ∨ (WaitMembership.step fuel w c).isNone = true) w cs := by
  obtain ⟨d,hd,H⟩ := hstart.invariant
  exact throughout_iff (I := Invariant d) (fun _ H => H.membership hd)
    (fun _ _ _ H hl hc h => H.step hd hl hc h) (fun _ _ _ H _ hc h => H.timeout hd hc h) H hlegal

section concrete

omit [DecidableEq θ] in
instance (w : World ο θ) : ∀ c, Decidable (Legal w c)
  | .take t _ _ | .recvEvent t _ _ _ _ | .sendWait t _ _ _ | .recvMail t _ _
  | .sendMessage t _ _ _ | .recvMessage t _ _ _ =>
      inferInstanceAs (Decidable (w.place t = .idle ∧ (w.kernel.thread t).stat = .ready))
  | .proceed t => inferInstanceAs (Decidable ((w.kernel.thread t).stat = .ready))
  | .expire t => inferInstanceAs (Decidable ((w.kernel.thread t).timerActive = true))
  | .release _ _ | .sendEvent _ _ | .tick => .isTrue trivial

omit [DecidableEq θ] in
instance (w : World ο θ) : ∀ c, Decidable (NoTimeout w c)
  | .expire t => inferInstanceAs (Decidable ((w.place t).list = none))
  | .take _ _ _ | .recvEvent _ _ _ _ _ | .sendWait _ _ _ _ | .recvMail _ _ _
  | .sendMessage _ _ _ _ | .recvMessage _ _ _ _ | .proceed _ | .release _ _ | .sendEvent _ _
  | .tick => .isTrue trivial

end concrete

/-- An idle thread, three others, and one object of each kind. -/
def oneOfEach : World (Fin 5) (Fin 4) where
  kernel := Scheduler.startedKernel ![254,20,20,20]
  tick := 0
  object := ![.semaphore 0,.mutex Mutex.new,.event 0,.mailbox ⟨fun _ => 0,1,0,0,0⟩,
    .queue ⟨fun _ => none,fun _ => [],4,0,none,none,some 0⟩]
  place _ := .idle

theorem oneOfEach_start : Start oneOfEach := by
  have hwait : ∀ o, oneOfEach.kernel.lists.get (.suspend o) = [] ∧
      oneOfEach.kernel.lists.get (.sender o) = [] := by decide +kernel
  have hdefunct : oneOfEach.kernel.lists.get .defunct = [] := by decide +kernel
  have hready : ∀ p t, t ∈ oneOfEach.kernel.lists.get (.ready p) ↔
      (oneOfEach.kernel.thread t).stat = .ready ∧
        (oneOfEach.kernel.thread t).currentPriority = p := by decide +kernel
  have hnodup : ∀ p, (oneOfEach.kernel.lists.get (.ready p)).Nodup := by decide +kernel
  refine ⟨fun _ => rfl,fun l hl => ?_,hready,by simp [hdefunct],fun l => ?_⟩
  · cases l with
    | suspend o => exact (hwait o).1
    | sender o => exact (hwait o).2
    | ready | defunct => exact hl.elim
  · cases l with
    | suspend o => simp [(hwait o).1]
    | sender o => simp [(hwait o).2]
    | defunct => simp [hdefunct]
    | ready p => exact hnodup p

/-- A wait on each of the objects, and the operation that ends it. -/
def everyWait : List (Call (Fin 5) (Fin 4)) :=
  [.take 1 0 7,.release 2 0,.proceed 1,.take 1 1 (-1),.take 2 1 (-1),.release 1 1,.proceed 2,
    .recvEvent 1 2 3 Event.FLAG_OR (-1),.tick,.sendEvent 2 1,.proceed 1,.sendWait 1 3 8 0,
    .sendWait 2 3 9 5,.recvMail 3 3 0,.proceed 2,.recvMessage 1 4 4 (-1),.sendMessage 2 4 false [5],
    .proceed 2,.proceed 1,.proceed 1]

theorem wait_lists_hold_sleepers_everyWait :
    (everyWait.foldlM (step 4) oneOfEach).isSome = true ∧
    Throughout (step 4) Membership oneOfEach everyWait :=
  ⟨by decide +kernel,(wait_lists_hold_sleepers_iff oneOfEach_start (by decide +kernel)).mpr
    (by decide +kernel)⟩

/-- The wait of thread 1 on the semaphore times out. The thread has left `take`, but it is in
the suspend list and in the ready list. -/
def timedOut : List (Call (Fin 5) (Fin 4)) := [.take 1 0 5,.expire 1,.proceed 1]

theorem timedOut_stays_in_list : AllSteps (step 4) Legal oneOfEach timedOut ∧
    ((timedOut.foldlM (step 4) oneOfEach).map fun w => (w.kernel.lists.get (.suspend 0),
      w.kernel.lists.get (.ready 20),(w.kernel.thread 1).stat,w.place 1)) =
      some ([1],[2,3,1],.ready,.idle) ∧
    ¬Throughout (step 4) Membership oneOfEach timedOut := by
  have hfacts : ((timedOut.foldlM (step 4) oneOfEach).map fun w =>
      (w.kernel.lists.get (.suspend 0),w.kernel.lists.get (.ready 20),(w.kernel.thread 1).stat,
        w.place 1)) = some ([1],[2,3,1],.ready,.idle) := by decide +kernel
  refine ⟨by decide +kernel,hfacts,fun h => ?_⟩
  obtain ⟨w,hw,hfacts⟩ := Option.map_eq_some_iff.mp hfacts
  simp only [Prod.mk.injEq] at hfacts
  obtain ⟨hlist,-,hstat,-⟩ := hfacts
  have hmem := ((h.last hw).wait (.suspend 0) trivial 1).mp (by rw [hlist]; simp)
  cases hstat.symm.trans hmem.1

end CosKernel.WaitMembership

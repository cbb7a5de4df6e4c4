import CosKernel.KernelEffects
import CosKernel.KernelSystem

/-!
# Invariants of the kernel

The operations of inter-process communication are built from a few operations of threads, lists and
timers. An invariant that these keep is kept by every call of the five kinds of objects, in every
part of it and whatever the lists are. What a thread may do is said by its roles. What can be read of
a wait list is such an invariant for the calls on other objects.
-/
namespace CosKernel
open PartialMorphisms Kernel

/-- What the scheduler and the timers know of a thread. -/
structure SameState (x y : Thread) : Prop where
  stat : y.stat = x.stat
  priority : y.currentPriority = x.currentPriority
  timer : y.timerActive = x.timerActive

/-- What an event knows of a thread that waits on it. -/
structure SameRequest (x y : Thread) : Prop where
  set : y.eventSet = x.eventSet
  info : y.eventInfo = x.eventInfo

/-- At most what events and callers know of `t` has changed. -/
def Altered {σ θ : Type} [DecidableEq θ] (t : θ) (k k₁ : Kernel σ θ) : Prop :=
  ∃ x, SameState (k.thread t) x ∧ k₁ = {k with thread := Function.update k.thread t x}

theorem altered_self {σ θ : Type} [DecidableEq θ] (t : θ) (k : Kernel σ θ) : Altered t k k :=
  ⟨k.thread t,⟨rfl,rfl,rfl⟩,by simp⟩

theorem altered_modify {σ θ : Type} [DecidableEq θ] {t : θ} {k : Kernel σ θ} {g : Thread → Thread}
    (h : ∀ x, SameState x (g x)) : Altered t k (k.modify t g) :=
  ⟨g (k.thread t),h _,rfl⟩

theorem altered_setError {σ θ : Type} [DecidableEq θ] {t : θ} {k : Kernel σ θ} (e : ℤ) :
    Altered t k (k.setError t e) :=
  altered_modify fun _ => ⟨rfl,rfl,rfl⟩

/-- A list answers with the thread `t`. -/
def Found {σ ο θ : Type} [ListFamily σ (ListId ο) θ] (s : σ) (l : ListId ο) (t : θ) : Prop :=
  ListFamily.front s l = some t ∨ ListFamily.begin s l = some t ∨
    ∃ u, ListFamily.next s l u = some t

/-- The threads that act, that is, may be suspended or end, those that may wait in lists and those
that are started, or woken by others and by timers; the lists in question, and who is found in them. -/
structure Roles (ο θ : Type) where
  acts : θ → Prop
  waits : θ → Prop
  wakes : θ → Prop
  list : ListId ο → Prop
  finds : ListId ο → θ → Prop

/-- Anything may happen to any thread. -/
def Roles.all (ο θ : Type) : Roles ο θ where
  acts _ := True
  waits _ := True
  wakes _ := True
  list l := l.IsWait
  finds _ _ := True

/-- What events know of a thread changes when it asks for events, and when it is resumed. -/
structure KernelInvariant {σ ο θ : Type} [DecidableEq θ] [ListFamily σ (ListId ο) θ] (ρ : Roles ο θ)
    (I : Kernel σ θ → Prop) : Prop where
  found : ∀ {k l t}, ρ.list l → I k → Found k.lists l t → ρ.finds l t
  modify : ∀ {k t} {g : Thread → Thread}, ρ.acts t → (∀ x, SameState x (g x)) →
    (∀ x, SameRequest x (g x)) → I k → I (k.modify t g)
  request : ∀ {k t} {g : Thread → Thread}, ρ.waits t → (∀ x, SameState x (g x)) → I k →
    I (k.modify t g)
  suspend : ∀ {k t}, ρ.acts t → I k → Yields (fun r => I r.1) (k.suspend t)
  changePriority : ∀ {k} t p, I k → Yields I (k.changePriority t p)
  timerStart : ∀ {k t} tick, ρ.acts t → (k.thread t).stat = .suspend → I k →
    Yields I (k.timerStart t tick)
  pushBack : ∀ {k l t}, ρ.list l → ρ.waits t → I k →
    Yields (fun s => I {k with lists := s}) (ListFamily.pushBack k.lists l t)
  wake : ∀ {k k₁ l t}, ρ.list l → ρ.finds l t → Altered t k k₁ → I k →
    Yields (fun r => I r.1) (do
      let lists ← ListFamily.erase k₁.lists l t
      Kernel.resume {k₁ with lists := lists} t)
  process : ∀ {k}, I k → Yields I k.process

section

variable {σ ο θ : Type} [DecidableEq θ] [ListFamily σ (ListId ο) θ] {ρ : Roles ο θ}
variable {I : Kernel σ θ → Prop} (K : KernelInvariant ρ I)
variable {k k₁ : Kernel σ θ} {o : ο} {t : θ}

namespace KernelInvariant
include K

theorem setError (e : ℤ) (hA : ρ.acts t) (h : I k) : I (k.setError t e) :=
  K.modify hA (fun _ => ⟨rfl,rfl,rfl⟩) (fun _ => ⟨rfl,rfl⟩) h

theorem startTimer (time : BitVec 32) (hA : ρ.acts t) (ht : (k.thread t).stat = .suspend) (h : I k) :
    Yields I (k.startTimer t time) :=
  Yields.ite (fun _ => K.timerStart _ hA ht h) fun _ => yields_some h

/-- The blocking part of every wait. -/
theorem park {α : Type} {l : ListId ο} (hl : ρ.list l) (time : BitVec 32) (r : α) (hA : ρ.acts t ∧ ρ.waits t)
    (ht : (k.thread t).stat = .ready) (h : I k) :
    Yields (fun r => I r.1)
      (do let (k,_) ← k.suspend t
          let lists ← ListFamily.pushBack k.lists l t
          let k ← Kernel.startTimer {k with lists := lists} t time
          let k ← k.process
          some (k,r)) := by
  refine Yields.bind (P := fun r : Kernel σ θ × ℤ => I r.1 ∧ (r.1.thread t).stat = .suspend)
    (fun r hr => ⟨K.suspend hA.1 h r hr,?_⟩) fun r hr => ?_
  · obtain ⟨s,p,-,hk⟩ := suspend_some ht hr
    rw [hk]
    simp
  · refine (K.pushBack hl hA.2 hr.1).bind fun s hs => ?_
    refine (K.startTimer (k := {r.1 with lists := s}) time hA.1 hr.2 hs).bind fun k₂ h₂ => ?_
    exact (K.process h₂).bind fun k₃ h₃ => yields_some h₃

theorem block {α : Type} (hl : ρ.list (.suspend o)) (time : BitVec 32) (r : α) (hA : ρ.acts t ∧ ρ.waits t)
    (ht : (k.thread t).stat = .ready) (h : I k) :
    Yields (fun r => I r.1)
      (do let k ← k.listSuspend o t
          let k ← k.startTimer t time
          let k ← k.process
          some (k,r)) := by
  have hpark := K.park hl time r hA ht h
  unfold listSuspend
  intro r' hr'
  refine hpark r' ?_
  simp only [Option.bind_eq_bind,Option.bind_assoc,Option.bind_some] at hr' ⊢
  exact hr'

/-- A thread is taken out of its list and resumed, and then the rest is done. -/
theorem wakeThen {α : Type} {P : α → Prop} {l : ListId ο} {f : Kernel σ θ × ℤ → Option α} (hl : ρ.list l)
    (ht : ρ.finds l t) (hk : Altered t k k₁) (h : I k)
    (hf : ∀ r : Kernel σ θ × ℤ, I r.1 → Yields P (f r)) :
    Yields P (ListFamily.erase k₁.lists l t >>= fun lists =>
      Kernel.resume {k₁ with lists := lists} t >>= f) := by
  have hw := (K.wake hl ht hk h).bind hf
  intro a ha
  refine hw a ?_
  simp only [Option.bind_eq_bind,Option.bind_assoc] at ha ⊢
  exact ha

theorem listResume (hl : ρ.list (.suspend o)) (h : I k) : Yields (fun r => I r.1) (k.listResume o) := by
  unfold Kernel.listResume
  cases hf : ListFamily.front k.lists (ListId.suspend o) with
  | none => exact yields_some h
  | some t =>
      exact K.wakeThen hl (K.found hl h (.inl hf)) (altered_self t k) h fun r hr => yields_some hr

theorem listResumeAll (hl : ρ.list (.suspend o)) (fuel : ℕ) (h : I k) :
    Yields I (listResumeAll o fuel k) := by
  induction fuel generalizing k with
  | zero => exact yields_none
  | succ fuel ih =>
      refine Yields.ite (fun _ => yields_some h) fun _ => yields_bind fun t hf => ?_
      have ht := K.found hl h (.inl hf)
      exact K.wakeThen hl ht (altered_setError (-ERR_ERROR)) h fun _ hr => ih hr

theorem senderResumeAll (hl : ρ.list (.sender o)) (fuel : ℕ) (h : I k) :
    Yields I (MailBox.resumeAll o fuel k) := by
  induction fuel generalizing k with
  | zero => exact yields_none
  | succ fuel ih =>
      refine Yields.ite (fun _ => yields_some h) fun _ => yields_bind fun t hf => ?_
      have ht := K.found hl h (.inl hf)
      exact K.wakeThen hl ht (altered_setError (-ERR_ERROR)) h fun _ hr => ih hr

section semaphores

variable (hl : ρ.list (.suspend o)) (value : BitVec 16)
include hl

theorem semaphoreTake (time : BitVec 32) (hA : ρ.acts t ∧ ρ.waits t) (ht : (k.thread t).stat = .ready) (h : I k) :
    Yields (fun r => I r.1) (Semaphore.take k o value t time) := by
  refine Yields.ite (fun _ => yields_some h) fun _ => Yields.ite (fun _ => yields_some h) fun _ => ?_
  exact K.block hl time (value,none) hA (by simpa [Kernel.setError] using ht)
    (K.setError _ hA.1 h)

theorem semaphoreRelease (h : I k) : Yields (fun r => I r.1) (Semaphore.release k o value) := by
  refine (K.listResume hl h).bind fun r hr => Yields.ite (fun _ => ?_) fun _ => yields_some hr
  exact (K.process hr).bind fun k' hk' => yields_some hk'

theorem semaphoreControl (fuel : ℕ) (cmd : BitVec 8) (arg : BitVec 32) (h : I k) :
    Yields (fun r => I r.1) (Semaphore.control fuel k o value cmd arg) := by
  refine Yields.ite (fun _ => ?_) fun _ => yields_some h
  exact (K.listResumeAll hl fuel h).bind fun k₁ h₁ => (K.process h₁).bind fun k₂ h₂ => yields_some h₂

end semaphores

section mutexes

variable (hl : ρ.list (.suspend o)) (m : Mutex θ)
include hl

theorem mutexTake (time : BitVec 32) (hA : ρ.acts t ∧ ρ.waits t) (ht : (k.thread t).stat = .ready) (h : I k) :
    Yields (fun r => I r.1) (Mutex.take k o m t time) := by
  have hk := K.setError ERR_OK hA.1 h
  refine Yields.ite (fun _ => yields_some hk) fun _ => Yields.ite (fun _ => yields_some hk) fun _ => ?_
  refine Yields.ite (fun _ => yields_some (K.setError _ hA.1 hk)) fun _ => yields_bind fun u _ => ?_
  refine Yields.bind (P := fun k₁ : Kernel σ θ => I k₁ ∧ (k₁.thread t).stat = .ready)
    (fun k₁ hk₁ => ?_) fun k₁ h₁ => K.block hl time (m,none) hA h₁.2 h₁.1
  have ht : ((k.setError t ERR_OK).thread t).stat = .ready := by simpa [Kernel.setError] using ht
  unfold Mutex.inherit at hk₁
  split_ifs at hk₁
  · refine ⟨K.changePriority u _ hk k₁ hk₁,?_⟩
    rw [(changePriority_some hk₁).1]
    by_cases htu : t = u
    · subst htu
      simpa using ht
    · simpa [htu] using ht
  · cases hk₁
    exact ⟨hk,ht⟩

theorem mutexRelease (hA : ρ.acts t) (h : I k) : Yields (fun r => I r.1) (Mutex.release k o m t) := by
  refine Yields.ite (fun _ => yields_some (K.setError _ hA h)) fun _ => ?_
  refine Yields.ite (fun _ => ?_) fun _ => yields_some h
  refine Yields.bind (P := fun r : Kernel σ θ × Mutex θ => I r.1) ?_ fun r hr => yields_some hr
  refine Yields.bind (P := I) ?_ fun k₁ h₁ => Yields.ite (fun _ => yields_some h₁) fun _ => ?_
  · exact Yields.ite (fun _ => yields_bind fun p _ => K.changePriority t p h) fun _ => yields_some h
  · refine yields_bind fun u _ => (K.listResume hl h₁).bind fun r hr => ?_
    exact (K.process hr).bind fun k₂ h₂ => yields_some h₂

end mutexes

section events

variable (hl : ρ.list (.suspend o)) (set_ : BitVec 32)
include hl

theorem eventRecv (set : BitVec 32) (option : BitVec 8) (timeout : BitVec 32) (hA : ρ.acts t ∧ ρ.waits t)
    (ht : (k.thread t).stat = .ready) (h : I k) :
    Yields (fun r => I r.1) (Event.recv k o set_ t set option timeout) := by
  have hk := K.setError ERR_OK hA.1 h
  refine Yields.ite (fun _ => yields_some h) fun _ => Yields.ite (fun _ => yields_none) fun _ => ?_
  refine Yields.ite (fun _ => yields_some hk) fun _ => ?_
  refine Yields.ite (fun _ => yields_some (K.setError _ hA.1 hk)) fun _ => ?_
  exact K.block hl timeout (set_,none) hA (by simpa [Kernel.setError] using ht)
    (K.request hA.2 (fun _ => ⟨rfl,rfl,rfl⟩) hk)

theorem eventSendLoop (fuel : ℕ) (next : Option θ) (need : Bool)
    (hnext : ∀ t, next = some t → ρ.finds (.suspend o) t) (h : I k) :
    Yields (fun r => I r.1) (Event.sendLoop o fuel k set_ next need) := by
  induction fuel generalizing k set_ next need with
  | zero =>
      cases next with
      | none => exact yields_some h
      | some t => exact yields_none
  | succ fuel ih =>
      cases next with
      | none => exact yields_some h
      | some t =>
          have hrest : ∀ u, ListFamily.next k.lists (ListId.suspend o) t = some u →
              ρ.finds (.suspend o) u := fun u hu => K.found hl h (.inr (.inr ⟨t,hu⟩))
          unfold Event.sendLoop
          refine Yields.ite (fun _ => ?_) fun _ => ih set_ _ need hrest h
          have hk : Altered t k (if (k.thread t).eventInfo &&& Event.FLAG_AND = 0 then
              k.modify t fun x => {x with eventSet := x.eventSet &&& set_} else k) := by
            split_ifs
            · exact altered_modify fun _ => ⟨rfl,rfl,rfl⟩
            · exact altered_self t k
          exact K.wakeThen hl (hnext t rfl) hk h fun r hr => ih _ _ true hrest hr

theorem eventSend (fuel : ℕ) (set : BitVec 32) (h : I k) :
    Yields (fun r => I r.1) (Event.send fuel k o set_ set) := by
  refine Yields.ite (fun _ => yields_some h) fun _ => ?_
  refine (K.eventSendLoop hl _ fuel _ false (fun t ht => K.found hl h (.inr (.inl ht))) h).bind
    fun r hr => Yields.ite (fun _ => ?_) fun _ => ?_
  · exact (K.process hr).bind fun k' hk' => yields_some hk'
  · exact (yields_some hr).bind fun k' hk' => yields_some hk'

theorem eventControl (fuel : ℕ) (cmd : BitVec 8) (h : I k) :
    Yields (fun r => I r.1) (Event.control fuel k o set_ cmd) := by
  refine Yields.ite (fun _ => ?_) fun _ => yields_some h
  exact (K.listResumeAll hl fuel h).bind fun k₁ h₁ => (K.process h₁).bind fun k₂ h₂ => yields_some h₂

end events

section mailboxes

variable (hl : ρ.list (.suspend o)) (hs : ρ.list (.sender o)) (m : MailBox) (tick timeout tickDelta : BitVec 32)
include hl hs

theorem mailSendLoop (value : BitVec 32) (hA : ρ.acts t ∧ ρ.waits t) (ht : (k.thread t).stat = .ready) (h : I k) :
    Yields (fun r => I r.1) (MailBox.sendLoop k o m tick t value timeout tickDelta) := by
  have hk := K.setError ERR_OK hA.1 h
  refine Yields.ite (fun _ => ?_) fun _ => ?_
  · refine Yields.ite (fun _ => yields_some hk) fun _ => ?_
    exact K.park hs timeout _ hA (by simpa [Kernel.setError] using ht) hk
  · refine (K.listResume hl h).bind fun r hr => Yields.ite (fun _ => ?_) fun _ => ?_
    · exact (K.process hr).bind fun k' hk' => yields_some hk'
    · exact (yields_some hr).bind fun k' hk' => yields_some hk'

theorem mailSendWait (value : BitVec 32) (hA : ρ.acts t ∧ ρ.waits t) (ht : (k.thread t).stat = .ready) (h : I k) :
    Yields (fun r => I r.1) (MailBox.sendWait k o m tick t value timeout) :=
  Yields.ite (fun _ => yields_some h) fun _ => K.mailSendLoop hl hs m tick timeout 0 value hA ht h

theorem mailSendProceed (value : BitVec 32) (hA : ρ.acts t ∧ ρ.waits t) (ht : (k.thread t).stat = .ready) (h : I k) :
    Yields (fun r => I r.1) (MailBox.sendProceed k o m tick t value timeout tickDelta) :=
  Yields.ite (fun _ => yields_some h) fun _ => K.mailSendLoop hl hs m tick _ _ value hA ht h

theorem mailRecvLoop (hA : ρ.acts t ∧ ρ.waits t) (ht : (k.thread t).stat = .ready) (h : I k) :
    Yields (fun r => I r.1) (MailBox.recvLoop k o m tick t timeout tickDelta) := by
  have hk := K.setError ERR_OK hA.1 h
  refine Yields.ite (fun _ => ?_) fun _ => Yields.ite (fun _ => yields_some h) fun _ => ?_
  · refine Yields.ite (fun _ => yields_some (K.setError _ hA.1 hk)) fun _ => ?_
    exact K.block hl timeout _ hA (by simpa [Kernel.setError] using ht) hk
  · refine yields_bind fun u hf => K.wakeThen hs (K.found hs h (.inl hf)) (altered_self u k) h
      fun r hr => ?_
    exact (K.process hr).bind fun k' hk' => yields_some hk'

theorem mailRecv (hA : ρ.acts t ∧ ρ.waits t) (ht : (k.thread t).stat = .ready) (h : I k) :
    Yields (fun r => I r.1) (MailBox.recv k o m tick t timeout) :=
  Yields.ite (fun _ => yields_some h) fun _ => K.mailRecvLoop hl hs m tick timeout 0 hA ht h

theorem mailRecvProceed (hA : ρ.acts t ∧ ρ.waits t) (ht : (k.thread t).stat = .ready) (h : I k) :
    Yields (fun r => I r.1) (MailBox.recvProceed k o m tick t timeout tickDelta) :=
  Yields.ite (fun _ => yields_some h) fun _ => K.mailRecvLoop hl hs m tick _ _ hA ht h

theorem mailControl (fuel : ℕ) (cmd : BitVec 8) (h : I k) :
    Yields (fun r => I r.1) (MailBox.control fuel k o m cmd) := by
  refine Yields.ite (fun _ => ?_) fun _ => yields_some h
  exact (K.listResumeAll hl fuel h).bind fun k₁ h₁ => (K.senderResumeAll hs fuel h₁).bind fun k₂ h₂ =>
    (K.process h₂).bind fun k₃ h₃ => yields_some h₃

end mailboxes

section queues

variable (hl : ρ.list (.suspend o)) (q : MessageQueue) (tick timeout tickDelta : BitVec 32)
include hl

theorem queueNotify (h : I k) : Yields (fun r => I r.1) (MessageQueue.notify k o) := by
  refine Yields.ite (fun _ => yields_some h) fun _ => (K.listResume hl h).bind fun r hr => ?_
  exact (K.process hr).bind fun k' hk' => yields_some hk'

theorem queueRecvLoop (hA : ρ.acts t ∧ ρ.waits t) (ht : (k.thread t).stat = .ready) (h : I k) :
    Yields (fun r => I r.1) (MessageQueue.recvLoop k o q tick t timeout tickDelta) := by
  have hk := K.setError ERR_OK hA.1 h
  refine Yields.ite (fun _ => ?_) fun _ => yields_bind fun msg _ => yields_some h
  refine Yields.ite (fun _ => yields_some (K.setError _ hA.1 hk)) fun _ => ?_
  exact K.block hl timeout _ hA (by simpa [Kernel.setError] using ht) hk

theorem queueRecv (size : ℕ) (hA : ρ.acts t ∧ ρ.waits t) (ht : (k.thread t).stat = .ready) (h : I k) :
    Yields (fun r => I r.1) (MessageQueue.recv k o q tick t size timeout) :=
  Yields.ite (fun _ => yields_none) fun _ => Yields.ite (fun _ => yields_some h) fun _ =>
    K.queueRecvLoop hl q tick timeout 0 hA ht h

theorem queueRecvProceed (hA : ρ.acts t ∧ ρ.waits t) (ht : (k.thread t).stat = .ready) (h : I k) :
    Yields (fun r => I r.1) (MessageQueue.recvProceed k o q tick t timeout tickDelta) :=
  Yields.ite (fun _ => yields_some h) fun _ => K.queueRecvLoop hl q tick _ _ hA ht h

theorem queueControl (fuel : ℕ) (cmd : BitVec 8) (h : I k) :
    Yields (fun r => I r.1) (MessageQueue.control fuel k o q cmd) := by
  refine Yields.ite (fun _ => ?_) fun _ => yields_some h
  exact (K.listResumeAll hl fuel h).bind fun k₁ h₁ => yields_bind fun q' _ =>
    (K.process h₁).bind fun k₂ h₂ => yields_some h₂

end queues

end KernelInvariant

end

/-- The rest of what happens to threads: they are started, expire, end and take turns. -/
structure SystemInvariant {σ ο θ : Type} [DecidableEq θ] [ListFamily σ (ListId ο) θ]
    (ρ : Roles ο θ) (I : Kernel σ θ → Prop) : Prop
    extends KernelInvariant ρ I where
  spend : ∀ {k t} {g : Thread → BitVec 32}, I k →
    I (k.modify t fun x => {x with remainingTick := g x})
  current : ∀ {k} c n, I k → I {k with currentThread := c, lockNest := n}
  begin : ∀ {k t}, ρ.wakes t → (k.thread t).stat = .init → I k → Yields (fun r => I r.1)
    ((k.modify t fun x => {x with currentPriority := x.initPriority, stat := .suspend}).resume t)
  resume : ∀ {k t}, ρ.wakes t → I k → Yields (fun r => I r.1) (k.resume t)
  expire : ∀ {k t}, ρ.wakes t → (k.thread t).timerActive = true → I k → Yields I (k.expire t)
  rotate : ∀ {k t s₁ s₂}, (k.thread t).stat = .ready → I k →
    ListFamily.erase k.lists (ListId.ready (k.thread t).currentPriority) t = some s₁ →
    ListFamily.pushBack s₁ (ListId.ready (k.thread t).currentPriority) t = some s₂ →
    I {k with lists := s₂}
  remove : ∀ {k} t, I k → Yields I (k.removeThread t)
  close : ∀ {k t}, ρ.acts t → I k → I (k.modify t fun x => {x with timerActive := false, stat := .close})
  defunct : ∀ {k} t, I k → Yields (fun s => I {k with lists := s})
    (ListFamily.pushBack k.lists ListId.defunct t)
  reap : ∀ {k} t, I k → Yields (fun s => I {k with lists := s})
    (ListFamily.erase k.lists ListId.defunct t)

namespace SystemInvariant

variable {σ ο θ : Type} [DecidableEq θ] [ListFamily σ (ListId ο) θ] {ρ : Roles ο θ}
variable {I : Kernel σ θ → Prop} (K : SystemInvariant ρ I)
variable {k : Kernel σ θ} {t : θ}
include K

theorem startup (hw : ρ.wakes t) (h : I k) : Yields I (k.startup t) := by
  refine Yields.ite (fun _ => yields_none) fun ht => (K.begin hw (not_not.mp ht) h).bind fun r hr => ?_
  exact Yields.ite (fun _ => K.process hr) fun _ => yields_some hr

theorem start (h : I k) : Yields I k.start := by
  refine yields_bind fun c _ => ?_
  cases c with
  | none => exact yields_none
  | some t => exact yields_some (K.current (some t) k.lockNest h)

theorem inclock (h : I k) : Yields I k.inclock := by
  unfold Kernel.inclock
  cases k.currentThread with
  | none => exact yields_some h
  | some t =>
      have h₁ := K.spend (t := t) (g := fun x => x.remainingTick-1) h
      have h₂ := K.spend (t := t) (g := Thread.initTick) h₁
      refine Yields.ite (fun _ => yields_some h₁) fun _ => ?_
      refine Yields.ite (fun _ => yields_some h₂) fun hready => yields_bind fun s₁ hs₁ => ?_
      exact yields_bind fun s₂ hs₂ => K.process (K.rotate (not_not.mp hready) h₂ hs₁ hs₂)

/-- The thread that sleeps is a ready one. -/
theorem sleep (tick : ℕ) (hc : ∀ t, k.currentThread = some t → ρ.acts t ∧ (k.thread t).stat = .ready)
    (h : I k) : Yields I (k.sleep tick) := by
  refine yields_bind fun t ht => yields_bind fun r hr => ?_
  obtain ⟨hA,hready⟩ := hc t ht
  have hstat : (r.1.thread t).stat = .suspend := by
    obtain ⟨s,q,-,hk⟩ := suspend_some hready hr
    rw [hk]
    simp
  exact (K.timerStart tick hA hstat (K.suspend hA h r hr)).bind fun k₂ h₂ => K.process h₂

theorem sleepReturn (ht : ρ.acts t) (h : I k) : I (k.sleepReturn t) :=
  K.modify ht (fun _ => ⟨rfl,rfl,rfl⟩) (fun _ => ⟨rfl,rfl⟩) h

theorem detach (deleteLater : Bool) (hA : ρ.acts t) (h : I k) : Yields I (k.detach t deleteLater) := by
  refine (K.remove t h).bind fun k₁ h₁ => Yields.ite (fun _ => ?_) fun _ => yields_some (K.close hA h₁)
  exact (K.defunct t (K.close hA h₁)).bind fun s hs => yields_some hs

theorem exit (hc : ∀ t, k.currentThread = some t → ρ.acts t) (h : I k) : Yields I k.exit :=
  yields_bind fun t ht => (K.remove t h).bind fun _ h₁ => (K.detach true (hc t ht) h₁).bind
    fun _ => K.process

theorem excute (fuel : ℕ) (hc : ∀ t, ListFamily.front k.lists (ListId.defunct (ο := ο)) = some t → ρ.acts t)
    (h : I k) : Yields (fun r => I r.1) (Kernel.excute fuel k) := by
  refine yields_bind fun n _ => Yields.ite (fun _ => yields_some h) fun _ => yields_bind fun t ht => ?_
  exact (K.reap t h).bind fun s hs => (K.detach false (hc t ht) hs).bind fun k₁ h₁ => yields_some h₁

theorem exitCritical (h : I k) : Yields I (CriticalSections.exitCritical ο k) :=
  Yields.ite (fun _ => K.process (K.current k.currentThread 0 h)) fun _ =>
    yields_some (K.current k.currentThread _ h)

end SystemInvariant

namespace Kernel

section

variable {σ ο θ α : Type} [DecidableEq θ] [ListFamily σ (ListId ο) θ]
variable {k k' : Kernel σ θ} {l l₀ : ListId ο} {f : σ → α} {a : α} {t : θ}

/-- Anything may happen, but not in the list `l₀`. -/
def others (l₀ : ListId ο) : Roles ο θ := {Roles.all ο θ with list := fun l => l.IsWait ∧ l ≠ l₀}

/-- What `f` reads changes by operations on the list `l₀` only. -/
structure Reads (l₀ : ListId ο) (f : σ → α) : Prop where
  pushBack : ∀ {s s' l t}, l ≠ l₀ → ListFamily.pushBack s l t = some s' → f s' = f s
  erase : ∀ {s s' l t}, l ≠ l₀ → ListFamily.erase s l t = some s' → f s' = f s

/-- In the lists of the kernel `f` reads `a`. -/
def Holds (f : σ → α) (a : α) (k : Kernel σ θ) : Prop := f k.lists = a

omit [DecidableEq θ] in
theorem reads_empty [LocalLists σ] (l₀ : ListId ο) :
    Reads l₀ fun s : σ => ListFamily.empty s l₀ :=
  ⟨fun hl => LocalLists.pushBack hl.symm,fun hl => LocalLists.erase hl.symm⟩

omit [DecidableEq θ] [ListFamily σ (ListId ο) θ] in
theorem isWait_ne_ready (hl : l.IsWait) (p : Priority) : l ≠ .ready p := by
  rintro rfl
  exact hl

omit [DecidableEq θ] [ListFamily σ (ListId ο) θ] in
theorem isWait_ne_defunct (hl : l.IsWait) : l ≠ .defunct := by
  rintro rfl
  exact hl

variable (F : Reads l₀ f) (hwait : l₀.IsWait)
include F hwait

omit [DecidableEq θ] in
theorem Holds.removeThread (H : Holds f a k) : Yields (Holds f a) (k.removeThread t) := by
  intro k' hk'
  obtain ⟨s,r,hs,rfl⟩ := removeThread_some hk'
  exact (F.erase (isWait_ne_ready hwait _).symm hs).trans H

theorem Holds.insertThread (H : Holds f a k) : Yields (Holds f a) (k.insertThread t) := by
  intro k' hk'
  obtain ⟨s,r,hs,rfl⟩ := insertThread_some hk'
  exact (F.pushBack (isWait_ne_ready hwait _).symm hs).trans H

theorem Holds.suspend (H : Holds f a k) : Yields (fun r => Holds f a r.1) (k.suspend t) := by
  refine Yields.ite (fun _ => yields_some H) fun _ => ?_
  exact (Holds.removeThread F hwait (k := k.modify t _) H).bind fun k₁ h₁ => yields_some h₁

theorem Holds.resume (H : Holds f a k) : Yields (fun r => Holds f a r.1) (k.resume t) := by
  refine Yields.ite (fun _ => yields_some H) fun _ => ?_
  exact (Holds.insertThread F hwait (k := k.timerStop t) H).bind fun k₁ h₁ => yields_some h₁

omit F hwait in
theorem Holds.process (H : Holds f a k) : Yields (Holds f a) k.process := by
  intro k' hk'
  obtain ⟨c,rfl⟩ := process_some hk'
  exact H

theorem Holds.changePriority (H : Holds f a k) (p : Priority) :
    Yields (Holds f a) (k.changePriority t p) := by
  refine Yields.ite (fun _ => ?_) fun _ => yields_some H
  exact (H.removeThread F hwait).bind fun k₁ h₁ =>
    Holds.insertThread F hwait (k := k₁.modify t _) h₁

/-- The waiting threads of one list are no business of the other lists. -/
theorem holds_kept : KernelInvariant (others l₀) (Holds (θ := θ) f a) where
  found _ _ _ := trivial
  modify _ _ _ H := H
  request _ _ H := H
  suspend _ H := H.suspend F hwait
  changePriority _ p H := H.changePriority F hwait p
  timerStart _ _ _ H := Yields.ite (fun _ => yields_some H) fun _ => yields_none
  pushBack hl _ H _ hs := (F.pushBack hl.2 hs).trans H
  wake {k k₁} _ _ hl _ hk H := by
    obtain ⟨x,-,rfl⟩ := hk
    exact yields_bind fun s hs => Holds.resume F hwait (k := Kernel.mk s _ _ _ _)
      ((F.erase hl.2 hs).trans H)
  process H := H.process

theorem holds_system : SystemInvariant (others l₀) (Holds (θ := θ) f a) where
  toKernelInvariant := holds_kept F hwait
  spend H := H
  current _ _ H := H
  begin {k t} _ _ H := Holds.resume F hwait (k := k.modify t _) H
  resume _ H := H.resume F hwait
  expire _ _ H _ hk := by
    obtain ⟨-,s,r,c,hs,rfl⟩ := expire_some hk
    exact (F.pushBack (isWait_ne_ready hwait _).symm hs).trans H
  rotate _ H h₁ h₂ := ((F.pushBack (isWait_ne_ready hwait _).symm h₂).trans
    (F.erase (isWait_ne_ready hwait _).symm h₁)).trans H
  remove _ H := H.removeThread F hwait
  close _ H := H
  defunct _ H _ hs := (F.pushBack (isWait_ne_defunct hwait).symm hs).trans H
  reap _ H _ hs := (F.erase (isWait_ne_defunct hwait).symm hs).trans H

end

section sequences

variable {ο θ : Type} [DecidableEq ο] [DecidableEq θ]
variable {k k' : IdealKernel ο θ} {l : ListId ο} {t : θ}

theorem reads_get (l : ListId ο) : Reads l fun s : Sequences (ListId ο) θ => s.get l where
  pushBack hl h := by
    obtain rfl := Option.some.inj h
    exact Sequences.set_get_of_ne _ _ hl.symm
  erase hl h := by
    obtain rfl := Option.some.inj h
    exact Sequences.set_get_of_ne _ _ hl.symm

theorem changePriority_get (hl : l.IsWait) {p : Priority} (h : k.changePriority t p = some k') :
    k'.lists.get l = k.lists.get l :=
  Holds.changePriority (reads_get l) hl rfl p k' h

end sequences

end Kernel

namespace System
open Ipc

variable {σ ο θ : Type}

/-- Ready threads make calls, and active timers expire, of threads with the roles for it. A release
may also come from an interrupt, and so may an event; the thread of a release matters for a mutex
only, and it is in no other call. -/
def Legal (ρ : Roles ο θ) (w : System σ ο θ) : Ipc.Call ο θ → Prop
  | .take t _ _ | .recvEvent t _ _ _ _ | .sendWait t _ _ _ | .recvMail t _ _
  | .sendMessage t _ _ _ | .recvMessage t _ _ _ =>
      (ρ.acts t ∧ ρ.waits t) ∧ w.place t = .idle ∧ (w.kernel.thread t).stat = .ready
  | .proceed t => (ρ.acts t ∧ ρ.waits t) ∧ (w.kernel.thread t).stat = .ready
  | .expire t => ρ.wakes t ∧ (w.kernel.thread t).timerActive = true
  | .release t _ => ρ.acts t ∧ w.place t = .idle
  | .sendEvent _ _ | .tick => True

/-- Any thread may act, and any timer may expire. -/
def Lawful (w : System σ ο θ) : Ipc.Call ο θ → Prop := w.Legal (.all ο θ)

/-- The object of the call in which a thread is. -/
def placeTarget : Place ο → Option ο
  | .taking o | .locking o | .watching o | .posting o _ _ _ | .fetching o _ _
  | .receiving o _ _ _ | .sending o _ _ _ | .copying o _ _ => some o
  | .idle => none

/-- The object that a call works on. -/
def target (w : System σ ο θ) : Call ο θ → Option ο
  | .ipc (.take _ o _) | .ipc (.release _ o) | .ipc (.recvEvent _ o _ _ _) | .ipc (.sendEvent o _)
  | .ipc (.sendWait _ o _ _) | .ipc (.recvMail _ o _) | .ipc (.sendMessage _ o _ _)
  | .ipc (.recvMessage _ o _ _) | .control o _ _ => some o
  | .ipc (.proceed t) => placeTarget (w.place t)
  | _ => none

variable [DecidableEq ο] [DecidableEq θ] {w : System σ ο θ} {o : ο} {t : θ}

theorem posted_kernel {value : BitVec 32} (r : Kernel σ θ × MailBox × Progress ℤ) :
    (w.posted o t value r).kernel = r.1 := by
  obtain ⟨k,m,e | ⟨d,n⟩⟩ := r <;> rfl

theorem fetched_kernel (r : Kernel σ θ × MailBox × Progress (ℤ × Option (BitVec 32))) :
    (w.fetched o t r).kernel = r.1 := by
  obtain ⟨k,m,e | ⟨d,n⟩⟩ := r <;> rfl

theorem received_kernel {size : ℕ} (r : Kernel σ θ × MessageQueue × Progress (ℤ ⊕ ℕ)) :
    (w.received o t size r).kernel = r.1 := by
  obtain ⟨k,q,(e | e) | ⟨d,n⟩⟩ := r <;> rfl

variable [ListFamily σ (ListId ο) θ] {ρ : Roles ο θ} {I : Kernel σ θ → Prop}

theorem proceed_keeps (K : KernelInvariant ρ I)
    (hL : ∀ o, placeTarget (w.place t) = some o → ρ.list (.suspend o) ∧ ρ.list (.sender o)) (hA : ρ.acts t ∧ ρ.waits t)
    (ht : (w.kernel.thread t).stat = .ready) (h : I w.kernel) :
    Yields (fun w => I w.kernel) (w.proceed t) := by
  unfold proceed
  generalize w.place t = p at hL ⊢
  cases p with
  | idle => exact yields_none
  | taking o | locking o | watching o => exact yields_some h
  | posting o value timeout tickDelta =>
      dsimp only
      cases w.object o with
      | mailbox m =>
          exact (K.mailSendProceed (hL o rfl).1 (hL o rfl).2 m _ _ _ value hA ht h).map fun r hr => by rwa [posted_kernel]
      | _ => exact yields_none
  | fetching o timeout tickDelta =>
      dsimp only
      cases w.object o with
      | mailbox m =>
          exact (K.mailRecvProceed (hL o rfl).1 (hL o rfl).2 m _ _ _ hA ht h).map fun r hr => by rwa [fetched_kernel]
      | _ => exact yields_none
  | receiving o size timeout tickDelta =>
      dsimp only
      cases w.object o with
      | queue q =>
          exact (K.queueRecvProceed (hL o rfl).1 q _ _ _ hA ht h).map fun r hr => by rwa [received_kernel]
      | _ => exact yields_none
  | sending o urgent msg buffer =>
      dsimp only
      cases w.object o with
      | queue q => exact (K.queueNotify (hL o rfl).1 h).map fun r hr => hr
      | _ => exact yields_none
  | copying o msg size =>
      dsimp only
      cases w.object o with
      | queue q => exact yields_some h
      | _ => exact yields_none

/-- The calls of inter-process communication keep an invariant of the kernel. -/
theorem ipc_keeps (K : KernelInvariant ρ I) {c : Ipc.Call ο θ}
    (hL : ∀ o, w.target (.ipc c) = some o → ρ.list (.suspend o) ∧ ρ.list (.sender o))
    (hexpire : ∀ {k t}, ρ.wakes t → (k.thread t).timerActive = true → I k → Yields I (k.expire t))
    (hclock : ∀ {k}, I k → Yields I k.inclock) (fuel : ℕ)
    (hl : w.Legal ρ c) (h : I w.kernel) : Yields (fun w => I w.kernel) (w.ipc fuel c) := by
  unfold ipc
  cases c with
  | take t o time =>
      obtain ⟨hA,-,ht⟩ := hl
      dsimp only
      cases w.object o with
      | semaphore value => exact (K.semaphoreTake (hL o rfl).1 value time hA ht h).map fun _ hr => hr
      | mutex m => exact (K.mutexTake (hL o rfl).1 m time hA ht h).map fun _ hr => hr
      | _ => exact yields_none
  | release t o =>
      dsimp only
      cases w.object o with
      | semaphore value => exact (K.semaphoreRelease (hL o rfl).1 value h).map fun _ hr => hr
      | mutex m => exact (K.mutexRelease (hL o rfl).1 m hl.1 h).map fun _ hr => hr
      | _ => exact yields_none
  | recvEvent t o set option timeout =>
      obtain ⟨hA,-,ht⟩ := hl
      dsimp only
      cases w.object o with
      | event set_ => exact (K.eventRecv (hL o rfl).1 set_ set option timeout hA ht h).map fun _ hr => hr
      | _ => exact yields_none
  | sendEvent o set =>
      dsimp only
      cases w.object o with
      | event set_ => exact (K.eventSend (hL o rfl).1 set_ fuel set h).map fun _ hr => hr
      | _ => exact yields_none
  | sendWait t o value timeout =>
      obtain ⟨hA,-,ht⟩ := hl
      dsimp only
      cases w.object o with
      | mailbox m =>
          exact (K.mailSendWait (hL o rfl).1 (hL o rfl).2 m _ _ value hA ht h).map fun r hr => by rwa [posted_kernel]
      | _ => exact yields_none
  | recvMail t o timeout =>
      obtain ⟨hA,-,ht⟩ := hl
      dsimp only
      cases w.object o with
      | mailbox m => exact (K.mailRecv (hL o rfl).1 (hL o rfl).2 m _ _ hA ht h).map fun r hr => by rwa [fetched_kernel]
      | _ => exact yields_none
  | sendMessage t o urgent buffer =>
      dsimp only
      cases w.object o with
      | queue q =>
          refine yields_map fun r _ => ?_
          obtain ⟨q,e | msg⟩ := r <;> exact h
      | _ => exact yields_none
  | recvMessage t o size timeout =>
      obtain ⟨hA,-,ht⟩ := hl
      dsimp only
      cases w.object o with
      | queue q =>
          exact (K.queueRecv (hL o rfl).1 q _ _ size hA ht h).map fun r hr => by rwa [received_kernel]
      | _ => exact yields_none
  | proceed t => exact proceed_keeps K hL hl.1 hl.2 h
  | expire t => exact (hexpire hl.1 hl.2 h).map fun _ hk => hk
  | tick => exact (hclock h).map fun _ hk => hk

theorem control_keeps (K : KernelInvariant ρ I) (hL : ρ.list (.suspend o) ∧ ρ.list (.sender o))
    (fuel : ℕ) (cmd : BitVec 8) (arg : BitVec 32) (h : I w.kernel) :
    Yields (fun w => I w.kernel) (w.control fuel o cmd arg) := by
  unfold control
  cases w.object o with
  | semaphore value => exact (K.semaphoreControl hL.1 value fuel cmd arg h).map fun _ hr => hr
  | mutex m => exact yields_some h
  | event set_ => exact (K.eventControl hL.1 set_ fuel cmd h).map fun _ hr => hr
  | mailbox m => exact (K.mailControl hL.1 hL.2 m fuel cmd h).map fun _ hr => hr
  | queue q => exact (K.queueControl hL.1 q fuel cmd h).map fun _ hr => hr

/-- Threads that act are put to sleep, and they are ready then, or end. -/
def Admits (ρ : Roles ο θ) (w : System σ ο θ) : Call ο θ → Prop
  | .ipc c => w.Legal ρ c
  | .sleep _ => ∀ t, w.kernel.currentThread = some t → ρ.acts t ∧ (w.kernel.thread t).stat = .ready
  | .suspend t | .sleepReturn t => ρ.acts t
  | .startup t | .resume t => ρ.wakes t
  | .exit => ∀ t, w.kernel.currentThread = some t → ρ.acts t
  | .excute => ∀ t, ListFamily.front w.kernel.lists (ListId.defunct (ο := ο)) = some t → ρ.acts t
  | _ => True

/-- Every step of the system keeps an invariant of the kernel. -/
theorem step_keeps (K : SystemInvariant ρ I) (fuel : ℕ) {c : Call ο θ} (hc : w.Admits ρ c)
    (hL : ∀ o, w.target c = some o → ρ.list (.suspend o) ∧ ρ.list (.sender o)) (h : I w.kernel) :
    Yields (fun w => I w.kernel) (step fuel w c) := by
  cases c with
  | ipc c => exact ipc_keeps K.toKernelInvariant hL K.expire K.inclock fuel hc h
  | control o cmd arg => exact control_keeps K.toKernelInvariant (hL o rfl) fuel cmd arg h
  | startup t => exact (K.startup hc h).map fun _ hk => hk
  | start => exact (K.start h).map fun _ hk => hk
  | suspend t => exact (K.suspend hc h).map fun _ hr => hr
  | resume t => exact (K.resume hc h).map fun _ hr => hr
  | sleep tick => exact (K.sleep tick hc h).map fun _ hk => hk
  | sleepReturn t => exact yields_some (K.sleepReturn hc h)
  | changePriority t p => exact (K.changePriority t p h).map fun _ hk => hk
  | exit => exact (K.exit hc h).map fun _ hk => hk
  | excute => exact (K.excute fuel hc h).map fun _ hr => hr
  | enterCritical => exact yields_some (K.current _ _ h)
  | exitCritical => exact (K.exitCritical h).map fun _ hk => hk

end System

end CosKernel

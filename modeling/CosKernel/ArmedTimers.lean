import CosKernel.RunningThread

/-!
# Armed timers belong to suspended threads

`Thread::timeout` asserts that its thread is suspended. A thread timer is started right after its
thread was suspended, and every way out of that state stops it first: `resume`, the expiry itself
and the end of the thread. So the assertion never fails, whatever the lists are.
-/
namespace CosKernel
open PartialMorphisms TransitionRuns Kernel

namespace Kernel

variable {σ ο θ : Type}

def Armed (k : Kernel σ θ) : Prop :=
  ∀ t, (k.thread t).timerActive = true → (k.thread t).stat = .suspend

variable {k k' : Kernel σ θ} {t : θ} {x : Thread}

theorem Armed.congr (H : Armed k) (h : k'.thread = k.thread) : Armed k' := by
  unfold Armed
  rw [h]
  exact H

variable [DecidableEq θ]

/-- At most the thread `t` has changed. -/
theorem Armed.update (H : Armed k) (h : k'.thread = Function.update k.thread t x)
    (hx : x.timerActive = true → x.stat = .suspend) : Armed k' := by
  intro u hu
  rw [h] at hu ⊢
  by_cases hut : u = t
  · subst hut
    simp only [Function.update_self] at hu ⊢
    exact hx hu
  · rw [Function.update_of_ne hut] at hu ⊢
    exact H u hu

variable [ListFamily σ (ListId ο) θ]

theorem Armed.resume (H : Armed k) : Yields (fun r => Armed r.1) (k.resume t) := by
  intro r hr
  by_cases ht : (k.thread t).stat = .suspend
  · obtain ⟨s,q,-,hk⟩ := resume_some ht hr
    exact H.update (congrArg Kernel.thread hk) fun hx => by cases hx
  · exact H.congr (congrArg Kernel.thread (resume_other ht hr))

omit [ListFamily σ (ListId ο) θ] in
theorem Armed.altered (H : Armed k) (h : Altered t k k') : Armed k' := by
  obtain ⟨x,hx,rfl⟩ := h
  refine H.update rfl fun hactive => ?_
  rw [hx.timer] at hactive
  rw [hx.stat,H t hactive]

theorem armed_kept : KernelInvariant (.all ο θ) (Armed : Kernel σ θ → Prop) where
  found _ _ _ := trivial
  modify _ hg _ H := H.altered (altered_modify hg)
  request _ hg H := H.altered (altered_modify hg)
  suspend {k t} _ H r hr := by
    by_cases ht : (k.thread t).stat = .ready
    · obtain ⟨s,q,-,hk⟩ := suspend_some ht hr
      exact H.update (congrArg Kernel.thread hk) fun hx => by cases hx
    · rw [suspend,if_pos ht] at hr
      cases hr
      exact H
  changePriority {k} t p H k' hk' := H.update (changePriority_some hk').1 (H t)
  timerStart tick _ ht H :=
    Yields.ite (fun _ => yields_some (H.update rfl fun _ => ht)) fun _ => yields_none
  pushBack _ _ H _ _ := H.congr rfl
  wake {k k₁ l t} _ _ hk H := by
    refine yields_bind fun s _ => ?_
    have H₁ : Armed {k₁ with lists := s} := (H.altered hk).congr rfl
    exact H₁.resume
  process {k} H k' hk' := by
    obtain ⟨c,rfl⟩ := process_some hk'
    exact H.congr rfl

theorem armed_system : SystemInvariant (.all ο θ) (Armed : Kernel σ θ → Prop) where
  toKernelInvariant := armed_kept
  spend H := H.altered (altered_modify fun _ => ⟨rfl,rfl,rfl⟩)
  current _ _ H := H.congr rfl
  begin {k t} _ _ H := by
    have H₁ : Armed (k.modify t fun x => {x with currentPriority := x.initPriority, stat := .suspend}) :=
      H.update rfl fun _ => rfl
    exact H₁.resume
  resume _ H := H.resume
  expire {k t} _ _ H k' hk' := by
    obtain ⟨-,s,r,c,-,rfl⟩ := expire_some hk'
    exact H.update rfl fun hx => by cases hx
  rotate _ H _ _ := H.congr rfl
  remove t H k' hk' := by
    obtain ⟨s,r,-,rfl⟩ := removeThread_some hk'
    exact H.congr rfl
  close _ H := H.update rfl fun hx => by cases hx
  defunct _ H _ _ := H.congr rfl
  reap _ H _ _ := H.congr rfl

end Kernel

namespace System

variable {σ ο θ : Type}

/-- Threads that wait or sleep are ready when they make the call. -/
def Orderly [ListFamily σ (ListId ο) θ] (w : System σ ο θ) : Call ο θ → Prop :=
  w.Admits (.all ο θ)

variable [DecidableEq ο] [DecidableEq θ] [ListFamily σ (ListId ο) θ] {w : System σ ο θ}

/-- No timer of a thread that is not suspended is ever active. -/
theorem armed_threads_are_suspended {fuel : ℕ} {cs : List (Call ο θ)}
    (hstart : ∀ t, (w.kernel.thread t).timerActive = false)
    (hcs : AllSteps (step fuel) Orderly w cs) :
    Throughout (step fuel) (fun w => ∀ t, (w.kernel.thread t).timerActive = true →
      (w.kernel.thread t).stat = .suspend) w cs :=
  throughout_of_invariant (I := fun w : System σ ο θ => Armed w.kernel) (fun _ H => H)
    (fun _ _ _ H hc h => step_keeps armed_system fuel hc (fun _ _ => ⟨trivial,trivial⟩) H _ h)
    (fun t ht => by simp [hstart] at ht) hcs

instance (w : System σ ο θ) : ∀ c, Decidable (w.Orderly c)
  | .ipc c => inferInstanceAs (Decidable (w.Lawful c))
  | .sleep _ =>
      match h : w.kernel.currentThread with
      | none => .isTrue (by simp [Orderly,Admits,Roles.all,h])
      | some t => decidable_of_iff ((w.kernel.thread t).stat = .ready) (by simp [Orderly,Admits,Roles.all,h])
  | .exit | .excute => .isTrue fun _ _ => trivial
  | .control _ _ _ | .startup _ | .start | .suspend _ | .resume _ | .sleepReturn _
  | .changePriority _ _ | .enterCritical | .exitCritical => .isTrue trivial

theorem armed_threads_are_suspended_everyObject :
    (everyObject.foldlM (step 4) (fresh.map CheckedLists.store)).isSome = true ∧
    Throughout (step 4) (fun w => ∀ t, (w.kernel.thread t).timerActive = true →
      (w.kernel.thread t).stat = .suspend) (fresh.map CheckedLists.store) everyObject :=
  ⟨by decide +kernel,armed_threads_are_suspended (fun _ => rfl) (by decide +kernel)⟩

end System

end CosKernel

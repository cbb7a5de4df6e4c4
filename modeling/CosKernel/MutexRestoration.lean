import CosKernel.MutexPriorities

/-!
# Priorities after the last mutex

A thread without mutexes should have its initial priority. Of the lists only the thread that a
last release finds at the head of the suspend list matters, so this is compared over any lists,
those of coslib included: the property holds exactly as long as every thread gives away its last
mutex with the initial priority saved in it.
-/
namespace CosKernel

namespace Mutex

variable {σ ο θ : Type} [DecidableEq θ] [ListFamily σ (ListId ο) θ]
variable {k k' : Kernel σ θ} {o : ο} {m m' : Mutex θ} {t : θ}

/-- The thread that owns the mutex after a last release by `t`. -/
def heir (k : Kernel σ θ) (o : ο) (m : Mutex θ) (t : θ) : Option θ := do
  let k ← restore k m t
  if ListFamily.empty k.lists (ListId.suspend o) then none
  else ListFamily.front k.lists (ListId.suspend o)

/-- What `take` does to owner and value, and that it changes the priority of an owner only. -/
theorem take_owner {time : BitVec 32} {r : Option ℤ} (ht : (k.thread t).stat = .ready)
    (h : take k o m t time = some (k',m',r)) :
    (∀ v, (k'.thread v).initPriority = (k.thread v).initPriority) ∧
      (∀ v, m.owner ≠ some v → (k'.thread v).currentPriority = (k.thread v).currentPriority) ∧
      (m'.owner = m.owner ∧ m'.value = m.value ∨
        0 < m.value ∧ m'.owner = some t ∧ m'.value = m.value-1) := by
  have hsame := Kernel.setError_priorities (k := k) t
  unfold take at h
  dsimp only at h
  split_ifs at h with hown hval htime
  · cases h
    exact ⟨fun v => (hsame _ v).1,fun v _ => (hsame _ v).2,.inl ⟨rfl,rfl⟩⟩
  · cases h
    exact ⟨fun v => (hsame _ v).1,fun v _ => (hsame _ v).2,.inr ⟨hval,rfl,rfl⟩⟩
  · cases h
    rw [Kernel.setError,Kernel.setError,Kernel.modify_modify]
    exact ⟨fun v => (hsame _ v).1,fun v _ => (hsame _ v).2,.inl ⟨rfl,rfl⟩⟩
  · simp only [Option.bind_eq_bind,Option.bind_eq_some_iff,Option.some.injEq,Prod.mk.injEq] at h
    obtain ⟨u,hu,k₁,h₁,k₂,h₂,k₃,h₃,k₄,h₄,rfl,rfl,rfl⟩ := h
    have hut : t ≠ u := fun hut => hown (hut ▸ hu)
    have hthread := inherit_thread h₁
    have hready : (k₁.thread t).stat = .ready := by
      simpa [hthread,hut,Kernel.setError] using ht
    have hk := Kernel.blocked_priorities hready h₂ h₃ h₄
    refine ⟨fun v => (hk v).1.trans ?_,fun v hv => (hk v).2.trans ?_,.inl ⟨rfl,rfl⟩⟩
    · rw [← (hsame ERR_OK v).1,hthread]
      by_cases hvu : v = u
      · subst hvu
        simp
      · simp [hvu]
    · have hvu : v ≠ u := fun hvu => hv (hvu ▸ hu)
      rw [← (hsame ERR_OK v).2,hthread,Function.update_of_ne hvu]

/-- What a last `release` does to owner, value and priorities. -/
structure GivenAway (k : Kernel σ θ) (o : ο) (m : Mutex θ) (t : θ) (k' : Kernel σ θ)
    (m' : Mutex θ) : Prop where
  original : m.originalPriority = some (k'.thread t).currentPriority
  others : ∀ v, v ≠ t → (k'.thread v).currentPriority = (k.thread v).currentPriority
  owner : m'.owner = heir k o m t
  value : m'.value = if m'.owner = none then m.value+1 else m.value

theorem release_owner {e : ℤ} (h : release k o m t = some (k',m',e)) :
    (∀ v, (k'.thread v).initPriority = (k.thread v).initPriority) ∧
      if m.owner = some t ∧ m.hold = 1 then GivenAway k o m t k' m' else
        (∀ v, (k'.thread v).currentPriority = (k.thread v).currentPriority) ∧
          m'.owner = m.owner ∧ m'.value = m.value := by
  unfold release at h
  dsimp only at h
  split_ifs at h with hown hhold
  · cases h
    rw [if_neg fun hc => hown hc.1]
    exact ⟨fun v => (Kernel.setError_priorities t _ v).1,
      fun v => (Kernel.setError_priorities t _ v).2,rfl,rfl⟩
  · rw [if_pos ⟨not_not.mp hown,by bv_omega⟩]
    simp only [handOver,Option.bind_eq_bind,Option.bind_eq_some_iff,Option.some.injEq,
      Prod.mk.injEq] at h
    obtain ⟨⟨k₂,m₂⟩,⟨k₁,h₁,h⟩,rfl,rfl,rfl⟩ := h
    obtain ⟨p,hp,hthread⟩ := restore_thread h₁
    have h₁ : restore k m t = some k₁ := h₁
    have hinit : ∀ v, (k₁.thread v).initPriority = (k.thread v).initPriority := by
      intro v
      by_cases hvt : v = t
      · subst hvt
        simp [hthread]
      · simp [hthread,hvt]
    have hself : (k₁.thread t).currentPriority = p := by simp [hthread]
    have hothers : ∀ v, v ≠ t → (k₁.thread v).currentPriority = (k.thread v).currentPriority :=
      fun v hvt => by simp [hthread,hvt]
    split_ifs at h with hempty
    · simp only [Option.some.injEq,Prod.mk.injEq] at h
      obtain ⟨rfl,rfl⟩ := h
      exact ⟨hinit,hself.symm ▸ hp,hothers,by simp [heir,h₁,hempty],rfl⟩
    · simp only [Option.bind_eq_some_iff,Option.some.injEq,Prod.mk.injEq] at h
      obtain ⟨u,hu,⟨k₃,e⟩,h₂,k₄,h₃,rfl,rfl⟩ := h
      obtain ⟨c,rfl⟩ := Kernel.process_some h₃
      have hresumed := Kernel.listResume_priorities hu h₂
      refine ⟨fun v => (hresumed v).1.trans (hinit v),?_,fun v hv => (hresumed v).2.trans (hothers v hv),
        by simp [heir,h₁,hempty,hu],rfl⟩
      exact ((hresumed t).2.trans hself).symm ▸ hp
  · cases h
    rw [if_neg fun hc => hhold (by rw [hc.2]; rfl)]
    exact ⟨fun _ => rfl,fun _ => rfl,rfl,rfl⟩

end Mutex

namespace MutexOwnership
open TransitionRuns

variable {σ ο θ : Type} [DecidableEq ο] [DecidableEq θ] [ListFamily σ (ListId ο) θ]

/-- A thread that owns no mutex has its initial priority. -/
def Restored (w : World σ ο θ) : Prop :=
  ∀ t, (∀ o, (w.mutex o).owner ≠ some t) → w.prio t = w.init t

/-- The last mutex that a thread gives away saved the initial priority of the thread. -/
def SavedInitial (w : World σ ο θ) : Call ο θ → Prop
  | .release t o => (w.mutex o).owner = some t → (w.mutex o).hold = 1 →
      (∀ o', o' ≠ o → (w.mutex o').owner ≠ some t) →
      Mutex.heir w.kernel o (w.mutex o) t ≠ some t →
        (w.mutex o).originalPriority = some (w.init t)
  | _ => True

/-- A mutex is free just when it has no owner. -/
def Valued (w : World σ ο θ) : Prop :=
  ∀ o, (w.mutex o).value = if (w.mutex o).owner = none then 1 else 0

variable {w w' : World σ ο θ} {o : ο} {t : θ} {c : Call ο θ}

omit [DecidableEq θ] [ListFamily σ (ListId ο) θ] in
theorem Valued.update {m : Mutex θ} (H : Valued w) (hmutex : w'.mutex = Function.update w.mutex o m)
    (hm : m.value = if m.owner = none then 1 else 0) : Valued w' := by
  intro o'
  rw [hmutex]
  by_cases ho : o' = o
  · subst ho
    simpa using hm
  · simpa [ho] using H o'

omit [ListFamily σ (ListId ο) θ] in
@[simp] theorem taken_kernel (r : Kernel σ θ × Mutex θ × Option ℤ) :
    (w.taken t o r).kernel = r.1 := by
  obtain ⟨k,m,e⟩ := r
  cases e <;> rfl

omit [ListFamily σ (ListId ο) θ] in
@[simp] theorem taken_mutex (r : Kernel σ θ × Mutex θ × Option ℤ) :
    (w.taken t o r).mutex = Function.update w.mutex o r.2.1 := by
  obtain ⟨k,m,e⟩ := r
  cases e <;> rfl

omit [DecidableEq θ] [ListFamily σ (ListId ο) θ] in
/-- No thread loses a mutex, and only owners change their priority. -/
theorem Restored.keep {m : Mutex θ} (H : Restored w)
    (hmutex : w'.mutex = Function.update w.mutex o m)
    (hm : m.owner = (w.mutex o).owner ∨ (w.mutex o).owner = none)
    (hprio : ∀ v, (w.mutex o).owner ≠ some v → w'.prio v = w.prio v) (hinit : w'.init = w.init) :
    Restored w' := by
  intro v hv
  have hnone : ∀ o', (w.mutex o').owner ≠ some v := by
    intro o' ho'
    have hv := hv o'
    rw [hmutex] at hv
    by_cases ho : o' = o
    · subst ho
      rcases hm with hm | hm
      · rw [Function.update_self,hm] at hv
        exact hv ho'
      · simp [hm] at ho'
    · rw [Function.update_of_ne ho] at hv
      exact hv ho'
  rw [hprio v (hnone o),hinit]
  exact H v hnone

theorem take_step {time : BitVec 32} (H : Restored w) (E : Valued w)
    (ht : (w.kernel.thread t).stat = .ready) (h : call w (.take t o time) = some w') :
    Restored w' ∧ Valued w' := by
  obtain ⟨⟨k,m,r⟩,hr,rfl⟩ := Option.map_eq_some_iff.mp h
  obtain ⟨hinit,hprio,hm⟩ := Mutex.take_owner ht hr
  have hinit : (w.taken t o (k,m,r)).init = w.init := by
    funext v
    simpa [World.init] using hinit v
  have hvalue := E o
  rcases hm with ⟨howner,hval⟩ | ⟨hpos,howner,hval⟩
  · refine ⟨H.keep (taken_mutex _) (.inl howner) (fun v hv => ?_) hinit,
      E.update (taken_mutex _) (by simpa [howner,hval] using hvalue)⟩
    simpa [World.prio] using hprio v hv
  · have hnone : (w.mutex o).owner = none := by
      by_contra hne
      rw [if_neg hne] at hvalue
      simp [hvalue] at hpos
    rw [if_pos hnone] at hvalue
    refine ⟨H.keep (taken_mutex _) (.inr hnone) (fun v hv => ?_) hinit,
      E.update (taken_mutex _) (by simp [howner,hval,hvalue])⟩
    simpa [World.prio] using hprio v hv

/-- A last release, whatever was saved. -/
theorem release_last (hown : (w.mutex o).owner = some t) (hhold : (w.mutex o).hold = 1)
    (h : call w (.release t o) = some w') :
    w'.init = w.init ∧ ∃ m, w'.mutex = Function.update w.mutex o m ∧
      Mutex.GivenAway w.kernel o (w.mutex o) t w'.kernel m := by
  obtain ⟨⟨k,m,e⟩,hr,rfl⟩ := Option.map_eq_some_iff.mp h
  obtain ⟨hinit,hlast⟩ := Mutex.release_owner hr
  rw [if_pos ⟨hown,hhold⟩] at hlast
  exact ⟨funext hinit,m,rfl,hlast⟩

theorem release_step (H : Restored w) (E : Valued w) (hc : SavedInitial w (.release t o))
    (h : call w (.release t o) = some w') : Restored w' ∧ Valued w' := by
  have hvalue := E o
  by_cases hlast : (w.mutex o).owner = some t ∧ (w.mutex o).hold = 1
  · obtain ⟨hown,hhold⟩ := hlast
    obtain ⟨hinit,m,hmutex,hgiven⟩ := release_last hown hhold h
    refine ⟨fun v hv => ?_,E.update hmutex ?_⟩
    · have hothers : ∀ o', o' ≠ o → (w.mutex o').owner ≠ some v := by
        intro o' ho
        have hv := hv o'
        rwa [hmutex,Function.update_of_ne ho] at hv
      rw [hinit]
      by_cases hvt : v = t
      · subst hvt
        have hheir : Mutex.heir w.kernel o (w.mutex o) v ≠ some v := by
          have hv := hv o
          rwa [hmutex,Function.update_self,hgiven.owner] at hv
        exact Option.some.inj (hgiven.original.symm.trans (hc hown hhold hothers hheir))
      · refine (hgiven.others v hvt).trans (H v fun o' ho' => ?_)
        by_cases ho : o' = o
        · subst ho
          exact hvt (Option.some.inj (ho'.symm.trans hown))
        · exact hothers o' ho ho'
    · have hbusy : (w.mutex o).value = 0 := by simpa [hown] using hvalue
      rw [hgiven.value,hbusy]
      rfl
  · obtain ⟨⟨k,m,e⟩,hr,rfl⟩ := Option.map_eq_some_iff.mp h
    obtain ⟨hinit,hkept⟩ := Mutex.release_owner hr
    rw [if_neg hlast] at hkept
    obtain ⟨hprio,howner,hval⟩ := hkept
    exact ⟨H.keep (o := o) (m := m) rfl (.inl howner) (fun v _ => hprio v) (funext hinit),
      E.update (o := o) (m := m) rfl (by rw [hval,howner,hvalue])⟩

theorem Restored.step (H : Restored w) (E : Valued w) (hl : Untimed w c) (hc : SavedInitial w c)
    (h : call w c = some w') : Restored w' ∧ Valued w' := by
  cases c with
  | take t o time => exact take_step H E hl.2 h
  | takeReturn t o =>
      obtain rfl := Option.some.inj h
      exact ⟨H,E⟩
  | release t o => exact release_step H E hc h
  | expire t => exact hl.elim

/-- The last mutex of a thread saved another priority, with which the thread now
goes on. -/
theorem not_restored_of_not_savedInitial (hc : ¬SavedInitial w c) (h : call w c = some w') :
    ¬Restored w' := by
  cases c with
  | take | takeReturn | expire => exact absurd trivial hc
  | release t o =>
      simp only [SavedInitial,Classical.not_imp] at hc
      obtain ⟨hown,hhold,hothers,hheir,hne⟩ := hc
      obtain ⟨hinit,m,hmutex,hgiven⟩ := release_last hown hhold h
      intro hrestored
      have hprio := hrestored t fun o' => by
        by_cases ho : o' = o
        · subst ho
          rwa [hmutex,Function.update_self,hgiven.owner]
        · rw [hmutex,Function.update_of_ne ho]
          exact hothers o' ho
      rw [hinit] at hprio
      exact hne (hgiven.original.trans (congrArg some hprio))

/-- Over any lists and without timeouts, every thread that owns no mutex has its initial
priority, exactly as long as the last mutex that a thread gives away saved it. -/
theorem priority_restored_iff (hstart : Start w) (hinit : ∀ t, w.prio t = w.init t)
    {cs : List (Call ο θ)} (hlegal : AllSteps call Untimed w cs) :
    Throughout call Restored w cs ↔
      AllSteps call (fun w c => SavedInitial w c ∨ (call w c).isNone = true) w cs := by
  refine throughout_iff (I := fun w => Restored w ∧ Valued w) (fun _ H => H.1)
    (fun _ _ _ H hl hc h => H.1.step H.2 hl hc h)
    (fun _ _ _ _ _ hc h => not_restored_of_not_savedInitial hc h)
    ⟨fun t _ => hinit t,fun o => ?_⟩ hlegal
  rw [hstart.mutex o]
  rfl

instance [Fintype ο] (w : World σ ο θ) : ∀ c, Decidable (SavedInitial w c)
  | .release t o => inferInstanceAs (Decidable ((w.mutex o).owner = some t →
      (w.mutex o).hold = 1 → (∀ o', o' ≠ o → (w.mutex o').owner ≠ some t) →
      Mutex.heir w.kernel o (w.mutex o) t ≠ some t →
        (w.mutex o).originalPriority = some (w.init t)))
  | .take _ _ _ | .takeReturn _ _ | .expire _ => .isTrue trivial

/-- The idle thread, two threads each of the priorities 20 and 10 and one of 5, all ready, and two
unused mutexes, with the lists of coslib. -/
def sixReady : World (IntrusiveList.Store (ListId (Fin 2)) (Fin 6) (Fin 6)) (Fin 2) (Fin 6) where
  kernel := Scheduler.startedPointers ![254,20,10,5,20,10]
  mutex _ := Mutex.new
  place _ := none
  takes _ _ := 0
  releases _ _ := 0

theorem sixReady_start : Start sixReady := ⟨fun _ => rfl,fun _ => rfl,fun _ _ => rfl,fun _ _ => rfl⟩

/-- Thread 5 raises thread 1, whose priority goes back when it hands the mutex over. -/
def raised : List (Call (Fin 2) (Fin 6)) :=
  [.take 1 0 (-1),.take 4 0 (-1),.take 5 0 (-1),.release 1 0,.takeReturn 4 0,.release 4 0,
    .takeReturn 5 0,.release 5 0]

theorem priority_restored_raised :
    ((raised.foldlM call sixReady).map fun w => ((w.mutex 0).owner,w.prio 1)) = some (none,20) ∧
    Throughout call Restored sixReady raised :=
  ⟨by decide +kernel,(priority_restored_iff sixReady_start (by decide +kernel)
    (by decide +kernel)).mpr (by decide +kernel)⟩

/-- Thread 1 takes the second mutex while it has the priority of thread 5, and
releases it last. -/
def overlapping : List (Call (Fin 2) (Fin 6)) :=
  [.take 1 0 (-1),.take 4 0 (-1),.take 5 0 (-1),.take 1 1 (-1),.release 1 0,.release 1 1]

theorem overlapping_keeps_boost : AllSteps call Untimed sixReady overlapping ∧
    ((overlapping.foldlM call sixReady).map fun w =>
      ((w.mutex 0).owner,(w.mutex 1).owner,w.prio 1,w.init 1)) = some (some 4,none,10,20) ∧
    ¬Throughout call Restored sixReady overlapping := by
  have hfacts : ((overlapping.foldlM call sixReady).map fun w =>
      ((w.mutex 0).owner,(w.mutex 1).owner,w.prio 1,w.init 1)) = some (some 4,none,10,20) := by
    decide +kernel
  refine ⟨by decide +kernel,hfacts,fun h => ?_⟩
  obtain ⟨w,hw,hfacts⟩ := Option.map_eq_some_iff.mp hfacts
  simp only [Prod.mk.injEq] at hfacts
  have heq := (h.last hw) 1 fun o => by
    fin_cases o
    · simp [hfacts.1]
    · simp [hfacts.2.1]
  rw [hfacts.2.2.1,hfacts.2.2.2] at heq
  exact absurd heq (by decide)

end MutexOwnership

end CosKernel

import CosKernel.IpcObjects

/-!
# What a kernel operation can do

Whatever the lists and the priority tree are, an operation that does not fault
touches one list at a time and the fields of one thread. These facts say which
ones; the tree and the choice of the current thread stay open.
-/
namespace CosKernel.Kernel

variable {σ ο θ : Type} [DecidableEq θ] [ListFamily σ (ListId ο) θ]
variable {k k' : Kernel σ θ} {t : θ} {e : ℤ}

theorem insertThread_some (h : k.insertThread t = some k') :
    ∃ s r, ListFamily.pushBack k.lists (ListId.ready (k.thread t).currentPriority) t = some s ∧
      k' = ⟨s,r,Function.update k.thread t {k.thread t with stat := .ready},
        k.currentThread,k.lockNest⟩ := by
  simp only [insertThread,Option.bind_eq_bind,modify_thread_self] at h
  split at h <;>
    · simp only [Option.bind_eq_some_iff,Option.some.injEq] at h
      obtain ⟨r,-,s,hs,rfl⟩ := h
      exact ⟨s,r,hs,rfl⟩

omit [DecidableEq θ] in
theorem removeThread_some (h : k.removeThread t = some k') :
    ∃ s r, ListFamily.erase k.lists (ListId.ready (k.thread t).currentPriority) t = some s ∧
      k' = {k with lists := s, priorityTree := r} := by
  simp only [removeThread,Option.bind_eq_bind,Option.bind_eq_some_iff] at h
  obtain ⟨s,hs,h⟩ := h
  split at h <;>
    · simp only [Option.bind_eq_some_iff,Option.some.injEq] at h
      obtain ⟨r,-,rfl⟩ := h
      exact ⟨s,r,hs,rfl⟩

theorem process_some (h : k.process = some k') : ∃ c, k' = {k with currentThread := c} := by
  unfold process at h
  split_ifs at h with hl
  · simp only [Option.bind_eq_bind,Option.bind_eq_some_iff] at h
    obtain ⟨u,-,h⟩ := h
    split_ifs at h with hu
    · exact ⟨k.currentThread,(Option.some.inj h).symm⟩
    · split at h
      · exact ⟨_,(Option.some.inj h).symm⟩
      · simp at h
  · exact ⟨k.currentThread,(Option.some.inj h).symm⟩

theorem suspend_some (ht : (k.thread t).stat = .ready) (h : k.suspend t = some (k',e)) :
    ∃ s r, ListFamily.erase k.lists (ListId.ready (k.thread t).currentPriority) t = some s ∧
      k' = ⟨s,r,Function.update k.thread t {k.thread t with stat := .suspend, timerActive := false},
        k.currentThread,k.lockNest⟩ := by
  simp only [suspend,ht,ne_eq,not_true_eq_false,ite_false,Option.bind_eq_bind,
    Option.bind_eq_some_iff,Option.some.injEq,Prod.mk.injEq] at h
  obtain ⟨k₁,h₁,rfl,-⟩ := h
  obtain ⟨s,r,hs,rfl⟩ := removeThread_some h₁
  rw [modify_thread_self] at hs
  exact ⟨s,r,hs,by simp [timerStop,modify]⟩

theorem resume_some (ht : (k.thread t).stat = .suspend) (h : k.resume t = some (k',e)) :
    ∃ s r, ListFamily.pushBack k.lists (ListId.ready (k.thread t).currentPriority) t = some s ∧
      k' = ⟨s,r,Function.update k.thread t {k.thread t with stat := .ready, timerActive := false},
        k.currentThread,k.lockNest⟩ := by
  simp only [resume,ht,ne_eq,not_true_eq_false,ite_false,Option.bind_eq_bind,
    Option.bind_eq_some_iff,Option.some.injEq,Prod.mk.injEq] at h
  obtain ⟨k₁,h₁,rfl,-⟩ := h
  obtain ⟨s,r,hs,rfl⟩ := insertThread_some h₁
  rw [timerStop,modify_thread_self] at hs
  exact ⟨s,r,hs,by simp [timerStop,modify]⟩

theorem resume_other (ht : (k.thread t).stat ≠ .suspend) (h : k.resume t = some (k',e)) :
    k' = k := by
  simp only [resume,if_pos ht,Option.some.injEq,Prod.mk.injEq] at h
  exact h.1.symm

theorem expire_some (h : k.expire t = some k') :
    (k.thread t).stat = .suspend ∧
    ∃ s r c, ListFamily.pushBack k.lists (ListId.ready (k.thread t).currentPriority) t = some s ∧
      k' = ⟨s,r,Function.update k.thread t
        {k.thread t with error := -ERR_TIMEOUT, stat := .ready, timerActive := false},
        c,k.lockNest⟩ := by
  simp only [expire,timeout,Option.bind_eq_bind,Option.bind_eq_some_iff,Option.some.injEq] at h
  obtain ⟨k₂,h₂,rfl⟩ := h
  split_ifs at h₂ with ht
  simp only [Option.bind_eq_some_iff] at h₂
  obtain ⟨k₁,h₁,h₂⟩ := h₂
  obtain ⟨s,r,hs,rfl⟩ := insertThread_some h₁
  obtain ⟨c,rfl⟩ := process_some h₂
  rw [modify_thread_self] at hs
  exact ⟨not_not.mp ht,s,r,c,hs,by simp [timerStop,modify]⟩

theorem expire_thread (h : k.expire t = some k') :
    (k.thread t).stat = .suspend ∧ ∃ x, k'.thread = Function.update k.thread t x ∧
      x.stat = .ready ∧ x.error = -ERR_TIMEOUT := by
  obtain ⟨hs,s,r,c,-,rfl⟩ := expire_some h
  exact ⟨hs,_,rfl,rfl,rfl⟩

/-- A ready thread changes its list, any other thread only its field. -/
theorem changePriority_some {p : Priority} (h : k.changePriority t p = some k') :
    k'.thread = Function.update k.thread t {k.thread t with currentPriority := p} ∧
      ((k.thread t).stat = .ready → ∃ s₁ s₂,
        ListFamily.erase k.lists (ListId.ready (k.thread t).currentPriority) t = some s₁ ∧
        ListFamily.pushBack s₁ (ListId.ready p) t = some s₂ ∧ k'.lists = s₂) ∧
      ((k.thread t).stat ≠ .ready → k'.lists = k.lists) := by
  unfold changePriority at h
  split_ifs at h with ht
  · simp only [Option.bind_eq_bind,Option.bind_eq_some_iff] at h
    obtain ⟨k₁,h₁,h₂⟩ := h
    obtain ⟨s₁,r₁,hs₁,rfl⟩ := removeThread_some h₁
    obtain ⟨s₂,r₂,hs₂,rfl⟩ := insertThread_some h₂
    rw [modify_thread_self] at hs₂
    exact ⟨by simp [modify,ht],fun _ => ⟨s₁,s₂,hs₁,hs₂,rfl⟩,fun hn => absurd ht hn⟩
  · obtain rfl := Option.some.inj h
    exact ⟨rfl,fun hr => absurd hr ht,fun _ => rfl⟩

theorem startTimer_some {time : BitVec 32} (h : k.startTimer t time = some k') :
    ∃ x, k' = {k with thread := Function.update k.thread t x} ∧ x.stat = (k.thread t).stat ∧
      x.currentPriority = (k.thread t).currentPriority ∧ x.error = (k.thread t).error ∧
      x.initPriority = (k.thread t).initPriority := by
  unfold startTimer timerStart at h
  split_ifs at h with h₁ h₂
  · exact ⟨_,(Option.some.inj h).symm,rfl,rfl,rfl,rfl⟩
  · exact ⟨k.thread t,by simpa using h.symm,rfl,rfl,rfl,rfl⟩

theorem listSuspend_some {o : ο} (ht : (k.thread t).stat = .ready)
    (h : k.listSuspend o t = some k') :
    ∃ s₁ s₂ r, ListFamily.erase k.lists (ListId.ready (k.thread t).currentPriority) t = some s₁ ∧
      ListFamily.pushBack s₁ (ListId.suspend o) t = some s₂ ∧
      k' = ⟨s₂,r,Function.update k.thread t {k.thread t with stat := .suspend, timerActive := false},
        k.currentThread,k.lockNest⟩ := by
  simp only [listSuspend,Option.bind_eq_bind,Option.bind_eq_some_iff,Option.some.injEq] at h
  obtain ⟨⟨k₁,e⟩,h₁,s₂,hs₂,rfl⟩ := h
  obtain ⟨s₁,r,hs₁,rfl⟩ := suspend_some ht h₁
  exact ⟨s₁,s₂,r,hs₁,hs₂,rfl⟩

theorem listResume_none {o : ο} (hf : ListFamily.front k.lists (ListId.suspend o) = none)
    (h : k.listResume o = some (k',e)) : k' = k ∧ e = -ERR_ERROR := by
  simp only [listResume,hf,Option.some.injEq,Prod.mk.injEq] at h
  exact ⟨h.1.symm,h.2.symm⟩

theorem listResume_some {o : ο} (hf : ListFamily.front k.lists (ListId.suspend o) = some t)
    (h : k.listResume o = some (k',e)) :
    e = ERR_OK ∧ ∃ s, ListFamily.erase k.lists (ListId.suspend o) t = some s ∧
      ∃ e', Kernel.resume {k with lists := s} t = some (k',e') := by
  simp only [listResume,hf,Option.bind_eq_bind,Option.bind_eq_some_iff,Option.some.injEq,
    Prod.mk.injEq] at h
  obtain ⟨s,hs,⟨k₁,e'⟩,h₁,rfl,rfl⟩ := h
  exact ⟨rfl,s,hs,e',h₁⟩

/-- A ready thread is put to wait: of the threads only it changes. -/
theorem blocked_thread {o : ο} {time : BitVec 32} {k₁ k₂ : Kernel σ θ}
    (ht : (k.thread t).stat = .ready) (h₁ : k.listSuspend o t = some k₁)
    (h₂ : k₁.startTimer t time = some k₂) (h₃ : k₂.process = some k') :
    ∃ x, k'.thread = Function.update k.thread t x ∧ x.stat = .suspend ∧
      x.error = (k.thread t).error := by
  obtain ⟨s₁,s₂,r,-,-,rfl⟩ := listSuspend_some ht h₁
  obtain ⟨x,rfl,hs,-,he,-⟩ := startTimer_some h₂
  obtain ⟨c,rfl⟩ := process_some h₃
  exact ⟨x,by simp,by simpa using hs,by simpa using he⟩

/-- Nobody's priorities change by that. -/
theorem blocked_priorities {o : ο} {time : BitVec 32} {k₁ k₂ : Kernel σ θ}
    (ht : (k.thread t).stat = .ready) (h₁ : k.listSuspend o t = some k₁)
    (h₂ : k₁.startTimer t time = some k₂) (h₃ : k₂.process = some k') (v : θ) :
    (k'.thread v).initPriority = (k.thread v).initPriority ∧
      (k'.thread v).currentPriority = (k.thread v).currentPriority := by
  obtain ⟨s₁,s₂,r,-,-,rfl⟩ := listSuspend_some ht h₁
  obtain ⟨x,rfl,-,hp,-,hi⟩ := startTimer_some h₂
  obtain ⟨c,rfl⟩ := process_some h₃
  by_cases hv : v = t
  · subst hv
    simp only [Function.update_self] at hi hp ⊢
    exact ⟨hi,hp⟩
  · simp [hv]

theorem setError_priorities (t : θ) (e : ℤ) (v : θ) :
    ((k.setError t e).thread v).initPriority = (k.thread v).initPriority ∧
      ((k.setError t e).thread v).currentPriority = (k.thread v).currentPriority := by
  by_cases hv : v = t
  · subst hv
    simp [setError]
  · simp [setError,modify,hv]

/-- The thread at the head of a suspend list is resumed, if it is suspended. -/
theorem listResume_thread {o : ο} (hf : ListFamily.front k.lists (ListId.suspend o) = some t)
    (h : k.listResume o = some (k',e)) :
    e = ERR_OK ∧ ((k.thread t).stat = .suspend → ∃ x, k'.thread = Function.update k.thread t x ∧
        x.stat = .ready ∧ x.error = (k.thread t).error) ∧
      ((k.thread t).stat ≠ .suspend → k'.thread = k.thread) := by
  obtain ⟨rfl,s,-,e',h⟩ := listResume_some hf h
  refine ⟨rfl,fun ht => ?_,fun ht => by rw [resume_other (k := {k with lists := s}) ht h]⟩
  obtain ⟨s',r,-,rfl⟩ := resume_some (k := {k with lists := s}) ht h
  exact ⟨_,rfl,rfl,rfl⟩

/-- A thread that is resumed keeps its priorities. -/
theorem listResume_priorities {o : ο} (hf : ListFamily.front k.lists (ListId.suspend o) = some t)
    (h : k.listResume o = some (k',e)) (v : θ) :
    (k'.thread v).initPriority = (k.thread v).initPriority ∧
      (k'.thread v).currentPriority = (k.thread v).currentPriority := by
  obtain ⟨-,s,-,e',h⟩ := listResume_some hf h
  by_cases ht : (k.thread t).stat = .suspend
  · obtain ⟨s',r,-,rfl⟩ := resume_some (k := {k with lists := s}) ht h
    by_cases hv : v = t
    · subst hv
      simp
    · simp [hv]
  · obtain rfl := resume_other (k := {k with lists := s}) ht h
    exact ⟨rfl,rfl⟩

end CosKernel.Kernel

namespace CosKernel.Semaphore
open Kernel

variable {σ ο θ : Type} [DecidableEq θ] [ListFamily σ (ListId ο) θ]
variable {k k' : Kernel σ θ} {o : ο} {value v : BitVec 16} {t : θ} {e : ℤ}

/-- A take that cannot succeed puts its caller to wait. -/
theorem take_blocks {time : BitVec 32} {r : Option ℤ} (ht : (k.thread t).stat = .ready)
    (hvalue : ¬0 < value) (htime : time ≠ 0) (h : take k o value t time = some (k',v,r)) :
    v = value ∧ r = none ∧
      ∃ x, k'.thread = Function.update k.thread t x ∧ x.stat = .suspend ∧ x.error = ERR_OK := by
  simp only [take,if_neg hvalue,if_neg htime,Option.bind_eq_bind,Option.bind_eq_some_iff,
    Option.some.injEq,Prod.mk.injEq] at h
  obtain ⟨k₁,h₁,k₂,h₂,k₃,h₃,rfl,rfl,rfl⟩ := h
  obtain ⟨x,hx,hxs,hxe⟩ := blocked_thread (by simpa [setError] using ht) h₁ h₂ h₃
  exact ⟨rfl,rfl,x,by simp [hx,setError,Kernel.modify],hxs,by simpa [setError] using hxe⟩

theorem release_alone (hf : ListFamily.front k.lists (ListId.suspend o) = none)
    (h : release k o value = some (k',v,e)) : k' = k ∧ v = value+1 := by
  simp only [release,Option.bind_eq_bind,Option.bind_eq_some_iff] at h
  obtain ⟨⟨k₁,e₁⟩,h₁,h₂⟩ := h
  obtain ⟨rfl,rfl⟩ := listResume_none hf h₁
  simp only [ERR_ERROR,ERR_OK,Int.reduceNeg,Int.reduceEq,ite_false,Option.some.injEq,
    Prod.mk.injEq] at h₂
  exact ⟨h₂.1.symm,h₂.2.1.symm⟩

/-- A release with a thread `t` at the head of the list resumes it, or does nothing
at all if it is not suspended. -/
theorem release_wakes (hf : ListFamily.front k.lists (ListId.suspend o) = some t)
    (h : release k o value = some (k',v,e)) : v = value ∧
      ((k.thread t).stat = .suspend → ∃ x, k'.thread = Function.update k.thread t x ∧
        x.stat = .ready ∧ x.error = (k.thread t).error) ∧
      ((k.thread t).stat ≠ .suspend → k'.thread = k.thread) := by
  simp only [release,Option.bind_eq_bind,Option.bind_eq_some_iff] at h
  obtain ⟨⟨k₁,e₁⟩,h₁,h₂⟩ := h
  obtain ⟨rfl,hwake,hnone⟩ := listResume_thread hf h₁
  rw [if_pos rfl,Option.bind_eq_some_iff] at h₂
  obtain ⟨k₂,h₂,h₃⟩ := h₂
  obtain ⟨c,rfl⟩ := process_some h₂
  obtain ⟨rfl,rfl,-⟩ := Prod.mk.inj (Option.some.inj h₃) |>.imp_right Prod.mk.inj
  exact ⟨rfl,hwake,hnone⟩

end CosKernel.Semaphore

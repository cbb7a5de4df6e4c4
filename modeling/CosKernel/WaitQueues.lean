import CosKernel.MailboxFifo
import CosKernel.MutexEffects

/-!
# Waiting and waking over ideal lists

Threads wait in the suspend lists of the objects and in the sender lists of the
mailboxes. A kernel operation puts one ready thread to sleep at the end of such a list,
or takes one thread out of it and wakes it if it sleeps; the ready lists are not looked
at here. The outcomes of the operations of semaphores and mailboxes are built from these.
-/
namespace CosKernel

variable {ο θ : Type} [DecidableEq ο] [DecidableEq θ]

/-- The lists in which threads wait. -/
def ListId.IsWait : ListId ο → Prop
  | .suspend _ | .sender _ => True
  | .ready _ | .defunct => False

namespace Kernel

variable {k k' k₁ k₂ : IdealKernel ο θ} {l : ListId ο} {t u : θ} {e : ℤ}

/-- Of the wait lists and of the states of the threads at most the error of `t` has
changed. -/
structure Keeps (k k' : IdealKernel ο θ) (t : θ) : Prop where
  stat : ∀ u, (k'.thread u).stat = (k.thread u).stat
  error : ∀ u, u ≠ t → (k'.thread u).error = (k.thread u).error
  queue : ∀ l : ListId ο, l.IsWait → k'.lists.get l = k.lists.get l

/-- The thread `t` has been put to sleep at the end of `l`. -/
structure Parks (k k' : IdealKernel ο θ) (l : ListId ο) (t : θ) : Prop where
  others : ∀ u, u ≠ t → (k'.thread u).stat = (k.thread u).stat ∧
    (k'.thread u).error = (k.thread u).error
  stat : (k'.thread t).stat = .suspend
  error : (k'.thread t).error = ERR_OK
  own : k'.lists.get l = k.lists.get l++[t]
  queue : ∀ l' : ListId ο, l'.IsWait → l' ≠ l → k'.lists.get l' = k.lists.get l'

/-- The thread `u` has been taken out of `l`, and woken if it was asleep. -/
structure Wakes (k k' : IdealKernel ο θ) (l : ListId ο) (u : θ) : Prop where
  others : ∀ v, v ≠ u → (k'.thread v).stat = (k.thread v).stat
  error : ∀ v, (k'.thread v).error = (k.thread v).error
  asleep : (k.thread u).stat = .suspend → (k'.thread u).stat = .ready
  awake : (k.thread u).stat ≠ .suspend → (k'.thread u).stat = (k.thread u).stat
  own : k'.lists.get l = (k.lists.get l).erase u
  queue : ∀ l' : ListId ο, l'.IsWait → l' ≠ l → k'.lists.get l' = k.lists.get l'

omit [DecidableEq ο] in
theorem keeps_setError (k : IdealKernel ο θ) (t : θ) (e : ℤ) : Keeps k (k.setError t e) t := by
  refine ⟨fun u => ?_,fun u hu => ?_,fun _ _ => rfl⟩
  · by_cases hu : u = t
    · simp [setError,modify,hu]
    · simp [setError,modify,hu]
  · simp [setError,modify,hu]

omit [DecidableEq ο] [DecidableEq θ] in
theorem Keeps.trans (H : Keeps k k₁ t) (H' : Keeps k₁ k' t) : Keeps k k' t :=
  ⟨fun u => (H'.stat u).trans (H.stat u),fun u hu => (H'.error u hu).trans (H.error u hu),
    fun l hl => (H'.queue l hl).trans (H.queue l hl)⟩

omit [DecidableEq ο] [DecidableEq θ] in
theorem Keeps.parks (H : Keeps k k₁ t) (hl : l.IsWait) (H' : Parks k₁ k' l t) : Parks k k' l t := by
  refine ⟨fun u hu => ?_,H'.stat,H'.error,?_,fun l' hl' hne => ?_⟩
  · obtain ⟨hs,he⟩ := H'.others u hu
    exact ⟨hs.trans (H.stat u),he.trans (H.error u hu)⟩
  · rw [H'.own,H.queue l hl]
  · rw [H'.queue l' hl' hne,H.queue l' hl']

/-- The blocking part of every wait. -/
theorem parks_of_suspend {s : Sequences (ListId ο) θ} {time : BitVec 32} (hl : l.IsWait)
    (ht : (k.thread t).stat = .ready) (he : (k.thread t).error = ERR_OK)
    (h₁ : k.suspend t = some (k₁,e)) (h₂ : ListFamily.pushBack k₁.lists l t = some s)
    (h₃ : Kernel.startTimer {k₁ with lists := s} t time = some k₂) (h₄ : k₂.process = some k') :
    Parks k k' l t := by
  obtain ⟨s₁,r,hs₁,rfl⟩ := suspend_some ht h₁
  obtain ⟨x,rfl,hxs,-,hxe,-⟩ := startTimer_some h₃
  obtain ⟨c,rfl⟩ := process_some h₄
  obtain rfl := Option.some.inj hs₁
  obtain rfl := Option.some.inj h₂
  have hready : ∀ l' : ListId ο, l'.IsWait → ∀ p, l' ≠ .ready p := by
    rintro l' hl' p rfl
    exact hl'
  refine ⟨fun u hu => by simp [hu],by simpa using hxs,by simpa using hxe.trans (by simpa using he),
    by simp [hready l hl],fun l' hl' hne => by simp [hready l' hl',hne]⟩

theorem wakes_of_resume {s : Sequences (ListId ο) θ} (hl : l.IsWait)
    (h₁ : ListFamily.erase k.lists l u = some s)
    (h₂ : Kernel.resume {k with lists := s} u = some (k',e)) : Wakes k k' l u := by
  obtain rfl := Option.some.inj h₁
  have hready : ∀ l' : ListId ο, l'.IsWait → ∀ p, l' ≠ .ready p := by
    rintro l' hl' p rfl
    exact hl'
  by_cases hs : (k.thread u).stat = .suspend
  · obtain ⟨s',r,hs',rfl⟩ := resume_some
      (k := {k with lists := k.lists.set l ((k.lists.get l).erase u)}) hs h₂
    obtain rfl := Option.some.inj hs'
    refine ⟨fun v hv => by simp [hv],fun v => ?_,fun _ => by simp,fun hn => absurd hs hn,
      by simp [hready l hl],fun l' hl' hne => by simp [hready l' hl',hne]⟩
    by_cases hv : v = u
    · simp [hv]
    · simp [hv]
  · obtain rfl := resume_other
      (k := {k with lists := k.lists.set l ((k.lists.get l).erase u)}) hs h₂
    exact ⟨fun _ _ => rfl,fun _ => rfl,fun h => absurd h hs,fun _ => rfl,by simp,
      fun l' _ hne => by simp [hne]⟩

theorem Wakes.process (H : Wakes k k₁ l u) (h : k₁.process = some k') : Wakes k k' l u := by
  obtain ⟨c,rfl⟩ := process_some h
  exact ⟨H.others,H.error,H.asleep,H.awake,H.own,H.queue⟩

omit [DecidableEq ο] in
/-- Nobody falls asleep. -/
theorem Wakes.asleep_before (H : Wakes k k' l u) {v : θ} (hv : (k'.thread v).stat = .suspend) :
    v ≠ u ∧ (k.thread v).stat = .suspend := by
  by_cases hvu : v = u
  · subst hvu
    by_cases hs : (k.thread v).stat = .suspend
    · cases (H.asleep hs).symm.trans hv
    · exact absurd ((H.awake hs).symm.trans hv) hs
  · exact ⟨hvu,(H.others v hvu).symm.trans hv⟩

omit [DecidableEq ο] in
theorem Wakes.ready_after (H : Wakes k k' l u) {v : θ} (hv : (k.thread v).stat = .ready) :
    (k'.thread v).stat = .ready := by
  by_cases hvu : v = u
  · subst hvu
    exact (H.awake (by simp [hv])).trans hv
  · exact (H.others v hvu).trans hv

theorem expire_queue (h : k.expire t = some k') (hl : l.IsWait) :
    k'.lists.get l = k.lists.get l := by
  obtain ⟨-,s,r,c,hs,rfl⟩ := expire_some h
  obtain rfl := Option.some.inj hs
  have hready : ∀ p, l ≠ .ready p := by
    rintro p rfl
    exact hl
  simp [hready]

/-- `list_resume` finds nobody, or it wakes the thread at the head of the suspend list. -/
theorem listResume_wakes {o : ο} (h : k.listResume o = some (k',e)) :
    (k.lists.get (.suspend o) = [] ∧ k' = k ∧ e ≠ ERR_OK) ∨
      ∃ u us, k.lists.get (.suspend o) = u::us ∧ Wakes k k' (.suspend o) u ∧ e = ERR_OK := by
  cases hq : k.lists.get (.suspend o) with
  | nil =>
      have hf : ListFamily.front k.lists (ListId.suspend o) = none := by
        change (k.lists.get (.suspend o)).head? = none
        rw [hq]
        rfl
      obtain ⟨rfl,rfl⟩ := listResume_none hf h
      exact Or.inl ⟨rfl,rfl,by decide⟩
  | cons u us =>
      have hf : ListFamily.front k.lists (ListId.suspend o) = some u := by
        change (k.lists.get (.suspend o)).head? = some u
        rw [hq]
        rfl
      obtain ⟨rfl,s,hs,e',h⟩ := listResume_some hf h
      exact Or.inr ⟨u,us,rfl,wakes_of_resume trivial hs h,rfl⟩

end Kernel

namespace Semaphore
open Kernel

variable {k k' : IdealKernel ο θ} {o : ο} {value v : BitVec 16} {t : θ} {time : BitVec 32}

/-- The outcomes of `take` up to `process`. -/
inductive Takes (k : IdealKernel ο θ) (o : ο) (value : BitVec 16) (t : θ) (time : BitVec 32) :
    IdealKernel ο θ → BitVec 16 → Option ℤ → Prop where
  | free (hvalue : 0 < value) : Takes k o value t time k (value-1) (some ERR_OK)
  | refused (hvalue : value = 0) (htime : time = 0) :
      Takes k o value t time k value (some (-ERR_TIMEOUT))
  | blocked {k' : IdealKernel ο θ} (hvalue : value = 0) (hk : Parks k k' (.suspend o) t) :
      Takes k o value t time k' value none

theorem take_takes {r : Option ℤ} (ht : (k.thread t).stat = .ready)
    (h : take k o value t time = some (k',v,r)) : Takes k o value t time k' v r := by
  unfold take at h
  split_ifs at h with hvalue htime
  · cases h
    exact .free hvalue
  · cases h
    exact .refused (by bv_omega) htime
  · simp only [listSuspend,Option.bind_eq_bind,Option.bind_eq_some_iff,Option.some.injEq,
      Prod.mk.injEq] at h
    obtain ⟨k₁,⟨⟨k₀,e⟩,h₁,s,hs,rfl⟩,k₂,h₂,k₃,h₃,rfl,rfl,rfl⟩ := h
    refine .blocked (by bv_omega) ((keeps_setError k t ERR_OK).parks trivial ?_)
    exact parks_of_suspend trivial (by simpa [setError] using ht) (by simp [setError]) h₁ hs h₂ h₃

end Semaphore

namespace MailBox
open Kernel MailboxFifo

variable {k k' : IdealKernel ο θ} {o : ο} {m m' : MailBox} {t : θ}
variable {tick timeout tickDelta value : BitVec 32}

/-- The outcomes of a part of `send_wait` from the test of the loop on. -/
inductive Sends (k : IdealKernel ο θ) (o : ο) (m : MailBox) (t : θ) (value : BitVec 32) :
    IdealKernel ο θ → MailBox → Progress ℤ → Prop where
  | full {k' : IdealKernel ο θ} (hfull : m.entry = m.size) (hk : Keeps k k' t) :
      Sends k o m t value k' m (.returned (-ERR_FULL))
  | blocked {k' : IdealKernel ο θ} (timeout tickDelta : BitVec 32) (hfull : m.entry = m.size)
      (hk : Parks k k' (.sender o) t) : Sends k o m t value k' m (.waiting timeout tickDelta)
  | alone (hfree : m.entry ≠ m.size) (hq : k.lists.get (.suspend o) = []) :
      Sends k o m t value k (m.store value) (.returned ERR_OK)
  | waking {k' : IdealKernel ο θ} (u : θ) (us : List θ) (hfree : m.entry ≠ m.size)
      (hq : k.lists.get (.suspend o) = u::us) (hk : Wakes k k' (.suspend o) u) :
      Sends k o m t value k' (m.store value) (.returned ERR_OK)

theorem sendLoop_sends {r : Progress ℤ} (ht : (k.thread t).stat = .ready)
    (h : sendLoop k o m tick t value timeout tickDelta = some (k',m',r)) :
    Sends k o m t value k' m' r := by
  unfold sendLoop at h
  split_ifs at h with hfull htime
  · cases h
    exact .full hfull (keeps_setError k t _)
  · simp only [Option.bind_eq_bind,Option.bind_eq_some_iff,Option.some.injEq,Prod.mk.injEq] at h
    obtain ⟨⟨k₁,e⟩,h₁,s,hs,k₂,h₂,k₃,h₃,rfl,rfl,rfl⟩ := h
    refine .blocked _ _ hfull ((keeps_setError k t ERR_OK).parks trivial ?_)
    exact parks_of_suspend trivial (by simpa [setError] using ht) (by simp [setError]) h₁ hs h₂ h₃
  · simp only [Option.bind_eq_bind] at h
    obtain ⟨⟨k₁,e⟩,h₁,h₂⟩ := Option.bind_eq_some_iff.mp h
    rcases listResume_wakes h₁ with ⟨hq,rfl,he⟩ | ⟨u,us,hq,hk,rfl⟩
    · simp only [he,↓reduceIte,Option.bind_some,Option.some.injEq,Prod.mk.injEq] at h₂
      obtain ⟨rfl,rfl,rfl⟩ := h₂
      exact .alone hfull hq
    · simp only [↓reduceIte,Option.bind_eq_some_iff,Option.some.injEq,Prod.mk.injEq] at h₂
      obtain ⟨k₂,h₃,rfl,rfl,rfl⟩ := h₂
      exact .waking u us hfull hq (hk.process h₃)

theorem sendWait_sends {r : Progress ℤ} (ht : (k.thread t).stat = .ready)
    (h : sendWait k o m tick t value timeout = some (k',m',r)) : Sends k o m t value k' m' r := by
  unfold sendWait at h
  split_ifs at h with hfull
  · cases h
    exact .full hfull.1 ⟨fun _ => rfl,fun _ _ => rfl,fun _ _ => rfl⟩
  · exact sendLoop_sends ht h

/-- The outcomes of a part of `recv` from the test of the loop on. -/
inductive Receives (k : IdealKernel ο θ) (o : ο) (m : MailBox) (t : θ) :
    IdealKernel ο θ → MailBox → Progress (ℤ × Option (BitVec 32)) → Prop where
  | empty {k' : IdealKernel ο θ} (hempty : m.entry = 0) (hk : Keeps k k' t) :
      Receives k o m t k' m (.returned (-ERR_TIMEOUT,none))
  | blocked {k' : IdealKernel ο θ} (timeout tickDelta : BitVec 32) (hempty : m.entry = 0)
      (hk : Parks k k' (.suspend o) t) : Receives k o m t k' m (.waiting timeout tickDelta)
  | alone (value : BitVec 32) (hentry : m.entry ≠ 0) (hq : k.lists.get (.sender o) = []) :
      Receives k o m t k (withoutFirst m) (.returned (ERR_OK,some value))
  | waking {k' : IdealKernel ο θ} (u : θ) (us : List θ) (value : BitVec 32) (hentry : m.entry ≠ 0)
      (hq : k.lists.get (.sender o) = u::us) (hk : Wakes k k' (.sender o) u) :
      Receives k o m t k' (withoutFirst m) (.returned (ERR_OK,some value))

theorem recvLoop_receives {r : Progress (ℤ × Option (BitVec 32))}
    (ht : (k.thread t).stat = .ready)
    (h : recvLoop k o m tick t timeout tickDelta = some (k',m',r)) : Receives k o m t k' m' r := by
  unfold recvLoop at h
  split_ifs at h with hempty htime hq
  · cases h
    exact .empty hempty ((keeps_setError k t _).trans (keeps_setError _ t _))
  · simp only [listSuspend,Option.bind_eq_bind,Option.bind_eq_some_iff,Option.some.injEq,
      Prod.mk.injEq] at h
    obtain ⟨k₁,⟨⟨k₀,e⟩,h₁,s,hs,rfl⟩,k₂,h₂,k₃,h₃,rfl,rfl,rfl⟩ := h
    refine .blocked _ _ hempty ((keeps_setError k t ERR_OK).parks trivial ?_)
    exact parks_of_suspend trivial (by simpa [setError] using ht) (by simp [setError]) h₁ hs h₂ h₃
  · cases h
    exact .alone _ hempty (by simpa [ListFamily.empty] using hq)
  · simp only [Option.bind_eq_bind,Option.bind_eq_some_iff,Option.some.injEq,Prod.mk.injEq] at h
    obtain ⟨u,hu,s,hs,⟨k₁,e⟩,h₁,k₂,h₂,rfl,rfl,rfl⟩ := h
    obtain ⟨us,hus⟩ : ∃ us, k.lists.get (.sender o) = u::us :=
      List.head?_eq_some_iff.mp hu
    exact .waking u us _ hempty hus ((wakes_of_resume (l := .sender o) trivial hs h₁).process h₂)

theorem recv_receives {r : Progress (ℤ × Option (BitVec 32))} (ht : (k.thread t).stat = .ready)
    (h : recv k o m tick t timeout = some (k',m',r)) : Receives k o m t k' m' r := by
  unfold recv at h
  split_ifs at h with hempty
  · cases h
    exact .empty hempty.1 ⟨fun _ => rfl,fun _ _ => rfl,fun _ _ => rfl⟩
  · exact recvLoop_receives ht h

end MailBox

end CosKernel

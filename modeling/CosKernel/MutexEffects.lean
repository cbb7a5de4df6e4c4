import CosKernel.KernelEffects

/-!
# What take and release of a mutex can do

The outcomes of `take` and `release` over ideal lists, each with the threads and
suspend lists it leaves. All that is proved about mutexes starts from these two
case distinctions.
-/
namespace CosKernel

abbrev IdealKernel (ο θ : Type) := Kernel (Sequences (ListId ο) θ) θ

variable {ο θ : Type} [DecidableEq ο] [DecidableEq θ]

/-- The suspend list of the object `o`. -/
def Kernel.waiters (k : IdealKernel ο θ) (o : ο) : List θ := k.lists.get (.suspend o)

namespace Mutex

section threads

variable {σ : Type} [ListFamily σ (ListId ο) θ] {k k' : Kernel σ θ} {m : Mutex θ} {t u : θ}

omit [DecidableEq ο] in
theorem inherit_thread (h : inherit k u t = some k') :
    k'.thread = Function.update k.thread u {k.thread u with
      currentPriority := min (k.thread u).currentPriority (k.thread t).currentPriority} := by
  unfold inherit at h
  split_ifs at h with hp
  · rw [min_eq_right hp.le]
    exact (Kernel.changePriority_some h).1
  · obtain rfl := Option.some.inj h
    rw [min_eq_left (not_lt.mp hp)]
    simp

omit [DecidableEq ο] in
theorem restore_thread (h : restore k m t = some k') :
    ∃ p, m.originalPriority = some p ∧
      k'.thread = Function.update k.thread t {k.thread t with currentPriority := p} := by
  unfold restore at h
  split_ifs at h with hp
  · obtain ⟨p,hp,h⟩ := Option.bind_eq_some_iff.mp h
    exact ⟨p,hp,(Kernel.changePriority_some h).1⟩
  · obtain rfl := Option.some.inj h
    exact ⟨_,not_not.mp hp,by simp⟩

end threads

variable {k k' : IdealKernel ο θ} {o : ο} {m m' : Mutex θ} {t u : θ}

theorem changePriority_waiters {p : Priority} (h : k.changePriority u p = some k') (o : ο) :
    k'.waiters o = k.waiters o := by
  obtain ⟨-,hready,hother⟩ := Kernel.changePriority_some h
  unfold Kernel.waiters
  by_cases hu : (k.thread u).stat = .ready
  · obtain ⟨s₁,s₂,h₁,h₂,hl⟩ := hready hu
    obtain rfl := Option.some.inj h₁
    obtain rfl := Option.some.inj h₂
    simp [hl]
  · rw [hother hu]

theorem inherit_some (h : inherit k u t = some k') :
    k'.thread = Function.update k.thread u {k.thread u with
        currentPriority := min (k.thread u).currentPriority (k.thread t).currentPriority} ∧
      ∀ o, k'.waiters o = k.waiters o := by
  refine ⟨inherit_thread h,?_⟩
  unfold inherit at h
  split_ifs at h
  · exact changePriority_waiters h
  · obtain rfl := Option.some.inj h
    exact fun _ => rfl

theorem restore_some (h : restore k m t = some k') :
    ∃ p, m.originalPriority = some p ∧
      k'.thread = Function.update k.thread t {k.thread t with currentPriority := p} ∧
      ∀ o, k'.waiters o = k.waiters o := by
  obtain ⟨p,hp,hthread⟩ := restore_thread h
  refine ⟨p,hp,hthread,?_⟩
  unfold restore at h
  split_ifs at h
  · obtain ⟨q,-,h⟩ := Option.bind_eq_some_iff.mp h
    exact changePriority_waiters h
  · obtain rfl := Option.some.inj h
    exact fun _ => rfl

/-- A thread that only went to sleep or was only woken. -/
structure SameBut (x y : Thread) : Prop where
  error : y.error = x.error
  currentPriority : y.currentPriority = x.currentPriority
  initPriority : y.initPriority = x.initPriority

/-- A ready thread is put to wait. -/
theorem blocked_some {time : BitVec 32} {k₁ k₂ : IdealKernel ο θ}
    (ht : (k.thread t).stat = .ready) (h₁ : k.listSuspend o t = some k₁)
    (h₂ : k₁.startTimer t time = some k₂) (h₃ : k₂.process = some k') :
    (∃ x, k'.thread = Function.update k.thread t x ∧ x.stat = .suspend ∧
        SameBut (k.thread t) x) ∧
      ∀ o', k'.waiters o' = if o' = o then k.waiters o++[t] else k.waiters o' := by
  obtain ⟨s₁,s₂,r,hs₁,hs₂,rfl⟩ := Kernel.listSuspend_some ht h₁
  obtain ⟨x,rfl,hs,hp,he,hi⟩ := Kernel.startTimer_some h₂
  obtain ⟨c,rfl⟩ := Kernel.process_some h₃
  obtain rfl := Option.some.inj hs₁
  obtain rfl := Option.some.inj hs₂
  refine ⟨⟨x,by simp,by simpa using hs,by simpa using he,by simpa using hp,by simpa using hi⟩,
    fun o' => ?_⟩
  by_cases ho : o' = o
  · subst ho; simp [Kernel.waiters]
  · simp [Kernel.waiters,ho]

/-- The head of a suspend list is taken out, and woken if it is suspended. -/
theorem listResume_some {us : List θ} {e : ℤ} (hw : k.waiters o = u::us)
    (h : k.listResume o = some (k',e)) :
    (∃ x, k'.thread = Function.update k.thread u x ∧ SameBut (k.thread u) x ∧
        ((k.thread u).stat = .suspend → x.stat = .ready) ∧
        ((k.thread u).stat ≠ .suspend → x.stat = (k.thread u).stat)) ∧
      ∀ o', k'.waiters o' = if o' = o then us else k.waiters o' := by
  have hf : ListFamily.front k.lists (ListId.suspend o) = some u := by
    change (k.waiters o).head? = some u
    simp [hw]
  obtain ⟨-,s,hs,e',h⟩ := Kernel.listResume_some hf h
  have hlist : ∀ o', s.get (.suspend o') = if o' = o then us else k.waiters o' := fun o' => by
    obtain rfl := Option.some.inj hs
    unfold Kernel.waiters at hw ⊢
    by_cases ho : o' = o
    · subst ho; simp [hw]
    · simp [ho]
  by_cases hsus : (k.thread u).stat = .suspend
  · obtain ⟨s',r,hs',rfl⟩ := Kernel.resume_some (k := {k with lists := s}) hsus h
    obtain rfl := Option.some.inj hs'
    refine ⟨⟨_,rfl,⟨rfl,rfl,rfl⟩,fun _ => rfl,fun hn => absurd hsus hn⟩,fun o' => ?_⟩
    simpa [Kernel.waiters] using hlist o'
  · obtain rfl := Kernel.resume_other (k := {k with lists := s}) hsus h
    exact ⟨⟨k.thread u,by simp,⟨rfl,rfl,rfl⟩,fun hn => absurd hn hsus,fun _ => rfl⟩,hlist⟩

/-- Of the kernel only the error of `t` has changed. -/
def OnlyError (k k' : IdealKernel ο θ) (t : θ) : Prop :=
  (∃ e, k'.thread = Function.update k.thread t {k.thread t with error := e}) ∧
    ∀ o, k'.waiters o = k.waiters o

/-- The outcomes of `take`. -/
inductive Taken (k : IdealKernel ο θ) (o : ο) (m : Mutex θ) (t : θ) (time : BitVec 32) :
    IdealKernel ο θ → Mutex θ → Option ℤ → Prop
  | again {k' : IdealKernel ο θ} (hown : m.owner = some t) (hk : OnlyError k k' t) :
      Taken k o m t time k' {m with hold := m.hold+1} (some ERR_OK)
  | first {k' : IdealKernel ο θ} (hown : m.owner ≠ some t) (hvalue : 0 < m.value)
      (hk : OnlyError k k' t) :
      Taken k o m t time k' ⟨m.value-1,some (k.thread t).currentPriority,m.hold+1,some t⟩ (some ERR_OK)
  | late {k' : IdealKernel ο θ} (htime : time = 0) (hk : OnlyError k k' t) :
      Taken k o m t time k' m (some (-ERR_TIMEOUT))
  | blocked {k' : IdealKernel ο θ} {u : θ} {x : Thread} (hown : m.owner = some u) (hu : u ≠ t)
      (hvalue : ¬0 < m.value) (htime : time ≠ 0)
      (hthread : k'.thread = Function.update (Function.update k.thread u {k.thread u with
        currentPriority := min (k.thread u).currentPriority (k.thread t).currentPriority}) t x)
      (hstat : x.stat = .suspend) (hx : SameBut {k.thread t with error := ERR_OK} x)
      (hwait : ∀ o', k'.waiters o' = if o' = o then k.waiters o++[t] else k.waiters o') :
      Taken k o m t time k' m none

omit [DecidableEq ο] in
theorem setError_onlyError (e : ℤ) : OnlyError k (k.setError t e) t :=
  ⟨⟨e,rfl⟩,fun _ => rfl⟩

theorem take_taken {time : BitVec 32} {r : Option ℤ} (ht : (k.thread t).stat = .ready)
    (h : take k o m t time = some (k',m',r)) : Taken k o m t time k' m' r := by
  unfold take at h
  dsimp only at h
  split_ifs at h with hown hval htime
  · simp only [Option.some.injEq,Prod.mk.injEq] at h
    obtain ⟨rfl,rfl,rfl⟩ := h
    exact .again hown (setError_onlyError _)
  · simp only [Option.some.injEq,Prod.mk.injEq] at h
    obtain ⟨rfl,rfl,rfl⟩ := h
    have hp : ((k.setError t ERR_OK).thread t).currentPriority = (k.thread t).currentPriority := by
      simp [Kernel.setError]
    rw [hp]
    exact .first hown hval (setError_onlyError _)
  · simp only [Option.some.injEq,Prod.mk.injEq] at h
    obtain ⟨rfl,rfl,rfl⟩ := h
    refine .late htime ⟨⟨-ERR_TIMEOUT,?_⟩,fun _ => rfl⟩
    simp [Kernel.setError,Kernel.modify]
  · simp only [Option.bind_eq_bind,Option.bind_eq_some_iff,Option.some.injEq,Prod.mk.injEq] at h
    obtain ⟨u,hu,k₁,h₁,k₂,h₂,k₃,h₃,k₄,h₄,rfl,rfl,rfl⟩ := h
    have hut : u ≠ t := fun hut => hown (hut ▸ hu)
    obtain ⟨hthread,hwait⟩ := inherit_some h₁
    have hself : k₁.thread t = {k.thread t with error := ERR_OK} := by
      simp [hthread,Kernel.setError,Kernel.modify,hut.symm]
    obtain ⟨⟨x,hx,hxs,hsame⟩,hblock⟩ := blocked_some (by rw [hself]; exact ht) h₂ h₃ h₄
    rw [hself] at hsame
    refine .blocked hu hut hval htime ?_ hxs hsame fun o' => ?_
    · rw [hx,hthread]
      simp [Kernel.setError,Kernel.modify,hut,Function.update_comm hut]
    · rw [hblock,hwait,hwait]
      rfl

/-- The outcomes of `release`. A last release restores the priority `p`. -/
inductive Released (k : IdealKernel ο θ) (o : ο) (m : Mutex θ) (t : θ) :
    IdealKernel ο θ → Mutex θ → ℤ → Prop
  | refused {k' : IdealKernel ο θ} (hown : m.owner ≠ some t) (hk : OnlyError k k' t) :
      Released k o m t k' m (-ERR_ERROR)
  | kept (hown : m.owner = some t) (hhold : m.hold ≠ 1) :
      Released k o m t k {m with hold := m.hold-1} ERR_OK
  | freed {k' : IdealKernel ο θ} {p : Priority} (hown : m.owner = some t) (hhold : m.hold = 1)
      (hp : m.originalPriority = some p) (hempty : k.waiters o = [])
      (hthread : k'.thread =
        Function.update k.thread t {k.thread t with currentPriority := p})
      (hwait : ∀ o', k'.waiters o' = k.waiters o') :
      Released k o m t k' ⟨m.value+1,none,m.hold-1,none⟩ ERR_OK
  | passed {k₁ k' : IdealKernel ο θ} {p : Priority} {u : θ} {us : List θ} {x : Thread}
      (hown : m.owner = some t) (hhold : m.hold = 1) (hp : m.originalPriority = some p)
      (hlist : k.waiters o = u::us)
      (hrestored : k₁.thread =
        Function.update k.thread t {k.thread t with currentPriority := p})
      (hthread : k'.thread = Function.update k₁.thread u x) (hx : SameBut (k₁.thread u) x)
      (hwake : (k₁.thread u).stat = .suspend → x.stat = .ready)
      (hstay : (k₁.thread u).stat ≠ .suspend → x.stat = (k₁.thread u).stat)
      (hwait : ∀ o', k'.waiters o' = if o' = o then us else k.waiters o') :
      Released k o m t k' ⟨m.value,some (k₁.thread u).currentPriority,m.hold-1+1,some u⟩ ERR_OK

theorem release_released {e : ℤ} (h : release k o m t = some (k',m',e)) :
    Released k o m t k' m' e := by
  unfold release at h
  dsimp only at h
  split_ifs at h with hown hhold
  · simp only [Option.some.injEq,Prod.mk.injEq] at h
    obtain ⟨rfl,rfl,rfl⟩ := h
    exact .refused hown (setError_onlyError _)
  · rw [not_not] at hown
    have hone : m.hold = 1 := by bv_omega
    simp only [handOver,Option.bind_eq_bind,Option.bind_eq_some_iff,Option.some.injEq,
      Prod.mk.injEq] at h
    obtain ⟨⟨k₂,m₂⟩,⟨k₁,h₁,h⟩,rfl,rfl,rfl⟩ := h
    obtain ⟨p,hp,hthread,hwait⟩ := restore_some h₁
    split_ifs at h with hempty
    · simp only [Option.some.injEq,Prod.mk.injEq] at h
      obtain ⟨rfl,rfl⟩ := h
      have hnil : k₁.waiters o = [] := List.isEmpty_iff.mp hempty
      exact .freed hown hone hp (by rw [← hwait,hnil]) hthread hwait
    · simp only [Option.bind_eq_some_iff,Option.some.injEq,Prod.mk.injEq] at h
      obtain ⟨u,hu,⟨k₃,e⟩,h₂,k₄,h₃,rfl,rfl⟩ := h
      obtain ⟨us,hus⟩ : ∃ us, k₁.waiters o = u::us := List.head?_eq_some_iff.mp hu
      obtain ⟨⟨x,hx,hsame,hwake,hstay⟩,hlist⟩ := listResume_some hus h₂
      obtain ⟨c,rfl⟩ := Kernel.process_some h₃
      refine .passed hown hone hp (by rw [← hwait,hus]) hthread hx hsame hwake hstay fun o' => ?_
      rw [← hwait o',← hlist]
      rfl
  · rw [not_not] at hown
    simp only [Option.some.injEq,Prod.mk.injEq] at h
    obtain ⟨rfl,rfl,rfl⟩ := h
    exact .kept hown fun hh => hhold (by rw [hh]; rfl)

end Mutex

end CosKernel

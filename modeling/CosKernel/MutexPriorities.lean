import CosKernel.MutexRecursion

/-!
# Priority inheritance

`take` raises the priority of an owner once, and the last `release` puts back the
priority that was saved for this one mutex. An owner should never have a lower
priority than a thread it blocks. A step keeps that, for lists that are sequences,
exactly if it meets a condition on the state before it.
-/
namespace CosKernel.MutexOwnership
open TransitionRuns

variable {σ ο θ : Type} [DecidableEq ο] [DecidableEq θ]

def World.prio (w : World σ ο θ) (t : θ) : Priority := (w.kernel.thread t).currentPriority

def World.init (w : World σ ο θ) (t : θ) : Priority := (w.kernel.thread t).initPriority

/-- No owner has a lower priority, that is a greater number, than a thread it blocks. -/
def Inherited (w : IdealWorld ο θ) : Prop :=
  ∀ o u, (w.mutex o).owner = some u → ∀ v ∈ w.kernel.waiters o, w.prio u ≤ w.prio v

/-- The priority that `o` saved suffices for the other mutexes of `t`. -/
def RestoreSuffices (w : IdealWorld ο θ) (t : θ) (o : ο) : Prop :=
  ∀ p ∈ (w.mutex o).originalPriority, ∀ o', o' ≠ o → (w.mutex o').owner = some t →
    ∀ v ∈ w.kernel.waiters o', p ≤ w.prio v

/-- The thread that waited longest has the highest priority of those that wait. -/
def HeadSuffices (w : IdealWorld ο θ) (o : ο) : Prop :=
  ∀ u ∈ (w.kernel.waiters o).head?, ∀ v ∈ (w.kernel.waiters o).tail, w.prio u ≤ w.prio v

/-- A blocked caller raises an owner that itself waits only up to the priority of
those who block that owner. A last release goes back to a priority that suffices
and hands over to a thread whose priority suffices. -/
def Covered (w : IdealWorld ο θ) : Call ο θ → Prop
  | .take t o time => ∀ u, (w.mutex o).owner = some u → u ≠ t → ¬0 < (w.mutex o).value →
      time ≠ 0 → w.prio t < w.prio u → ∀ o' x, (w.mutex o').owner = some x → x ≠ u →
        u ∈ w.kernel.waiters o' → w.prio x ≤ w.prio t
  | .release t o => (w.mutex o).owner = some t → (w.mutex o).hold = 1 →
      RestoreSuffices w t o ∧ HeadSuffices w o
  | _ => True

variable {w w' : IdealWorld ο θ} {o : ο} {t : θ} {c : Call ο θ}

omit [DecidableEq ο] in
theorem onlyError_prio (hk : Mutex.OnlyError w.kernel w'.kernel t) : w'.prio = w.prio := by
  obtain ⟨⟨e,hthread⟩,-⟩ := hk
  funext v
  by_cases hvt : v = t
  · subst hvt; simp [World.prio,hthread]
  · simp [World.prio,hthread,hvt]

/-- Only the caller's error changes and only the mutex `o` of it. -/
theorem Inherited.returned (H : Inherited w) {m : Mutex θ}
    (hk : Mutex.OnlyError w.kernel w'.kernel t)
    (hmutex : w'.mutex = Function.update w.mutex o m)
    (hm : ∀ u, m.owner = some u → ∀ v ∈ w.kernel.waiters o, w.prio u ≤ w.prio v) :
    Inherited w' := by
  intro o' u hu v hv
  rw [hk.2] at hv
  rw [hmutex] at hu
  rw [onlyError_prio hk]
  by_cases ho : o' = o
  · subst ho
    exact hm u (by simpa using hu) v hv
  · exact H o' u (by simpa [ho] using hu) v hv

omit [DecidableEq ο] in
/-- The priorities after `t` was blocked by the owner `u`. -/
theorem prio_blocked {u : θ} {x : Thread} (hut : u ≠ t)
    (hthread : w'.kernel.thread = Function.update (Function.update w.kernel.thread u
      {w.kernel.thread u with currentPriority := min (w.prio u) (w.prio t)}) t x)
    (hx : x.currentPriority = w.prio t) :
    w'.prio = Function.update w.prio u (min (w.prio u) (w.prio t)) := by
  funext v
  by_cases hvt : v = t
  · subst hvt
    simp [World.prio,hthread,hut.symm,hx]
  · by_cases hvu : v = u
    · subst hvu; simp [World.prio,hthread,hvt]
    · simp [World.prio,hthread,hvt,hvu]

theorem Inherited.taken (H : Inherited w) (L : Lined w) {time : BitVec 32}
    (hc : Covered w (.take t o time)) {k : IdealKernel ο θ} {m : Mutex θ} {r : Option ℤ}
    (h : Mutex.Taken w.kernel o (w.mutex o) t time k m r) : Inherited (w.taken t o (k,m,r)) := by
  cases h with
  | again hown hk =>
      exact H.returned (m := {w.mutex o with hold := (w.mutex o).hold+1}) hk rfl (H o)
  | first _ hval hk =>
      refine H.returned hk rfl fun u _ v hv => ?_
      simp [(L.idle o (L.value_pos hval).1).2.2] at hv
  | late _ hk => exact H.returned (m := w.mutex o) hk rfl (H o)
  | @blocked u x hown hut hval htime hthread hstat hx hwait =>
      have hprio : (w.taken t o (k,w.mutex o,none)).prio =
          Function.update w.prio u (min (w.prio u) (w.prio t)) :=
        prio_blocked hut hthread hx.currentPriority
      intro o' y hy v hv
      simp only [World.taken,Function.update_eq_self] at hy
      simp only [World.taken,hwait] at hv
      rw [hprio]
      -- a thread that waited before, or the caller itself
      have hv' : v ∈ w.kernel.waiters o' ∨ v = t ∧ o' = o := by
        split_ifs at hv with ho
        · subst ho
          rcases List.mem_append.mp hv with hv | hv
          · exact .inl hv
          · exact .inr ⟨List.mem_singleton.mp hv,rfl⟩
        · exact .inl hv
      rcases hv' with hv' | ⟨rfl,rfl⟩
      · have hle := H o' y hy v hv'
        by_cases hyu : y = u
        · subst hyu
          by_cases hvy : v = y
          · simp [hvy]
          · simp [hvy,hle]
        · by_cases hvu : v = u
          · subst hvu
            simp only [Function.update_self,Function.update_of_ne hyu,le_min_iff]
            refine ⟨hle,?_⟩
            by_cases hlt : w.prio t < w.prio v
            · exact hc v hown hut hval htime hlt o' y hy hyu hv'
            · exact hle.trans (not_lt.mp hlt)
          · simpa [hyu,hvu] using hle
      · obtain rfl : y = u := Option.some.inj (hy.symm.trans hown)
        simp [hut.symm]

/-- A last release restores the priority `p` of its caller and makes the head of the
suspend list, if there is one, the owner. -/
structure Restores (w w' : IdealWorld ο θ) (t : θ) (o : ο) (p : Priority) : Prop where
  original : (w.mutex o).originalPriority = some p
  prio : w'.prio = Function.update w.prio t p
  owner : (w'.mutex o).owner = (w.kernel.waiters o).head?
  mutex : ∀ o', o' ≠ o → w'.mutex o' = w.mutex o'
  waiters : ∀ o', w'.kernel.waiters o' =
    if o' = o then (w.kernel.waiters o).tail else w.kernel.waiters o'

theorem released_restores {k : IdealKernel ο θ} {m : Mutex θ} {e : ℤ}
    (hown : (w.mutex o).owner = some t) (hhold : (w.mutex o).hold = 1)
    (h : Mutex.Released w.kernel o (w.mutex o) t k m e) :
    ∃ p, Restores w (w.released t o (k,m,e)) t o p := by
  have hmutex : ∀ o', o' ≠ o → (w.released t o (k,m,e)).mutex o' = w.mutex o' := fun o' ho => by
    simp [World.released,ho]
  cases h with
  | refused hno => exact absurd hown hno
  | kept _ hno => exact absurd hhold hno
  | @freed _ p _ _ hp hempty hthread hwait =>
      refine ⟨p,hp,?_,by simp [World.released,hempty],hmutex,fun o' => ?_⟩
      · funext v
        by_cases hvt : v = t
        · subst hvt; simp [World.released,World.prio,hthread]
        · simp [World.released,World.prio,hthread,hvt]
      · simp only [World.released,hwait]
        split_ifs with ho
        · simp [ho,hempty]
        · rfl
  | @passed k₁ _ p u us x _ _ hp hlist hrestored hthread hx _ _ hwait =>
      have hsame : ∀ v, (k.thread v).currentPriority = (k₁.thread v).currentPriority := fun v => by
        by_cases hvu : v = u
        · subst hvu; simp [hthread,hx.currentPriority]
        · simp [hthread,hvu]
      refine ⟨p,hp,?_,by simp [World.released,hlist],hmutex,fun o' => ?_⟩
      · funext v
        simp only [World.released,World.prio,hsame,hrestored]
        by_cases hvt : v = t
        · subst hvt; simp
        · simp [hvt,World.prio]
      · simp [World.released,hwait,hlist]

theorem Inherited.restored (H : Inherited w) (L : Lined w) (hp : w.place t = none)
    (hc : Covered w (.release t o)) (hown : (w.mutex o).owner = some t)
    (hhold : (w.mutex o).hold = 1) {p : Priority} (h : Restores w w' t o p) : Inherited w' := by
  obtain ⟨hothers,hnext⟩ := hc hown hhold
  have habsent := L.absent hp
  intro o' y hy v hv
  rw [h.waiters] at hv
  rw [h.prio]
  by_cases ho : o' = o
  · subst ho
    rw [h.owner] at hy
    rw [if_pos rfl] at hv
    have hyt : y ≠ t := fun hyt => habsent o' (hyt ▸ List.mem_of_mem_head? hy)
    have hvt : v ≠ t := fun hvt => habsent o' (hvt ▸ List.mem_of_mem_tail hv)
    simpa [hyt,hvt] using hnext y hy v hv
  · rw [if_neg ho] at hv
    rw [h.mutex o' ho] at hy
    have hvt : v ≠ t := fun hvt => habsent o' (hvt ▸ hv)
    by_cases hyt : y = t
    · subst hyt
      simpa [hvt] using hothers p h.original o' ho hy v hv
    · simpa [hyt,hvt] using H o' y hy v hv

theorem Inherited.released (H : Inherited w) (L : Lined w) (hp : w.place t = none)
    (hc : Covered w (.release t o)) {k : IdealKernel ο θ} {m : Mutex θ} {e : ℤ}
    (h : Mutex.Released w.kernel o (w.mutex o) t k m e) : Inherited (w.released t o (k,m,e)) := by
  by_cases hlast : (w.mutex o).owner = some t ∧ (w.mutex o).hold = 1
  · obtain ⟨p,hres⟩ := released_restores hlast.1 hlast.2 h
    exact H.restored L hp hc hlast.1 hlast.2 hres
  · cases h with
    | refused _ hk => exact H.returned (m := w.mutex o) hk rfl (H o)
    | kept hown hhold =>
        exact H.returned (t := t) (m := {w.mutex o with hold := (w.mutex o).hold-1})
          ⟨⟨(w.kernel.thread t).error,by simp [World.released]⟩,fun _ => rfl⟩ rfl (H o)
    | freed hown hhold | passed hown hhold => exact absurd ⟨hown,hhold⟩ hlast

theorem Inherited.step (H : Inherited w) (L : Lined w) (hl : Untimed w c) (hc : Covered w c)
    (h : call w c = some w') : Inherited w' := by
  cases c with
  | take t o time =>
      simp only [call,Option.map_eq_some_iff] at h
      obtain ⟨⟨k,m,r⟩,hr,rfl⟩ := h
      exact H.taken L hc (Mutex.take_taken hl.2 hr)
  | takeReturn t o =>
      obtain rfl := Option.some.inj h
      exact H
  | release t o =>
      simp only [call,Option.map_eq_some_iff] at h
      obtain ⟨⟨k,m,e⟩,hr,rfl⟩ := h
      exact H.released L hl.1 hc (Mutex.release_released hr)
  | expire t => exact hl.elim

/-- A step that misses the condition leaves an owner below a thread it blocks. -/
theorem not_inherited_of_not_covered (L : Lined w) (hl : Untimed w c) (hc : ¬Covered w c)
    (h : call w c = some w') : ¬Inherited w' := by
  intro hinh
  cases c with
  | takeReturn | expire => exact absurd trivial hc
  | take t o time =>
      simp only [Covered,not_forall,not_le] at hc
      obtain ⟨u,hown,hut,hval,htime,hlt,o',y,hy,hyu,hu,hgt⟩ := hc
      simp only [call,Option.map_eq_some_iff] at h
      obtain ⟨⟨k,m,r⟩,hr,rfl⟩ := h
      cases Mutex.take_taken hl.2 hr with
      | again hno => exact hut (Option.some.inj (hown.symm.trans hno))
      | first _ hno => exact hval hno
      | late hno => exact htime hno
      | @blocked v x hown' _ _ _ hthread _ hx hwait =>
          obtain rfl : u = v := Option.some.inj (hown.symm.trans hown')
          have hprio : (w.taken t o (k,w.mutex o,none)).prio =
              Function.update w.prio u (min (w.prio u) (w.prio t)) :=
            prio_blocked hut hthread hx.currentPriority
          have hmem : u ∈ k.waiters o' := by
            rw [hwait]
            split_ifs with ho
            · subst ho; simp [hu]
            · exact hu
          have hle := hinh o' y (by simpa [World.taken] using hy) u hmem
          rw [hprio,Function.update_of_ne hyu,Function.update_self,min_eq_right hlt.le] at hle
          exact absurd hle (not_le.mpr hgt)
  | release t o =>
      simp only [Covered,Classical.not_imp] at hc
      obtain ⟨hown,hhold,hc⟩ := hc
      simp only [call,Option.map_eq_some_iff] at h
      obtain ⟨⟨k,m,e⟩,hr,rfl⟩ := h
      obtain ⟨p,hres⟩ := released_restores hown hhold (Mutex.release_released hr)
      have habsent := L.absent hl.1
      refine hc ⟨fun q hq o' ho hy v hv => ?_,fun u hu v hv => ?_⟩
      · obtain rfl : p = q := Option.some.inj (hres.original.symm.trans hq)
        have hle := hinh o' t (by rw [hres.mutex o' ho]; exact hy) v
          (by rw [hres.waiters,if_neg ho]; exact hv)
        have hvt : v ≠ t := fun hvt => habsent o' (hvt ▸ hv)
        simpa [hres.prio,hvt] using hle
      · have hle := hinh o u (hres.owner.trans hu) v (by rw [hres.waiters,if_pos rfl]; exact hv)
        have hut : u ≠ t := fun hut => habsent o (hut ▸ List.mem_of_mem_head? hu)
        have hvt : v ≠ t := fun hvt => habsent o (hvt ▸ List.mem_of_mem_tail hv)
        simpa [hres.prio,hut,hvt] using hle

instance [Fintype ο] (w : IdealWorld ο θ) (t : θ) (o : ο) : Decidable (RestoreSuffices w t o) :=
  inferInstanceAs (Decidable (∀ p ∈ (w.mutex o).originalPriority, ∀ o', o' ≠ o →
    (w.mutex o').owner = some t → ∀ v ∈ w.kernel.waiters o', p ≤ w.prio v))

instance (w : IdealWorld ο θ) (o : ο) : Decidable (HeadSuffices w o) :=
  inferInstanceAs (Decidable (∀ u ∈ (w.kernel.waiters o).head?,
    ∀ v ∈ (w.kernel.waiters o).tail, w.prio u ≤ w.prio v))

instance [Fintype ο] [Fintype θ] (w : IdealWorld ο θ) : ∀ c, Decidable (Covered w c)
  | .take t o time => inferInstanceAs (Decidable (∀ u, (w.mutex o).owner = some u → u ≠ t →
      ¬0 < (w.mutex o).value → time ≠ 0 → w.prio t < w.prio u → ∀ o' x,
        (w.mutex o').owner = some x → x ≠ u → u ∈ w.kernel.waiters o' → w.prio x ≤ w.prio t))
  | .release t o => inferInstanceAs (Decidable ((w.mutex o).owner = some t →
      (w.mutex o).hold = 1 → RestoreSuffices w t o ∧ HeadSuffices w o))
  | .takeReturn _ _ | .expire _ => .isTrue trivial

end CosKernel.MutexOwnership

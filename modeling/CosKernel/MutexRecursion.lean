import CosKernel.MutexOwnership

/-!
# Recursive mutexes without timeouts

When no timer expires, every thread in a suspend list is blocked in `take` of that
mutex. A mutex then excludes all threads but its owner, and `owner_` is the thread
with more takes than releases, for as long as `hold_` does not mistake a multiple
of 256 for zero.
-/
namespace CosKernel.MutexOwnership
open TransitionRuns

variable {σ ο θ : Type} [DecidableEq ο] [DecidableEq θ]

/-- Calls without timer expiries. -/
def Untimed (w : World σ ο θ) : Call ο θ → Prop
  | .expire _ => False
  | c => Legal w c

/-- No call has been made yet and nobody waits. -/
def Fresh (w : IdealWorld ο θ) : Prop := Start w ∧ ∀ o, w.kernel.waiters o = []

/-- The threads in a suspend list are those that are blocked there, and a mutex
without an owner is free. -/
structure Lined (w : IdealWorld ο θ) : Prop where
  nodup : ∀ o, (w.kernel.waiters o).Nodup
  blocked : ∀ o, ∀ u ∈ w.kernel.waiters o,
    w.place u = some o ∧ (w.kernel.thread u).stat = .suspend
  idle : ∀ o, (w.mutex o).owner = none →
    (w.mutex o).value = 1 ∧ (w.mutex o).hold = 0 ∧ w.kernel.waiters o = []
  busy : ∀ o t, (w.mutex o).owner = some t → (w.mutex o).value = 0

variable {w w' : IdealWorld ο θ} {o : ο} {t : θ} {c : Call ο θ}

omit [DecidableEq ο] [DecidableEq θ] in
theorem Fresh.lined (h : Fresh w) : Lined w where
  nodup o := by simp [h.2 o]
  blocked o u hu := by simp [h.2 o] at hu
  idle o _ := by simp [h.1.mutex,Mutex.new,h.2 o]
  busy o t ht := by simp [h.1.mutex,Mutex.new] at ht

omit [DecidableEq ο] [DecidableEq θ] in
theorem Untimed.legal (h : Untimed w c) : Legal w c := by
  cases c with
  | expire t => exact h.elim
  | take | takeReturn | release => exact h

omit [DecidableEq ο] [DecidableEq θ] in
theorem Lined.handsOver (H : Lined w) : HandsOver w c := by
  cases c with
  | release t o =>
      exact fun _ _ u hu => H.blocked o u (List.mem_of_mem_head? hu)
  | take | takeReturn | expire => trivial

omit [DecidableEq ο] [DecidableEq θ] in
/-- A thread outside of `take` waits nowhere. -/
theorem Lined.absent (H : Lined w) (hp : w.place t = none) (o : ο) : t ∉ w.kernel.waiters o := by
  intro ht
  simp [(H.blocked o t ht).1] at hp

omit [DecidableEq ο] [DecidableEq θ] in
theorem Lined.value_pos (H : Lined w) (hv : 0 < (w.mutex o).value) :
    (w.mutex o).owner = none ∧ (w.mutex o).value = 1 := by
  cases ho : (w.mutex o).owner with
  | none => exact ⟨rfl,(H.idle o ho).1⟩
  | some u =>
      rw [H.busy o u ho] at hv
      exact absurd hv (by decide)

omit [DecidableEq ο] [DecidableEq θ] in
/-- Threads leave suspend lists, those that stay are left alone, and one mutex
changes. -/
theorem Lined.shrink (H : Lined w)
    (hsub : ∀ o', (w'.kernel.waiters o').Sublist (w.kernel.waiters o'))
    (hstay : ∀ o', ∀ u ∈ w'.kernel.waiters o', w'.place u = w.place u ∧
      (w'.kernel.thread u).stat = (w.kernel.thread u).stat)
    (hm : ∀ o', o' ≠ o → w'.mutex o' = w.mutex o')
    (hidle : (w'.mutex o).owner = none →
      (w'.mutex o).value = 1 ∧ (w'.mutex o).hold = 0 ∧ w'.kernel.waiters o = [])
    (hbusy : ∀ u, (w'.mutex o).owner = some u → (w'.mutex o).value = 0) : Lined w' := by
  refine ⟨fun o' => (H.nodup o').sublist (hsub o'),fun o' u hu => ?_,fun o' hn => ?_,
    fun o' u hu => ?_⟩
  · obtain ⟨hp,hs⟩ := hstay o' u hu
    rw [hp,hs]
    exact H.blocked o' u ((hsub o').subset hu)
  · by_cases ho : o' = o
    · subst ho; exact hidle hn
    · rw [hm o' ho] at hn ⊢
      obtain ⟨h₁,h₂,h₃⟩ := H.idle o' hn
      exact ⟨h₁,h₂,List.eq_nil_of_subset_nil (h₃ ▸ (hsub o').subset)⟩
  · by_cases ho : o' = o
    · subst ho; exact hbusy u hu
    · rw [hm o' ho] at hu ⊢
      exact H.busy o' u hu

/-- The caller ends its call of `take` and is in no suspend list. -/
theorem Lined.finish (H : Lined w) {k : IdealKernel ο θ} {m : Mutex θ} {e : ℤ}
    (ht : ∀ o', t ∉ w.kernel.waiters o') (hk : Mutex.OnlyError w.kernel k t)
    (hidle : m.owner = none → m.value = 1 ∧ m.hold = 0 ∧ w.kernel.waiters o = [])
    (hbusy : ∀ u, m.owner = some u → m.value = 0) :
    Lined (World.finish {w with kernel := k, mutex := Function.update w.mutex o m} t o e) := by
  obtain ⟨⟨e',hthread⟩,hwait⟩ := hk
  refine H.shrink (o := o) (fun o' => by simp [World.finish,hwait]) (fun o' u hu => ?_)
    (fun o' ho => by simp [World.finish,ho]) (by simpa [World.finish,hwait] using hidle)
    (by simpa [World.finish] using hbusy)
  have hut : u ≠ t := fun hut => ht o' (by simpa [World.finish,hwait,hut] using hu)
  simp [World.finish,hthread,hut]

theorem Lined.taken (H : Lined w) (hp : w.place t = none) {k : IdealKernel ο θ} {m : Mutex θ}
    {r : Option ℤ} {time : BitVec 32} (h : Mutex.Taken w.kernel o (w.mutex o) t time k m r) :
    Lined (w.taken t o (k,m,r)) := by
  have habsent := H.absent hp
  cases h with
  | again hown hk =>
      exact H.finish habsent hk (fun hn => by simp [hown] at hn) fun u hu => H.busy o u hu
  | first _ hval hk =>
      exact H.finish habsent hk (fun hn => by simp at hn)
        fun u _ => by simp [(H.value_pos hval).2]
  | late _ hk => exact H.finish habsent hk (H.idle o) (H.busy o)
  | @blocked u x hown hu hval _ hthread hstat hx hwait =>
      have hstay : ∀ v, v ≠ t → (k.thread v).stat = (w.kernel.thread v).stat := fun v hv => by
        by_cases hvu : v = u
        · subst hvu; simp [hthread,hv]
        · simp [hthread,hv,hvu]
      refine ⟨fun o' => ?_,fun o' v hv => ?_,fun o' hn => ?_,fun o' v hv => ?_⟩
      · simp only [World.taken,hwait]
        split_ifs with ho
        · refine List.nodup_append.mpr ⟨H.nodup o,by simp,fun a ha b hb hab => ?_⟩
          rw [List.mem_singleton] at hb
          exact habsent o (hb ▸ hab ▸ ha)
        · exact H.nodup o'
      · simp only [World.taken,hwait] at hv ⊢
        by_cases hvt : v = t
        · subst hvt
          split_ifs at hv with ho
          · exact ⟨by simp [ho],by simp [hthread,hstat]⟩
          · exact absurd hv (habsent o')
        · rw [Function.update_of_ne hvt,hstay v hvt]
          split_ifs at hv with ho
          · subst ho
            exact H.blocked o' v (by simpa [hvt] using hv)
          · exact H.blocked o' v hv
      · simp only [World.taken,Function.update_eq_self,hwait] at hn ⊢
        rw [if_neg (by rintro rfl; simp [hown] at hn)]
        exact H.idle o' hn
      · simp only [World.taken,Function.update_eq_self] at hv ⊢
        exact H.busy o' v hv

theorem Lined.takeReturn (H : Lined w) (ht : (w.kernel.thread t).stat = .ready) (e : ℤ) :
    Lined (w.finish t o e) := by
  have habsent : ∀ o', t ∉ w.kernel.waiters o' := fun o' h => by
    simp [(H.blocked o' t h).2] at ht
  have hk : Mutex.OnlyError w.kernel w.kernel t :=
    ⟨⟨(w.kernel.thread t).error,by simp⟩,fun _ => rfl⟩
  simpa using H.finish (o := o) (m := w.mutex o) (e := e) habsent hk (H.idle o) (H.busy o)

theorem Lined.released (H : Lined w) (hp : w.place t = none) {k : IdealKernel ο θ} {m : Mutex θ}
    {e : ℤ} (h : Mutex.Released w.kernel o (w.mutex o) t k m e) :
    Lined (w.released t o (k,m,e)) := by
  have habsent := H.absent hp
  have hmutex : ∀ o', o' ≠ o → (w.released t o (k,m,e)).mutex o' = w.mutex o' := fun o' ho => by
    simp [World.released,ho]
  cases h with
  | refused _ hk =>
      obtain ⟨⟨e',hthread⟩,hwait⟩ := hk
      refine H.shrink (fun o' => by simp [World.released,hwait]) (fun o' u hu => ?_) hmutex
        (by simpa [World.released,hwait] using H.idle o) (by simpa [World.released] using H.busy o)
      have hut : u ≠ t := fun hut => habsent o' (by simpa [World.released,hwait,hut] using hu)
      simp [World.released,hthread,hut]
  | kept hown hhold =>
      exact H.shrink (fun o' => .refl _) (fun o' u _ => ⟨rfl,rfl⟩) hmutex
        (fun hn => by simp [World.released,hown] at hn)
        (fun u _ => by simpa [World.released] using H.busy o t hown)
  | freed hown hhold _ hempty hthread hwait =>
      refine H.shrink (fun o' => by simp [World.released,hwait]) (fun o' u hu => ?_) hmutex
        (fun _ => by simp [World.released,H.busy o t hown,hhold,hwait,hempty])
        (fun u hu => by simp [World.released] at hu)
      have hut : u ≠ t := fun hut => habsent o' (by simpa [World.released,hwait,hut] using hu)
      simp [World.released,hthread,hut]
  | @passed k₁ _ p u us x hown hhold _ hlist hrestored hthread _ _ _ hwait =>
      refine H.shrink (fun o' => ?_) (fun o' v hv => ?_) hmutex
        (fun hn => by simp [World.released] at hn)
        (fun _ _ => by simpa [World.released] using H.busy o t hown)
      · simp only [World.released,hwait]
        split_ifs with ho
        · rw [ho,hlist]
          exact List.sublist_cons_self u us
        · exact .refl _
      · simp only [World.released,hwait] at hv
        have hmem : v ∈ w.kernel.waiters o' ∧ v ≠ u := by
          have hnodup := H.nodup o
          split_ifs at hv with ho
          · subst ho
            rw [hlist] at hnodup ⊢
            exact ⟨List.mem_cons_of_mem _ hv,fun hvu => (List.nodup_cons.mp hnodup).1 (hvu ▸ hv)⟩
          · refine ⟨hv,fun hvu => ho ?_⟩
            have h₁ := (H.blocked o' u (hvu ▸ hv)).1
            have h₂ := (H.blocked o u (by simp [hlist])).1
            exact Option.some.inj (h₁.symm.trans h₂)
        have hvt : v ≠ t := fun hvt => habsent o' (hvt ▸ hmem.1)
        simp [World.released,hthread,hrestored,hmem.2,hvt]

theorem Lined.step (H : Lined w) (hl : Untimed w c) (h : call w c = some w') : Lined w' := by
  cases c with
  | take t o time =>
      simp only [call,Option.map_eq_some_iff] at h
      obtain ⟨⟨k,m,r⟩,hr,rfl⟩ := h
      exact H.taken hl.1 (Mutex.take_taken hl.2 hr)
  | takeReturn t o =>
      obtain rfl := Option.some.inj h
      exact H.takeReturn hl.2 _
  | release t o =>
      simp only [call,Option.map_eq_some_iff] at h
      obtain ⟨⟨k,m,e⟩,hr,rfl⟩ := h
      exact H.released hl.1 (Mutex.release_released hr)
  | expire t => exact hl.elim

/-- The nesting depth of `t`: its granted takes without its releases. -/
def World.bal (w : IdealWorld ο θ) (o : ο) (t : θ) : ℤ := w.granted o t-w.releases o t

/-- At most one thread is inside, the owner is that thread, and a release by another
one fails and changes nothing of the mutex. -/
structure Exclusive (w : IdealWorld ο θ) : Prop where
  one : ∀ o t u, 0 < w.bal o t → 0 < w.bal o u → t = u
  owner : ∀ o t, (w.mutex o).owner = some t ↔ 0 < w.bal o t
  value : ∀ o, (w.mutex o).value = 1 ↔ (w.mutex o).owner = none
  refused : ∀ o t, (w.mutex o).owner ≠ some t → ∃ k,
    Mutex.release w.kernel o (w.mutex o) t = some (k,w.mutex o,-ERR_ERROR) ∧
      k.lists.get = w.kernel.lists.get

/-- An owner whose `hold_` is 1 releases its only take. -/
def Counts (w : IdealWorld ο θ) : Call ο θ → Prop
  | .release t o => (w.mutex o).owner = some t → (w.mutex o).hold = 1 →
      w.granted o t = w.releases o t+1
  | _ => True

/-- Only the owner has takes left. -/
def Exact (m : Mutex θ) (g r : θ → ℕ) : Prop := ∀ t, m.owner ≠ some t → g t = r t

section Exact

variable {m m' : Mutex θ} {g g' r r' : θ → ℕ}

theorem Exact.moves {L : θ → Prop} (H : Exact m g r) (B : Balanced m g r)
    (hL : ∀ t, L t → m.owner = some t → m.hold = 1 → g t = r t+1)
    (h : Moves L m g r m' g' r') : Exact m' g' r' := by
  intro v hv
  cases h with
  | stay => exact H v hv
  | @again t hown =>
      have hvt : v ≠ t := fun hvt => hv (hvt ▸ hown)
      simpa [hvt] using H v hv
  | @first t p hvalue =>
      have hvt : v ≠ t := fun hvt => hv (by rw [hvt])
      simpa [hvt] using H v (by simp [B.owner_none hvalue])
  | @kept t hown hhold =>
      have hvt : v ≠ t := fun hvt => hv (hvt ▸ hown)
      simpa [hvt] using H v hv
  | @freed t hown hhold ht =>
      by_cases hvt : v = t
      · subst hvt; simpa using hL v ht hown hhold
      · simpa [hvt] using H v (by simpa [hown] using fun h => hvt h.symm)
  | @passed t u p hown hhold ht hu =>
      have hvu : v ≠ u := fun hvu => hv (by rw [hvu])
      by_cases hvt : v = t
      · subst hvt; simpa [hvu] using hL v ht hown hhold
      · simpa [hvt,hvu] using H v (by simpa [hown] using fun h => hvt h.symm)

end Exact

structure Settled (w : IdealWorld ο θ) : Prop where
  invariant : Invariant w
  lined : Lined w
  exact : ∀ o, Exact (w.mutex o) (w.granted o) (w.releases o)

theorem Fresh.settled (h : Fresh w) : Settled w := by
  refine ⟨h.1.invariant,h.lined,fun o t _ => ?_⟩
  simp [World.granted,World.Woken,h.1.takes,h.1.place,h.1.releases]

theorem release_refused (ht : (w.mutex o).owner ≠ some t) :
    ∃ k, Mutex.release w.kernel o (w.mutex o) t = some (k,w.mutex o,-ERR_ERROR) ∧
      k.lists.get = w.kernel.lists.get :=
  ⟨w.kernel.setError t (-ERR_ERROR),by simp [Mutex.release,ht],rfl⟩

theorem Settled.owner_iff (H : Settled w) (o : ο) (t : θ) :
    (w.mutex o).owner = some t ↔ 0 < w.bal o t := by
  constructor
  · intro ho
    have := ((H.invariant.balanced o).busy t ho).2
    unfold World.bal
    omega
  · intro hb
    by_contra ho
    rw [World.bal,H.exact o t ho] at hb
    omega

theorem Settled.exclusive (H : Settled w) : Exclusive w where
  one o t u ht hu :=
    Option.some.inj (((H.owner_iff o t).mpr ht).symm.trans ((H.owner_iff o u).mpr hu))
  owner := H.owner_iff
  value o := by
    refine ⟨fun hv => ?_,fun ho => (H.lined.idle o ho).1⟩
    exact (H.lined.value_pos (by rw [hv]; decide)).1
  refused o t := release_refused

theorem Settled.step (H : Settled w) (hl : Untimed w c) (hc : Counts w c)
    (h : call w c = some w') : Settled w' := by
  have hh : HandsOver w c := H.lined.handsOver
  refine ⟨H.invariant.step hl.legal hh h,H.lined.step hl h,fun o => ?_⟩
  refine (H.exact o).moves (H.invariant.balanced o) (fun t ht hown hhold => ?_)
    ((call_moves H.invariant.clean hl.legal hh h).2 o)
  subst ht
  exact hc hown hhold

/-- A last release with takes left: the mutex is given away, and its owner still
has a take. -/
theorem Settled.miscounted (H : Settled w) (hl : Untimed w c) (hc : ¬Counts w c)
    (h : call w c = some w') : ¬Exclusive w' := by
  cases c with
  | take | takeReturn | expire => exact absurd trivial hc
  | release t o =>
      simp only [Counts,Classical.not_imp] at hc
      obtain ⟨hown,hhold,hne⟩ := hc
      have hlt := ((H.invariant.balanced o).busy t hown).2
      intro hex
      simp only [call,Option.map_eq_some_iff] at h
      obtain ⟨⟨k,m,e⟩,hr,rfl⟩ := h
      have howner : m.owner ≠ some t ∧ e = ERR_OK := by
        cases Mutex.release_released hr with
        | refused hno => exact absurd hown hno
        | kept _ hno => exact absurd hhold hno
        | freed => simp
        | @passed k₁ _ p u us x _ _ _ hlist =>
            have hu := (H.lined.blocked o u (by simp [hlist])).1
            refine ⟨fun hut => ?_,rfl⟩
            rw [Option.some.inj hut,hl.1] at hu
            simp at hu
      obtain ⟨hno,rfl⟩ := howner
      refine hno ?_
      have hbal : 0 < (w.released t o (k,m,ERR_OK)).bal o t := by
        have hg : (w.released t o (k,m,ERR_OK)).granted o t = w.granted o t := by
          rw [granted_outside hl.1,granted_outside (by exact hl.1)]
          rfl
        have hr : (w.released t o (k,m,ERR_OK)).releases o t = w.releases o t+1 := by
          simp [World.released,releases_count]
        rw [World.bal,hg,hr]
        omega
      simpa [World.released] using (hex.owner o t).mpr hbal

/-- Without timeouts the mutex excludes all threads but the one that has takes to
release, exactly as long as nobody makes a last release with more than one take left. -/
theorem mutex_excludes_iff (hfresh : Fresh w) {cs : List (Call ο θ)}
    (hlegal : AllSteps call Untimed w cs) :
    Throughout call Exclusive w cs ↔
      AllSteps call (fun w c => Counts w c ∨ (call w c).isNone = true) w cs :=
  throughout_iff (fun _ H => H.exclusive) (fun _ _ _ H hl hc h => H.step hl hc h)
    (fun _ _ _ H hl hc h => H.miscounted hl hc h) hfresh.settled hlegal

instance (w : World σ ο θ) : ∀ c, Decidable (Untimed w c)
  | .expire _ => .isFalse id
  | .take t o time => inferInstanceAs (Decidable (Legal w (.take t o time)))
  | .takeReturn t o => inferInstanceAs (Decidable (Legal w (.takeReturn t o)))
  | .release t o => inferInstanceAs (Decidable (Legal w (.release t o)))

instance (w : IdealWorld ο θ) : ∀ c, Decidable (Counts w c)
  | .release t o => inferInstanceAs (Decidable ((w.mutex o).owner = some t → (w.mutex o).hold = 1 →
      w.granted o t = w.releases o t+1))
  | .take _ _ _ | .takeReturn _ _ | .expire _ => .isTrue trivial

theorem threeReady_fresh : Fresh threeReady := ⟨threeReady_start,by decide +kernel⟩

theorem mutex_excludes_passedOn : Throughout call Exclusive threeReady passedOn :=
  (mutex_excludes_iff threeReady_fresh (by decide +kernel)).mpr (by decide +kernel)

/-- Thread 1 takes the mutex 257 times and releases it once. -/
def deepNesting : List (Call Unit (Fin 3)) :=
  List.replicate 257 (.take 1 () 0)++[.release 1 ()]

theorem deepNesting_frees : AllSteps call Untimed threeReady deepNesting ∧
    ((deepNesting.foldlM call threeReady).map fun w =>
      ((w.mutex ()).owner,(w.mutex ()).value,w.bal () 1)) = some (none,1,256) ∧
    ¬Throughout call Exclusive threeReady deepNesting := by
  have hfacts : ((deepNesting.foldlM call threeReady).map fun w =>
      ((w.mutex ()).owner,(w.mutex ()).value,w.bal () 1)) = some (none,1,256) := by decide +kernel
  refine ⟨by decide +kernel,hfacts,fun h => ?_⟩
  obtain ⟨w,hw,hfacts⟩ := Option.map_eq_some_iff.mp hfacts
  simp only [Prod.mk.injEq] at hfacts
  have howner := ((h.last hw).owner () 1).mpr (by rw [hfacts.2.2]; decide)
  rw [hfacts.1] at howner
  simp at howner

end CosKernel.MutexOwnership

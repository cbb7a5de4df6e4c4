import CosKernel.MutexEffects
import CosKernel.SchedulerInvariant

/-!
# The owner of a mutex

Any number of threads take and release any number of mutexes, and the timers of
waiting threads expire. `release` makes the thread at the head of the suspend
list the owner before that thread runs. As long as that thread is still blocked
in `take`, the owner of a mutex always has a successful `take` that it has not
released. A thread whose wait was ended by its timer is still in the list,
though, and may be made the owner for ever.
-/
namespace CosKernel.MutexOwnership
open TransitionRuns

/-- The mutexes, the mutex in whose `take` a thread is behind `process`, and how
often each thread has taken and released each mutex with success. -/
structure World (σ ο θ : Type) where
  kernel : Kernel σ θ
  mutex : ο → Mutex θ
  place : θ → Option ο
  takes : ο → θ → ℕ
  releases : ο → θ → ℕ

abbrev IdealWorld (ο θ : Type) := World (Sequences (ListId ο) θ) ο θ

inductive Call (ο θ : Type) where
  | take (t : θ) (o : ο) (time : BitVec 32)
  | takeReturn (t : θ) (o : ο)
  | release (t : θ) (o : ο)
  | expire (t : θ)
  deriving DecidableEq, Repr

variable {σ ο θ : Type} [DecidableEq ο] [DecidableEq θ]

/-- One more success of `t` with `o`, if the result is `ERR_OK`. -/
def count (f : ο → θ → ℕ) (o : ο) (t : θ) (e : ℤ) : ο → θ → ℕ :=
  fun o' t' => if o' = o ∧ t' = t ∧ e = ERR_OK then f o' t'+1 else f o' t'

/-- The call of `take` by `t` has come to an end with `e`. -/
def World.finish (w : World σ ο θ) (t : θ) (o : ο) (e : ℤ) : World σ ο θ :=
  {w with place := Function.update w.place t none, takes := count w.takes o t e}

def World.taken (w : World σ ο θ) (t : θ) (o : ο) :
    Kernel σ θ × Mutex θ × Option ℤ → World σ ο θ
  | (k,m,none) => {w with
      kernel := k, mutex := Function.update w.mutex o m,
      place := Function.update w.place t (some o)}
  | (k,m,some e) => World.finish {w with kernel := k, mutex := Function.update w.mutex o m} t o e

def World.released (w : World σ ο θ) (t : θ) (o : ο) :
    Kernel σ θ × Mutex θ × ℤ → World σ ο θ
  | (k,m,e) => {w with
      kernel := k, mutex := Function.update w.mutex o m, releases := count w.releases o t e}

def call [ListFamily σ (ListId ο) θ] (w : World σ ο θ) : Call ο θ → Option (World σ ο θ)
  | .take t o time => (Mutex.take w.kernel o (w.mutex o) t time).map (w.taken t o)
  | .takeReturn t o => some (w.finish t o (Mutex.takeReturn w.kernel t))
  | .release t o => (Mutex.release w.kernel o (w.mutex o) t).map (w.released t o)
  | .expire t => do
      let k ← w.kernel.expire t
      some {w with kernel := k}

/-- Ready threads act, inside `take` only by returning from it, and the timers of
waiting threads expire. -/
def Legal (w : World σ ο θ) : Call ο θ → Prop
  | .take t _ _ | .release t _ => w.place t = none ∧ (w.kernel.thread t).stat = .ready
  | .takeReturn t o => w.place t = some o ∧ (w.kernel.thread t).stat = .ready
  | .expire t => w.place t ≠ none ∧ (w.kernel.thread t).timerActive = true

/-- A woken thread that is about to return `ERR_OK`. -/
def World.Woken (w : World σ ο θ) (o : ο) (t : θ) : Prop :=
  w.place t = some o ∧ (w.kernel.thread t).stat = .ready ∧ (w.kernel.thread t).error = ERR_OK

instance (w : World σ ο θ) (o : ο) (t : θ) : Decidable (w.Woken o t) :=
  inferInstanceAs (Decidable (_ ∧ _ ∧ _))

/-- The takes that have returned `ERR_OK` or will do so. -/
def World.granted (w : World σ ο θ) (o : ο) (t : θ) : ℕ :=
  w.takes o t+if w.Woken o t then 1 else 0

/-- The owner has a successful take that it has not released, and a mutex without
such takes is free. -/
structure Owned (w : IdealWorld ο θ) : Prop where
  owner : ∀ o t, (w.mutex o).owner = some t → w.releases o t < w.granted o t
  free : ∀ o, (∀ t, w.granted o t = w.releases o t) →
    (w.mutex o).value = 1 ∧ (w.mutex o).owner = none

/-- A release that gives the mutex away finds a thread that is blocked in `take` of
this mutex, or none. -/
def HandsOver (w : IdealWorld ο θ) : Call ο θ → Prop
  | .release t o => (w.mutex o).owner = some t → (w.mutex o).hold = 1 →
      ∀ u ∈ (w.kernel.lists.get (.suspend o)).head?,
        w.place u = some o ∧ (w.kernel.thread u).stat = .suspend
  | _ => True

/-- No call has been made yet. -/
structure Start (w : World σ ο θ) : Prop where
  mutex : ∀ o, w.mutex o = Mutex.new
  place : ∀ t, w.place t = none
  takes : ∀ o t, w.takes o t = 0
  releases : ∀ o t, w.releases o t = 0

/-- A mutex whose takes by a thread are counted in `g` and its releases in `r`.
`hold_` is an `uint8_t`, so it only knows the difference modulo 256. -/
structure Balanced (m : Mutex θ) (g r : θ → ℕ) : Prop where
  count : ∀ t, r t ≤ g t
  idle : m.owner = none → m.value = 1 ∧ m.hold = 0
  busy : ∀ t, m.owner = some t → m.value = 0 ∧ r t < g t
  hold : ∀ t, g t%256 = (r t+if m.owner = some t then m.hold.toNat else 0)%256

/-- What a call can do to one mutex and its counts; only the threads in `L` may make
a last release. -/
inductive Moves (L : θ → Prop) (m : Mutex θ) (g r : θ → ℕ) :
    Mutex θ → (θ → ℕ) → (θ → ℕ) → Prop
  | stay : Moves L m g r m g r
  | again {t : θ} (hown : m.owner = some t) :
      Moves L m g r {m with hold := m.hold+1} (Function.update g t (g t+1)) r
  | first {t : θ} {p : Option Priority} (hvalue : 0 < m.value) :
      Moves L m g r ⟨m.value-1,p,m.hold+1,some t⟩ (Function.update g t (g t+1)) r
  | kept {t : θ} (hown : m.owner = some t) (hhold : m.hold ≠ 1) :
      Moves L m g r {m with hold := m.hold-1} g (Function.update r t (r t+1))
  | freed {t : θ} (hown : m.owner = some t) (hhold : m.hold = 1) (ht : L t) :
      Moves L m g r ⟨m.value+1,none,m.hold-1,none⟩ g (Function.update r t (r t+1))
  | passed {t u : θ} {p : Option Priority} (hown : m.owner = some t) (hhold : m.hold = 1)
      (ht : L t) (hu : u ≠ t) :
      Moves L m g r ⟨m.value,p,m.hold-1+1,some u⟩ (Function.update g u (g u+1))
        (Function.update r t (r t+1))

/-- The error of a blocked thread is still the initial one. -/
def WaitsClean (w : IdealWorld ο θ) : Prop :=
  ∀ t o, w.place t = some o → (w.kernel.thread t).stat = .suspend →
    (w.kernel.thread t).error = ERR_OK

structure Invariant (w : IdealWorld ο θ) : Prop where
  balanced : ∀ o, Balanced (w.mutex o) (w.granted o) (w.releases o)
  clean : WaitsClean w

section Balanced

variable {m : Mutex θ} {g r : θ → ℕ} {t u : θ}

theorem Balanced.again (H : Balanced m g r) (ht : m.owner = some t) :
    Balanced {m with hold := m.hold+1} (Function.update g t (g t+1)) r := by
  have hh : (m.hold+1).toNat = (m.hold.toNat+1)%256 := by simp [BitVec.toNat_add]
  refine ⟨fun v => ?_,fun hn => by simp [ht] at hn,fun v hv => ⟨(H.busy v hv).1,?_⟩,fun v => ?_⟩
  · have := H.count v
    by_cases hvt : v = t
    · subst hvt; simpa using by omega
    · simpa [hvt] using this
  · obtain rfl : t = v := Option.some.inj (ht.symm.trans hv)
    have := (H.busy t ht).2
    simpa using by omega
  · have := H.hold v
    by_cases hvt : v = t
    · subst hvt
      simp only [ht,ite_true,Function.update_self,hh] at this ⊢
      omega
    · have hne : ¬ t = v := fun h => hvt h.symm
      simpa [hvt,ht,hne] using this

theorem Balanced.owner_none (H : Balanced m g r) (hv : 0 < m.value) : m.owner = none := by
  cases ho : m.owner with
  | none => rfl
  | some u =>
      rw [(H.busy u ho).1] at hv
      exact absurd hv (by decide)

/-- The mutex was free and `t` becomes its owner. -/
theorem Balanced.first (H : Balanced m g r) (hv : 0 < m.value) (p : Option Priority) :
    Balanced ⟨m.value-1,p,m.hold+1,some t⟩ (Function.update g t (g t+1)) r := by
  have ho := H.owner_none hv
  obtain ⟨hvalue,hhold⟩ := H.idle ho
  refine ⟨fun v => ?_,fun hn => by simp at hn,fun v hv => ⟨by simp [hvalue],?_⟩,fun v => ?_⟩
  · have := H.count v
    by_cases hvt : v = t
    · subst hvt; simpa using by omega
    · simpa [hvt] using this
  · obtain rfl : t = v := Option.some.inj hv
    have := H.count t
    simpa using by omega
  · have := H.hold v
    by_cases hvt : v = t
    · subst hvt
      simp only [ho,hhold,reduceCtorEq,ite_false,ite_true,Function.update_self,
        show (0+1 : BitVec 8).toNat = 1 from rfl] at this ⊢
      omega
    · have hne : ¬ t = v := fun h => hvt h.symm
      simpa [hvt,ho,hne] using this

/-- A release that is not the last one leaves the owner a take. -/
theorem Balanced.kept (H : Balanced m g r) (ht : m.owner = some t) (hh : m.hold ≠ 1) :
    Balanced {m with hold := m.hold-1} g (Function.update r t (r t+1)) := by
  obtain ⟨hvalue,hlt⟩ := H.busy t ht
  have hmod := H.hold t
  simp only [ht,ite_true] at hmod
  have hne : m.hold.toNat ≠ 1 := fun h => hh (BitVec.eq_of_toNat_eq h)
  have hb : m.hold.toNat < 256 := m.hold.isLt
  have hsub : (m.hold-1).toNat = (m.hold.toNat+255)%256 := by
    rw [BitVec.toNat_sub]
    simp [Nat.add_comm]
  have htwo : r t+1 < g t := by omega
  refine ⟨fun v => ?_,fun hn => by simp [ht] at hn,fun v hv => ⟨hvalue,?_⟩,fun v => ?_⟩
  · have := H.count v
    by_cases hvt : v = t
    · subst hvt; simpa using by omega
    · simpa [hvt] using this
  · obtain rfl : t = v := Option.some.inj (ht.symm.trans hv)
    simpa using htwo
  · have := H.hold v
    by_cases hvt : v = t
    · subst hvt
      simp only [ht,ite_true,Function.update_self,hsub]
      omega
    · have hne : ¬ t = v := fun h => hvt h.symm
      simpa [hvt,ht,hne] using this

/-- After the last release the former owner has a multiple of 256 takes left. -/
theorem Balanced.last (H : Balanced m g r) (ht : m.owner = some t) (hh : m.hold = 1) (v : θ) :
    Function.update r t (r t+1) v ≤ g v ∧
      g v%256 = Function.update r t (r t+1) v%256 := by
  obtain ⟨-,hlt⟩ := H.busy t ht
  have hmod := H.hold v
  by_cases hvt : v = t
  · subst hvt
    simp only [ht,hh,ite_true,show (1 : BitVec 8).toNat = 1 from rfl] at hmod
    simp only [Function.update_self]
    omega
  · have hne : ¬ t = v := fun h => hvt h.symm
    simp only [ht,Option.some.injEq,hne,ite_false] at hmod
    simpa [hvt] using ⟨H.count v,hmod⟩

theorem Balanced.freed (H : Balanced m g r) (ht : m.owner = some t) (hh : m.hold = 1) :
    Balanced ⟨m.value+1,none,m.hold-1,none⟩ g (Function.update r t (r t+1)) := by
  obtain ⟨hvalue,-⟩ := H.busy t ht
  have hlast := H.last ht hh
  exact ⟨fun v => (hlast v).1,fun _ => by simp [hvalue,hh],fun v hv => by simp at hv,
    fun v => by simpa using (hlast v).2⟩

/-- The mutex is handed over to `u`, whose take is thereby granted. -/
theorem Balanced.passed (H : Balanced m g r) (ht : m.owner = some t) (hh : m.hold = 1)
    (p : Option Priority) :
    Balanced ⟨m.value,p,m.hold-1+1,some u⟩ (Function.update g u (g u+1))
      (Function.update r t (r t+1)) := by
  have hlast := H.last ht hh
  refine ⟨fun v => ?_,fun hn => by simp at hn,fun v hv => ⟨(H.busy t ht).1,?_⟩,fun v => ?_⟩
  · refine (hlast v).1.trans ?_
    by_cases hvu : v = u <;> simp [hvu]
  · obtain rfl : u = v := Option.some.inj hv
    simpa [Nat.lt_succ_iff] using (hlast u).1
  · have := (hlast v).2
    by_cases hvu : v = u
    · subst hvu
      simp only [ite_true,Function.update_self,hh,show (1-1+1 : BitVec 8).toNat = 1 from rfl]
      omega
    · have hne : ¬ u = v := fun h => hvu h.symm
      simpa [hvu,hne] using this

theorem Balanced.moves {L : θ → Prop} {m' : Mutex θ} {g' r' : θ → ℕ} (H : Balanced m g r)
    (h : Moves L m g r m' g' r') : Balanced m' g' r' := by
  cases h with
  | stay => exact H
  | again hown => exact H.again hown
  | first hvalue => exact H.first hvalue _
  | kept hown hhold => exact H.kept hown hhold
  | freed hown hhold _ => exact H.freed hown hhold
  | passed hown hhold _ _ => exact H.passed hown hhold _

end Balanced

variable {w w' : IdealWorld ο θ} {o : ο} {t : θ}

theorem Invariant.owned (H : Invariant w) : Owned w := by
  refine ⟨fun o t h => ((H.balanced o).busy t h).2,fun o h => ?_⟩
  cases ho : (w.mutex o).owner with
  | none => exact ⟨((H.balanced o).idle ho).1,rfl⟩
  | some t =>
      have hlt := ((H.balanced o).busy t ho).2
      rw [h t] at hlt
      exact absurd hlt (lt_irrefl _)

theorem Start.invariant (h : Start w) : Invariant w := by
  have hnone : ∀ o t, w.granted o t = 0 := fun o t => by
    simp [World.granted,World.Woken,h.takes,h.place]
  refine ⟨fun o => ⟨fun t => by simp [h.releases],fun _ => by simp [h.mutex,Mutex.new],
    fun t ho => by simp [h.mutex,Mutex.new] at ho,fun t => ?_⟩,
    fun t o ht => by simp [h.place] at ht⟩
  simp [hnone,h.releases,h.mutex,Mutex.new]

/-- The fields of `u` that decide whether it is woken. -/
def Undisturbed {σ : Type} (k k' : Kernel σ θ) (u : θ) : Prop :=
  (k'.thread u).stat = (k.thread u).stat ∧ (k'.thread u).error = (k.thread u).error

omit [DecidableEq ο] in
theorem OnlyError.undisturbed {k k' : IdealKernel ο θ} {u : θ} (h : Mutex.OnlyError k k' t)
    (hu : u ≠ t) : Undisturbed k k' u := by
  obtain ⟨⟨e,he⟩,-⟩ := h
  simp [Undisturbed,he,hu]

/-- Nobody but the caller of `take` is disturbed; a blocked caller waits without an
error. -/
theorem Taken.undisturbed {k k' : IdealKernel ο θ} {m m' : Mutex θ} {r : Option ℤ}
    {time : BitVec 32} (h : Mutex.Taken k o m t time k' m' r) :
    (∀ u, u ≠ t → Undisturbed k k' u) ∧
      (r = none → (k'.thread t).error = ERR_OK ∧ (k'.thread t).stat = .suspend) := by
  cases h with
  | again _ hk | first _ _ hk | late _ hk => exact ⟨fun u hu => OnlyError.undisturbed hk hu,by simp⟩
  | @blocked u x hown hu hvalue _ hthread hstat hx hwait =>
      refine ⟨fun v hv => ?_,fun _ => by simp [hthread,hstat,hx.error]⟩
      by_cases hvu : v = u
      · subst hvu; simp [Undisturbed,hthread,hv]
      · simp [Undisturbed,hthread,hv,hvu]

omit [DecidableEq θ] in
theorem granted_congr {u : θ} (ht : w'.takes o u = w.takes o u) (hp : w'.place u = w.place u)
    (hk : Undisturbed w.kernel w'.kernel u) : w'.granted o u = w.granted o u := by
  have hw : w'.Woken o u ↔ w.Woken o u := by simp [World.Woken,hp,hk.1,hk.2]
  simp [World.granted,hw,ht]

/-- A call of `take` that ends counts for `t` what it returns, and no longer that
`t` was woken. -/
theorem granted_finish {k : IdealKernel ο θ} {f : ο → Mutex θ} {e : ℤ}
    (hk : ∀ u, u ≠ t → Undisturbed w.kernel k u) (o' : ο) (u : θ) :
    (World.finish {w with kernel := k, mutex := f} t o e).granted o' u =
      if u = t then w.takes o' t+(if o' = o ∧ e = ERR_OK then 1 else 0) else w.granted o' u := by
  by_cases hu : u = t
  · subst hu
    by_cases ho : o' = o ∧ e = ERR_OK
    · obtain ⟨rfl,rfl⟩ := ho
      simp [World.granted,World.Woken,World.finish,count]
    · have hno : ¬(o' = o ∧ True ∧ e = ERR_OK) := by simpa using ho
      simp [World.granted,World.Woken,World.finish,count,ho]
  · rw [if_neg hu]
    exact granted_congr (by simp [World.finish,count,hu]) (by simp [World.finish,hu]) (hk u hu)

omit [DecidableEq θ] in
theorem granted_outside (hp : w.place t = none) (o : ο) : w.granted o t = w.takes o t := by
  simp [World.granted,World.Woken,hp]

/-- A call of `take` returns without having waited. -/
theorem granted_taken {k : IdealKernel ο θ} {f : ο → Mutex θ} {e : ℤ}
    (hp : w.place t = none) (hk : ∀ u, u ≠ t → Undisturbed w.kernel k u) (o' : ο) :
    (World.finish {w with kernel := k, mutex := f} t o e).granted o' =
      if o' = o ∧ e = ERR_OK then Function.update (w.granted o') t (w.granted o' t+1)
      else w.granted o' := by
  funext u
  rw [granted_finish hk]
  by_cases hu : u = t
  · subst hu
    by_cases ho : o' = o ∧ e = ERR_OK <;> simp [granted_outside hp,ho]
  · by_cases ho : o' = o ∧ e = ERR_OK <;> simp [hu,ho]

/-- A thread that ends its call does not wait, and nobody else is disturbed. -/
theorem WaitsClean.finish (H : WaitsClean w) {k : IdealKernel ο θ} {f : ο → Mutex θ} {e : ℤ}
    (hk : ∀ u, u ≠ t → Undisturbed w.kernel k u) :
    WaitsClean (World.finish {w with kernel := k, mutex := f} t o e) := by
  intro u o' hu hs
  by_cases hut : u = t
  · simp [World.finish,hut] at hu
  · obtain ⟨h₁,h₂⟩ := hk u hut
    exact h₂.trans (H u o' (by simpa [World.finish,hut] using hu) (h₁.symm.trans hs))

theorem WaitsClean.taken (H : WaitsClean w) {k : IdealKernel ο θ} {m : Mutex θ} {r : Option ℤ}
    {time : BitVec 32} (h : Mutex.Taken w.kernel o (w.mutex o) t time k m r) :
    WaitsClean (w.taken t o (k,m,r)) := by
  obtain ⟨hk,hblocked⟩ := Taken.undisturbed h
  cases r with
  | some e => exact H.finish hk
  | none =>
      intro u o' hu hs
      by_cases hut : u = t
      · subst hut; exact (hblocked rfl).1
      · obtain ⟨h₁,h₂⟩ := hk u hut
        exact h₂.trans (H u o' (by simpa [World.taken,hut] using hu) (h₁.symm.trans hs))

theorem taken_moves (L : θ → Prop) (hp : w.place t = none) {k : IdealKernel ο θ} {m : Mutex θ}
    {r : Option ℤ} {time : BitVec 32} (h : Mutex.Taken w.kernel o (w.mutex o) t time k m r)
    (o' : ο) :
    Moves L (w.mutex o') (w.granted o') (w.releases o') ((w.taken t o (k,m,r)).mutex o')
      ((w.taken t o (k,m,r)).granted o') (w.releases o') := by
  obtain ⟨hk,hblocked⟩ := Taken.undisturbed h
  -- a call that returns `e` changes one mutex and the count of its caller
  have hdone : ∀ e, Moves L (w.mutex o) (w.granted o) (w.releases o) m (if e = ERR_OK then
        Function.update (w.granted o) t (w.granted o t+1) else w.granted o) (w.releases o) →
      Moves L (w.mutex o') (w.granted o') (w.releases o') (Function.update w.mutex o m o')
        ((w.taken t o (k,m,some e)).granted o') (w.releases o') := by
    intro e hm
    simp only [World.taken]
    rw [granted_taken hp hk]
    by_cases ho : o' = o
    · subst ho; simpa using hm
    · simpa [ho] using .stay
  cases h with
  | again hown _ => exact hdone _ (by simpa using .again hown)
  | first _ hval _ => exact hdone _ (by simpa using .first hval)
  | late _ _ => exact hdone _ (by simpa [ERR_TIMEOUT,ERR_OK] using .stay)
  | blocked =>
      obtain ⟨-,hsus⟩ := hblocked rfl
      have hg : (w.taken t o (k,w.mutex o,none)).granted o' = w.granted o' := by
        funext u
        by_cases hut : u = t
        · subst hut
          simp [World.taken,World.granted,World.Woken,hsus,hp]
        · exact granted_congr rfl (by simp [World.taken,hut]) (hk u hut)
      rw [hg]
      simpa [World.taken] using .stay

theorem granted_takeReturn (hp : w.place t = some o) (ht : (w.kernel.thread t).stat = .ready)
    (o' : ο) : (w.finish t o (Mutex.takeReturn w.kernel t)).granted o' = w.granted o' := by
  have hret : Mutex.takeReturn w.kernel t = ERR_OK ↔ (w.kernel.thread t).error = ERR_OK := by
    unfold Mutex.takeReturn
    split_ifs with he <;> simp_all
  funext u
  rw [granted_finish (f := w.mutex) fun u _ => ⟨rfl,rfl⟩]
  split_ifs with hu ho
  · subst hu
    obtain ⟨rfl,ho⟩ := ho
    simp [World.granted,World.Woken,hp,ht,hret.mp ho]
  · subst hu
    have hnot : ¬w.Woken o' u := fun hw => ho
      ⟨Option.some.inj (hw.1.symm.trans hp),hret.mpr hw.2.2⟩
    simp [World.granted,hnot]
  · rfl

theorem releases_count {f : ο → θ → ℕ} (o' : ο) (e : ℤ) :
    count f o t e o' = if o' = o ∧ e = ERR_OK then Function.update (f o') t (f o' t+1)
      else f o' := by
  funext u
  by_cases hu : u = t
  · subst hu
    by_cases ho : o' = o ∧ e = ERR_OK <;> simp [count,ho]
  · by_cases ho : o' = o ∧ e = ERR_OK <;> simp [count,hu,ho]

/-- A mutex is released and the wait of nobody is disturbed. -/
theorem released_quiet {L : ο → θ → Prop} (H : WaitsClean w) {k : IdealKernel ο θ} {m : Mutex θ}
    {e : ℤ} (hk : ∀ u, w.place u ≠ none → Undisturbed w.kernel k u)
    (hm : Moves (L o) (w.mutex o) (w.granted o) (w.releases o) m (w.granted o) (if e = ERR_OK then
      Function.update (w.releases o) t (w.releases o t+1) else w.releases o)) :
    WaitsClean (w.released t o (k,m,e)) ∧ ∀ o', Moves (L o') (w.mutex o') (w.granted o')
      (w.releases o') ((w.released t o (k,m,e)).mutex o')
      ((w.released t o (k,m,e)).granted o') ((w.released t o (k,m,e)).releases o') := by
  refine ⟨fun u o' hu hs => ?_,fun o' => ?_⟩
  · obtain ⟨h₁,h₂⟩ := hk u (by rw [show w.place u = some o' from hu]; simp)
    exact h₂.trans (H u o' hu (h₁.symm.trans hs))
  · have hg : (w.released t o (k,m,e)).granted o' = w.granted o' := by
      funext u
      by_cases hu : w.place u = none
      · rw [granted_outside hu,granted_outside (by exact hu)]
        rfl
      · exact granted_congr rfl rfl (hk u hu)
    rw [hg]
    simp only [World.released,releases_count]
    by_cases ho : o' = o
    · subst ho; simpa using hm
    · simpa [ho] using .stay

/-- The mutex is given to a thread that is blocked in `take`. -/
theorem released_passed {L : ο → θ → Prop} (H : WaitsClean w) {k : IdealKernel ο θ} {m : Mutex θ}
    {u : θ} (hu : w.place u = some o) (hs : (w.kernel.thread u).stat = .suspend)
    (hk : ∀ v, v ≠ u → Undisturbed w.kernel k v) (hready : (k.thread u).stat = .ready)
    (herr : (k.thread u).error = (w.kernel.thread u).error)
    (hm : Moves (L o) (w.mutex o) (w.granted o) (w.releases o) m
      (Function.update (w.granted o) u (w.granted o u+1))
      (Function.update (w.releases o) t (w.releases o t+1))) :
    WaitsClean (w.released t o (k,m,ERR_OK)) ∧ ∀ o', Moves (L o') (w.mutex o') (w.granted o')
      (w.releases o') ((w.released t o (k,m,ERR_OK)).mutex o')
      ((w.released t o (k,m,ERR_OK)).granted o')
      ((w.released t o (k,m,ERR_OK)).releases o') := by
  have hok : (k.thread u).error = ERR_OK := herr.trans (H u o hu hs)
  refine ⟨fun v o' hv hsv => ?_,fun o' => ?_⟩
  · by_cases hvu : v = u
    · subst hvu
      exact absurd (hready.symm.trans hsv) (by decide)
    · obtain ⟨h₁,h₂⟩ := hk v hvu
      exact h₂.trans (H v o' hv (h₁.symm.trans hsv))
  · have hg : (w.released t o (k,m,ERR_OK)).granted o' =
        if o' = o then Function.update (w.granted o') u (w.granted o' u+1) else w.granted o' := by
      funext v
      by_cases hv : v = u
      · subst hv
        by_cases ho : o' = o
        · subst ho
          simp [World.released,World.granted,World.Woken,hu,hready,hok,hs]
        · have hno : ¬o = o' := fun h => ho h.symm
          simp [World.released,World.granted,World.Woken,hu,ho,hno]
      · have hsame : (w.released t o (k,m,ERR_OK)).granted o' v = w.granted o' v :=
          granted_congr rfl rfl (hk v hv)
        rw [hsame]
        split_ifs <;> simp [hv]
    rw [hg]
    simp only [World.released,releases_count]
    by_cases ho : o' = o
    · subst ho; simpa using hm
    · simpa [ho] using .stay

theorem released_moves {L : ο → θ → Prop} (H : WaitsClean w) (hp : w.place t = none) (hL : L o t)
    (hh : HandsOver w (.release t o)) {k : IdealKernel ο θ} {m : Mutex θ} {e : ℤ}
    (h : Mutex.Released w.kernel o (w.mutex o) t k m e) :
    WaitsClean (w.released t o (k,m,e)) ∧ ∀ o', Moves (L o') (w.mutex o') (w.granted o')
      (w.releases o') ((w.released t o (k,m,e)).mutex o')
      ((w.released t o (k,m,e)).granted o') ((w.released t o (k,m,e)).releases o') := by
  cases h with
  | refused hown hk =>
      refine released_quiet H (fun u hu => OnlyError.undisturbed hk fun hut => hu (hut ▸ hp)) ?_
      simpa [ERR_ERROR,ERR_OK] using .stay
  | kept hown hhold =>
      exact released_quiet H (fun u _ => ⟨rfl,rfl⟩) (by simpa using .kept hown hhold)
  | freed hown hhold _ _ hthread _ =>
      refine released_quiet H (fun u hu => ?_) (by simpa using .freed hown hhold hL)
      have hut : u ≠ t := fun hut => hu (hut ▸ hp)
      simp [Undisturbed,hthread,hut]
  | @passed k₁ _ p u us x hown hhold _ hlist hrestored hthread hx hwake _ _ =>
      obtain ⟨hup,hus⟩ := hh hown hhold u
        (by change u ∈ (w.kernel.waiters o).head?; simp [hlist])
      have hut : u ≠ t := fun hut => by simp [hut,hp] at hup
      have hself : k₁.thread u = w.kernel.thread u := by simp [hrestored,hut]
      rw [hself] at hx hwake
      refine released_passed H hup hus (fun v hv => ?_) (by simpa [hthread] using hwake hus)
        (by simpa [hthread] using hx.error) (.passed hown hhold hL hut)
      by_cases hvt : v = t
      · subst hvt; simp [Undisturbed,hthread,hrestored,hv]
      · simp [Undisturbed,hthread,hrestored,hv,hvt]

/-- A timer wakes a thread with an error, which is not a grant. -/
theorem expire_moves (L : ο → θ → Prop) (H : WaitsClean w) {k : IdealKernel ο θ}
    (h : w.kernel.expire t = some k) :
    WaitsClean {w with kernel := k} ∧ ∀ o, Moves (L o) (w.mutex o) (w.granted o) (w.releases o)
      (w.mutex o) (World.granted {w with kernel := k} o) (w.releases o) := by
  obtain ⟨hs,x,hx,hready,herr⟩ := Kernel.expire_thread h
  refine ⟨fun u o hu hsu => ?_,fun o => ?_⟩
  · by_cases hut : u = t
    · subst hut
      simp [hx,hready] at hsu
    · simp only [hx,Function.update_of_ne hut] at hsu ⊢
      exact H u o hu hsu
  · have hg : World.granted {w with kernel := k} o = w.granted o := by
      funext u
      by_cases hut : u = t
      · subst hut
        simp [World.granted,World.Woken,hx,hs,herr,ERR_TIMEOUT,ERR_OK]
      · exact granted_congr rfl rfl (by simp [Undisturbed,hx,hut])
    rw [hg]
    exact .stay

/-- Every call moves every mutex and its counts as the counting model says. -/
theorem call_moves (H : WaitsClean w) {c : Call ο θ} (hl : Legal w c) (hh : HandsOver w c)
    (h : call w c = some w') :
    WaitsClean w' ∧ ∀ o, Moves (fun t => c = .release t o) (w.mutex o) (w.granted o)
      (w.releases o) (w'.mutex o) (w'.granted o) (w'.releases o) := by
  cases c with
  | take t o time =>
      simp only [call,Option.map_eq_some_iff] at h
      obtain ⟨⟨k,m,r⟩,hr,rfl⟩ := h
      have htaken := Mutex.take_taken hl.2 hr
      refine ⟨H.taken htaken,fun o' => ?_⟩
      have hreleases : (w.taken t o (k,m,r)).releases = w.releases := by cases r <;> rfl
      rw [hreleases]
      exact taken_moves _ hl.1 htaken o'
  | takeReturn t o =>
      obtain rfl := Option.some.inj h
      refine ⟨H.finish (f := w.mutex) fun u _ => ⟨rfl,rfl⟩,fun o' => ?_⟩
      rw [granted_takeReturn hl.1 hl.2]
      exact .stay
  | release t o =>
      simp only [call,Option.map_eq_some_iff] at h
      obtain ⟨⟨k,m,e⟩,hr,rfl⟩ := h
      exact released_moves (L := fun o' u => Call.release t o = .release u o') H hl.1 rfl hh
        (Mutex.release_released hr)
  | expire t =>
      simp only [call,Option.bind_eq_bind,Option.bind_eq_some_iff,Option.some.injEq] at h
      obtain ⟨k,hk,rfl⟩ := h
      exact expire_moves (fun o u => Call.expire t = .release u o) H hk

theorem Invariant.step (H : Invariant w) {c : Call ο θ} (hl : Legal w c) (hh : HandsOver w c)
    (h : call w c = some w') : Invariant w' := by
  obtain ⟨hclean,hmoves⟩ := call_moves H.clean hl hh h
  exact ⟨fun o => (H.balanced o).moves (hmoves o),hclean⟩

/-- No thread has 256 takes of a mutex to release. -/
def Shallow (w : IdealWorld ο θ) : Prop := ∀ o t, w.granted o t < w.releases o t+256

/-- A thread that is not blocked in `take` of this mutex becomes the owner without
a take. -/
theorem Invariant.misplaced (H : Invariant w) (hw : Shallow w)
    (hh : ¬HandsOver w (.release t o)) {r : IdealKernel ο θ × Mutex θ × ℤ}
    (h : Mutex.release w.kernel o (w.mutex o) t = some r) : ¬Owned (w.released t o r) := by
  simp only [HandsOver,not_forall] at hh
  obtain ⟨hown,hone,u,hu,hblocked⟩ := hh
  obtain ⟨k,m,e⟩ := r
  cases Mutex.release_released h with
  | refused hno => exact absurd hown hno
  | kept _ hno => exact absurd hone hno
  | freed _ _ _ hempty =>
      change u ∈ (w.kernel.waiters o).head? at hu
      simp [hempty] at hu
  | @passed k₁ _ p v us x _ _ _ hlist hrestored hthread hx hwake hstay _ =>
      change u ∈ (w.kernel.waiters o).head? at hu
      obtain rfl : v = u := by simpa [hlist] using hu
      intro howned
      have hlt := howned.owner o v (by simp [World.released])
      have hstat : (k₁.thread v).stat = (w.kernel.thread v).stat ∧
          (k₁.thread v).error = (w.kernel.thread v).error := by
        by_cases hvt : v = t
        · subst hvt; simp [hrestored]
        · simp [hrestored,hvt]
      have hg : ∀ m, (w.released t o (k,m,ERR_OK)).granted o v = w.granted o v := fun m => by
        by_cases hs : (w.kernel.thread v).stat = .suspend
        · have hplace : w.place v ≠ some o := fun hp => hblocked ⟨hp,hs⟩
          simp [World.granted,World.Woken,World.released,hplace]
        · refine granted_congr rfl rfl ⟨?_,?_⟩
          · simpa [World.released,hthread,hstat.1] using hstay (by rw [hstat.1]; exact hs)
          · simpa [World.released,hthread,hstat.2] using hx.error
      have hr : ∀ m, (w.released t o (k,m,ERR_OK)).releases o =
          Function.update (w.releases o) t (w.releases o t+1) := fun m => by
        simp [World.released,releases_count]
      rw [hg,hr] at hlt
      obtain ⟨-,hmod⟩ := (H.balanced o).last hown hone v
      have hle : w.releases o v ≤ Function.update (w.releases o) t (w.releases o t+1) v := by
        by_cases hvt : v = t
        · subst hvt; simp
        · simp [hvt]
      have := hw o v
      omega

/-- In every run in which each release that gives a mutex away finds a thread that
is still blocked in `take`, or none, an owner always has a take to release. As long
as nobody nests 256 takes this is exact: a release that finds another thread makes
it the owner without a take. -/
theorem owner_has_unreleased_take (hstart : Start w) {cs : List (Call ο θ)}
    (hlegal : AllSteps call Legal w cs) :
    (AllSteps call HandsOver w cs → Throughout call Owned w cs) ∧
      (AllSteps call (fun w _ => Shallow w) w cs →
        (Throughout call Owned w cs ↔
          AllSteps call (fun w c => HandsOver w c ∨ (call w c).isNone = true) w cs)) := by
  refine ⟨fun hover => ?_,fun hshallow => ?_⟩
  · exact throughout_of_invariant (fun _ H => H.owned) (fun _ _ _ H hc h => H.step hc.1 hc.2 h)
      hstart.invariant (hlegal.and hover)
  · refine throughout_iff (fun _ H => H.owned) (fun _ _ _ H hl hh h => H.step hl.1 hh h) ?_
      hstart.invariant (hlegal.and hshallow)
    intro w c w' H hl hh h
    cases c with
    | release t o =>
        simp only [call,Option.map_eq_some_iff] at h
        obtain ⟨r,hr,rfl⟩ := h
        exact H.misplaced hl.2 hh hr
    | take | takeReturn | expire => exact absurd trivial hh

/-- The idle thread and two threads of priority 10, all ready, and an unused mutex. -/
def threeReady : IdealWorld Unit (Fin 3) where
  kernel := Scheduler.startedKernel fun t => if t = 0 then 254 else 10
  mutex _ := Mutex.new
  place _ := none
  takes _ _ := 0
  releases _ _ := 0

theorem threeReady_start : Start threeReady := ⟨fun _ => rfl,fun _ => rfl,fun _ _ => rfl,
  fun _ _ => rfl⟩

instance (w : World σ ο θ) : ∀ c, Decidable (Legal w c)
  | .take t _ _ | .release t _ =>
      inferInstanceAs (Decidable (w.place t = none ∧ (w.kernel.thread t).stat = .ready))
  | .takeReturn t o =>
      inferInstanceAs (Decidable (w.place t = some o ∧ (w.kernel.thread t).stat = .ready))
  | .expire t =>
      inferInstanceAs (Decidable (w.place t ≠ none ∧ (w.kernel.thread t).timerActive = true))

instance (w : IdealWorld ο θ) (c : Call ο θ) : Decidable (HandsOver w c) := by
  unfold HandsOver
  split <;> infer_instance

/-- A nested take, a wait that is granted, and one that times out before the mutex
is released. -/
def passedOn : List (Call Unit (Fin 3)) :=
  [.take 1 () 0,.take 1 () 7,.take 2 () 9,.release 1 (),.release 1 (),.takeReturn 2 (),
    .take 1 () 0,.release 2 ()]

theorem owner_has_unreleased_take_passedOn : Throughout call Owned threeReady passedOn :=
  (owner_has_unreleased_take threeReady_start (by decide +kernel)).1 (by decide +kernel)

/-- The wait of thread 2 ends by a timeout, but it stays in the suspend list, where
the release of thread 1 finds it. -/
def lateRelease : List (Call Unit (Fin 3)) :=
  [.take 1 () 0,.take 2 () 5,.expire 2,.takeReturn 2 (),.release 1 ()]

theorem lateRelease_gives_to_absent : AllSteps call Legal threeReady lateRelease ∧
    ((lateRelease.foldlM call threeReady).map fun w =>
      ((w.mutex ()).owner,(w.mutex ()).value,w.takes () 2,w.place 2)) = some (some 2,0,0,none) ∧
    ¬Throughout call Owned threeReady lateRelease := by
  have hfacts : ((lateRelease.foldlM call threeReady).map fun w =>
      ((w.mutex ()).owner,(w.mutex ()).value,w.takes () 2,w.place 2)) =
        some (some 2,0,0,none) := by decide +kernel
  refine ⟨by decide +kernel,hfacts,fun h => ?_⟩
  obtain ⟨w,hw,hfacts⟩ := Option.map_eq_some_iff.mp hfacts
  simp only [Prod.mk.injEq] at hfacts
  have hlt := (h.last hw).owner () 2 hfacts.1
  rw [granted_outside hfacts.2.2.2,hfacts.2.2.1] at hlt
  exact absurd hlt (Nat.not_lt_zero _)

end CosKernel.MutexOwnership

import CosKernel.KernelEffects
import CosKernel.LockedPrograms

/-!
# A semaphore as the lock of programs

Any number of threads run programs on one shared state, in any interleaving, with a
semaphore of the kernel as their lock. Each `take` waits for ever. The balance of a thread
counts the takes that it has completed minus its releases.

If every program keeps to the lock apart from the releases with a label in `bad`, then the
semaphore is a lock as long as no such release is executed, and the first one breaks it. The
lists may be those of coslib: of them only the head that a release finds is looked at, and it
has to be a thread that is blocked in `take`.
-/
namespace CosKernel.SemaphoreLock
open LockedPrograms Kernel Semaphore

def WAITING_FOREVER : BitVec 32 := -1

/-- Where a thread is: outside, before the next instruction of a program, or in `take`
behind `process`. -/
inductive Place (S L : Type) : Type 1 where
  | idle
  | running (p : Program S L Unit)
  | waiting (p : Program S L Unit)

def Place.isWaiting {S L : Type} : Place S L → Bool
  | waiting _ => true
  | idle | running _ => false

structure World (σ S L θ : Type) : Type 1 where
  kernel : Kernel σ θ
  value : BitVec 16
  state : S
  place : θ → Place S L
  balance : θ → ℤ

variable {σ S L θ : Type}

section model

variable [DecidableEq θ]

def World.move (w : World σ S L θ) (t : θ) (p : Place S L) : World σ S L θ :=
  {w with place := Function.update w.place t p}

def World.count (w : World σ S L θ) (t : θ) (n : ℤ) : World σ S L θ :=
  {w with balance := Function.update w.balance t (w.balance t+n)}

/-- The code does not look at the result of `take`. -/
def World.taken (w : World σ S L θ) (t : θ) (p : Program S L Unit) :
    Kernel σ θ × BitVec 16 × Option ℤ → World σ S L θ
  | (k,v,none) => World.move {w with kernel := k, value := v} t (.waiting p)
  | (k,v,some _) => (World.move {w with kernel := k, value := v} t (.running p)).count t 1

def World.released (w : World σ S L θ) (t : θ) (p : Program S L Unit) :
    Kernel σ θ × BitVec 16 × ℤ → World σ S L θ
  | (k,v,_) => (World.move {w with kernel := k, value := v} t (.running p)).count t (-1)

/-- The next instruction of `t`. -/
def World.go [ListFamily σ (ListId Unit) θ] (w : World σ S L θ) (t : θ) :
    Option (World σ S L θ) :=
  match w.place t with
  | .idle => none
  | .waiting p => some ((w.move t (.running p)).count t 1)
  | .running (.done _) => some (w.move t .idle)
  | .running (.take p) =>
      (Semaphore.take w.kernel () w.value t WAITING_FOREVER).map (w.taken t p)
  | .running (.release _ p) => (Semaphore.release w.kernel () w.value).map (w.released t p)
  | .running (.access f next) =>
      (f w.state).map fun r => World.move {w with state := r.2} t (.running (next r.1))

end model

/-- The next instruction of `t` is a release with a label in `bad`. -/
def World.AtBad (bad : L → Prop) (w : World σ S L θ) (t : θ) : Prop :=
  match w.place t with
  | .running (.release site _) => bad site
  | _ => False

/-- A release of `t` finds a thread that is blocked in `take` at the head of the list, or none. -/
def World.HandsOver [ListFamily σ (ListId Unit) θ] (w : World σ S L θ) (t : θ) : Prop :=
  match w.place t with
  | .running (.release _ _) => ∀ u ∈ ListFamily.front w.kernel.lists (ListId.suspend ()),
      (w.place u).isWaiting = true ∧ (w.kernel.thread u).stat = .suspend
  | _ => True

/-- The semaphore is a lock: nobody releases it without holding it or keeps it, it is free
when nobody is inside of a program, and at most one thread holds it. -/
structure LockSound (w : World σ S L θ) : Prop where
  nonneg : ∀ t, 0 ≤ w.balance t
  idle : ∀ t, w.place t = .idle → w.balance t = 0
  free : (∀ t, w.place t = .idle) → w.value = 1
  exclusive : ∀ t u, 0 < w.balance t → 0 < w.balance u → t = u

/-- No program has been started yet. -/
structure Start (w : World σ S L θ) : Prop where
  value : w.value = 1
  place : ∀ t, w.place t = .idle
  balance : ∀ t, w.balance t = 0

/-- The lock is with `t`: it has taken it, or it has been woken to do so. -/
def World.Holds (w : World σ S L θ) (t : θ) : Prop :=
  w.balance t = 1 ∨ (w.place t).isWaiting = true ∧ (w.kernel.thread t).stat = .ready

/-- What is left of a program fits the balance of its thread. -/
def Fits (bad : L → Prop) (balance : ℤ) : Place S L → Prop
  | .idle => balance = 0
  | .running p => ∃ held : Bool, balance = (if held then 1 else 0) ∧
      p.Guarded bad (fun _ held => held = false) held
  | .waiting p => balance = 0 ∧ p.Guarded bad (fun _ held => held = false) true

structure Invariant (bad : L → Prop) (w : World σ S L θ) : Prop where
  owner : ∃ owner : Option θ, (∀ t, w.Holds t ↔ owner = some t) ∧
    w.value = if owner.isSome then 0 else 1
  fits : ∀ t, Fits bad (w.balance t) (w.place t)

variable {bad : L → Prop} {w w' : World σ S L θ} {t u : θ}

theorem Start.invariant (H : Start w) : Invariant bad w := by
  refine ⟨⟨none,fun t => ?_,H.value⟩,fun t => ?_⟩
  · simp [World.Holds,H.balance,H.place,Place.isWaiting]
  · rw [H.place t]
    exact H.balance t

theorem Fits.balance {b : ℤ} {p : Place S L} (h : Fits bad b p) : b = 0 ∨ b = 1 := by
  cases p with
  | idle => exact Or.inl h
  | waiting p => exact Or.inl h.1
  | running p =>
      obtain ⟨held,hb,-⟩ := h
      cases held with
      | false => exact Or.inl hb
      | true => exact Or.inr hb

theorem Invariant.lockSound (H : Invariant bad w) : LockSound w := by
  obtain ⟨owner,howner,hvalue⟩ := H.owner
  have hholds : ∀ t, 0 < w.balance t → owner = some t := by
    intro t ht
    have := (H.fits t).balance
    exact (howner t).mp (Or.inl (by omega))
  refine ⟨fun t => ?_,fun t ht => ?_,fun hidle => ?_,fun t u ht hu => ?_⟩
  · have := (H.fits t).balance
    omega
  · have := H.fits t
    rw [ht] at this
    exact this
  · have hnone : owner = none := by
      cases howner' : owner with
      | none => rfl
      | some t =>
          have hfit := H.fits t
          rw [hidle t] at hfit
          have hholds := (howner t).mpr howner'
          simp [World.Holds,show w.balance t = 0 from hfit,hidle t,Place.isWaiting] at hholds
    simp [hvalue,hnone]
  · exact Option.some.inj ((hholds t ht).symm.trans (hholds u hu))

variable [DecidableEq θ]

theorem fits_update {f : θ → ℤ} {g : θ → Place S L} {b : ℤ} {p : Place S L}
    (h : ∀ u, Fits bad (f u) (g u)) (ht : Fits bad b p) (u : θ) :
    Fits bad (Function.update f t b u) (Function.update g t p u) := by
  by_cases hut : u = t
  · subst hut
    simpa using ht
  · simpa [hut] using h u

/-- A step in which `t` goes on with the same balance and the kernel does nothing. -/
theorem Invariant.silent (H : Invariant bad w) {p : Place S L} {s : S}
    (hplace : (w.place t).isWaiting = false) (hp : p.isWaiting = false)
    (hfit : Fits bad (w.balance t) p) :
    Invariant bad (World.move {w with state := s} t p) := by
  have hwait : ∀ u, (Function.update w.place t p u).isWaiting = (w.place u).isWaiting := by
    intro u
    by_cases hut : u = t
    · subst hut
      simp [hplace,hp]
    · simp [hut]
  obtain ⟨owner,howner,hvalue⟩ := H.owner
  refine ⟨⟨owner,fun u => ?_,hvalue⟩,?_⟩
  · rw [← howner u]
    simp only [World.Holds,World.move,hwait]
  · have := fits_update (t := t) H.fits hfit
    rwa [Function.update_eq_self] at this

theorem Invariant.start (H : Invariant bad w) (ht : w.place t = .idle)
    {p : Program S L Unit} (hp : p.Guarded bad (fun _ held => held = false) false) :
    Invariant bad (w.move t (.running p)) := by
  have hfit := H.fits t
  rw [ht] at hfit
  exact H.silent (s := w.state) (by simp [ht,Place.isWaiting]) rfl ⟨false,hfit,hp⟩

/-- A woken thread leaves `take`. -/
theorem Invariant.entered (H : Invariant bad w) {p : Program S L Unit}
    (hplace : w.place t = .waiting p) (ht : (w.kernel.thread t).stat = .ready) :
    Invariant bad ((w.move t (.running p)).count t 1) := by
  have hfit := H.fits t
  rw [hplace] at hfit
  obtain ⟨hbalance,hguarded⟩ := hfit
  obtain ⟨owner,howner,hvalue⟩ := H.owner
  refine ⟨⟨owner,fun u => ?_,hvalue⟩,?_⟩
  · rw [← howner u]
    by_cases hut : u = t
    · subst hut
      simp [World.Holds,World.count,World.move,hbalance,hplace,ht,Place.isWaiting]
    · simp [World.Holds,World.count,World.move,hut]
  · exact fits_update H.fits ⟨true,by simp [World.move,hbalance],hguarded⟩

/-- The lock is free, and `t` gets it. -/
theorem Invariant.acquired (H : Invariant bad w) {p : Program S L Unit}
    (hplace : w.place t = .running (.take p)) (hvalue : 0 < w.value) :
    Invariant bad ((World.move {w with value := w.value-1} t (.running p)).count t 1) := by
  have hfit := H.fits t
  rw [hplace] at hfit
  obtain ⟨held,hbalance,rfl,hguarded⟩ := hfit
  obtain ⟨owner,howner,hval⟩ := H.owner
  have hnone : owner = none := by
    cases owner with
    | none => rfl
    | some u => simp [hval] at hvalue
  subst hnone
  refine ⟨⟨some t,fun u => ?_,by simp [World.count,World.move,hval]⟩,?_⟩
  · by_cases hut : u = t
    · subst hut
      simpa [World.Holds,World.count,World.move] using Or.inl hbalance
    · have := howner u
      simp only [World.Holds,reduceCtorEq,iff_false] at this
      simp only [World.Holds,World.count,World.move,Function.update_of_ne hut,Option.some.injEq,
        this,Ne.symm hut]
  · exact fits_update H.fits ⟨true,by simpa [World.move] using hbalance,hguarded⟩

/-- The lock is not free, and `t` waits for it. -/
theorem Invariant.blocked (H : Invariant bad w) {p : Program S L Unit}
    (hplace : w.place t = .running (.take p)) {k : Kernel σ θ} {x : Thread}
    (hk : k.thread = Function.update w.kernel.thread t x) (hx : x.stat = .suspend) :
    Invariant bad (World.move {w with kernel := k} t (.waiting p)) := by
  have hfit := H.fits t
  rw [hplace] at hfit
  obtain ⟨held,hbalance,rfl,hguarded⟩ := hfit
  obtain ⟨owner,howner,hval⟩ := H.owner
  refine ⟨⟨owner,fun u => ?_,hval⟩,?_⟩
  · rw [← howner u]
    by_cases hut : u = t
    · subst hut
      simp [World.Holds,World.move,hplace,hbalance,hk,hx,Place.isWaiting]
    · simp [World.Holds,World.move,hk,hut]
  · have := fits_update (t := t) (p := .waiting p) H.fits ⟨hbalance,hguarded⟩
    rwa [Function.update_eq_self] at this

/-- The owner releases the lock, and nobody waits for it. -/
theorem Invariant.released (H : Invariant bad w) {site : L} {p : Program S L Unit}
    (hplace : w.place t = .running (.release site p)) (hsite : ¬bad site) :
    Invariant bad ((World.move {w with value := w.value+1} t (.running p)).count t (-1)) := by
  have hfit := H.fits t
  rw [hplace] at hfit
  obtain ⟨held,hbalance,⟨hbad,-⟩ | ⟨-,rfl,hguarded⟩⟩ := hfit
  · exact absurd hbad hsite
  · obtain ⟨owner,howner,hval⟩ := H.owner
    obtain rfl : owner = some t := (howner t).mp (Or.inl hbalance)
    refine ⟨⟨none,fun u => ?_,by simp [World.count,World.move,hval]⟩,?_⟩
    · by_cases hut : u = t
      · subst hut
        simp [World.Holds,World.count,World.move,hbalance,Place.isWaiting]
      · have := howner u
        simp only [World.Holds,Option.some.injEq,Ne.symm hut,iff_false] at this
        simp only [World.Holds,World.count,World.move,Function.update_of_ne hut,this,reduceCtorEq]
    · exact fits_update H.fits ⟨false,by simp [World.move,hbalance],hguarded⟩

/-- The owner releases the lock, which goes to a thread that waits for it. -/
theorem Invariant.passed (H : Invariant bad w) {site : L} {p : Program S L Unit}
    (hplace : w.place t = .running (.release site p)) (hsite : ¬bad site)
    (hu : (w.place u).isWaiting = true) {k : Kernel σ θ} {x : Thread}
    (hk : k.thread = Function.update w.kernel.thread u x) (hx : x.stat = .ready) :
    Invariant bad ((World.move {w with kernel := k} t (.running p)).count t (-1)) := by
  have hfit := H.fits t
  rw [hplace] at hfit
  obtain ⟨held,hbalance,⟨hbad,-⟩ | ⟨-,rfl,hguarded⟩⟩ := hfit
  · exact absurd hbad hsite
  · obtain ⟨owner,howner,hval⟩ := H.owner
    obtain rfl : owner = some t := (howner t).mp (Or.inl hbalance)
    have hut : u ≠ t := by
      rintro rfl
      simp [hplace,Place.isWaiting] at hu
    refine ⟨⟨some u,fun v => ?_,by simpa [World.count,World.move] using hval⟩,?_⟩
    · have hv := howner v
      by_cases hvt : v = t
      · subst hvt
        simp [World.Holds,World.count,World.move,hbalance,Place.isWaiting,hut]
      · by_cases hvu : v = u
        · subst hvu
          simp [World.Holds,World.count,World.move,hvt,hu,hk,hx]
        · simp only [World.Holds,Option.some.injEq,Ne.symm hvt,iff_false] at hv
          simp only [World.Holds,World.count,World.move,Function.update_of_ne hvt,hk,
            Function.update_of_ne hvu,hv,Option.some.injEq,Ne.symm hvu]
    · exact fits_update H.fits ⟨false,by simp [World.move,hbalance],hguarded⟩

variable [ListFamily σ (ListId Unit) θ]

theorem Invariant.go (H : Invariant bad w) (ht : (w.kernel.thread t).stat = .ready)
    (hover : w.HandsOver t) (hbad : ¬w.AtBad bad t) (h : w.go t = some w') : Invariant bad w' := by
  unfold World.go at h
  have hfit := H.fits t
  cases hplace : w.place t with
  | idle => simp [hplace] at h
  | waiting p =>
      simp only [hplace,Option.some.injEq] at h
      subst h
      exact H.entered hplace ht
  | running p =>
      rw [hplace] at hfit h
      obtain ⟨held,hbalance,hguarded⟩ := hfit
      cases p with
      | done a =>
          obtain rfl := Option.some.inj h
          obtain rfl : held = false := hguarded
          exact H.silent (s := w.state) (by simp [hplace,Place.isWaiting]) rfl hbalance
      | take p =>
          obtain ⟨⟨k,v,r⟩,h₁,rfl⟩ := Option.map_eq_some_iff.mp h
          by_cases hvalue : 0 < w.value
          · simp only [Semaphore.take,if_pos hvalue,Option.some.injEq,Prod.mk.injEq] at h₁
            obtain ⟨rfl,rfl,rfl⟩ := h₁
            exact H.acquired hplace hvalue
          · obtain ⟨rfl,rfl,x,hk,hx,-⟩ := take_blocks ht hvalue (by decide) h₁
            exact H.blocked hplace hk hx
      | release site p =>
          obtain ⟨⟨k,v,e⟩,h₁,rfl⟩ := Option.map_eq_some_iff.mp h
          have hsite : ¬bad site := by simpa [World.AtBad,hplace] using hbad
          cases hfront : ListFamily.front w.kernel.lists (ListId.suspend ()) with
          | none =>
              obtain ⟨rfl,rfl⟩ := release_alone hfront h₁
              exact H.released hplace hsite
          | some u =>
              rw [World.HandsOver,hplace] at hover
              obtain ⟨hu,hstat⟩ := hover u hfront
              obtain ⟨rfl,hwakes,-⟩ := release_wakes hfront h₁
              obtain ⟨x,hk,hx,-⟩ := hwakes hstat
              exact H.passed hplace hsite hu hk hx
      | access f next =>
          obtain ⟨⟨b,s⟩,-,rfl⟩ := Option.map_eq_some_iff.mp h
          exact H.silent (by simp [hplace,Place.isWaiting]) rfl ⟨held,hbalance,hguarded b⟩

/-- A release in `bad` is one without the lock. -/
theorem Invariant.go_bad (H : Invariant bad w) (hbad : w.AtBad bad t) (h : w.go t = some w') :
    ¬LockSound w' := by
  intro hsound
  have hfit := H.fits t
  unfold World.AtBad at hbad
  split at hbad
  case h_1 site p hplace =>
    rw [hplace] at hfit
    obtain ⟨held,hbalance,⟨-,rfl⟩ | ⟨hsite,-⟩⟩ := hfit
    · rw [World.go,hplace] at h
      obtain ⟨⟨k,v,e⟩,-,rfl⟩ := Option.map_eq_some_iff.mp h
      have := hsound.nonneg t
      simp [World.released,World.count,World.move,hbalance] at this
    · exact hsite hbad
  case h_2 => exact hbad

end CosKernel.SemaphoreLock

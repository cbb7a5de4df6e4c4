import CosKernel.KernelEffects
import CosKernel.SchedulerInvariant

/-!
# The permits of a semaphore

Any number of threads take and release one semaphore, and the timers of waiting
threads expire. A permit is either in `value_` or it was granted to a `take`
that has returned `ERR_OK` or was woken to do so. A release hands its permit to
the thread at the head of the suspend list. The balance is exact as long as that
thread is still blocked in `take`, and it is lost with the first release that
finds another thread there, or that overflows the 16 bits of `value_`.
-/
namespace CosKernel.SemaphorePermits
open TransitionRuns

/-- The semaphore, with the threads that are inside `take` behind `process`, and
the calls that have been completed so far. -/
structure World (ο θ : Type) where
  kernel : PointerKernel ο θ
  value : BitVec 16
  waiting : θ → Bool
  releases : ℕ
  returned : ℕ

inductive Call (θ : Type) where
  | take (t : θ) (time : BitVec 32)
  | trytake (t : θ)
  | takeReturn (t : θ)
  | release
  | expire (t : θ)
  deriving DecidableEq, Repr

variable {ο θ : Type} [DecidableEq ο] [DecidableEq θ]

/-- The call of `take` by `t` has come to an end with `e`. -/
def World.finish (w : World ο θ) (t : θ) (e : ℤ) : World ο θ :=
  {w with
    waiting := Function.update w.waiting t false
    returned := w.returned+if e = ERR_OK then 1 else 0}

def World.taken (w : World ο θ) (t : θ) :
    PointerKernel ο θ × BitVec 16 × Option ℤ → World ο θ
  | (k,v,none) => {w with kernel := k, value := v, waiting := Function.update w.waiting t true}
  | (k,v,some e) => World.finish {w with kernel := k, value := v} t e

def call (o : ο) (w : World ο θ) : Call θ → Option (World ο θ)
  | .take t time => (Semaphore.take w.kernel o w.value t time).map (w.taken t)
  | .trytake t => (Semaphore.trytake w.kernel o w.value t).map (w.taken t)
  | .takeReturn t => some (w.finish t (Semaphore.takeReturn w.kernel t))
  | .release => do
      let (k,v,_) ← Semaphore.release w.kernel o w.value
      some {w with kernel := k, value := v, releases := w.releases+1}
  | .expire t => do
      let k ← w.kernel.expire t
      some {w with kernel := k}

/-- Ready threads act, inside `take` only by returning from it, and the timers of
waiting threads expire. -/
def Legal (w : World ο θ) : Call θ → Prop
  | .take t _ | .trytake t => w.waiting t = false ∧ (w.kernel.thread t).stat = .ready
  | .takeReturn t => w.waiting t = true ∧ (w.kernel.thread t).stat = .ready
  | .release => True
  | .expire t => w.waiting t = true ∧ (w.kernel.thread t).timerActive = true

/-- A woken thread that is about to return `ERR_OK`. -/
def World.Woken (w : World ο θ) (t : θ) : Prop :=
  w.waiting t = true ∧ (w.kernel.thread t).stat = .ready ∧ (w.kernel.thread t).error = ERR_OK

instance (w : World ο θ) (t : θ) : Decidable (w.Woken t) := inferInstanceAs (Decidable (_ ∧ _ ∧ _))

variable [Fintype θ]

/-- The takes that have returned `ERR_OK` or were woken to do so. -/
def World.granted (w : World ο θ) : ℕ :=
  w.returned+(Finset.univ.filter fun t => w.Woken t).card

def Conserved (v : ℕ) (w : World ο θ) : Prop := v+w.releases = w.value.toNat+w.granted

/-- The thread to which a release hands its permit is blocked in `take`; without
such a thread `value_` has room for the permit. -/
def HandsOver (o : ο) (w : World ο θ) : Call θ → Prop
  | .release =>
      match w.kernel.lists.front (.suspend o) with
      | none => w.value ≠ 65535
      | some t => w.waiting t = true ∧ (w.kernel.thread t).stat = .suspend
  | _ => True

instance (w : World ο θ) : ∀ c, Decidable (Legal w c)
  | .take t _ | .trytake t =>
      inferInstanceAs (Decidable (w.waiting t = false ∧ (w.kernel.thread t).stat = .ready))
  | .takeReturn t =>
      inferInstanceAs (Decidable (w.waiting t = true ∧ (w.kernel.thread t).stat = .ready))
  | .release => .isTrue trivial
  | .expire t =>
      inferInstanceAs (Decidable (w.waiting t = true ∧ (w.kernel.thread t).timerActive = true))

instance (o : ο) (w : World ο θ) (c : Call θ) : Decidable (HandsOver o w c) := by
  unfold HandsOver
  split
  · split <;> infer_instance
  · infer_instance

/-- No call has been made yet. -/
structure Start (v : BitVec 16) (w : World ο θ) : Prop where
  value : w.value = v
  waiting : ∀ t, w.waiting t = false
  releases : w.releases = 0
  returned : w.returned = 0

/-- The balance, and the error of a blocked thread, which is still the initial one. -/
structure Balanced (v : ℕ) (w : World ο θ) : Prop where
  conserved : Conserved v w
  error : ∀ t, w.waiting t = true → (w.kernel.thread t).stat = .suspend →
    (w.kernel.thread t).error = ERR_OK

variable {o : ο} {w w' : World ο θ} {t : θ} {v : ℕ}

omit [DecidableEq ο] [DecidableEq θ] in
theorem granted_congr (hr : w'.returned = w.returned) (h : ∀ u, w'.Woken u ↔ w.Woken u) :
    w'.granted = w.granted := by
  simp only [World.granted,hr,h]

omit [DecidableEq ο] in
theorem granted_wake (hr : w'.returned = w.returned) (ht : ¬w.Woken t)
    (h : ∀ u, w'.Woken u ↔ u = t ∨ w.Woken u) : w'.granted = w.granted+1 := by
  have hset : (Finset.univ.filter fun u => w'.Woken u) =
      insert t (Finset.univ.filter fun u => w.Woken u) := by
    ext u
    simp [h]
  rw [World.granted,World.granted,hset,Finset.card_insert_of_notMem (by simp [ht]),hr]
  omega

omit [DecidableEq ο] [Fintype θ] in
theorem woken_finish {e : ℤ} {u : θ} : (w.finish t e).Woken u ↔ u ≠ t ∧ w.Woken u := by
  by_cases hu : u = t
  · simp [World.Woken,World.finish,hu]
  · simp [World.Woken,World.finish,hu]

omit [DecidableEq ο] in
/-- A thread that ends its call is no longer woken, but counted if it succeeded. -/
theorem granted_finish (w : World ο θ) (t : θ) (e : ℤ) :
    (w.finish t e).granted+(if w.Woken t then 1 else 0) =
      w.granted+if e = ERR_OK then 1 else 0 := by
  have hset : (Finset.univ.filter fun u => (w.finish t e).Woken u) =
      (Finset.univ.filter fun u => w.Woken u).erase t := by
    ext u
    simp [woken_finish]
  have hcard := Finset.card_erase_add_one (s := Finset.univ.filter fun u => w.Woken u) (a := t)
  unfold World.granted
  rw [hset]
  by_cases ht : w.Woken t
  · have := hcard (by simp [ht])
    simp only [World.finish,ht,ite_true]
    omega
  · rw [Finset.erase_eq_of_notMem (by simp [ht])]
    simp only [World.finish,ht,ite_false]
    omega

omit [DecidableEq ο] in
theorem Balanced.finish (H : Balanced v w) (e : ℤ) (hw : w.Woken t ↔ e = ERR_OK) :
    Balanced v (w.finish t e) := by
  refine ⟨?_,fun u hu hs => ?_⟩
  · have hg := granted_finish w t e
    simp only [hw] at hg
    have hcons := H.conserved
    unfold Conserved at hcons ⊢
    simp only [World.finish] at hcons hg ⊢
    omega
  · by_cases hut : u = t
    · simp [World.finish,hut] at hu
    · exact H.error u (by simpa [World.finish,hut] using hu) hs

theorem Balanced.take (H : Balanced v w) (hw : w.waiting t = false)
    (ht : (w.kernel.thread t).stat = .ready) {time : BitVec 32}
    {r : PointerKernel ο θ × BitVec 16 × Option ℤ}
    (h : Semaphore.take w.kernel o w.value t time = some r) : Balanced v (w.taken t r) := by
  have hcons : v+w.releases = w.value.toNat+w.granted := H.conserved
  have hnot : ¬w.Woken t := by simp [World.Woken,hw]
  unfold Semaphore.take at h
  split_ifs at h with hv h0
  · obtain rfl := Option.some.inj h
    have hg := granted_finish {w with value := w.value-1} t ERR_OK
    rw [if_neg (show ¬World.Woken {w with value := w.value-1} t from hnot),if_pos rfl] at hg
    have hval : (w.value-1).toNat+1 = w.value.toNat := by bv_omega
    refine ⟨?_,fun u hu hs => ?_⟩
    · have hsame : World.granted {w with value := w.value-1} = w.granted := rfl
      simp only [Conserved,World.taken] at hg ⊢
      simp only [World.finish] at hg ⊢
      omega
    · by_cases hut : u = t
      · simp [World.taken,World.finish,hut] at hu
      · exact H.error u (by simpa [World.taken,World.finish,hut] using hu) hs
  · obtain rfl := Option.some.inj h
    exact H.finish (-ERR_TIMEOUT) (by simp [hnot,ERR_TIMEOUT,ERR_OK])
  · simp only [Option.bind_eq_bind,Option.bind_eq_some_iff,Option.some.injEq] at h
    obtain ⟨k₁,h₁,k₂,h₂,k₃,h₃,rfl⟩ := h
    obtain ⟨x,hx,hxs,hxe⟩ := Kernel.blocked_thread (by simpa [Kernel.setError] using ht) h₁ h₂ h₃
    have hk : ∀ u, u ≠ t → k₃.thread u = w.kernel.thread u := fun u hu => by
      simp [hx,hu,Kernel.setError,Kernel.modify]
    have hg : (w.taken t (k₃,w.value,none)).granted = w.granted := by
      refine granted_congr rfl fun u => ?_
      by_cases hut : u = t
      · subst hut; simp [World.taken,World.Woken,hx,hxs,hw]
      · simp [World.taken,World.Woken,hk u hut,hut]
    refine ⟨?_,fun u hu hs => ?_⟩
    · unfold Conserved
      rw [hg]
      exact hcons
    · by_cases hut : u = t
      · subst hut
        simpa [World.taken,hx,Kernel.setError] using hxe
      · simp only [World.taken,hk u hut,Function.update_of_ne hut] at hu hs ⊢
        exact H.error u hu hs

omit [Fintype θ] in
theorem call_release_alone (hf : w.kernel.lists.front (.suspend o) = none)
    (h : call o w .release = some w') :
    w' = {w with value := w.value+1, releases := w.releases+1} := by
  simp only [call,Option.bind_eq_bind,Option.bind_eq_some_iff,Option.some.injEq] at h
  obtain ⟨⟨k,v,e⟩,h,rfl⟩ := h
  obtain ⟨rfl,rfl⟩ := Semaphore.release_alone hf h
  rfl

omit [Fintype θ] in
theorem call_release_wakes (hf : w.kernel.lists.front (.suspend o) = some t)
    (h : call o w .release = some w') :
    ∃ k, w' = {w with kernel := k, releases := w.releases+1} ∧
      ((w.kernel.thread t).stat = .suspend →
        ∃ x, k.thread = Function.update w.kernel.thread t x ∧ x.stat = .ready ∧
          x.error = (w.kernel.thread t).error) ∧
      ((w.kernel.thread t).stat ≠ .suspend → k.thread = w.kernel.thread) := by
  simp only [call,Option.bind_eq_bind,Option.bind_eq_some_iff,Option.some.injEq] at h
  obtain ⟨⟨k,v,e⟩,h,rfl⟩ := h
  obtain ⟨rfl,hwakes⟩ := Semaphore.release_wakes hf h
  exact ⟨k,rfl,hwakes⟩

/-- A release that finds a blocked thread, or room in `value_`. -/
theorem Balanced.release (H : Balanced v w) (hh : HandsOver o w .release)
    (h : call o w .release = some w') : Balanced v w' := by
  have hcons : v+w.releases = w.value.toNat+w.granted := H.conserved
  cases hf : w.kernel.lists.front (.suspend o) with
  | none =>
      simp only [HandsOver,hf] at hh
      obtain rfl := call_release_alone hf h
      have hval : (w.value+1).toNat = w.value.toNat+1 := by bv_omega
      have hg : World.granted {w with value := w.value+1, releases := w.releases+1} = w.granted := rfl
      refine ⟨?_,H.error⟩
      unfold Conserved
      rw [hg]
      dsimp only
      omega
  | some t =>
      simp only [HandsOver,hf] at hh
      obtain ⟨k,rfl,hwake,-⟩ := call_release_wakes hf h
      obtain ⟨x,hx,hxs,hxe⟩ := hwake hh.2
      have herr := H.error t hh.1 hh.2
      have hg : World.granted {w with kernel := k, releases := w.releases+1} = w.granted+1 := by
        refine granted_wake rfl (show ¬w.Woken t by simp [World.Woken,hh.2]) fun u => ?_
        by_cases hut : u = t
        · subst hut; simp [World.Woken,hx,hxs,hxe,hh.1,herr]
        · simp [World.Woken,hx,hut]
      refine ⟨?_,fun u hu hs => ?_⟩
      · unfold Conserved
        rw [hg]
        dsimp only
        omega
      · by_cases hut : u = t
        · subst hut; simp [hx,hxs] at hs
        · simp only [hx,Function.update_of_ne hut] at hs ⊢
          exact H.error u hu hs

theorem Balanced.expire (H : Balanced v w) (h : call o w (.expire t) = some w') :
    Balanced v w' := by
  simp only [call,Option.bind_eq_bind,Option.bind_eq_some_iff,Option.some.injEq] at h
  obtain ⟨k,h,rfl⟩ := h
  obtain ⟨ht,s,r,c,-,rfl⟩ := Kernel.expire_some h
  refine ⟨H.conserved.trans (congrArg (w.value.toNat+·) (Eq.symm ?_)),fun u hu hs => ?_⟩
  · refine granted_congr rfl fun u => ?_
    by_cases hut : u = t
    · subst hut; simp [World.Woken,ht,ERR_TIMEOUT,ERR_OK]
    · simp [World.Woken,hut]
  · by_cases hut : u = t
    · subst hut; simp at hs
    · simp only [Function.update_of_ne hut] at hs ⊢
      exact H.error u hu hs

/-- A release that finds a thread that is not blocked, or that overflows `value_`,
is lost. -/
theorem release_lost (H : Balanced v w) (hh : ¬HandsOver o w .release)
    (h : call o w .release = some w') : ¬Conserved v w' := by
  have hcons : v+w.releases = w.value.toNat+w.granted := H.conserved
  cases hf : w.kernel.lists.front (.suspend o) with
  | none =>
      simp only [HandsOver,hf,not_not] at hh
      obtain rfl := call_release_alone hf h
      have hg : World.granted {w with value := w.value+1, releases := w.releases+1} = w.granted := rfl
      unfold Conserved
      rw [hg,hh]
      rw [hh] at hcons
      simp only [BitVec.reduceToNat,BitVec.reduceAdd] at hcons ⊢
      omega
  | some t =>
      simp only [HandsOver,hf] at hh
      obtain ⟨k,rfl,hwake,hnone⟩ := call_release_wakes hf h
      have hg : World.granted {w with kernel := k, releases := w.releases+1} = w.granted := by
        refine granted_congr rfl fun u => ?_
        by_cases hs : (w.kernel.thread t).stat = .suspend
        · obtain ⟨x,hx,hxs,hxe⟩ := hwake hs
          by_cases hut : u = t
          · subst hut
            have hw : w.waiting u ≠ true := fun hw => hh ⟨hw,hs⟩
            simp [World.Woken,hw]
          · simp [World.Woken,hx,hut]
        · simp [World.Woken,hnone hs]
      unfold Conserved
      rw [hg]
      dsimp only
      omega

omit [DecidableEq ο] [DecidableEq θ] in
theorem Start.balanced {n : BitVec 16} (h : Start n w) : Balanced n.toNat w := by
  refine ⟨?_,fun t ht => by simp [h.waiting] at ht⟩
  have hnone : ∀ t, ¬w.Woken t := fun t => by simp [World.Woken,h.waiting]
  simp [Conserved,World.granted,h.value,h.releases,h.returned,hnone]

theorem Balanced.call (H : Balanced v w) {c : Call θ} (hl : Legal w c) (hh : HandsOver o w c)
    (h : call o w c = some w') : Balanced v w' := by
  cases c with
  | take t time =>
      simp only [SemaphorePermits.call,Option.map_eq_some_iff] at h
      obtain ⟨r,h,rfl⟩ := h
      exact H.take hl.1 hl.2 h
  | trytake t =>
      simp only [SemaphorePermits.call,Option.map_eq_some_iff] at h
      obtain ⟨r,h,rfl⟩ := h
      exact H.take hl.1 hl.2 h
  | takeReturn t =>
      obtain rfl := Option.some.inj h
      refine H.finish _ ?_
      by_cases he : (w.kernel.thread t).error = ERR_OK
      · simp [World.Woken,hl.1,hl.2,Semaphore.takeReturn,he]
      · simp [World.Woken,Semaphore.takeReturn,he]
  | release => exact H.release hh h
  | expire t => exact H.expire h

/-- No permit is lost or invented as long as every release that completes finds a
thread that is still blocked, or room in `value_`, and not longer. -/
theorem permits_conserved_iff (o : ο) {n : BitVec 16} {calls : List (Call θ)} (hstart : Start n w)
    (hlegal : AllSteps (call o) Legal w calls) :
    Throughout (call o) (Conserved n.toNat) w calls ↔
      AllSteps (call o) (fun w c => HandsOver o w c ∨ (call o w c).isNone = true) w calls :=
  throughout_iff (fun _ H => H.conserved) (fun _ _ _ H hl hh h => H.call hl hh h)
    (fun w c w' H _ hh h => by
      cases c with
      | release => exact release_lost H hh h
      | take | trytake | takeReturn | expire => exact absurd trivial hh)
    hstart.balanced hlegal

/-- The idle thread and two threads of priority 10, all ready, and an unused
semaphore. -/
def threeReady (v : BitVec 16) : World Unit (Fin 3) where
  kernel :=
    let k := Scheduler.freshKernel fun t => if t = 0 then 254 else 10
    (List.foldlM Scheduler.call k [.startup 0,.startup 1,.startup 2,.start]).getD k
  value := v
  waiting _ := false
  releases := 0
  returned := 0

theorem threeReady_start (v : BitVec 16) : Start v (threeReady v) := ⟨rfl,fun _ => rfl,rfl,rfl⟩

/-- A permit passes from one thread to the next, and a wait ends by a timeout. -/
def passedOn : List (Call (Fin 3)) :=
  [.take 1 (-1),.take 2 5,.release,.takeReturn 2,.trytake 1,.take 1 7,.expire 1,.takeReturn 1]

theorem permits_conserved_passedOn :
    Throughout (call ()) (Conserved 1) (threeReady 1) passedOn :=
  (permits_conserved_iff () (threeReady_start 1) (by decide +kernel)).mpr (by decide +kernel)

/-- The wait of thread 1 ends by a timeout, but it stays in the suspend list, where
the release finds it. -/
def lateRelease : List (Call (Fin 3)) := [.take 1 5,.expire 1,.takeReturn 1,.release]

theorem lateRelease_swallowed : AllSteps (call ()) Legal (threeReady 0) lateRelease ∧
    ((lateRelease.foldlM (call ()) (threeReady 0)).map fun w => (w.releases,w.value,w.granted)) =
      some (1,0,0) ∧
    ¬Throughout (call ()) (Conserved 0) (threeReady 0) lateRelease := by
  have hfacts : ((lateRelease.foldlM (call ()) (threeReady 0)).map fun w =>
      (w.releases,w.value,w.granted)) = some (1,0,0) := by decide +kernel
  refine ⟨by decide +kernel,hfacts,fun h => ?_⟩
  obtain ⟨w,hw,hfacts⟩ := Option.map_eq_some_iff.mp hfacts
  have hcons := h.last hw
  simp only [Prod.mk.injEq] at hfacts
  simp [Conserved,hfacts.1,hfacts.2.1,hfacts.2.2] at hcons

end CosKernel.SemaphorePermits

import Mathlib

/-!
# Partial computations along a map

A computation that may fault is carried along a map if each of its results, mapped, is the
result of a second computation. Where the first one faults nothing is said about the second.
The rules follow the constructs of a `do` block, so that a function over one type of states is
carried step by step to the same function over another type; runs are carried with their steps.
What a computation yields, if it yields anything, has rules of the same form, and so has a
computation that faults only where the other one does.
-/
namespace CosKernel.PartialMorphisms

variable {α β γ δ : Type}

def Carries (f : α → β) (x : Option α) (y : Option β) : Prop := ∀ a, x = some a → y = some (f a)

variable {f : α → β} {g : γ → δ} {x : Option α} {y : Option β}

theorem carries_none : Carries f none y := fun _ h => by cases h

theorem carries_some (a : α) : Carries f (some a) (some (f a)) := by
  intro b h
  cases h
  rfl

theorem carries_self : Carries id x x := fun _ h => h

/-- The rule for a sequence; the rest may use where its argument comes from. -/
theorem Carries.bind {p : α → Option γ} {q : β → Option δ} (hx : Carries f x y)
    (h : ∀ a, x = some a → Carries g (p a) (q (f a))) : Carries g (x >>= p) (y >>= q) := by
  intro c hc
  obtain ⟨a,ha,hc⟩ := Option.bind_eq_some_iff.mp hc
  rw [hx a ha]
  exact h a ha c hc

theorem Carries.map {p : α → γ} {q : β → δ} (hx : Carries f x y) (h : ∀ a, q (f a) = g (p a)) :
    Carries g (x.map p) (y.map q) := by
  intro c hc
  obtain ⟨a,ha,rfl⟩ := Option.map_eq_some_iff.mp hc
  rw [hx a ha,Option.map_some,h]

theorem Carries.ite {c c' : Prop} [Decidable c] [Decidable c'] {x' : Option α} {y' : Option β}
    (hc : c' ↔ c) (h : c → Carries f x y) (h' : ¬c → Carries f x' y') :
    Carries f (if c then x else x') (if c' then y else y') := by
  by_cases hp : c
  · rw [if_pos hp,if_pos (hc.mpr hp)]
    exact h hp
  · rw [if_neg hp,if_neg fun hp' => hp (hc.mp hp')]
    exact h' hp

section runs

variable {ρ : Type} {step : α → ρ → Option α} {step' : β → ρ → Option β}

theorem Carries.run (h : ∀ s a, Carries f (step s a) (step' (f s) a)) (s : α) (as : List ρ) :
    Carries f (as.foldlM step s) (as.foldlM step' (f s)) := by
  induction as generalizing s with
  | nil => exact carries_some s
  | cons a as ih => exact (h s a).bind fun s' _ => ih s'

end runs

section postconditions

/-- Every result satisfies `P`. -/
def Yields (P : α → Prop) (x : Option α) : Prop := ∀ a, x = some a → P a

variable {P Q : α → Prop} {R : γ → Prop}

theorem yields_none : Yields P none := fun _ h => by cases h

theorem yields_some {a : α} (h : P a) : Yields P (some a) := by
  intro b hb
  cases hb
  exact h

theorem Yields.imp (h : Yields P x) (hpq : ∀ a, P a → Q a) : Yields Q x :=
  fun a ha => hpq a (h a ha)

/-- The first part may come with less than all it yields. -/
theorem Yields.bind {p : α → Option γ} (hx : Yields P x) (h : ∀ a, P a → Yields R (p a)) :
    Yields R (x >>= p) := by
  intro c hc
  obtain ⟨a,ha,hc⟩ := Option.bind_eq_some_iff.mp hc
  exact h a (hx a ha) c hc

theorem yields_bind {p : α → Option γ} (h : ∀ a, x = some a → Yields R (p a)) :
    Yields R (x >>= p) :=
  Yields.bind (P := fun a => x = some a) (fun _ ha => ha) h

theorem Yields.map {p : α → γ} (hx : Yields P x) (h : ∀ a, P a → R (p a)) :
    Yields R (x.map p) := by
  intro c hc
  obtain ⟨a,ha,rfl⟩ := Option.map_eq_some_iff.mp hc
  exact h a (hx a ha)

theorem yields_map {p : α → γ} (h : ∀ a, x = some a → R (p a)) : Yields R (x.map p) :=
  Yields.map (P := fun a => x = some a) (fun _ ha => ha) h

theorem Yields.ite {c : Prop} [Decidable c] {x' : Option α} (h : c → Yields P x)
    (h' : ¬c → Yields P x') : Yields P (if c then x else x') := by
  by_cases hc : c
  · rw [if_pos hc]
    exact h hc
  · rw [if_neg hc]
    exact h' hc

end postconditions

section exact

/-- The second computation has just the results of the first one, mapped, and these satisfy `P`. -/
structure Lifts (f : α → β) (P : α → Prop) (x : Option α) (y : Option β) : Prop where
  eq : y = x.map f
  yields : Yields P x

variable {P P' : α → Prop} {Q : γ → Prop}

theorem lifts_none : Lifts f P none none := ⟨rfl,yields_none⟩

theorem lifts_some {a : α} (h : P a) : Lifts f P (some a) (some (f a)) := ⟨rfl,yields_some h⟩

theorem lifts_self : Lifts id (fun _ => True) x x := ⟨by simp,fun _ _ => trivial⟩

theorem lifts_pmap {R : α → Prop} {p : ∀ a, R a → γ} {hx : ∀ a, x = some a → R a} {q : α → β}
    {f : γ → β} (h : ∀ a ha, q a = f (p a ha) ∧ Q (p a ha)) : Lifts f Q (x.pmap p hx) (x.map q) := by
  cases x with
  | none => exact lifts_none
  | some a =>
      obtain ⟨heq,hQ⟩ := h a (hx a rfl)
      exact ⟨congrArg some heq,yields_some hQ⟩

theorem Lifts.imp (h : Lifts f P x y) (hpq : ∀ a, P a → P' a) : Lifts f P' x y :=
  ⟨h.eq,h.yields.imp hpq⟩

theorem Lifts.bind {p : α → Option γ} {q : β → Option δ} (hx : Lifts f P x y)
    (h : ∀ a, P a → Lifts g Q (p a) (q (f a))) : Lifts g Q (x >>= p) (y >>= q) := by
  refine ⟨?_,hx.yields.bind fun a ha => (h a ha).yields⟩
  rw [hx.eq]
  cases hxa : x with
  | none => rfl
  | some a => exact (h a (hx.yields a hxa)).eq

theorem Lifts.map {p : α → γ} {q : β → δ} (hx : Lifts f P x y)
    (h : ∀ a, P a → q (f a) = g (p a) ∧ Q (p a)) : Lifts g Q (x.map p) (y.map q) := by
  refine ⟨?_,hx.yields.map fun a ha => (h a ha).2⟩
  rw [hx.eq]
  cases hxa : x with
  | none => rfl
  | some a => exact congrArg some (h a (hx.yields a hxa)).1

theorem Lifts.ite {c c' : Prop} [Decidable c] [Decidable c'] {x' : Option α} {y' : Option β}
    (hc : c' ↔ c) (h : c → Lifts f P x y) (h' : ¬c → Lifts f P x' y') :
    Lifts f P (if c then x else x') (if c' then y else y') := by
  by_cases hp : c
  · rw [if_pos hp,if_pos (hc.mpr hp)]
    exact h hp
  · rw [if_neg hp,if_neg fun hp' => hp (hc.mp hp')]
    exact h' hp

end exact

end CosKernel.PartialMorphisms

import Mathlib.Data.List.Nodup
import Mathlib.Logic.Function.Basic

/-!
# Tokens in exclusive custody

Every token is in a list or in the hands of one agent. Agents pick tokens up from
the list and put them back anywhere in it.
-/
namespace CosKernel.ExclusiveCustody

variable {κ ν : Type}

/-- No token is in the list twice, in the list and in a hand, or in two hands. -/
structure Exclusive (rest : List ν) (hold : κ → Option ν) : Prop where
  nodup : rest.Nodup
  apart : ∀ c x, hold c = some x → x ∉ rest
  once : ∀ c d x, hold c = some x → hold d = some x → c = d

def Somewhere (rest : List ν) (hold : κ → Option ν) (x : ν) : Prop :=
  x ∈ rest ∨ ∃ c, hold c = some x

variable {rest rest' : List ν} {hold : κ → Option ν} {c : κ} {x : ν}

/-- All hands are empty. -/
theorem Exclusive.of_nodup (h : rest.Nodup) : Exclusive rest fun _ : κ => none :=
  ⟨h,fun _ _ hc => (nomatch hc),fun _ _ _ hc => (nomatch hc)⟩

theorem somewhere_none {y : ν} : Somewhere rest (fun _ : κ => none) y ↔ y ∈ rest := by
  simp [Somewhere]

theorem Exclusive.perm (H : Exclusive rest hold) (h : rest'.Perm rest) : Exclusive rest' hold :=
  ⟨h.nodup_iff.mpr H.nodup,fun c x hc hx => H.apart c x hc (h.mem_iff.mp hx),H.once⟩

theorem Exclusive.sublist (H : Exclusive rest hold) (h : rest'.Sublist rest) :
    Exclusive rest' hold :=
  ⟨H.nodup.sublist h,fun c x hc hx => H.apart c x hc (h.subset hx),H.once⟩

theorem Exclusive.fresh (H : Exclusive rest hold) (hx : x ∉ rest) (hh : ∀ c, hold c ≠ some x) :
    Exclusive (x::rest) hold := by
  refine ⟨List.nodup_cons.mpr ⟨hx,H.nodup⟩,fun c y hc hy => ?_,H.once⟩
  rcases List.mem_cons.mp hy with rfl | hy
  · exact hh c hc
  · exact H.apart c y hc hy

theorem somewhere_perm {y : ν} (h : rest'.Perm rest) :
    Somewhere rest' hold y ↔ Somewhere rest hold y := by
  unfold Somewhere
  rw [h.mem_iff]

variable [DecidableEq κ]

/-- A free hand picks up the token `x`. -/
theorem Exclusive.pickUp (H : Exclusive (x::rest) hold) :
    Exclusive rest (Function.update hold c (some x)) := by
  obtain ⟨hx,hnodup⟩ := List.nodup_cons.mp H.nodup
  have hone : ∀ d y, Function.update hold c (some x) d = some y →
      d = c ∧ y = x ∨ d ≠ c ∧ hold d = some y := by
    intro d y h
    by_cases hd : d = c
    · subst hd
      simp only [Function.update_self,Option.some.injEq] at h
      exact Or.inl ⟨rfl,h.symm⟩
    · exact Or.inr ⟨hd,by simpa [hd] using h⟩
  have hnot : ∀ d, hold d ≠ some x := fun d h => H.apart d x h List.mem_cons_self
  refine ⟨hnodup,fun d y hd hy => ?_,fun d e y hd he => ?_⟩
  · rcases hone d y hd with ⟨-,rfl⟩ | ⟨-,hd⟩
    · exact hx hy
    · exact H.apart d y hd (List.mem_cons_of_mem x hy)
  · rcases hone d y hd with ⟨rfl,rfl⟩ | ⟨-,hd'⟩
    · rcases hone e y he with ⟨rfl,-⟩ | ⟨-,he'⟩
      · rfl
      · exact absurd he' (hnot e)
    · rcases hone e y he with ⟨rfl,rfl⟩ | ⟨-,he'⟩
      · exact absurd hd' (hnot d)
      · exact H.once d e y hd' he'

theorem somewhere_pickUp {y : ν} (hc : hold c = none) :
    Somewhere rest (Function.update hold c (some x)) y ↔ Somewhere (x::rest) hold y := by
  constructor
  · rintro (hy | ⟨d,hd⟩)
    · exact Or.inl (List.mem_cons_of_mem x hy)
    · by_cases hdc : d = c
      · subst hdc
        simp only [Function.update_self,Option.some.injEq] at hd
        exact Or.inl (hd ▸ List.mem_cons_self)
      · exact Or.inr ⟨d,by simpa [hdc] using hd⟩
  · rintro (hy | ⟨d,hd⟩)
    · rcases List.mem_cons.mp hy with rfl | hy
      · exact Or.inr ⟨c,Function.update_self ..⟩
      · exact Or.inl hy
    · have hdc : d ≠ c := by
        rintro rfl
        simp [hc] at hd
      exact Or.inr ⟨d,by simpa [hdc] using hd⟩

/-- The hand `c` puts its token back. -/
theorem Exclusive.putBack (H : Exclusive rest hold) (hc : hold c = some x) :
    Exclusive (x::rest) (Function.update hold c none) := by
  have hold_of : ∀ d y, Function.update hold c none d = some y → d ≠ c ∧ hold d = some y := by
    intro d y h
    by_cases hd : d = c
    · simp [hd] at h
    · exact ⟨hd,by simpa [hd] using h⟩
  refine ⟨List.nodup_cons.mpr ⟨H.apart c x hc,H.nodup⟩,fun d y hd hy => ?_,fun d e y hd he => ?_⟩
  · obtain ⟨hdc,hd⟩ := hold_of d y hd
    rcases List.mem_cons.mp hy with rfl | hy
    · exact hdc (H.once d c y hd hc)
    · exact H.apart d y hd hy
  · exact H.once d e y (hold_of d y hd).2 (hold_of e y he).2

theorem somewhere_putBack {y : ν} (hc : hold c = some x) :
    Somewhere (x::rest) (Function.update hold c none) y ↔ Somewhere rest hold y := by
  have h : Somewhere rest (Function.update (Function.update hold c none) c (some x)) y ↔
      Somewhere (x::rest) (Function.update hold c none) y :=
    somewhere_pickUp (Function.update_self c none hold)
  rw [Function.update_idem,← hc,Function.update_eq_self] at h
  exact h.symm

end CosKernel.ExclusiveCustody

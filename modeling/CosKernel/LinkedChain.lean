import Mathlib.Data.List.Nodup
import Mathlib.Logic.Function.Basic

/-!
# Singly linked chains

A chain leads from a pointer along `next` to a null pointer. A write to a node
outside of it leaves it alone; nodes enter it at the front or behind its last one.
-/
namespace CosKernel.LinkedChain

variable {ν : Type}

/-- From `p` on, `next` leads through the nodes `xs` to a null pointer. -/
def Chain (next : ν → Option ν) : Option ν → List ν → Prop
  | p,[] => p = none
  | p,x::xs => p = some x ∧ Chain next (next x) xs

variable {next next' : ν → Option ν} {p : Option ν} {x : ν} {xs : List ν}

theorem Chain.congr (H : Chain next p xs) (h : ∀ x ∈ xs, next' x = next x) : Chain next' p xs := by
  induction xs generalizing p with
  | nil => exact H
  | cons x xs ih =>
      refine ⟨H.1,?_⟩
      rw [h x List.mem_cons_self]
      exact ih H.2 fun y hy => h y (List.mem_cons_of_mem x hy)

theorem Chain.eq_none (H : Chain next none xs) : xs = [] := by
  cases xs with
  | nil => rfl
  | cons x xs => cases H.1

theorem Chain.eq_some (H : Chain next (some x) xs) :
    ∃ ys, xs = x::ys ∧ Chain next (next x) ys := by
  cases xs with
  | nil => cases H
  | cons y ys =>
      obtain ⟨h,H⟩ := H
      cases h
      exact ⟨ys,rfl,H⟩

variable [DecidableEq ν]

theorem Chain.write {n : Option ν} (H : Chain next p xs) (hx : x ∉ xs) :
    Chain (Function.update next x n) p xs := by
  refine H.congr fun y hy => Function.update_of_ne ?_ _ _
  rintro rfl
  exact hx hy

theorem Chain.push (H : Chain next p xs) (hx : x ∉ xs) :
    Chain (Function.update next x p) (some x) (x::xs) := by
  refine ⟨rfl,?_⟩
  rw [Function.update_self]
  exact H.write hx

/-- The last node `l` is made to refer to `x`, whose own link is null. -/
theorem Chain.concat {l : ν} (H : Chain next p xs) (hl : xs.getLast? = some l)
    (hnodup : xs.Nodup) (hx : x ∉ xs) (hn : next x = none) :
    Chain (Function.update next l (some x)) p (xs++[x]) := by
  induction xs generalizing p with
  | nil => cases hl
  | cons y ys ih =>
      obtain ⟨hy,hnodup⟩ := List.nodup_cons.mp hnodup
      obtain ⟨hxy,hxs⟩ : x ≠ y ∧ x ∉ ys := by simpa using hx
      cases ys with
      | nil =>
          obtain rfl : y = l := by simpa using hl
          exact ⟨H.1,Function.update_self ..,(Function.update_of_ne hxy _ _).trans hn⟩
      | cons z zs =>
          have hl : (z::zs).getLast? = some l := by simpa using hl
          have hyl : y ≠ l := by
            rintro rfl
            exact hy (List.mem_of_getLast? hl)
          refine ⟨H.1,?_⟩
          rw [Function.update_of_ne hyl]
          exact ih H.2 hl hnodup hxs

end CosKernel.LinkedChain

import Mathlib.Data.Nat.ModEq
import Mathlib.Logic.Function.Basic

/-!
# Ring buffers

A queue in `n` cells that are used in turn. The elements start at the cell `out` and go
on to the following ones, where the first cell follows the last one.
-/
namespace CosKernel.RingBuffer

variable {α : Type}

structure Ring (n : ℕ) (cell : ℕ → α) (out : ℕ) (xs : List α) : Prop where
  out_lt : out < n
  length : xs.length ≤ n
  cells : ∀ i x, xs[i]? = some x → cell ((out+i)%n) = x

variable {n out : ℕ} {cell : ℕ → α} {x : α} {xs : List α}

/-- Less than one turn apart, two positions are in different cells. -/
theorem position_inj {i j : ℕ} (hi : i < n) (hj : j < n) (h : (out+i)%n = (out+j)%n) : i = j :=
  (Nat.ModEq.add_left_cancel' out h).eq_of_lt_of_lt hi hj

theorem Ring.push (H : Ring n cell out xs) (hlt : xs.length < n) (x : α) :
    Ring n (Function.update cell ((out+xs.length)%n) x) out (xs++[x]) := by
  refine ⟨H.out_lt,by simp only [List.length_append,List.length_singleton]; omega,fun i y hy => ?_⟩
  by_cases hi : i = xs.length
  · subst hi
    simpa using hy
  · have hlen : i < xs.length+1 := by simpa using (List.getElem?_eq_some_iff.mp hy).1
    rw [List.getElem?_append_left (by omega)] at hy
    have hne : (out+i)%n ≠ (out+xs.length)%n := fun h => hi (position_inj (by omega) hlt h)
    rw [Function.update_of_ne hne]
    exact H.cells i y hy

theorem Ring.first (H : Ring n cell out (x::xs)) : cell out = x := by
  have h := H.cells 0 x rfl
  rwa [Nat.add_zero,Nat.mod_eq_of_lt H.out_lt] at h

theorem Ring.pop (H : Ring n cell out (x::xs)) : Ring n cell ((out+1)%n) xs := by
  have hlen : xs.length+1 ≤ n := H.length
  refine ⟨Nat.mod_lt _ (by omega),by omega,fun i y hy => ?_⟩
  rw [Nat.mod_add_mod,Nat.add_assoc,Nat.add_comm 1 i]
  exact H.cells (i+1) y hy

theorem Ring.empty (h : out < n) : Ring n cell out [] :=
  ⟨h,Nat.zero_le n,fun _ _ h => by simp at h⟩

end CosKernel.RingBuffer

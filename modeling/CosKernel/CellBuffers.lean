import Mathlib.Data.List.Range
import Mathlib.Logic.Function.Basic

/-!
# Buffers of cells

A buffer is a map from indices to cells. `write` stores a list from an index on, one cell
after the other, and `read` lists a number of cells.
-/
namespace CosKernel.CellBuffers

variable {α : Type}

/-- The `n` cells from `a` on. -/
def read (f : ℕ → α) (a n : ℕ) : List α := (List.range' a n).map f

def write (f : ℕ → α) : ℕ → List α → ℕ → α
  | _,[] => f
  | a,x::xs => write (Function.update f a x) (a+1) xs

variable {f : ℕ → α} {a b i m n : ℕ} {x : α} {xs ys : List α}

@[simp] theorem length_read : (read f a n).length = n := by simp [read]

@[simp] theorem read_zero : read f a 0 = [] := rfl

theorem read_add : read f a (m+n) = read f a m++read f (a+m) n := by
  rw [read,read,read,← List.map_append,List.range'_append_1]

theorem read_shift : read (fun j => f (j+1)) a n = read f (a+1) n := by
  rw [read,read,Nat.add_comm a,← List.map_add_range',List.map_map]
  exact List.map_congr_left fun i _ => congrArg f (Nat.add_comm i 1)

theorem read_congr {g : ℕ → α} (h : ∀ i, a ≤ i → i < a+n → g i = f i) : read g a n = read f a n := by
  apply List.map_congr_left
  intro i hi
  obtain ⟨h₁,h₂⟩ := List.mem_range'_1.mp hi
  exact h i h₁ h₂

theorem getElem?_read (hi : i < n) : (read f a n)[i]? = some (f (a+i)) := by
  simp [read,hi]

/-- Cells outside of what is written keep their contents. -/
theorem write_outside (h : i < a ∨ a+xs.length ≤ i) : write f a xs i = f i := by
  induction xs generalizing f a with
  | nil => rfl
  | cons x xs ih =>
      simp only [List.length_cons] at h
      have hne : i ≠ a := by omega
      rw [write,ih (by omega),Function.update_of_ne hne]

theorem write_inside (h : xs[i]? = some x) : write f a xs (a+i) = x := by
  induction xs generalizing f a i with
  | nil => simp at h
  | cons y xs ih =>
      cases i with
      | zero =>
          rw [write,write_outside (by omega),Nat.add_zero,Function.update_self]
          simpa using h
      | succ i =>
          rw [write,show a+(i+1) = a+1+i by omega]
          exact ih (by simpa using h)

theorem read_write : read (write f a xs) a xs.length = xs := by
  apply List.ext_getElem?
  intro i
  by_cases hi : i < xs.length
  · rw [getElem?_read hi,List.getElem?_eq_getElem hi]
    exact congrArg some (write_inside (List.getElem?_eq_getElem hi))
  · rw [List.getElem?_eq_none (by simpa using hi),List.getElem?_eq_none (by simpa using hi)]

theorem read_write_apart (h : a+n ≤ b ∨ b+xs.length ≤ a) : read (write f b xs) a n = read f a n :=
  read_congr fun _ _ _ => write_outside (by omega)

theorem write_append : write f a (xs++ys) = write (write f a xs) (a+xs.length) ys := by
  induction xs generalizing f a with
  | nil => rfl
  | cons x xs ih =>
      rw [List.cons_append,write,ih,write,List.length_cons,Nat.add_assoc,Nat.add_comm 1]

end CosKernel.CellBuffers

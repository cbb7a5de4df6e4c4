import Mathlib.Data.Nat.Bitwise
import Mathlib.Data.Nat.Notation
import Mathlib.Order.Basic

/-!
# Masks of low bits

Rounding to a multiple of a power of two by masking, and words that are split into a low
and a high field.
-/
namespace CosKernel.WordMasks

variable {w : ℕ}

/-- The word with the `k` low bits set. -/
def mask (w k : ℕ) : BitVec w := BitVec.ofNat w (2^k-1)

theorem getLsbD_mask {i k : ℕ} (hi : i < w) : (mask w k).getLsbD i = decide (i < k) := by
  simp only [mask,BitVec.getLsbD_ofNat,hi,Nat.testBit_two_pow_sub_one,decide_true,Bool.true_and]

theorem and_not_mask (x : BitVec w) (k : ℕ) : x &&& ~~~mask w k = x>>>k<<<k := by
  apply BitVec.eq_of_getLsbD_eq
  intro i hi
  simp only [BitVec.getLsbD_and,BitVec.getLsbD_not,getLsbD_mask hi,BitVec.getLsbD_shiftLeft,
    BitVec.getLsbD_ushiftRight,hi]
  by_cases h : i < k
  · simp [h]
  · simp [h,Nat.add_sub_of_le (not_lt.mp h)]

/-- Rounding down. -/
theorem toNat_and_not_mask (x : BitVec w) (k : ℕ) :
    (x &&& ~~~mask w k).toNat = x.toNat/2^k*2^k := by
  rw [and_not_mask,BitVec.toNat_shiftLeft,BitVec.toNat_ushiftRight,Nat.shiftLeft_eq,
    Nat.shiftRight_eq_div_pow]
  apply Nat.mod_eq_of_lt
  exact lt_of_le_of_lt (Nat.div_mul_le_self _ _) x.isLt

theorem getLsbD_of_lt {x : BitVec w} {i k : ℕ} (h : x.toNat < 2^k) (hi : k ≤ i) :
    x.getLsbD i = false := by
  apply Nat.testBit_lt_two_pow
  exact lt_of_lt_of_le h (Nat.pow_le_pow_right (by omega) hi)

/-- The low field is replaced by `t`. -/
theorem low_replaceLow (x : BitVec w) {t : BitVec w} {k : ℕ} (ht : t.toNat < 2^k) :
    ((x &&& ~~~mask w k) ||| t) &&& mask w k = t := by
  apply BitVec.eq_of_getLsbD_eq
  intro i hi
  simp only [BitVec.getLsbD_and,BitVec.getLsbD_or,BitVec.getLsbD_not,getLsbD_mask hi,hi]
  by_cases h : i < k
  · simp [h]
  · simp [h,getLsbD_of_lt ht (not_lt.mp h)]

/-- The high field is replaced by `n`. -/
theorem low_replaceHigh (x n : BitVec w) (k : ℕ) :
    ((x &&& mask w k) ||| (n<<<k)) &&& mask w k = x &&& mask w k := by
  apply BitVec.eq_of_getLsbD_eq
  intro i hi
  simp only [BitVec.getLsbD_and,BitVec.getLsbD_or,getLsbD_mask hi,BitVec.getLsbD_shiftLeft,hi]
  by_cases h : i < k
  · simp [h]
  · simp [h]

theorem high_replaceHigh (x : BitVec w) {n : BitVec w} {k : ℕ} (hk : k ≤ w) (hn : n.toNat < 2^(w-k)) :
    ((x &&& mask w k) ||| (n<<<k))>>>k = n := by
  apply BitVec.eq_of_getLsbD_eq
  intro i hi
  simp only [BitVec.getLsbD_ushiftRight,BitVec.getLsbD_or,BitVec.getLsbD_and,
    BitVec.getLsbD_shiftLeft]
  by_cases h : k+i < w
  · simp only [getLsbD_mask h]
    simp [h,show ¬k+i < k by omega]
  · simp only [getLsbD_of_lt hn (show w-k ≤ i by omega),
      BitVec.getLsbD_of_ge (mask w k) (k+i) (by omega)]
    simp [h]

end CosKernel.WordMasks

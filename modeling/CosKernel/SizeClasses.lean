import CosKernel.SlabHeap
import CosKernel.WordMasks

/-!
# Size classes

`zoneindex` rounds a request to the chunk size of its class. The index determines the
chunk size, also where two rows of the table meet, and a zone has room for its header and
at least two chunks.
-/
namespace CosKernel.SlabHeap
open WordMasks

/-- The chunk size of the zones with index `i`. -/
def classSize (i : ℕ) : ℕ :=
  if i < 16 then 8*(i+1)
  else if i < 24 then 16*(i-7)
  else if i < 32 then 32*(i-15)
  else if i < 40 then 64*(i-23)
  else if i < 48 then 128*(i-31)
  else if i < 56 then 256*(i-39)
  else if i < 64 then 512*(i-47)
  else 1024*(i-55)

/-- The offset of the first chunk, for chunks of this class. -/
def classOffset (i : ℕ) : ℕ := (chunkOffset (BitVec.ofNat 32 (classSize i))).toNat

theorem classSize_bounds : ∀ i : Fin NZONES, 8 ≤ classSize i ∧ classSize i ≤ 16384 := by
  decide +kernel

/-- The chunks begin behind the header. -/
theorem classOffset_bounds : ∀ i : Fin NZONES,
    36 ≤ classOffset i ∧ classOffset i < 36+classSize i := by
  decide +kernel

/-- Rounding up by masking. -/
theorem toNat_roundUp {n : Word} {k : ℕ} (h : n.toNat+(2^k-1) < 2^32) :
    ((n+mask 32 k) &&& ~~~mask 32 k).toNat = (n.toNat+(2^k-1))/2^k*2^k := by
  rw [toNat_and_not_mask,BitVec.toNat_add,mask,BitVec.toNat_ofNat,
    Nat.mod_eq_of_lt (show 2^k-1 < 2^32 by omega),Nat.mod_eq_of_lt h]

theorem index_of_lt {zi : Word} (h : zi.toNat < NZONES) : index zi = some ⟨zi.toNat,h⟩ := by
  simp [index,h]

/-- The class of a request: its index, its chunk size and that the request fits. -/
structure ClassOf (n m zi : Word) (i : Fin NZONES) : Prop where
  index : SlabHeap.index zi = some i
  toNat : zi.toNat = i
  size : m.toNat = classSize i
  fits : n.toNat ≤ classSize i
  small : n.toNat < 8192 → classSize i ≤ 8192

/-- In a row of the table the request is rounded up to `q` units of `2^k` bytes. -/
structure Row (n m quot : Word) (k q : ℕ) : Prop where
  rounded : m.toNat = q*2^k
  quotient : quot.toNat = q
  upper : n.toNat ≤ q*2^k
  lower : q*2^k < n.toNat+2^k

theorem row_of (n : Word) (k : ℕ) (hk : k ≤ 10) (hn : n.toNat < 16384) :
    ∃ q, Row n ((n+mask 32 k) &&& ~~~mask 32 k)
      (((n+mask 32 k) &&& ~~~mask 32 k)/BitVec.ofNat 32 (2^k)) k q := by
  have hpow : 2^k ≤ 2^10 := Nat.pow_le_pow_right (by omega) hk
  have hpos : 0 < 2^k := Nat.two_pow_pos k
  have hround := toNat_roundUp (n := n) (k := k) (by omega)
  refine ⟨(n.toNat+(2^k-1))/2^k,hround,?_,?_,?_⟩
  · rw [BitVec.toNat_udiv,hround,BitVec.toNat_ofNat,Nat.mod_eq_of_lt (by omega)]
    exact Nat.mul_div_cancel _ hpos
  · have := Nat.div_add_mod (n.toNat+(2^k-1)) (2^k)
    have := Nat.mod_lt (n.toNat+(2^k-1)) hpos
    rw [Nat.mul_comm]
    omega
  · have := Nat.div_mul_le_self (n.toNat+(2^k-1)) (2^k)
    omega

section row

variable {n m quot : Word} {k q : ℕ}

/-- The number of units is small. -/
theorem Row.quotient_lt (H : Row n m quot k q) (hn : n.toNat < 16384) (hk : k ≤ 10) : q < 2^15 := by
  have hpow : 2^k ≤ 2^10 := Nat.pow_le_pow_right (by omega) hk
  have hpos : 0 < 2^k := Nat.two_pow_pos k
  have hlower := H.lower
  have hle : q ≤ q*2^k := Nat.le_mul_of_pos_right q hpos
  omega

theorem Row.toNat_add (H : Row n m quot k q) (hq : q < 2^15) {c : Word} (hc : c.toNat < 2^15) :
    (quot+c).toNat = q+c.toNat := by
  rw [BitVec.toNat_add,H.quotient,Nat.mod_eq_of_lt (by omega)]

theorem Row.toNat_sub_one (H : Row n m quot k q) (hq : 0 < q) : (quot-1).toNat = q-1 := by
  have := H.quotient
  bv_omega

/-- The index is the number of units plus a constant, and determines the size. -/
theorem Row.classOf {zi : Word} {i : ℕ} (H : Row n m quot k q) (hzi : zi.toNat = i)
    (hi : i < NZONES) (hclass : classSize i = q*2^k) (hsmall : n.toNat < 8192 → q*2^k ≤ 8192) :
    ∃ i, ClassOf n m zi i := by
  subst hzi
  refine ⟨⟨zi.toNat,hi⟩,index_of_lt hi,rfl,?_,?_,?_⟩
  · rw [H.rounded,hclass]
  · rw [hclass]
    exact H.upper
  · rw [hclass]
    exact hsmall

/-- All rows but the first one, for requests from `l` to below `u`. -/
theorem Row.classOf_add {c : Word} {l u : ℕ} (H : Row n m quot k q) (hn : n.toNat < 16384)
    (hk : k ≤ 10) (hl : l ≤ n.toNat) (hu : n.toNat < u) (hc : c.toNat < 2^15)
    (htable : ∀ q, l ≤ q*2^k → q*2^k < u+2^k → q+c.toNat < NZONES ∧
      classSize (q+c.toNat) = q*2^k ∧ (u ≤ 8192 → q*2^k ≤ 8192)) (hrow : u ≤ 8192 ∨ 8192 ≤ l) :
    ∃ i, ClassOf n m (quot+c) i := by
  have hupper := H.upper
  have hlower := H.lower
  obtain ⟨hi',hclass,hsmall⟩ := htable q (by omega) (by omega)
  refine H.classOf (H.toNat_add (H.quotient_lt hn hk) hc) hi' hclass fun h => hsmall ?_
  omega

end row

/-- A request is rounded up to the chunk size of its class. -/
theorem zoneindex_class {n : Word} (hpos : n ≠ 0) (hlt : n.toNat < 16384) :
    ∃ i, ClassOf n (zoneindex n).1 (zoneindex n).2 i := by
  have hn : 0 < n.toNat := by bv_omega
  unfold zoneindex
  split_ifs with h₁ h₂ h₃ h₄ h₅ h₆ h₇ h₈
  · obtain ⟨q,H⟩ := row_of n 3 (by omega) hlt
    have hu := H.upper
    have hl := H.lower
    refine H.classOf (H.toNat_sub_one (by omega)) ?_ ?_ ?_
    · unfold NZONES
      bv_omega
    · unfold classSize
      rw [if_pos (by bv_omega)]
      omega
    · bv_omega
  · obtain ⟨q,H⟩ := row_of n 4 (by omega) hlt
    refine H.classOf_add (c := 7) (l := 128) (u := 256) hlt (by omega) (by bv_omega) (by bv_omega)
      (by decide) ?_ (by omega)
    intro q hq hq'
    unfold NZONES classSize
    grind
  · obtain ⟨q,H⟩ := row_of n 5 (by omega) hlt
    refine H.classOf_add (c := 15) (l := 256) (u := 512) hlt (by omega) (by bv_omega) (by bv_omega)
      (by decide) ?_ (by omega)
    intro q hq hq'
    unfold NZONES classSize
    grind
  · obtain ⟨q,H⟩ := row_of n 6 (by omega) hlt
    refine H.classOf_add (c := 23) (l := 512) (u := 1024) hlt (by omega) (by bv_omega) (by bv_omega)
      (by decide) ?_ (by omega)
    intro q hq hq'
    unfold NZONES classSize
    grind
  · obtain ⟨q,H⟩ := row_of n 7 (by omega) hlt
    refine H.classOf_add (c := 31) (l := 1024) (u := 2048) hlt (by omega) (by bv_omega) (by bv_omega)
      (by decide) ?_ (by omega)
    intro q hq hq'
    unfold NZONES classSize
    grind
  · obtain ⟨q,H⟩ := row_of n 8 (by omega) hlt
    refine H.classOf_add (c := 39) (l := 2048) (u := 4096) hlt (by omega) (by bv_omega) (by bv_omega)
      (by decide) ?_ (by omega)
    intro q hq hq'
    unfold NZONES classSize
    grind
  · obtain ⟨q,H⟩ := row_of n 9 (by omega) hlt
    refine H.classOf_add (c := 47) (l := 4096) (u := 8192) hlt (by omega) (by bv_omega) (by bv_omega)
      (by decide) ?_ (by omega)
    intro q hq hq'
    unfold NZONES classSize
    grind
  · obtain ⟨q,H⟩ := row_of n 10 (by omega) hlt
    refine H.classOf_add (c := 55) (l := 8192) (u := 16384) hlt (by omega) (by bv_omega) (by bv_omega)
      (by decide) ?_ (by omega)
    intro q hq hq'
    unfold NZONES classSize
    grind
  · bv_omega

/-- A request is rounded up by less than eight bytes, or by less than its size. -/
theorem zoneindex_lt {n : Word} (hlt : n.toNat < 16384) :
    (zoneindex n).1.toNat < n.toNat+max 8 n.toNat := by
  have hrow : ∀ k ≤ 10, 2^k ≤ max 8 n.toNat →
      ((n+mask 32 k) &&& ~~~mask 32 k).toNat < n.toNat+max 8 n.toNat := by
    intro k hk hpow
    obtain ⟨q,H⟩ := row_of n k hk hlt
    have hlower := H.lower
    rw [H.rounded]
    omega
  unfold zoneindex
  split_ifs with h₁ h₂ h₃ h₄ h₅ h₆ h₇ h₈
  · exact hrow 3 (by omega) (by omega)
  · exact hrow 4 (by omega) (by bv_omega)
  · exact hrow 5 (by omega) (by bv_omega)
  · exact hrow 6 (by omega) (by bv_omega)
  · exact hrow 7 (by omega) (by bv_omega)
  · exact hrow 8 (by omega) (by bv_omega)
  · exact hrow 9 (by omega) (by bv_omega)
  · exact hrow 10 (by omega) (by bv_omega)
  · bv_omega

end CosKernel.SlabHeap

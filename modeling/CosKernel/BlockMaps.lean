import CosKernel.IntervalFreeList
import Mathlib.Data.List.Nodup
import Mathlib.Logic.Function.Basic

/-!
# Maps of blocks

A map tells for every cell which block begins there, and a block extends over a number of
cells. The blocks of a map are disjoint when the list of its intervals has no cell twice.
-/
namespace CosKernel.BlockMaps
open IntervalFreeList

variable {ρ : Type} {span : ρ → ℕ} {role : ℕ → Option ρ} {blocks : List Interval}
variable {a p q i : ℕ} {r s : ρ}

/-- The cell `i` lies in the block that begins at `p`. -/
def Owns (span : ρ → ℕ) (role : ℕ → Option ρ) (p i : ℕ) : Prop :=
  ∃ r, role p = some r ∧ p ≤ i ∧ i < p+span r

/-- The blocks of the map are the intervals of the list, which have no cell in common. -/
structure Tiles (span : ρ → ℕ) (role : ℕ → Option ρ) (blocks : List Interval) : Prop where
  mem : ∀ x, x ∈ blocks ↔ ∃ r, role x.1 = some r ∧ span r = x.2
  positive : ∀ p r, role p = some r → 0 < span r
  nodup : (cells blocks).Nodup

theorem unique_of_nodup {x y : Interval} (hnodup : (cells blocks).Nodup) (hx : x ∈ blocks)
    (hy : y ∈ blocks) (hix : i ∈ List.range' x.1 x.2) (hiy : i ∈ List.range' y.1 y.2) : x = y := by
  induction blocks with
  | nil => cases hx
  | cons b bs ih =>
      rw [cells_cons,List.nodup_append'] at hnodup
      obtain ⟨-,hrest,hdisjoint⟩ := hnodup
      rcases List.mem_cons.mp hx with hxb | hxs <;> rcases List.mem_cons.mp hy with hyb | hys
      · exact hxb.trans hyb.symm
      · rw [hxb] at hix
        exact (hdisjoint hix (List.mem_flatMap.mpr ⟨y,hys,hiy⟩)).elim
      · rw [hyb] at hiy
        exact (hdisjoint hiy (List.mem_flatMap.mpr ⟨x,hxs,hix⟩)).elim
      · exact ih hrest hxs hys

theorem nodup_of_cells (hnodup : (cells blocks).Nodup) (hpos : ∀ x ∈ blocks, 0 < x.2) :
    blocks.Nodup := by
  induction blocks with
  | nil => exact List.nodup_nil
  | cons b bs ih =>
      rw [cells_cons,List.nodup_append'] at hnodup
      obtain ⟨-,hrest,hdisjoint⟩ := hnodup
      refine List.nodup_cons.mpr ⟨fun hb => ?_,ih hrest fun x hx => hpos x (List.mem_cons_of_mem b hx)⟩
      have hfirst : b.1 ∈ List.range' b.1 b.2 := by
        have := hpos b List.mem_cons_self
        rw [List.mem_range'_1]
        omega
      exact hdisjoint hfirst (List.mem_flatMap.mpr ⟨b,hb,hfirst⟩)

namespace Tiles

variable (T : Tiles span role blocks)

include T

theorem block (hr : role p = some r) : (p,span r) ∈ blocks := (T.mem (p,span r)).mpr ⟨r,hr,rfl⟩

theorem owns_iff : (∃ p, Owns span role p i) ↔ i ∈ cells blocks := by
  rw [mem_cells]
  constructor
  · rintro ⟨p,r,hr,h⟩
    exact ⟨(p,span r),T.block hr,h⟩
  · rintro ⟨x,hx,h⟩
    obtain ⟨r,hr,hspan⟩ := (T.mem x).mp hx
    exact ⟨x.1,r,hr,by rw [hspan]; exact h⟩

/-- A cell lies in one block at most. -/
theorem unique (hp : Owns span role p i) (hq : Owns span role q i) : p = q := by
  obtain ⟨r,hr,hp⟩ := hp
  obtain ⟨s,hs,hq⟩ := hq
  have heq := unique_of_nodup T.nodup (T.block hr) (T.block hs) (List.mem_range'_1.mpr hp)
    (List.mem_range'_1.mpr hq)
  exact congrArg Prod.fst heq

/-- No block begins where another interval does. -/
theorem fresh {n : ℕ} (hnodup : (cells ((a,n)::blocks)).Nodup) (hpos : 0 < n) : role a = none := by
  rw [Option.eq_none_iff_forall_ne_some]
  intro s hs
  have hcell : a ∈ cells blocks := T.owns_iff.mp ⟨a,s,hs,by have := T.positive a s hs; omega⟩
  rw [cells_cons,List.nodup_append'] at hnodup
  exact hnodup.2.2 (List.mem_range'_1.mpr (by simp only; omega)) hcell

/-- A block is entered into the map. -/
theorem put (hnodup : (cells ((a,span r)::blocks)).Nodup) (hpos : 0 < span r) :
    Tiles span (Function.update role a (some r)) ((a,span r)::blocks) := by
  have hnone := T.fresh hnodup hpos
  refine ⟨fun x => ?_,fun p s hs => ?_,hnodup⟩
  · rw [List.mem_cons]
    by_cases hx : x.1 = a
    · rw [hx,Function.update_self]
      constructor
      · rintro (rfl | h)
        · exact ⟨r,rfl,rfl⟩
        · obtain ⟨s,hs,-⟩ := (T.mem x).mp h
          rw [hx,hnone] at hs
          cases hs
      · rintro ⟨s,hs,hspan⟩
        cases hs
        exact Or.inl (Prod.ext hx hspan.symm)
    · rw [Function.update_of_ne hx,← T.mem x]
      exact ⟨fun h => h.resolve_left fun h => hx (congrArg Prod.fst h),Or.inr⟩
  · by_cases hp : p = a
    · rw [hp,Function.update_self] at hs
      cases hs
      exact hpos
    · rw [Function.update_of_ne hp] at hs
      exact T.positive p s hs

/-- A block is removed from the map. -/
theorem remove (hr : role a = some r) : ∃ rest, ((a,span r)::rest).Perm blocks ∧
    Tiles span (Function.update role a none) rest := by
  have hperm := (List.perm_cons_erase (T.block hr)).symm
  have hblocks : blocks.Nodup := nodup_of_cells T.nodup fun x hx => by
    obtain ⟨s,hs,hspan⟩ := (T.mem x).mp hx
    rw [← hspan]
    exact T.positive x.1 s hs
  refine ⟨blocks.erase (a,span r),hperm,fun x => ?_,fun p s hs => ?_,?_⟩
  · rw [hblocks.mem_erase_iff,T.mem x]
    by_cases hx : x.1 = a
    · rw [hx,Function.update_self]
      constructor
      · rintro ⟨hne,s,hs,hspan⟩
        rw [hr] at hs
        cases hs
        exact (hne (Prod.ext hx hspan.symm)).elim
      · rintro ⟨s,hs,-⟩
        cases hs
    · rw [Function.update_of_ne hx]
      exact ⟨And.right,fun h => ⟨fun heq => hx (congrArg Prod.fst heq),h⟩⟩
  · by_cases hp : p = a
    · rw [hp,Function.update_self] at hs
      cases hs
    · rw [Function.update_of_ne hp] at hs
      exact T.positive p s hs
  · have hcells := (cells_perm hperm).nodup_iff.mpr T.nodup
    rw [cells_cons,List.nodup_append'] at hcells
    exact hcells.2.1

/-- A block is used for something else. -/
theorem replace (hr : role a = some r) (hspan : span s = span r) :
    Tiles span (Function.update role a (some s)) blocks := by
  refine ⟨fun x => ?_,fun p t ht => ?_,T.nodup⟩
  · rw [T.mem x]
    by_cases hx : x.1 = a
    · rw [hx,Function.update_self,hr]
      constructor
      · rintro ⟨t,ht,h⟩
        cases ht
        exact ⟨s,rfl,hspan.trans h⟩
      · rintro ⟨t,ht,h⟩
        cases ht
        exact ⟨r,rfl,hspan.symm.trans h⟩
    · rw [Function.update_of_ne hx]
  · by_cases hp : p = a
    · rw [hp,Function.update_self] at ht
      cases ht
      rw [hspan]
      exact T.positive a r hr
    · rw [Function.update_of_ne hp] at ht
      exact T.positive p t ht

end Tiles

end CosKernel.BlockMaps

import CosKernel.LinkedChain
import CosKernel.PagePartition
import CosKernel.SizeClasses
import Mathlib.Data.List.Perm.Basic

/-!
# Zones and their chunks

A zone is a run of pages with a header and, behind it, chunks of one size. The chunks that
have been used so far are the first ones; each of them is live or in the free list of the
zone. A zone is described by its index and these two lists of chunk numbers.
-/
namespace CosKernel.HeapBlocks
open SlabHeap PageAllocator LinkedChain IntervalFreeList

/-- What `system_heap_init` fixes: the pages of the heap and of the array `memusage`, the
number of pages of a zone and the size from which on blocks are whole pages. -/
structure Config where
  base : ℕ
  count : ℕ
  table : ℕ
  tablePages : ℕ
  zonePages : ℕ
  limit : ℕ
  base_pos : 0 < base
  count_pos : 0 < count
  end_lt : base+count < 2^20
  tablePages_eq : tablePages = (count+1023)/1024
  zones : zonePages = 8 ∧ limit = 8192 ∨ (zonePages = 16 ∨ zonePages = 32) ∧ limit = 16384

/-- The number of chunks of a zone. -/
def Config.total (c : Config) (i : Fin NZONES) : ℕ :=
  (c.zonePages*4096-classOffset i)/classSize i

/-- A zone: the chunks used so far are those below some number, each once. -/
structure Zone (c : Config) where
  index : Fin NZONES
  live : List ℕ
  free : List ℕ
  small : 4*classSize index ≤ c.zonePages*4096
  exact : (live++free).Perm (List.range (live++free).length)
  used : live++free ≠ []
  room : (live++free).length ≤ c.total index

/-- The address of a page. -/
def ptr (p : ℕ) : Word := BitVec.ofNat 32 (p*4096)

theorem toNat_ptr {p : ℕ} (hp : p < 2^20) : (ptr p).toNat = p*4096 := by
  rw [ptr,BitVec.toNat_ofNat,Nat.mod_eq_of_lt (by omega)]

theorem pageNo_ptr {p : ℕ} (hp : p < 2^20) : pageNo (ptr p) = p := pageNo_of (toNat_ptr hp)

theorem ptr_ne_zero {p : ℕ} (hpos : 0 < p) (hp : p < 2^20) : ptr p ≠ 0 := by
  have := toNat_ptr hp
  intro h
  rw [h] at this
  simp at this
  omega

theorem offset_le (f : ZoneField) : f.offset.toNat ≤ 32 := by
  cases f <;> decide

theorem toNat_field {p : ℕ} (hp : p < 2^20) (f : ZoneField) :
    (ptr p+f.offset).toNat = p*4096+f.offset.toNat := by
  have := offset_le f
  rw [BitVec.toNat_add,toNat_ptr hp,Nat.mod_eq_of_lt (by omega)]

theorem pageNo_headerField {p : ℕ} (hp : p < 2^20) (f : ZoneField) :
    pageNo (ptr p+f.offset) = p := by
  have := offset_le f
  rw [pageNo,toNat_field hp]
  omega

theorem field_inj {z : Word} {f g : ZoneField} : z+f.offset = z+g.offset ↔ f = g := by
  rw [BitVec.add_right_inj]
  cases f <;> cases g <;> decide

namespace Config

variable (c : Config) (i : Fin NZONES)

theorem zonePages_bounds : 8 ≤ c.zonePages ∧ c.zonePages ≤ 32 := by
  have := c.zones
  omega

/-- A page of `memusage` has 1024 entries. -/
theorem entries : c.count ≤ c.tablePages*1024 := by
  have := c.tablePages_eq
  omega

theorem tablePages_pos : 0 < c.tablePages := by
  have := c.entries
  have := c.count_pos
  omega

/-- The chunks lie in the zone. -/
theorem total_room : classOffset i+c.total i*classSize i ≤ c.zonePages*4096 := by
  have hdiv := Nat.div_mul_le_self (c.zonePages*4096-classOffset i) (classSize i)
  have hpages := c.zonePages_bounds
  have hoffset := classOffset_bounds i
  have hsize := classSize_bounds i
  unfold total
  omega

theorem total_le : c.total i ≤ 16384 := by
  have hroom := c.total_room i
  have hpages := c.zonePages_bounds
  have hmul := Nat.mul_le_mul_left (c.total i) (classSize_bounds i).1
  omega

/-- There is room for at least two chunks. -/
theorem two_le_total (hsmall : 4*classSize i ≤ c.zonePages*4096) : 2 ≤ c.total i := by
  have hpages := c.zonePages_bounds
  have hoffset := classOffset_bounds i
  have hsize := classSize_bounds i
  unfold total
  rw [Nat.le_div_iff_mul_le (by omega)]
  omega

end Config

namespace Zone

variable {c : Config} (z : Zone c) {p k l : ℕ}

def total : ℕ := c.total z.index

def size : ℕ := classSize z.index

/-- The address of a chunk. -/
def chunkAt (p k : ℕ) : ℕ := p*4096+classOffset z.index+k*classSize z.index

def chunk (p k : ℕ) : Word := BitVec.ofNat 32 (z.chunkAt p k)

theorem size_bounds : 8 ≤ z.size ∧ z.size ≤ 16384 := classSize_bounds z.index

theorem length_le : z.live.length+z.free.length ≤ z.total := by
  have := z.room
  rw [List.length_append] at this
  exact this

theorem length_pos : 0 < z.live.length+z.free.length := by
  rw [← List.length_append]
  exact List.length_pos_iff.mpr z.used

theorem two_le_total : 2 ≤ z.total := c.two_le_total z.index z.small

theorem total_le : z.total ≤ 16384 := c.total_le z.index

theorem nodup : (z.live++z.free).Nodup := z.exact.nodup_iff.mpr List.nodup_range

theorem mem_iff : k ∈ z.live ∨ k ∈ z.free ↔ k < z.live.length+z.free.length := by
  rw [← List.mem_append,z.exact.mem_iff,List.mem_range,List.length_append]

theorem lt_total (hk : k ∈ z.live ∨ k ∈ z.free) : k < z.total :=
  lt_of_lt_of_le (z.mem_iff.mp hk) z.length_le

theorem not_free_of_live (hk : k ∈ z.live) : k ∉ z.free := fun h =>
  List.disjoint_of_nodup_append z.nodup hk h

/-- The chunks lie behind the header. -/
theorem chunkAt_start : p*4096+36 ≤ z.chunkAt p k := by
  have := (classOffset_bounds z.index).1
  unfold chunkAt
  omega

theorem chunkAt_end (hk : k < z.total) : z.chunkAt p k+z.size ≤ (p+c.zonePages)*4096 := by
  have hroom := c.total_room z.index
  have hmul := Nat.mul_le_mul_right (classSize z.index) (show k+1 ≤ c.total z.index from hk)
  rw [Nat.add_mul] at hmul
  unfold chunkAt size
  omega

theorem chunkAt_lt (h : k < l) : z.chunkAt p k+z.size ≤ z.chunkAt p l := by
  have hmul := Nat.mul_le_mul_right (classSize z.index) (show k+1 ≤ l from h)
  rw [Nat.add_mul] at hmul
  unfold chunkAt size
  omega

theorem chunkAt_apart (h : k ≠ l) :
    z.chunkAt p k+z.size ≤ z.chunkAt p l ∨ z.chunkAt p l+z.size ≤ z.chunkAt p k := by
  rcases Nat.lt_or_gt_of_ne h with h | h
  · exact Or.inl (z.chunkAt_lt h)
  · exact Or.inr (z.chunkAt_lt h)

/-- The next chunk that has not been used so far is taken. -/
def takeNew (h : z.live.length+z.free.length < z.total) : Zone c where
  index := z.index
  live := (z.live.length+z.free.length)::z.live
  free := z.free
  small := z.small
  exact := by
    rw [List.cons_append,List.length_cons,List.range_succ,List.length_append]
    refine List.Perm.trans (List.Perm.cons _ z.exact) ?_
    rw [List.length_append]
    exact (List.perm_append_singleton ..).symm
  used := by simp
  room := by
    rw [List.cons_append,List.length_cons,List.length_append]
    exact h

/-- The first chunk of the free list is taken. -/
def takeFree {rest : List ℕ} (h : z.free = k::rest) : Zone c where
  index := z.index
  live := k::z.live
  free := rest
  small := z.small
  exact := by
    have hperm : (k::z.live++rest).Perm (z.live++z.free) := by
      rw [h]
      exact List.perm_middle.symm
    rw [hperm.length_eq]
    exact hperm.trans z.exact
  used := by simp
  room := by
    have := z.room
    rw [h] at this
    simp only [List.length_append,List.length_cons] at this ⊢
    omega

/-- A live chunk becomes the first one of the free list. -/
def give (h : k ∈ z.live) : Zone c where
  index := z.index
  live := z.live.erase k
  free := k::z.free
  small := z.small
  exact := by
    have hperm : (z.live.erase k++k::z.free).Perm (z.live++z.free) :=
      List.perm_middle.trans ((List.perm_cons_erase h).symm.append_right z.free)
    rw [hperm.length_eq]
    exact hperm.trans z.exact
  used := by simp
  room := by
    have hpos : 0 < z.live.length := List.length_pos_of_mem h
    have := z.room
    simp only [List.length_append,List.length_cons,List.length_erase_of_mem h] at this ⊢
    omega

/-- A new zone, of which the first chunk is live. -/
def first (i : Fin NZONES) (hsmall : 4*classSize i ≤ c.zonePages*4096) : Zone c where
  index := i
  live := [0]
  free := []
  small := hsmall
  exact := by simp
  used := by simp
  room := by
    have := c.two_le_total i hsmall
    simp only [List.append_nil,List.length_singleton]
    omega

variable (hp : p+c.zonePages ≤ 2^20)

include hp

theorem toNat_chunk (hk : k < z.total) : (z.chunk p k).toNat = z.chunkAt p k := by
  have hend := z.chunkAt_end (p := p) hk
  have hsize := z.size_bounds
  rw [chunk,BitVec.toNat_ofNat,Nat.mod_eq_of_lt (by omega)]

theorem chunk_ne_zero (hk : k < z.total) : z.chunk p k ≠ 0 := by
  have htoNat := z.toNat_chunk hp hk
  have hstart := z.chunkAt_start (p := p) (k := k)
  intro h
  rw [h] at htoNat
  simp at htoNat
  omega

theorem chunk_inj (hk : k < z.total) (hl : l < z.total) (h : z.chunk p k = z.chunk p l) : k = l := by
  by_contra hne
  have hsize := z.size_bounds
  have heq := congrArg BitVec.toNat h
  rw [z.toNat_chunk hp hk,z.toNat_chunk hp hl] at heq
  have := z.chunkAt_apart (p := p) hne
  omega

/-- The page of a chunk's first word. -/
theorem pageNo_chunk (hk : k < z.total) : p ≤ pageNo (z.chunk p k) ∧ pageNo (z.chunk p k) < p+c.zonePages := by
  have htoNat := z.toNat_chunk hp hk
  have hstart := z.chunkAt_start (p := p) (k := k)
  have hend := z.chunkAt_end (p := p) hk
  have hsize := z.size_bounds
  unfold pageNo
  omega

theorem chunk_of_chunkAt (hk : k < z.total) {a : Word} (ha : a.toNat = z.chunkAt p k) :
    a = z.chunk p k := by
  rw [← BitVec.toNat_inj,ha,z.toNat_chunk hp hk]

theorem pageNo_of_chunkAt (hk : k < z.total) {a : Word} (ha : a.toNat = z.chunkAt p k) :
    p ≤ pageNo a ∧ pageNo a < p+c.zonePages := by
  rw [z.chunk_of_chunkAt hp hk ha]
  exact z.pageNo_chunk hp hk

theorem chunk_ne_field (hk : k < z.total) (f : ZoneField) : z.chunk p k ≠ ptr p+f.offset := by
  have hpages := c.zonePages_bounds
  have htoNat := z.toNat_chunk hp hk
  have hstart := z.chunkAt_start (p := p) (k := k)
  have hfield := toNat_field (show p < 2^20 by omega) f
  have := offset_le f
  intro h
  rw [h] at htoNat
  omega

end Zone

end CosKernel.HeapBlocks

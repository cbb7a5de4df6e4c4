import CosKernel.HeapIntegrity

/-!
# The books of the zones

Every zone in use counts its free chunks rightly. With a free chunk it is linked in the list of
its index and nowhere else, without one it is linked nowhere. In each list at most one zone is
without chunks in use, and when the clients hold nothing, all pages are free except for
`memusage`, one zone for each index, and the zones of `zone_free`.
-/
namespace CosKernel.HeapBlocks
open SlabHeap Heap PageAllocator LinkedChain IntervalFreeList BlockMaps TransitionRuns

/-- The books of the zone `z`, which is in use. -/
structure ZoneSound (w : World) (lists : Fin NZONES → List Word) (spare : List Word) (z : Word) :
    Prop where
  counts : ∃ xs, FreeChunks w.heap z xs ∧ xs.Nodup ∧ (∀ b ∈ w.blocks, b.addr ∉ xs) ∧
    (w.heap.zone z .nfree).toInt =
      (w.heap.zone z .nmax).toInt-1-(w.heap.zone z .uindex).toInt+xs.length
  range : 0 ≤ (w.heap.zone z .uindex).toInt ∧
    (w.heap.zone z .uindex).toInt < (w.heap.zone z .nmax).toInt
  magic : w.heap.zone z .magic = ZALLOC_SLAB_MAGIC
  index : (w.heap.zone z .zoneindex).toNat < NZONES
  listed : 0 < (w.heap.zone z .nfree).toInt → ∀ j : Fin NZONES,
    (lists j).count z = if (w.heap.zone z .zoneindex).toNat = j then 1 else 0
  full : w.heap.zone z .nfree = 0 → ∀ j, z ∉ lists j
  notSpare : z ∉ spare

/-- The books of all zones. -/
structure BooksKept (w : World) : Prop where
  zones : ∃ free zones lists spare, Inventory w free zones lists spare ∧
    (∀ z ∈ zones, ZoneSound w lists spare z) ∧
    (∀ i : Fin NZONES, ∀ z ∈ lists i, z ∈ zones ∧ ∀ n, n ≠ 0 → n < w.heap.zoneLimit →
      (zoneindex n).2.toNat = i → w.heap.zone z .chunksize = (zoneindex n).1) ∧
    w.heap.zoneFreeCnt.toNat = spare.length ∧ spare.length ≤ ZONE_RELEASE_THRESH.toNat

/-- All chunks of the zone `z` are free. -/
def TotallyFree (h : SlabHeap) (z : Word) : Prop := h.zone z .nfree = h.zone z .nmax

instance (h : SlabHeap) (z : Word) : Decidable (TotallyFree h z) :=
  inferInstanceAs (Decidable (h.zone z .nfree = h.zone z .nmax))

/-- At most one zone of each list is totally free. When no block is held, every page that is not
free belongs to `memusage`, to a zone of `zone_array`, of which there is at most one for each
index, or to one of at most two zones of `zone_free`. -/
structure NoLeak (w : World) (free : List Interval) (lists : Fin NZONES → List Word)
    (spare : List Word) : Prop where
  pageList : Listed w.heap w.heap.pageList free
  zoneArray : ∀ i, ZoneList w.heap (w.heap.zoneArray i) (lists i)
  zoneFree : ZoneList w.heap w.heap.zoneFree spare
  idle : ∀ i, ((lists i).filter (TotallyFree w.heap)).length ≤ 1
  settled : w.blocks = [] → (∀ i, (lists i).length ≤ 1) ∧
    spare.length ≤ ZONE_RELEASE_THRESH.toNat ∧
    (cells (free++usageInterval w.heap::
      ((List.finRange NZONES).flatMap lists++spare).map (zoneInterval w.heap))).Perm
        (List.range' (pageNo w.heap.heapStart) (pageCount w.heap))

variable {c : Config} {L : Layout c} {w : World} {p : ℕ} {z : Zone c}

section headers

variable {h : SlabHeap}

theorem toInt_of_le {x : Word} {n : ℕ} (hx : x.toNat = n) (hn : n ≤ 16384) : x.toInt = n := by
  rw [BitVec.toInt_eq_toNat_of_lt (by omega),hx]

/-- The counts of a zone's header. -/
theorem Held.counts (H : Held h p z) :
    (h.zone (ptr p) .nfree).toInt = z.total-z.live.length ∧ (h.zone (ptr p) .nmax).toInt = z.total ∧
      (h.zone (ptr p) .uindex).toInt = z.live.length+z.free.length-1 := by
  have htotal := z.total_le
  have hlength := z.length_le
  have hpos := z.length_pos
  have huindex := H.uindex
  rw [toInt_of_le H.nfree (by omega),toInt_of_le H.nmax htotal,
    toInt_of_le (show _ = z.live.length+z.free.length-1 by omega) (by omega)]
  omega

theorem Held.full_iff (H : Held h p z) : h.zone (ptr p) .nfree = 0 ↔ z.live.length = z.total := by
  have hlength := z.length_le
  have hnfree := H.nfree
  rw [← BitVec.toNat_inj,hnfree]
  change z.total-z.live.length = 0 ↔ _
  omega

theorem Held.free_iff (H : Held h p z) : TotallyFree h (ptr p) ↔ z.live = [] := by
  have hlength := z.length_le
  have htwo := z.two_le_total
  have hnfree := H.nfree
  have hnmax := H.nmax
  rw [TotallyFree,← BitVec.toNat_inj,hnfree,hnmax,← List.length_eq_zero_iff]
  omega

end headers

section books

/-- Zones at different pages have different addresses. -/
theorem Kept.mem_map_ptr {b : Bool} {h : SlabHeap} (K : Kept L h) (hz : L.role p = some (.zone b z))
    {ps : List ℕ} (hps : ∀ q ∈ ps, ∃ b z, L.role q = some (.zone b z)) :
    ptr p ∈ ps.map ptr ↔ p ∈ ps := by
  refine ⟨fun hp => ?_,List.mem_map_of_mem⟩
  obtain ⟨q,hq,heq⟩ := List.mem_map.mp hp
  obtain ⟨b',z',hz'⟩ := hps q hq
  rw [← ptr_inj (K.shape.page_lt hz') (K.shape.page_lt hz) heq]
  exact hq

theorem Kept.list_zone {h : SlabHeap} (K : Kept L h) {i : Fin NZONES} {q : ℕ} (hq : q ∈ L.lists i) :
    ∃ b z, L.role q = some (.zone b z) := by
  obtain ⟨z,hz,-⟩ := ((K.lists i).mem q).mp hq
  exact ⟨true,z,hz⟩

theorem Kept.spare_zone {h : SlabHeap} (K : Kept L h) {q : ℕ} (hq : q ∈ L.spare) :
    ∃ b z, L.role q = some (.zone b z) := by
  obtain ⟨z,hz⟩ := (K.spare.mem q).mp hq
  exact ⟨false,z,hz⟩

theorem Kept.nodup_list {h : SlabHeap} (K : Kept L h) (i : Fin NZONES) :
    ((L.lists i).map ptr).Nodup := by
  refine List.Nodup.map_on (fun p hp q hq heq => ?_) (K.lists i).nodup
  obtain ⟨_,_,hz⟩ := K.list_zone hp
  obtain ⟨_,_,hz'⟩ := K.list_zone hq
  exact ptr_inj (K.shape.page_lt hz) (K.shape.page_lt hz') heq

theorem Describes.zone_sound (D : Describes L w) (hz : L.role p = some (.zone true z)) :
    ZoneSound w (fun i => (L.lists i).map ptr) (L.spare.map ptr) (ptr p) := by
  have K := D.kept
  have S := K.shape
  have H := K.held hz
  have hend := S.zone_end hz
  obtain ⟨hnfree,hnmax,huindex⟩ := H.counts
  have hlength := z.length_le
  have hpos := z.length_pos
  have hnodup : (z.live++z.free).Nodup := z.nodup
  refine ⟨⟨z.free.map (z.chunk p),H.freechunk,?_,fun b hb hmem => ?_,?_⟩,?_,
    (K.record hz).magic rfl,?_,fun hfree j => ?_,fun hfull j hj => ?_,fun hj => ?_⟩
  · refine List.Nodup.map_on (fun k hk l hl heq => ?_) (List.nodup_append'.mp hnodup).2.1
    exact z.chunk_inj hend (z.lt_total (Or.inr hk)) (z.lt_total (Or.inr hl)) heq
  · obtain ⟨k,hk,heq⟩ := List.mem_map.mp hmem
    obtain ⟨q,r,hr,hg⟩ := D.block_live hb
    have hlt := z.lt_total (Or.inr hk)
    have hapart := S.apart_chunk hr hg hz hlt fun hl => z.not_free_of_live hl hk
    have hinside := S.gives_inside hr hg
    have hsize := z.size_bounds
    rw [(D.fits b hb).start,← heq,z.toNat_chunk hend hlt] at hapart
    unfold Apart at hapart
    omega
  · rw [hnfree,hnmax,huindex,List.length_map]
    omega
  · rw [huindex,hnmax]
    omega
  · rw [H.zoneindex]
    exact z.index.isLt
  · have hready : ptr p ∈ (L.lists j).map ptr ↔ (w.heap.zone (ptr p) .zoneindex).toNat = j := by
      rw [K.mem_map_ptr hz fun q hq => K.list_zone hq,(K.lists j).mem,Layout.ready_iff hz,H.zoneindex,
        Fin.ext_iff]
      omega
    rw [(K.nodup_list j).count]
    simp only [hready]
  · rw [K.mem_map_ptr hz fun q hq => K.list_zone hq,(K.lists j).mem,Layout.ready_iff hz] at hj
    have := H.full_iff.mp hfull
    omega
  · rw [K.mem_map_ptr hz fun q hq => K.spare_zone hq,K.spare.mem] at hj
    obtain ⟨z',hz'⟩ := hj
    rw [hz] at hz'
    cases hz'

/-- The chunk size of the zones in a list. -/
theorem Kept.list_chunksize {h : SlabHeap} (K : Kept L h) {i : Fin NZONES} (hp : p ∈ L.lists i)
    {n : Word} (hn : n ≠ 0) (hlimit : n < h.zoneLimit) (hi : (zoneindex n).2.toNat = i) :
    h.zone (ptr p) .chunksize = (zoneindex n).1 := by
  obtain ⟨z,hz,rfl,-⟩ := ((K.lists i).mem p).mp hp
  have hzones := c.zones
  rw [BitVec.lt_def,K.setup.zoneLimit] at hlimit
  obtain ⟨i,C⟩ := zoneindex_class hn (show n.toNat < 16384 by omega)
  have heq : i = z.index := Fin.ext (C.toNat.symm.trans hi)
  rw [← BitVec.toNat_inj,(K.held hz).chunksize,C.size,heq]
  rfl

theorem Describes.books (D : Describes L w) : BooksKept w := by
  have K := D.kept
  obtain ⟨zs,hnodup,hzs⟩ := K.exists_zones
  obtain ⟨xs,hinv,-,-⟩ := D.inventory hnodup hzs
  refine ⟨xs,_,_,_,hinv,fun z hz => ?_,fun i z hz => ?_,?_,?_⟩
  · obtain ⟨p,hp,rfl⟩ := List.mem_map.mp hz
    obtain ⟨z,hz⟩ := (hzs p).mp hp
    exact D.zone_sound hz
  · obtain ⟨p,hp,rfl⟩ := List.mem_map.mp hz
    obtain ⟨z,hz,-⟩ := ((K.lists i).mem p).mp hp
    refine ⟨List.mem_map_of_mem ((hzs p).mpr ⟨z,hz⟩),?_⟩
    exact fun n hn hlimit hi => K.list_chunksize hp hn hlimit hi
  · rw [List.length_map]
    exact K.spare.count
  · rw [List.length_map]
    exact K.spare.bound

end books

section leaks

/-- A list without repetition of equal elements. -/
theorem length_le_one_of_nodup {α : Type} {l : List α} (hnodup : l.Nodup)
    (heq : ∀ x ∈ l, ∀ y ∈ l, x = y) : l.length ≤ 1 := by
  match l with
  | [] => exact Nat.zero_le 1
  | [_] => exact le_refl 1
  | x::y::ys =>
      have hxy := heq x List.mem_cons_self y (List.mem_cons_of_mem x List.mem_cons_self)
      rw [hxy] at hnodup
      exact ((List.nodup_cons.mp hnodup).1 List.mem_cons_self).elim

/-- The totally free zones of a list. -/
theorem Describes.idle_eq (D : Describes L w) {i : Fin NZONES} {x y : Word}
    (hx : x ∈ (L.lists i).map ptr) (hx' : TotallyFree w.heap x) (hy : y ∈ (L.lists i).map ptr)
    (hy' : TotallyFree w.heap y) : x = y := by
  have K := D.kept
  obtain ⟨p,hp,rfl⟩ := List.mem_map.mp hx
  obtain ⟨q,hq,rfl⟩ := List.mem_map.mp hy
  obtain ⟨z,hz,hi,-⟩ := ((K.lists i).mem p).mp hp
  obtain ⟨z',hz',hi',-⟩ := ((K.lists i).mem q).mp hq
  rw [D.tidy p q z z' hz hz' ((K.held hz).free_iff.mp hx') ((K.held hz').free_iff.mp hy')
    (hi.trans hi'.symm)]

/-- Without blocks no zone has a live chunk. -/
theorem Describes.live_nil (D : Describes L w) (hnil : w.blocks = [])
    (hz : L.role p = some (.zone true z)) : z.live = [] := by
  refine List.eq_nil_iff_forall_not_mem.mpr fun k hk => ?_
  have hlive : L.Live (.bytes (z.chunkAt p k) z.size) := ⟨p,_,hz,k,hk,rfl,rfl⟩
  rw [D.live,hnil] at hlive
  cases hlive

/-- Without blocks all zones in use are in the lists. -/
theorem Describes.zones_perm (D : Describes L w) (hnil : w.blocks = []) {zs : List ℕ}
    (hnodup : zs.Nodup) (hzs : ∀ p, p ∈ zs ↔ ∃ z, L.role p = some (.zone true z)) :
    zs.Perm ((List.finRange NZONES).flatMap L.lists) := by
  have K := D.kept
  refine (List.perm_ext_iff_of_nodup hnodup (List.nodup_flatMap.mpr ⟨?_,?_⟩)).mpr fun p => ?_
  · exact fun i _ => (K.lists i).nodup
  · refine (List.nodup_finRange NZONES).imp fun {i j} hij p hp hp' => hij ?_
    obtain ⟨z,hz,hi,-⟩ := ((K.lists i).mem p).mp hp
    obtain ⟨z',hz',hj,-⟩ := ((K.lists j).mem p).mp hp'
    rw [hz] at hz'
    cases hz'
    exact hi.symm.trans hj
  · rw [hzs,List.mem_flatMap]
    constructor
    · rintro ⟨z,hz⟩
      have htwo := z.two_le_total
      refine ⟨z.index,List.mem_finRange _,((K.lists z.index).mem p).mpr ⟨z,hz,rfl,?_⟩⟩
      rw [D.live_nil hnil hz,List.length_nil]
      omega
    · rintro ⟨i,-,hp⟩
      obtain ⟨z,hz,-⟩ := ((K.lists i).mem p).mp hp
      exact ⟨z,hz⟩

theorem Describes.no_leak (D : Describes L w) : ∃ free lists spare, NoLeak w free lists spare := by
  have K := D.kept
  obtain ⟨zs,hnodup,hzs⟩ := K.exists_zones
  obtain ⟨xs,hinv,-,-⟩ := D.inventory hnodup hzs
  refine ⟨xs,_,_,hinv.pageList,hinv.zoneArray,hinv.zoneFree,fun i => ?_,fun hnil =>
    ⟨fun i => ?_,?_,?_⟩⟩
  · refine length_le_one_of_nodup ((K.nodup_list i).filter _) fun x hx y hy => ?_
    rw [List.mem_filter,decide_eq_true_iff] at hx hy
    exact D.idle_eq hx.1 hx.2 hy.1 hy.2
  · have hidle : ∀ x ∈ (L.lists i).map ptr, TotallyFree w.heap x := by
      intro x hx
      obtain ⟨p,hp,rfl⟩ := List.mem_map.mp hx
      obtain ⟨z,hz,-⟩ := ((K.lists i).mem p).mp hp
      exact (K.held hz).free_iff.mpr (D.live_nil hnil hz)
    refine length_le_one_of_nodup (K.nodup_list i) fun x hx y hy => ?_
    exact D.idle_eq hx (hidle x hx) hy (hidle y hy)
  · rw [List.length_map]
    exact K.spare.bound
  · have hpages := hinv.pages
    rw [hnil,List.filterMap_nil,List.append_nil] at hpages
    have hperm := (D.zones_perm hnil hnodup hzs).map ptr
    rw [List.map_flatMap] at hperm
    exact (cells_perm (((hperm.append_right _).map _).cons _ |>.append_left xs)).symm.trans hpages

end leaks

/-- In every run of the allocators the books of all zones are right, and no call fails: every
index is below `NZONES`, every zone that gives a chunk has one, `z_magic` is right, and `kfree`
finds the zone in its list. -/
theorem zone_books_kept {fuel : ℕ} {down : Bool} {w : World} (H : Accepted fuel down w)
    (cs : List Call) (hlegal : AllSteps (step fuel down) Legal w cs) :
    Always (step fuel down) BooksKept w cs := by
  refine H.always (fun w' hw => ?_) hlegal
  obtain ⟨c,L,-,D⟩ := hw
  exact D.books

/-- A zone is filled with three chunks, and a fourth one needs another zone. Then all are freed:
the first zone goes to `zone_free`, the second one stays. -/
def fillAndFree : List Call :=
  [.kmalloc 8000,.kmalloc 8000,.kmalloc 8000,.kmalloc 8000,.kfree 0x103000,.kfree 0x105000,
    .kfree 0x107000,.kfree 0x10b000]

theorem zone_books_kept_fillAndFree :
    ((fillAndFree.foldlM (step 50 true) ⟨smallHeap,[]⟩).map fun w =>
      (w.blocks,w.heap.zoneFree,w.heap.zoneFreeCnt)) = some ([],0x101000,1) ∧
    Always (step 50 true) BooksKept ⟨smallHeap,[]⟩ fillAndFree := by
  refine ⟨by decide +kernel,?_⟩
  apply zone_books_kept accepted_smallHeap
  decide +kernel

/-- In every run of the allocators at most one zone of each list is totally free, and whenever
no block is held all other pages are free except for `memusage`, one zone for each index and two
zones. -/
theorem no_page_leaks {fuel : ℕ} {down : Bool} {w : World} (H : Accepted fuel down w)
    (cs : List Call) (hlegal : AllSteps (step fuel down) Legal w cs) :
    Always (step fuel down) (fun w => ∃ free lists spare, NoLeak w free lists spare) w cs := by
  refine H.always (fun w' hw => ?_) hlegal
  obtain ⟨c,L,-,D⟩ := hw
  exact D.no_leak

theorem no_page_leaks_fillAndFree :
    ((fillAndFree.foldlM (step 50 true) ⟨smallHeap,[]⟩).map fun w =>
      (w.blocks,w.heap.zoneArray ⟨63,by decide⟩,w.heap.zone 0x109000 .next)) =
      some ([],0x109000,0) ∧
    Always (step 50 true) (fun w => ∃ free lists spare, NoLeak w free lists spare)
      ⟨smallHeap,[]⟩ fillAndFree := by
  refine ⟨by decide +kernel,?_⟩
  apply no_page_leaks accepted_smallHeap
  decide +kernel

end CosKernel.HeapBlocks

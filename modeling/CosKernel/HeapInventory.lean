import CosKernel.HeapRuns

/-!
# The inventory of the heap

Every page of the heap is in one place: in the list of free pages, in the array `memusage`, in a
zone that is in use, in a zone of `zone_free`, or in a block of whole pages that a client holds.
The inventory says so in terms of the heap alone, without the layout.
-/
namespace CosKernel.HeapBlocks
open SlabHeap Heap PageAllocator LinkedChain IntervalFreeList BlockMaps

/-- The number of pages of the heap. -/
def pageCount (h : SlabHeap) : ℕ := (h.heapEnd.toNat-h.heapStart.toNat)/4096

/-- The pages of `memusage`, 1024 entries in each. -/
def usageInterval (h : SlabHeap) : Interval := (pageNo h.memusage,(pageCount h+1023)/1024)

/-- The pages of the zone `z`. -/
def zoneInterval (h : SlabHeap) (z : Word) : Interval := (pageNo z,h.zonePageCnt.toNat)

/-- The pages of a block of whole pages. -/
def Block.whole (h : SlabHeap) : Block → Option Interval
  | bytes a _ =>
      if usageType (h.mem (h.btokup (a &&& ~~~CONFIG_MM_PAGE_MASK))) = PAGE_TYPE_LARGE then
        some (pageNo a,HeapBlocks.usable h a/4096)
      else none
  | pages a n => some (pageNo a,n.toNat)

/-- The zones that are linked from `first` on. -/
def ZoneList (h : SlabHeap) (first : Word) (zs : List Word) : Prop :=
  Chain (nextZone h) (pointer first) zs

/-- The chunks on the list `z_freechunk` of the zone `z`. -/
def FreeChunks (h : SlabHeap) (z : Word) (xs : List Word) : Prop :=
  Chain (nextChunk h) (pointer (h.zone z .freechunk)) xs

/-- The free pages, the zones in use, those of them in `zone_array`, and those in `zone_free`
are `free`, `zones`, `lists` and `spare`. Together with `memusage` and the blocks of whole pages
they make up the heap. -/
structure Inventory (w : World) (free : List Interval) (zones : List Word)
    (lists : Fin NZONES → List Word) (spare : List Word) : Prop where
  pageList : Listed w.heap w.heap.pageList free
  zoneArray : ∀ i, ZoneList w.heap (w.heap.zoneArray i) (lists i)
  zoneFree : ZoneList w.heap w.heap.zoneFree spare
  aligned : ∀ z ∈ zones++spare, z.toNat = pageNo z*4096
  pages : (cells (free++usageInterval w.heap::((zones++spare).map (zoneInterval w.heap)++
    w.blocks.filterMap (Block.whole w.heap)))).Perm
      (List.range' (pageNo w.heap.heapStart) (pageCount w.heap))

variable {c : Config}

section setup

variable {h : SlabHeap}

theorem Setup.pageCount (H : Setup c h) : pageCount h = c.count := by
  rw [HeapBlocks.pageCount,H.heapEnd,H.heapStart,← Nat.sub_mul,Nat.add_sub_cancel_left,
    Nat.mul_div_cancel _ (by decide)]

theorem Setup.pageNo_heapStart (H : Setup c h) : pageNo h.heapStart = c.base := pageNo_of H.heapStart

theorem Setup.usageInterval (H : Setup c h) : usageInterval h = (c.table,c.tablePages) := by
  rw [HeapBlocks.usageInterval,H.pageCount,pageNo_of H.memusage,c.tablePages_eq]

end setup

section blocks

variable {L : Layout c} {w : World} {b : Block} {p : ℕ} {r : Role c}

/-- The interval of a block of whole pages is that of the layout; chunks have none. -/
theorem Describes.whole_eq (D : Describes L w) (hr : L.role p = some r)
    (hg : r.Gives p (b.holding w.heap)) :
    r.Whole ∧ b.whole w.heap = some (p,r.span) ∨ ¬r.Whole ∧ b.whole w.heap = none := by
  have K := D.kept
  cases b with
  | pages a n =>
      match r,hg with
      | .pages m,⟨ha,hn⟩ =>
          subst ha
          subst hn
          exact Or.inl ⟨trivial,rfl⟩
  | bytes a n =>
      have hlength := K.usable ⟨p,r,hr,hg⟩
      match r,hg with
      | .large m,⟨ha,hm⟩ =>
          have husage := K.usage_large hr ha
          refine Or.inl ⟨trivial,?_⟩
          rw [Block.whole,if_pos husage.type,pageNo_of ha,hm,Nat.mul_div_cancel _ (by decide)]
          rfl
      | .zone true z,⟨k,hk,ha,_⟩ =>
          have hpage := z.pageNo_of_chunkAt (K.shape.zone_end hr) (z.lt_total (Or.inl hk)) ha
          refine Or.inr ⟨id,?_⟩
          rw [Block.whole,(K.usage_small hr hpage).type]
          exact if_neg (by decide)

/-- The blocks of whole pages are those that the clients hold. -/
theorem Describes.mem_wholes (D : Describes L w) {x : Interval} :
    x ∈ w.blocks.filterMap (Block.whole w.heap) ↔
      ∃ r, L.role x.1 = some r ∧ r.Whole ∧ r.span = x.2 := by
  rw [List.mem_filterMap]
  constructor
  · rintro ⟨b,hb,hx⟩
    obtain ⟨p,r,hr,hg⟩ := D.block_live hb
    rcases D.whole_eq hr hg with ⟨hwhole,heq⟩ | ⟨-,heq⟩
    · rw [heq] at hx
      cases hx
      exact ⟨r,hr,hwhole,rfl⟩
    · rw [heq] at hx
      cases hx
  · rintro ⟨r,hr,hwhole,hspan⟩
    obtain ⟨e,hg⟩ : ∃ e, r.Gives x.1 e := by
      match r,hwhole with
      | .large m,_ => exact ⟨_,gives_large.mpr rfl⟩
      | .pages m,_ => exact ⟨_,gives_pages.mpr rfl⟩
    obtain ⟨b,hb,rfl⟩ := List.mem_map.mp ((D.live e).mp ⟨x.1,r,hr,hg⟩)
    refine ⟨b,hb,?_⟩
    rcases D.whole_eq hr hg with ⟨-,heq⟩ | ⟨hnot,-⟩
    · rw [heq,hspan]
    · exact (hnot hwhole).elim

/-- A block of whole pages gives one thing. -/
theorem Role.Whole.gives_unique {e e' : Holding} (hwhole : r.Whole) (hg : r.Gives p e)
    (hg' : r.Gives p e') : e = e' := by
  match r,hwhole with
  | .large m,_ => exact (gives_large.mp hg).trans (gives_large.mp hg').symm
  | .pages m,_ => exact (gives_pages.mp hg).trans (gives_pages.mp hg').symm

theorem Describes.nodup_wholes (D : Describes L w) :
    ((w.blocks.filterMap (Block.whole w.heap)).map Prod.fst).Nodup := by
  have hnodup := List.pairwise_map.mp D.nodup
  rw [List.Nodup,List.pairwise_map,List.pairwise_filterMap]
  refine hnodup.imp_of_mem fun {b b'} hb hb' hne x hx x' hx' heq => hne ?_
  obtain ⟨p,r,hr,hg⟩ := D.block_live hb
  obtain ⟨p',r',hr',hg'⟩ := D.block_live hb'
  rcases D.whole_eq hr hg with ⟨hwhole,hsome⟩ | ⟨-,hnone⟩
  · rcases D.whole_eq hr' hg' with ⟨-,hsome'⟩ | ⟨-,hnone⟩
    · rw [hsome] at hx
      rw [hsome'] at hx'
      cases hx
      cases hx'
      subst heq
      rw [hr] at hr'
      cases hr'
      exact hwhole.gives_unique hg hg'
    · rw [hnone] at hx'
      cases hx'
  · rw [hnone] at hx
    cases hx

end blocks

section inventory

variable {L : Layout c} {w : World}

/-- The first pages of all blocks: `memusage`, the zones and the blocks of whole pages. -/
theorem Describes.first_pages (D : Describes L w) {blocks : List Interval} {zs : List ℕ}
    (T : Tiles Role.span L.role blocks) (hzs : ∀ p, p ∈ zs ↔ ∃ z, L.role p = some (.zone true z))
    (hnodup : zs.Nodup) : (blocks.map Prod.fst).Perm
      (c.table::(zs++L.spare++(w.blocks.filterMap (Block.whole w.heap)).map Prod.fst)) := by
  have K := D.kept
  have hfirst : ∀ p, p ∈ blocks.map Prod.fst ↔ ∃ r, L.role p = some r := by
    intro p
    simp only [List.mem_map,T.mem]
    constructor
    · rintro ⟨x,⟨r,hr,-⟩,rfl⟩
      exact ⟨r,hr⟩
    · rintro ⟨r,hr⟩
      exact ⟨(p,r.span),⟨r,hr,rfl⟩,rfl⟩
  have hblocks : (blocks.map Prod.fst).Nodup := by
    refine List.Nodup.map_on (fun x hx y hy heq => ?_) (nodup_of_cells T.nodup fun x hx => ?_)
    · obtain ⟨r,hr,hspan⟩ := (T.mem x).mp hx
      obtain ⟨s,hs,hspan'⟩ := (T.mem y).mp hy
      rw [heq,hs] at hr
      cases hr
      exact Prod.ext heq (hspan.symm.trans hspan')
    · obtain ⟨r,hr,hspan⟩ := (T.mem x).mp hx
      rw [← hspan]
      exact T.positive _ r hr
  have hwholes : ∀ p, p ∈ (w.blocks.filterMap (Block.whole w.heap)).map Prod.fst ↔
      ∃ r, L.role p = some r ∧ r.Whole := by
    intro p
    simp only [List.mem_map,D.mem_wholes]
    constructor
    · rintro ⟨x,⟨r,hr,hwhole,-⟩,rfl⟩
      exact ⟨r,hr,hwhole⟩
    · rintro ⟨r,hr,hwhole⟩
      exact ⟨(p,r.span),⟨r,hr,hwhole,rfl⟩,rfl⟩
  have hparts : ∀ p, p ∈ zs++L.spare ↔ ∃ b z, L.role p = some (.zone b z) := by
    intro p
    rw [List.mem_append,hzs,K.spare.mem]
    constructor
    · rintro (⟨z,hz⟩ | ⟨z,hz⟩)
      · exact ⟨_,z,hz⟩
      · exact ⟨_,z,hz⟩
    · rintro ⟨b,z,hz⟩
      cases b with
      | true => exact Or.inl ⟨z,hz⟩
      | false => exact Or.inr ⟨z,hz⟩
  refine (List.perm_ext_iff_of_nodup hblocks ?_).mpr fun p => ?_
  · have htable := (K.table c.table).mpr rfl
    refine List.nodup_cons.mpr ⟨fun h => ?_,List.nodup_append'.mpr ⟨?_,D.nodup_wholes,?_⟩⟩
    · rw [List.mem_append,hparts,hwholes,htable] at h
      rcases h with ⟨b,z,h⟩ | ⟨r,h,hwhole⟩
      · cases h
      · cases h
        exact hwhole
    · refine List.nodup_append'.mpr ⟨hnodup,K.spare.nodup,fun p hp hp' => ?_⟩
      obtain ⟨z,hz⟩ := (hzs p).mp hp
      obtain ⟨z',hz'⟩ := (K.spare.mem p).mp hp'
      rw [hz] at hz'
      cases hz'
    · intro p hp hp'
      obtain ⟨b,z,hz⟩ := (hparts p).mp hp
      obtain ⟨r,hr,hwhole⟩ := (hwholes p).mp hp'
      rw [hz] at hr
      cases hr
      exact hwhole
  · rw [hfirst,List.mem_cons,List.mem_append,hparts,hwholes,← K.table p]
    constructor
    · rintro ⟨r,hr⟩
      match r with
      | .table => exact Or.inl hr
      | .zone b z => exact Or.inr (Or.inl ⟨b,z,hr⟩)
      | .large m => exact Or.inr (Or.inr ⟨_,hr,trivial⟩)
      | .pages m => exact Or.inr (Or.inr ⟨_,hr,trivial⟩)
    · rintro (hr | ⟨b,z,hr⟩ | ⟨r,hr,-⟩)
      · exact ⟨_,hr⟩
      · exact ⟨_,hr⟩
      · exact ⟨_,hr⟩

/-- The zones in use, by the layout. -/
theorem Kept.exists_zones {h : SlabHeap} (K : Kept L h) :
    ∃ zs : List ℕ, zs.Nodup ∧ ∀ p, p ∈ zs ↔ ∃ z, L.role p = some (.zone true z) := by
  classical
  obtain ⟨blocks,xs,-,T⟩ := K.divided
  refine ⟨(blocks.map Prod.fst).toFinset.toList.filter
    fun p => ∃ z, L.role p = some (.zone true z),(Finset.nodup_toList _).filter _,fun p => ?_⟩
  rw [List.mem_filter,Finset.mem_toList,List.mem_toFinset,decide_eq_true_iff,and_iff_right_iff_imp]
  rintro ⟨z,hz⟩
  exact List.mem_map.mpr ⟨_,T.block hz,rfl⟩

/-- The layout gives an inventory. -/
theorem Describes.inventory (D : Describes L w) {zs : List ℕ} (hnodup : zs.Nodup)
    (hzs : ∀ p, p ∈ zs ↔ ∃ z, L.role p = some (.zone true z)) :
    ∃ xs, Inventory w xs (zs.map ptr) (fun i => (L.lists i).map ptr) (L.spare.map ptr) ∧
      (∀ x ∈ xs, 0 < x.2) ∧ ∀ i ∈ cells xs, ∀ q, ¬L.Owns q i := by
  have K := D.kept
  obtain ⟨blocks,xs,hp,T⟩ := K.divided
  have hzone : ∀ p ∈ zs++L.spare, ∃ b z, L.role p = some (.zone b z) := by
    intro p hp
    rcases List.mem_append.mp hp with hp | hp
    · exact ⟨true,(hzs p).mp hp⟩
    · exact ⟨false,(K.spare.mem p).mp hp⟩
  refine ⟨xs,⟨hp.listed,fun i => (K.lists i).chain,K.spare.chain,fun z hz => ?_,?_⟩,
    hp.separated.positive,fun i hi q hq => hp.disjoint hi (T.owns_iff.mp ⟨q,hq⟩)⟩
  · rw [← List.map_append] at hz
    obtain ⟨p,hp,rfl⟩ := List.mem_map.mp hz
    obtain ⟨b,z,hz⟩ := hzone p hp
    rw [toNat_ptr (K.shape.page_lt hz),pageNo_ptr (K.shape.page_lt hz)]
  · -- a block is determined by its first page
    obtain ⟨span,hspan⟩ : ∃ span : ℕ → Interval, span =
        fun p => (p,(L.role p).elim 0 Role.span) := ⟨_,rfl⟩
    have hrole : ∀ p r, L.role p = some r → span p = (p,r.span) := by
      intro p r hr
      rw [hspan]
      simp only [hr,Option.elim_some]
    have hblocks : blocks = (blocks.map Prod.fst).map span := by
      rw [List.map_map]
      refine (List.map_id _).symm.trans (List.map_congr_left fun x hx => ?_)
      obtain ⟨r,hr,hx⟩ := (T.mem x).mp hx
      rw [Function.comp_apply,hrole _ r hr,hx,id_eq]
    have hzones : (zs.map ptr++L.spare.map ptr).map (zoneInterval w.heap) =
        (zs++L.spare).map span := by
      rw [← List.map_append,List.map_map]
      refine List.map_congr_left fun p hp => ?_
      obtain ⟨b,z,hz⟩ := hzone p hp
      rw [Function.comp_apply,zoneInterval,pageNo_ptr (K.shape.page_lt hz),hrole p _ hz,
        K.setup.zonePageCnt]
      rfl
    have hwholes : w.blocks.filterMap (Block.whole w.heap) =
        ((w.blocks.filterMap (Block.whole w.heap)).map Prod.fst).map span := by
      rw [List.map_map]
      refine (List.map_id _).symm.trans (List.map_congr_left fun x hx => ?_)
      obtain ⟨r,hr,-,hx⟩ := D.mem_wholes.mp hx
      rw [Function.comp_apply,hrole _ r hr,hx,id_eq]
    have htable : usageInterval w.heap = span c.table := by
      rw [hrole _ _ ((K.table c.table).mpr rfl),K.setup.usageInterval]
      rfl
    have hperm := (D.first_pages T hzs hnodup).map span
    rw [← hblocks,List.map_cons,List.map_append,← htable,← hzones,← hwholes] at hperm
    rw [K.setup.pageNo_heapStart,K.setup.pageCount]
    exact (cells_perm (hperm.symm.append_left xs)).trans hp.exact

end inventory

end CosKernel.HeapBlocks

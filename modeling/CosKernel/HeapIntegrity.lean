import CosKernel.HeapInventory

/-!
# The integrity of blocks

Whatever the clients do, their blocks lie in the heap, have the requested length and are
disjoint, also from everything that the allocators keep in the same memory.
-/
namespace CosKernel.HeapBlocks
open SlabHeap Heap PageAllocator LinkedChain IntervalFreeList BlockMaps TransitionRuns

/-- The `m` bytes from `a` on and the `n` bytes from `b` on have none in common. -/
def Apart (a m b n : ℕ) : Prop := a+m ≤ b ∨ b+n ≤ a

/-- The bytes of the block are apart from the `n` bytes from `a` on. -/
def Block.Avoids (h : SlabHeap) (b : Block) (a n : ℕ) : Prop :=
  HeapBlocks.Apart b.addr.toNat (b.length h) a n

/-- The block is apart from `memusage`, from the headers and free chunks of all zones, and from
the free pages. -/
structure Block.Private (h : SlabHeap) (free : List Interval) (zones : List Word) (b : Block) :
    Prop where
  usage : b.Avoids h h.memusage.toNat (pageCount h*4)
  header : ∀ z ∈ zones, b.Avoids h z.toNat SIZEOF_SLAB_ZONE.toNat
  chunks : ∀ z ∈ zones, ∃ xs, FreeChunks h z xs ∧
    ∀ x ∈ xs, b.Avoids h x.toNat (h.zone z .chunksize).toNat
  pages : ∀ x ∈ free, b.Avoids h (x.1*4096) (x.2*4096)

/-- The blocks of the clients are intact. -/
structure Intact (w : World) : Prop where
  inside : ∀ b ∈ w.blocks, w.heap.heapStart.toNat ≤ b.addr.toNat ∧
    b.addr.toNat+b.length w.heap ≤ w.heap.heapEnd.toNat
  long : ∀ b ∈ w.blocks, b.request ≤ b.length w.heap
  disjoint : w.blocks.Pairwise fun b b' => b.Avoids w.heap b'.addr.toNat (b'.length w.heap)
  separate : ∃ free zones lists spare, Inventory w free zones lists spare ∧
    ∀ b ∈ w.blocks, b.Private w.heap free (zones++spare)

variable {c : Config}

section apart

variable {L : Layout c} {p q : ℕ} {r s : Role c} {e : Holding}

/-- Blocks of pages are apart. -/
theorem Shape.blocks_apart (S : Shape L) (hr : L.role p = some r) (hs : L.role q = some s)
    (hpq : p ≠ q) : p+r.span ≤ q ∨ q+s.span ≤ p := by
  by_contra hover
  have h₁ := S.bounds hr
  have h₂ := S.bounds hs
  exact hpq (S.unique (i := max p q) ⟨r,hr,by omega,by omega⟩ ⟨s,hs,by omega,by omega⟩)

/-- What is held of one block is apart from the pages of another one. -/
theorem Shape.apart_other (S : Shape L) (hr : L.role p = some r) (hg : r.Gives p e)
    (hs : L.role q = some s) (hpq : p ≠ q) {a n : ℕ} (ha : q*4096 ≤ a)
    (hn : a+n ≤ (q+s.span)*4096) : Apart e.start e.length a n := by
  have hinside := S.gives_inside hr hg
  unfold Apart
  rcases S.blocks_apart hr hs hpq with h | h
  · left
    exact le_trans hinside.2.1 (le_trans (Nat.mul_le_mul_right 4096 h) ha)
  · right
    exact le_trans hn (le_trans (Nat.mul_le_mul_right 4096 h) hinside.1)

/-- What is held is apart from the headers of zones. -/
theorem Shape.apart_header {b : Bool} {z : Zone c} (S : Shape L) (hr : L.role p = some r)
    (hg : r.Gives p e) (hz : L.role q = some (.zone b z)) :
    Apart e.start e.length (q*4096) 36 := by
  by_cases hpq : p = q
  · subst hpq
    rw [hr] at hz
    cases hz
    match b,e,hg with
    | true,.bytes a n,⟨k,_,ha,_⟩ =>
        right
        rw [Holding.start,ha]
        exact z.chunkAt_start
  · have hpages := c.zonePages_bounds
    refine S.apart_other hr hg hz hpq (le_refl _) ?_
    rw [Role.span,Nat.add_mul]
    omega

/-- What is held is apart from the chunks of zones that are not live. -/
theorem Shape.apart_chunk {b : Bool} {z : Zone c} {k : ℕ} (S : Shape L) (hr : L.role p = some r)
    (hg : r.Gives p e) (hz : L.role q = some (.zone b z)) (hk : k < z.total) (hnot : k ∉ z.live) :
    Apart e.start e.length (z.chunkAt q k) z.size := by
  by_cases hpq : p = q
  · subst hpq
    rw [hr] at hz
    cases hz
    match b,e,hg with
    | true,.bytes a n,⟨l,hl,ha,hn⟩ =>
        rw [Holding.start,Holding.length,ha,hn]
        refine z.chunkAt_apart ?_
        rintro rfl
        exact hnot hl
  · refine S.apart_other hr hg hz hpq ?_ (z.chunkAt_end hk)
    exact le_trans (Nat.le_add_right ..) z.chunkAt_start

end apart

section intact

variable {L : Layout c} {w : World} {b : Block}

theorem Describes.avoids (D : Describes L w) (hb : b ∈ w.blocks) {a n : ℕ}
    (h : Apart (b.holding w.heap).start (b.holding w.heap).length a n) : b.Avoids w.heap a n := by
  rw [(D.fits b hb).start,Block.length_holding] at h
  exact h

theorem Describes.isPrivate (D : Describes L w) (hb : b ∈ w.blocks) {xs : List Interval} {zs : List ℕ}
    (hzs : ∀ p ∈ zs, ∃ b z, L.role p = some (.zone b z)) (hpos : ∀ x ∈ xs, 0 < x.2)
    (hfree : ∀ i ∈ cells xs, ∀ q, ¬L.Owns q i) : b.Private w.heap xs (zs.map ptr) := by
  have K := D.kept
  have S := K.shape
  obtain ⟨p,r,hr,hg⟩ := D.block_live hb
  refine ⟨D.avoids hb ?_,fun z hz => ?_,fun z hz => ?_,fun x hx => D.avoids hb ?_⟩
  · have htable := (S.table c.table).mpr rfl
    have hentries := c.entries
    rw [K.setup.memusage,K.setup.pageCount]
    refine S.apart_other hr hg htable ?_ (le_refl _) ?_
    · rintro rfl
      rw [htable] at hr
      cases hr
      exact hg
    · rw [Role.span,Nat.add_mul]
      omega
  · obtain ⟨q,hq,rfl⟩ := List.mem_map.mp hz
    obtain ⟨u,z,hz⟩ := hzs q hq
    rw [toNat_ptr (S.page_lt hz)]
    exact D.avoids hb (S.apart_header hr hg hz)
  · obtain ⟨q,hq,rfl⟩ := List.mem_map.mp hz
    obtain ⟨u,z,hz⟩ := hzs q hq
    refine ⟨_,(K.held hz).freechunk,fun x hx => ?_⟩
    obtain ⟨k,hk,rfl⟩ := List.mem_map.mp hx
    have hlt := z.lt_total (Or.inr hk)
    rw [z.toNat_chunk (S.zone_end hz) hlt,(K.held hz).chunksize]
    exact D.avoids hb (S.apart_chunk hr hg hz hlt fun h => z.not_free_of_live h hk)
  · have hinside := S.gives_inside hr hg
    have hspan := S.bounds hr
    have hx' := hpos x hx
    have hpages : p+r.span ≤ x.1 ∨ x.1+x.2 ≤ p := by
      by_contra hover
      refine hfree (max p x.1) (mem_cells.mpr ⟨x,hx,by omega,by omega⟩) p ⟨r,hr,?_,?_⟩
      · omega
      · omega
    rcases hpages with h | h
    · exact Or.inl (le_trans hinside.2.1 (Nat.mul_le_mul_right 4096 h))
    · right
      rw [← Nat.add_mul]
      exact le_trans (Nat.mul_le_mul_right 4096 h) hinside.1

theorem Describes.intact (D : Describes L w) : Intact w := by
  have K := D.kept
  have S := K.shape
  refine ⟨fun b hb => ?_,fun b hb => (D.fits b hb).request_le,?_,?_⟩
  · have hinside := S.live_inside (D.block_live hb)
    rw [(D.fits b hb).start,Block.length_holding] at hinside
    rw [K.setup.heapStart,K.setup.heapEnd]
    exact hinside
  · refine (List.pairwise_map.mp D.nodup).imp_of_mem fun {b b'} hb hb' hne => ?_
    have hapart := S.live_apart (D.block_live hb) (D.block_live hb') hne
    rw [(D.fits b' hb').start,Block.length_holding (b := b')] at hapart
    exact D.avoids hb hapart
  · obtain ⟨zs,hnodup,hzs⟩ := K.exists_zones
    obtain ⟨xs,hinv,hpos,hfree⟩ := D.inventory hnodup hzs
    refine ⟨xs,_,_,_,hinv,fun b hb => ?_⟩
    rw [← List.map_append]
    refine D.isPrivate hb (fun p hp => ?_) hpos hfree
    rcases List.mem_append.mp hp with hp | hp
    · exact ⟨true,(hzs p).mp hp⟩
    · exact ⟨false,(K.spare.mem p).mp hp⟩

end intact

/-- From `system_heap_init` on, in every run of the allocators no call fails an assertion, and the
blocks of the clients are inside the heap, long enough and disjoint, also from the array
`memusage`, the headers and free chunks of zones, and the free pages. -/
theorem heap_blocks_intact {fuel : ℕ} {down : Bool} {w : World} (H : Accepted fuel down w)
    (cs : List Call) (hlegal : AllSteps (step fuel down) Legal w cs) :
    Always (step fuel down) Intact w cs := by
  refine H.always (fun w' hw => ?_) hlegal
  obtain ⟨c,L,-,D⟩ := hw
  exact D.intact

/-- A chunk, a large block and pages are allocated, and a cleared chunk of another size. The first
chunk is written to and moves to a large block, and blocks of each kind are freed. -/
def mixedCalls : List Call :=
  [.kmalloc 100,.kmalloc 9000,.page_alloc 2,.kcalloc 3 10,.write 0x101028 7,.krealloc 0x101028 9000,
    .kfree 0x109000,.page_free 0x10c000 2,.kmalloc 17]

theorem heap_blocks_intact_mixedCalls :
    ((mixedCalls.foldlM (step 50 true) ⟨smallHeap,[]⟩).map fun w =>
      (w.blocks,w.blocks.map (Block.length w.heap))) =
      some ([.bytes 0x119028 17,.bytes 0x116000 9000,.bytes 0x10e040 30],[24,12288,32]) ∧
    Always (step 50 true) Intact ⟨smallHeap,[]⟩ mixedCalls := by
  refine ⟨by decide +kernel,?_⟩
  apply heap_blocks_intact accepted_smallHeap
  decide +kernel

end CosKernel.HeapBlocks

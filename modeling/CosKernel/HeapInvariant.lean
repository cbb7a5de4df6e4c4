import CosKernel.HeapLayout

/-!
# What the memory records of the layout

The header of a zone counts its free chunks and links them, the entries of `memusage` lead
from the pages of a zone to its header, and the zones with free chunks are linked in
`zone_array`. `Kept` states this for the whole heap. A change of one block, and of the words
that belong to it, leaves the records of all other blocks alone.
-/
namespace CosKernel.HeapBlocks
open SlabHeap PageAllocator LinkedChain IntervalFreeList BlockMaps

variable {c : Config}

/-- Null is no pointer. -/
def pointer (w : Word) : Option Word := if w = 0 then none else some w

theorem pointer_eq_none {w : Word} : pointer w = none ↔ w = 0 := by
  simp [pointer]

theorem pointer_eq_some {w x : Word} : pointer w = some x ↔ w = x ∧ x ≠ 0 := by
  unfold pointer
  split_ifs with h
  · simp only [false_iff,not_and,not_not]
    rintro rfl
    exact h
  · simp only [Option.some.injEq,iff_self_and]
    rintro rfl
    exact h

theorem pointer_of_ne {w : Word} (h : w ≠ 0) : pointer w = some w := if_neg h

/-- The link from a zone to the next one, and from a free chunk to the next one. -/
def nextZone (h : SlabHeap) (x : Word) : Option Word := pointer (h.zone x .next)

def nextChunk (h : SlabHeap) (x : Word) : Option Word := pointer (h.mem x)

/-- The entry of `memusage` at `x`. -/
structure Usage (h : SlabHeap) (x type : Word) (size : ℕ) : Prop where
  type : usageType (h.mem x) = type
  size : (usageSize (h.mem x)).toNat = size

/-- The header of a zone, except for the fields `z_magic` and `z_next`. -/
structure Held (h : SlabHeap) (p : ℕ) (z : Zone c) : Prop where
  nfree : (h.zone (ptr p) .nfree).toNat = z.total-z.live.length
  nmax : (h.zone (ptr p) .nmax).toNat = z.total
  baseptr : h.zone (ptr p) .baseptr = z.chunk p 0
  uindex : (h.zone (ptr p) .uindex).toNat+1 = z.live.length+z.free.length
  chunksize : (h.zone (ptr p) .chunksize).toNat = z.size
  zoneindex : (h.zone (ptr p) .zoneindex).toNat = z.index
  freechunk : Chain (nextChunk h) (pointer (h.zone (ptr p) .freechunk)) (z.free.map (z.chunk p))

structure ZoneRecord (h : SlabHeap) (p : ℕ) (inUse : Bool) (z : Zone c) : Prop where
  held : Held h p z
  usage : ∀ j, j < c.zonePages → Usage h (c.entry (p+j)) PAGE_TYPE_SMALL j
  magic : inUse = true → h.zone (ptr p) .magic = ZALLOC_SLAB_MAGIC
  empty : inUse = false → z.live = []

/-- What the memory records of a block. -/
def Recorded (h : SlabHeap) (p : ℕ) : Role c → Prop
  | .zone inUse z => ZoneRecord h p inUse z
  | .large n => Usage h (c.entry p) PAGE_TYPE_LARGE n
  | .table => True
  | .pages _ => True

/-- The words that record a block. The links between zones do not belong to one zone. -/
def Reads (p : ℕ) : Role c → Word → Prop
  | .zone _ z,x => (∃ f : ZoneField, f ≠ .next ∧ x = ptr p+f.offset) ∨ (∃ k ∈ z.free, x = z.chunk p k) ∨
      ∃ j < c.zonePages, x = c.entry (p+j)
  | .large _,x => x = c.entry p
  | .table,_ => False
  | .pages _,_ => False

/-- The list of `zone_array[i]`: the zones in use with free chunks. -/
structure ListKept (L : Layout c) (h : SlabHeap) (i : Fin NZONES) : Prop where
  chain : Chain (nextZone h) (pointer (h.zoneArray i)) ((L.lists i).map ptr)
  nodup : (L.lists i).Nodup
  mem : ∀ p, p ∈ L.lists i ↔ L.Ready i p

/-- The list `zone_free`. -/
structure SpareKept (L : Layout c) (h : SlabHeap) : Prop where
  chain : Chain (nextZone h) (pointer h.zoneFree) (L.spare.map ptr)
  nodup : L.spare.Nodup
  mem : ∀ p, p ∈ L.spare ↔ ∃ z, L.role p = some (.zone false z)
  count : h.zoneFreeCnt.toNat = L.spare.length
  bound : L.spare.length ≤ 2

/-- The variables that only `system_heap_init` sets. -/
structure Setup (c : Config) (h : SlabHeap) : Prop where
  heapStart : h.heapStart.toNat = c.base*4096
  heapEnd : h.heapEnd.toNat = (c.base+c.count)*4096
  memusage : h.memusage.toNat = c.table*4096
  zoneSize : h.zoneSize.toNat = c.zonePages*4096
  zoneLimit : h.zoneLimit.toNat = c.limit
  zonePageCnt : h.zonePageCnt.toNat = c.zonePages

/-- The free pages and the blocks make up the heap. -/
def Divided (L : Layout c) (h : SlabHeap) : Prop :=
  ∃ blocks xs, Partitioned c.base c.count h blocks xs ∧ Tiles Role.span L.role blocks

/-- The memory is laid out as `L` says. -/
structure Kept (L : Layout c) (h : SlabHeap) : Prop where
  setup : Setup c h
  divided : Divided L h
  table : ∀ p, L.role p = some .table ↔ p = c.table
  records : ∀ p r, L.role p = some r → Recorded h p r
  lists : ∀ i, ListKept L h i
  spare : SpareKept L h

/-- The variables of `Setup`. -/
def statics (h : SlabHeap) : Word × Word × Word × Word × Word × Word :=
  (h.heapStart,h.heapEnd,h.memusage,h.zoneSize,h.zoneLimit,h.zonePageCnt)

section frames

variable {L L' : Layout c} {h h' : SlabHeap} {p q : ℕ} {z : Zone c} {r s : Role c} {x : Word}
variable {i : Fin NZONES}

theorem Setup.frame (H : Setup c h) (hs : statics h' = statics h) : Setup c h' := by
  simp only [statics,Prod.mk.injEq] at hs
  obtain ⟨h₁,h₂,h₃,h₄,h₅,h₆⟩ := hs
  constructor
  · rw [h₁]
    exact H.heapStart
  · rw [h₂]
    exact H.heapEnd
  · rw [h₃]
    exact H.memusage
  · rw [h₄]
    exact H.zoneSize
  · rw [h₅]
    exact H.zoneLimit
  · rw [h₆]
    exact H.zonePageCnt

theorem Usage.frame {type : Word} {size : ℕ} (H : Usage h x type size) (hx : h'.mem x = h.mem x) :
    Usage h' x type size := by
  constructor
  · rw [hx]
    exact H.type
  · rw [hx]
    exact H.size

/-- Chunks of the zone have been given out or come back: the fields that neither count nor link
chunks are as before. -/
theorem Held.change {z' : Zone c} (H : Held h p z) (hindex : z'.index = z.index)
    (hfield : ∀ f, f ≠ .magic → f ≠ .next → f ≠ .nfree → f ≠ .uindex → f ≠ .freechunk →
      h'.zone (ptr p) f = h.zone (ptr p) f)
    (hnfree : (h'.zone (ptr p) .nfree).toNat = z'.total-z'.live.length)
    (huindex : (h'.zone (ptr p) .uindex).toNat+1 = z'.live.length+z'.free.length)
    (hfreechunk : Chain (nextChunk h') (pointer (h'.zone (ptr p) .freechunk))
      (z'.free.map (z'.chunk p))) : Held h' p z' := by
  refine ⟨hnfree,?_,?_,huindex,?_,?_,hfreechunk⟩
  · rw [hfield .nmax (by decide) (by decide) (by decide) (by decide) (by decide),Zone.total,hindex]
    exact H.nmax
  · rw [hfield .baseptr (by decide) (by decide) (by decide) (by decide) (by decide),Zone.chunk,
      Zone.chunkAt,hindex]
    exact H.baseptr
  · rw [hfield .chunksize (by decide) (by decide) (by decide) (by decide) (by decide),Zone.size,hindex]
    exact H.chunksize
  · rw [hfield .zoneindex (by decide) (by decide) (by decide) (by decide) (by decide),hindex]
    exact H.zoneindex

theorem Held.frame (H : Held h p z)
    (hfield : ∀ f, f ≠ .magic → f ≠ .next → h'.zone (ptr p) f = h.zone (ptr p) f)
    (hchunk : ∀ k ∈ z.free, h'.mem (z.chunk p k) = h.mem (z.chunk p k)) : Held h' p z := by
  refine H.change rfl (fun f hmagic hnext _ _ _ => hfield f hmagic hnext) ?_ ?_ ?_
  · rw [hfield .nfree (by decide) (by decide)]
    exact H.nfree
  · rw [hfield .uindex (by decide) (by decide)]
    exact H.uindex
  · rw [hfield .freechunk (by decide) (by decide)]
    refine H.freechunk.congr fun x hx => ?_
    obtain ⟨k,hk,rfl⟩ := List.mem_map.mp hx
    rw [nextChunk,hchunk k hk,nextChunk]

theorem Recorded.frame (H : Recorded h p r) (hread : ∀ x, Reads p r x → h'.mem x = h.mem x) :
    Recorded h' p r := by
  cases r with
  | table => trivial
  | zone inUse z =>
      have hfield : ∀ f, f ≠ .next → h'.zone (ptr p) f = h.zone (ptr p) f :=
        fun f hf => hread _ (Or.inl ⟨f,hf,rfl⟩)
      constructor
      · exact H.held.frame (fun f _ => hfield f) fun k hk => hread _ (Or.inr (Or.inl ⟨k,hk,rfl⟩))
      · exact fun j hj => (H.usage j hj).frame (hread _ (Or.inr (Or.inr ⟨j,hj,rfl⟩)))
      · intro hu
        rw [hfield .magic (by decide)]
        exact H.magic hu
      · exact H.empty
  | large n => exact Usage.frame H (hread _ rfl)
  | pages n => trivial

/-- The list of `zone_array[i]` after a change of the block at `p`. -/
theorem ListKept.change (G : ListKept L h i) (hrole : ∀ q, q ≠ p → L'.role q = L.role q)
    (hchain : Chain (nextZone h') (pointer (h'.zoneArray i)) ((L'.lists i).map ptr))
    (hnodup : (L'.lists i).Nodup) (hother : ∀ q, q ≠ p → (q ∈ L'.lists i ↔ q ∈ L.lists i))
    (hself : p ∈ L'.lists i ↔ L'.Ready i p) : ListKept L' h' i := by
  refine ⟨hchain,hnodup,fun q => ?_⟩
  by_cases hq : q = p
  · rw [hq]
    exact hself
  · rw [hother q hq,G.mem q]
    unfold Layout.Ready
    rw [hrole q hq]

/-- A list to which the block at `p` does not belong is not affected by its change. -/
theorem ListKept.keep (G : ListKept L h i) (hrole : ∀ q, q ≠ p → L'.role q = L.role q)
    (hlist : L'.lists i = L.lists i) (hp : p ∉ L.lists i) (hnew : ¬L'.Ready i p)
    (harray : h'.zoneArray i = h.zoneArray i)
    (hnext : ∀ q ∈ L.lists i, h'.zone (ptr q) .next = h.zone (ptr q) .next) :
    ListKept L' h' i := by
  have hnot : p ∉ L'.lists i := by
    rw [hlist]
    exact hp
  refine G.change hrole ?_ ?_ ?_ ⟨fun h => (hnot h).elim,fun h => (hnew h).elim⟩
  · rw [hlist,harray]
    refine G.chain.congr fun x hx => ?_
    obtain ⟨q,hq,rfl⟩ := List.mem_map.mp hx
    rw [nextZone,hnext q hq,nextZone]
  · rw [hlist]
    exact G.nodup
  · intro q _
    rw [hlist]

/-- The zone at `p` enters the list. -/
theorem ListKept.push (G : ListKept L h i) (hrole : ∀ q, q ≠ p → L'.role q = L.role q)
    (hlist : L'.lists i = p::L.lists i) (hp : p ∉ L.lists i) (hready : L'.Ready i p)
    (hne : ptr p ≠ 0) (harray : h'.zoneArray i = ptr p)
    (hlink : h'.zone (ptr p) .next = h.zoneArray i)
    (hnext : ∀ q ∈ L.lists i, h'.zone (ptr q) .next = h.zone (ptr q) .next) :
    ListKept L' h' i := by
  refine G.change hrole ?_ ?_ ?_ ?_
  · rw [hlist,harray]
    refine ⟨pointer_of_ne hne,?_⟩
    rw [nextZone,hlink]
    refine G.chain.congr fun x hx => ?_
    obtain ⟨q,hq,rfl⟩ := List.mem_map.mp hx
    rw [nextZone,hnext q hq,nextZone]
  · rw [hlist]
    exact List.nodup_cons.mpr ⟨hp,G.nodup⟩
  · intro q hq
    rw [hlist,List.mem_cons]
    simp only [hq,false_or]
  · rw [hlist]
    simp only [List.mem_cons_self,hready]

theorem SpareKept.keep (G : SpareKept L h) (hrole : ∀ q, q ≠ p → L'.role q = L.role q)
    (hspare : L'.spare = L.spare) (hp : p ∉ L.spare) (hnew : ∀ z, L'.role p ≠ some (.zone false z))
    (hfree : h'.zoneFree = h.zoneFree) (hcount : h'.zoneFreeCnt = h.zoneFreeCnt)
    (hnext : ∀ q ∈ L.spare, h'.zone (ptr q) .next = h.zone (ptr q) .next) : SpareKept L' h' := by
  refine ⟨?_,?_,fun q => ?_,?_,?_⟩
  · rw [hspare,hfree]
    refine G.chain.congr fun x hx => ?_
    obtain ⟨q,hq,rfl⟩ := List.mem_map.mp hx
    rw [nextZone,hnext q hq,nextZone]
  · rw [hspare]
    exact G.nodup
  · rw [hspare]
    by_cases hq : q = p
    · rw [hq]
      exact ⟨fun h => (hp h).elim,fun ⟨z,hz⟩ => (hnew z hz).elim⟩
    · rw [hrole q hq]
      exact G.mem q
  · rw [hspare,hcount]
    exact G.count
  · rw [hspare]
    exact G.bound

end frames

namespace Kept

variable {L L' : Layout c} {h h' : SlabHeap} {p q : ℕ} {z : Zone c} {r s : Role c} {x : Word}
variable {i : Fin NZONES} {b : Bool}

theorem shape (K : Kept L h) : Shape L := by
  obtain ⟨blocks,xs,hp,hT⟩ := K.divided
  refine ⟨⟨blocks,hT⟩,fun p r hr => ?_,K.table⟩
  exact hp.block_end (Or.inr (hT.block hr)) (hT.positive p r hr)

theorem record (K : Kept L h) (hz : L.role p = some (.zone b z)) : ZoneRecord h p b z :=
  K.records p _ hz

theorem held (K : Kept L h) (hz : L.role p = some (.zone b z)) : Held h p z := (K.record hz).held

/-- The block at `p` and the list with index `i` change; the other lists stay. -/
theorem lists_of (K : Kept L h) (hi : ListKept L' h' i)
    (hrole : ∀ q, q ≠ p → L'.role q = L.role q) (hlists : ∀ j, j ≠ i → L'.lists j = L.lists j)
    (hold : ∀ j, j ≠ i → ¬L.Ready j p) (hnew : ∀ j, j ≠ i → ¬L'.Ready j p)
    (harray : ∀ j, j ≠ i → h'.zoneArray j = h.zoneArray j)
    (hnext : ∀ q b z, L.role q = some (.zone b z) → q ≠ p → q ∉ L.lists i →
      h'.zone (ptr q) .next = h.zone (ptr q) .next) (j : Fin NZONES) : ListKept L' h' j := by
  by_cases hj : j = i
  · rw [hj]
    exact hi
  · have hp : p ∉ L.lists j := fun h => hold j hj (((K.lists j).mem p).mp h)
    refine (K.lists j).keep hrole (hlists j hj) hp (hnew j hj) (harray j hj) fun q hq => ?_
    obtain ⟨z,hz,hindex,-⟩ := ((K.lists j).mem q).mp hq
    refine hnext q true z hz ?_ fun hqi => ?_
    · rintro rfl
      exact hp hq
    · obtain ⟨z',hz',hindex',-⟩ := ((K.lists i).mem q).mp hqi
      rw [hz] at hz'
      cases hz'
      exact hj (hindex.symm.trans hindex')

/-- The block at `p` and the list with index `i` change, but no zone of `zone_free`. -/
theorem spare_of (K : Kept L h) (hrole : ∀ q, q ≠ p → L'.role q = L.role q)
    (hspare : L'.spare = L.spare) (hold : ∀ z, L.role p ≠ some (.zone false z))
    (hnew : ∀ z, L'.role p ≠ some (.zone false z)) (hfree : h'.zoneFree = h.zoneFree)
    (hcount : h'.zoneFreeCnt = h.zoneFreeCnt)
    (hnext : ∀ q b z, L.role q = some (.zone b z) → q ≠ p → q ∉ L.lists i →
      h'.zone (ptr q) .next = h.zone (ptr q) .next) : SpareKept L' h' := by
  have hp : p ∉ L.spare := fun h => by
    obtain ⟨z,hz⟩ := (K.spare.mem p).mp h
    exact hold z hz
  refine K.spare.keep hrole hspare hp hnew hfree hcount fun q hq => ?_
  obtain ⟨z,hz⟩ := (K.spare.mem q).mp hq
  refine hnext q false z hz ?_ fun hqi => ?_
  · rintro rfl
    exact hp hq
  · obtain ⟨z',hz',-⟩ := ((K.lists i).mem q).mp hqi
    rw [hz] at hz'
    cases hz'

end Kept

/-- The word at `x` lies in a page of no other block than that at `p`, it is an entry of
`memusage` for such a page, or it links a zone to another one. -/
def Near (L : Layout c) (p : ℕ) (x : Word) : Prop :=
  (∀ q, L.Owns q (pageNo x) → q = p) ∨
  (∃ i, c.base ≤ i ∧ i < c.base+c.count ∧ (∀ q, L.Owns q i → q = p) ∧ x = c.entry i) ∨
  ∃ q b z, L.role q = some (.zone b z) ∧ x = ptr q+ZoneField.next.offset

section near

variable {L : Layout c} (S : Shape L) {p q : ℕ} {r : Role c} {x : Word}

include S

/-- The records of other blocks are elsewhere. -/
theorem Shape.reads_not_near (hp : p ≠ c.table) (hq : q ≠ p) (hr : L.role q = some r)
    (hx : Reads q r x) : ¬Near L p x := by
  -- an entry of a page of block `q`
  have hentry : ∀ i, L.Owns q i → ¬Near L p (c.entry i) := by
    intro i hi hn
    have hin := S.owns_inside hi
    have howner := S.owns_entry hin.2
    rcases hn with hn | ⟨j,hj,hj',hn,heq⟩ | ⟨q',b',z',hz',heq⟩
    · exact hp (hn c.table howner).symm
    · obtain rfl := S.entry_inj hin ⟨hj,hj'⟩ heq
      exact hq (hn q hi)
    · have hfield := S.owns_field hz' .next
      rw [← heq] at hfield
      exact S.table_ne_zone hz' hfield howner
  cases r with
  | table => exact hx.elim
  | pages n => exact hx.elim
  | large n =>
      obtain rfl : x = c.entry q := hx
      exact hentry q ⟨_,hr,le_refl q,by have := S.bounds hr; omega⟩
  | zone b z =>
      -- a word of the zone that is not the link
      have hword : ∀ y, L.Owns q (pageNo y) → y ≠ ptr q+ZoneField.next.offset → ¬Near L p y := by
        intro y hy hne hn
        rcases hn with hn | ⟨j,hj,hj',hn,heq⟩ | ⟨q',b',z',hz',heq⟩
        · exact hq (hn q hy)
        · have howner := S.owns_entry hj'
          rw [← heq] at howner
          exact S.table_ne_zone hr hy howner
        · have hfield := S.owns_field hz' .next
          rw [← heq] at hfield
          rw [S.unique hy hfield] at hne
          exact hne heq
      rcases hx with ⟨f,hf,rfl⟩ | ⟨k,hk,rfl⟩ | ⟨j,hj,rfl⟩
      · exact hword _ (S.owns_field hr f) fun heq => hf (field_inj.mp heq)
      · have hlt := z.lt_total (Or.inr hk)
        exact hword _ (S.owns_chunk hr hlt) (z.chunk_ne_field (S.zone_end hr) hlt _)
      · exact hentry _ ⟨_,hr,by omega,by rw [Role.span]; omega⟩

end near

section changes

variable {L L' : Layout c} {h h' : SlabHeap} {p q : ℕ} {r : Role c} {x : Word}

/-- The block at `p` changes, and with it only words near to it. -/
theorem Kept.change (K : Kept L h) (hp : p ≠ c.table) (hrole : ∀ q, q ≠ p → L'.role q = L.role q)
    (hnew : ∀ r, L'.role p = some r → r ≠ .table ∧ Recorded h' p r)
    (hmem : ∀ x, ¬Near L p x → h'.mem x = h.mem x) (hstatics : statics h' = statics h)
    (hdivided : Divided L' h') (hlists : ∀ i, ListKept L' h' i) (hspare : SpareKept L' h') :
    Kept L' h' := by
  refine ⟨K.setup.frame hstatics,hdivided,fun q => ?_,fun q r hr => ?_,hlists,hspare⟩
  · by_cases hq : q = p
    · rw [hq]
      exact ⟨fun h => ((hnew _ h).1 rfl).elim,fun h => (hp h).elim⟩
    · rw [hrole q hq]
      exact K.table q
  · by_cases hq : q = p
    · rw [hq] at hr ⊢
      exact (hnew r hr).2
    · rw [hrole q hq] at hr
      refine (K.records q r hr).frame fun x hx => hmem x ?_
      exact K.shape.reads_not_near hp hq hr hx

/-- A change of a block that is no zone leaves all lists alone. -/
theorem Kept.lists_aside (K : Kept L h) (hold : ∀ b z, L.role p ≠ some (.zone b z))
    (hnew : ∀ b z, L'.role p ≠ some (.zone b z)) (hrole : ∀ q, q ≠ p → L'.role q = L.role q)
    (hlists : L'.lists = L.lists) (hspare : L'.spare = L.spare) (harray : h'.zoneArray = h.zoneArray)
    (hfree : h'.zoneFree = h.zoneFree) (hcount : h'.zoneFreeCnt = h.zoneFreeCnt)
    (hnext : ∀ q b z, L.role q = some (.zone b z) → h'.zone (ptr q) .next = h.zone (ptr q) .next) :
    (∀ i, ListKept L' h' i) ∧ SpareKept L' h' := by
  constructor
  · intro i
    refine (K.lists i).keep hrole (by rw [hlists]) ?_ (Layout.not_ready (hnew true)) (by rw [harray]) ?_
    · rw [(K.lists i).mem]
      exact Layout.not_ready (hold true)
    · intro q hq
      obtain ⟨z,hz,-⟩ := ((K.lists i).mem q).mp hq
      exact hnext q true z hz
  · refine K.spare.keep hrole hspare ?_ (hnew false) hfree hcount ?_
    · rw [K.spare.mem]
      exact fun ⟨z,hz⟩ => hold false z hz
    · intro q hq
      obtain ⟨z,hz⟩ := (K.spare.mem q).mp hq
      exact hnext q false z hz

/-- The words of the block at `p`, its entries of `memusage`, and the links between zones. -/
def Touched (L : Layout c) (p : ℕ) (x : Word) : Prop :=
  L.Owns p (pageNo x) ∨ (∃ i, L.Owns p i ∧ x = c.entry i) ∨
  ∃ q b z, L.role q = some (.zone b z) ∧ x = ptr q+ZoneField.next.offset

theorem Shape.near_of_touched (S : Shape L) (hx : Touched L p x) : Near L p x := by
  rcases hx with hx | ⟨i,hi,rfl⟩ | hx
  · exact Or.inl fun q hq => S.unique hq hx
  · have hin := S.owns_inside hi
    exact Or.inr (Or.inl ⟨i,hin.1,hin.2,fun q hq => S.unique hq hi,rfl⟩)
  · exact Or.inr (Or.inr hx)

theorem Shape.owned_of_touched (S : Shape L) (hx : Touched L p x) : ∃ q, L.Owns q (pageNo x) := by
  rcases hx with hx | ⟨i,hi,rfl⟩ | ⟨q,b,z,hz,rfl⟩
  · exact ⟨p,hx⟩
  · exact ⟨c.table,S.owns_entry (S.owns_inside hi).2⟩
  · exact ⟨q,S.owns_field hz .next⟩

/-- A write to pages in use does not matter to the free pages. -/
theorem Kept.divided_frame (K : Kept L h) (hrole : ∀ blocks, Tiles Role.span L.role blocks →
      Tiles Role.span L'.role blocks)
    (hmem : ∀ x, (∀ q, ¬L.Owns q (pageNo x)) → h'.mem x = h.mem x)
    (hlist : h'.pageList = h.pageList) : Divided L' h' := by
  obtain ⟨blocks,xs,hp,hT⟩ := K.divided
  refine ⟨blocks,xs,hp.frame (fun x hx => hmem x fun q hq => ?_) hlist,hrole blocks hT⟩
  exact hp.disjoint hx (hT.owns_iff.mp ⟨q,hq⟩)

/-- The block at `p` is used for something else, or its contents change. -/
theorem Kept.replace (K : Kept L h) (hr : L.role p = some r) (hnt : r ≠ .table)
    (r' : Role c) (hnt' : r' ≠ .table) (hspan : r'.span = r.span)
    (hrole : L'.role = Function.update L.role p (some r'))
    (hmem : ∀ x, ¬Touched L p x → h'.mem x = h.mem x) (hstatics : statics h' = statics h)
    (hlist : h'.pageList = h.pageList) (hrecorded : Recorded h' p r')
    (hlists : ∀ i, ListKept L' h' i) (hspare : SpareKept L' h') : Kept L' h' := by
  have hp : p ≠ c.table := by
    rintro rfl
    rw [(K.table c.table).mpr rfl] at hr
    cases hr
    exact hnt rfl
  refine K.change hp (fun q hq => ?_) (fun s hs => ?_) (fun x hx => hmem x fun ht => ?_) hstatics ?_
    hlists hspare
  · rw [hrole,Function.update_of_ne hq]
  · rw [hrole,Function.update_self] at hs
    cases hs
    exact ⟨hnt',hrecorded⟩
  · exact hx (K.shape.near_of_touched ht)
  · refine K.divided_frame (fun blocks hT => ?_) (fun x hx => hmem x fun ht => ?_) hlist
    · rw [hrole]
      exact hT.replace hr hspan
    · obtain ⟨q,hq⟩ := K.shape.owned_of_touched ht
      exact hx q hq

/-- Clients write to what they hold. -/
theorem Kept.write (K : Kept L h) (hmem : ∀ x, (∀ e, L.Live e → ¬e.Covers x) → h'.mem x = h.mem x)
    (hrest : {h' with mem := h.mem} = h) : Kept L h' := by
  have S := K.shape
  have hnext : ∀ q b z, L.role q = some (.zone b z) →
      h'.zone (ptr q) .next = h.zone (ptr q) .next :=
    fun q b z hz => hmem _ fun e he => S.header_private hz he .next
  have hstatics : statics h' = statics h := by rw [← hrest]; rfl
  refine ⟨K.setup.frame hstatics,?_,K.table,fun p r hr => ?_,fun i => ?_,?_⟩
  · refine K.divided_frame (fun _ hT => hT) (fun x hx => hmem x fun e he => ?_) (by rw [← hrest])
    exact S.page_private (fun q hq => (hx q hq).elim) he
  · refine (K.records p r hr).frame fun x hx => hmem x fun e he => ?_
    match r,hx with
    | .large n,hx =>
        rw [show x = c.entry p from hx]
        exact S.entry_private (by have := S.inside p _ hr; have := S.bounds hr; omega) he
    | .zone b z,.inl ⟨f,_,hx⟩ =>
        rw [hx]
        exact S.header_private hr he f
    | .zone b z,.inr (.inl ⟨k,hk,hx⟩) =>
        have hlt := z.lt_total (Or.inr hk)
        have hlive : k ∉ z.live := fun hl => z.not_free_of_live hl hk
        have hsize := z.size_bounds
        refine S.chunk_private hr hlt hlive he (show 0 < z.size by omega) ?_
        rw [hx,z.toNat_chunk (S.zone_end hr) hlt,Nat.add_zero]
    | .zone b z,.inr (.inr ⟨j,hj,hx⟩) =>
        have hin := S.inside p _ hr
        rw [hx]
        exact S.entry_private (by rw [Role.span] at hin; omega) he
  · have G := K.lists i
    refine ⟨?_,G.nodup,G.mem⟩
    rw [show h'.zoneArray = h.zoneArray by rw [← hrest]]
    refine G.chain.congr fun x hx => ?_
    obtain ⟨q,hq,rfl⟩ := List.mem_map.mp hx
    obtain ⟨z,hz,-⟩ := (G.mem q).mp hq
    rw [nextZone,hnext q _ z hz,nextZone]
  · have G := K.spare
    refine ⟨?_,G.nodup,G.mem,?_,G.bound⟩
    · rw [show h'.zoneFree = h.zoneFree by rw [← hrest]]
      refine G.chain.congr fun x hx => ?_
      obtain ⟨q,hq,rfl⟩ := List.mem_map.mp hx
      obtain ⟨z,hz⟩ := (G.mem q).mp hq
      rw [nextZone,hnext q _ z hz,nextZone]
    · rw [show h'.zoneFreeCnt = h.zoneFreeCnt by rw [← hrest]]
      exact G.count

end changes

end CosKernel.HeapBlocks

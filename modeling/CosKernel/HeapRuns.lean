import CosKernel.HeapStart

/-!
# Runs of the heap's clients

The clients call the allocators and write to what they hold. Besides the heap a state has the
list of blocks that the clients hold. In every state that a run reaches there is a layout that
describes it: the blocks of the list are what the layout gives, each is at least as long as
requested, and `used_mem` is the sum of their lengths.
-/
namespace CosKernel.HeapBlocks
open SlabHeap Heap PageAllocator LinkedChain IntervalFreeList BlockMaps
open LockedPrograms LockedPrograms.Program TransitionRuns

/-- A block of `kmalloc` with the size that was asked for, or pages. -/
inductive Block where
  | bytes (addr size : Word)
  | pages (addr npages : Word)
  deriving DecidableEq, Repr

/-- The length of a block of `kmalloc`: the pages of a large block, which `memusage` has, or
the chunk size of its zone. -/
def usable (h : SlabHeap) (a : Word) : ℕ :=
  let usage := h.mem (h.btokup (a &&& ~~~CONFIG_MM_PAGE_MASK))
  if usageType usage = PAGE_TYPE_LARGE then (usageSize usage).toNat*4096
  else (h.zone (h.zoneOf a) .chunksize).toNat

/-- What is held of `kmalloc` is counted in `used_mem`, pages are not. -/
def Holding.charge : Holding → ℕ
  | bytes _ n => n
  | pages _ _ => 0

theorem Holding.charge_le (e : Holding) : e.charge ≤ e.length := by
  cases e with
  | bytes a n => exact le_refl _
  | pages p n => exact Nat.zero_le _

namespace Block

def addr : Block → Word
  | bytes a _ => a
  | pages a _ => a

/-- The address, for a block of `kmalloc`. -/
def chunk : Block → Option Word
  | bytes a _ => some a
  | pages _ _ => none

/-- The length that was asked for. -/
def request : Block → ℕ
  | bytes _ n => n.toNat
  | pages _ n => n.toNat*4096

def length (h : SlabHeap) : Block → ℕ
  | bytes a _ => usable h a
  | pages _ n => n.toNat*4096

def holding (h : SlabHeap) : Block → Holding
  | bytes a _ => .bytes a.toNat (usable h a)
  | pages a n => .pages (pageNo a) n.toNat

/-- What a block adds to `used_mem`. -/
def charge (h : SlabHeap) : Block → ℕ
  | bytes a _ => usable h a
  | pages _ _ => 0

/-- A block is as long as requested, and pages begin at the start of a page. -/
def Fits (h : SlabHeap) : Block → Prop
  | bytes a n => n.toNat ≤ usable h a
  | pages a _ => a.toNat = pageNo a*4096

variable {h : SlabHeap} {b : Block}

@[simp] theorem length_holding : (b.holding h).length = b.length h := by
  cases b <;> rfl

theorem Fits.start (hb : b.Fits h) : (b.holding h).start = b.addr.toNat := by
  cases b with
  | bytes a n => rfl
  | pages a n => exact hb.symm

theorem Fits.request_le (hb : b.Fits h) : b.request ≤ b.length h := by
  cases b with
  | bytes a n => exact hb
  | pages a n => exact le_refl _

@[simp] theorem charge_holding : (b.holding h).charge = b.charge h := by
  cases b <;> rfl

end Block

/-- The heap and the blocks that the clients hold. -/
structure World where
  heap : SlabHeap
  blocks : List Block

abbrev Call := Heap.Call

/-- The blocks without the one at `addr`. -/
def without (addr : Word) (blocks : List Block) : List Block :=
  blocks.filter fun b => b.addr ≠ addr

/-- The blocks after a call with the result `r`. -/
def Call.blocks (bs : List Block) (r : Word) : Call → List Block
  | .kmalloc size => if r = 0 then bs else .bytes r size::bs
  | .kcalloc count size => if r = 0 then bs else .bytes r (count*size)::bs
  | .krealloc ptr size =>
      if r ≠ 0 then .bytes r size::without ptr bs
      else if size = 0 then without ptr bs
      else bs
  | .kfree ptr => without ptr bs
  | .page_alloc npages => if r = 0 then bs else .pages r npages::bs
  | .get_zeroed_pages npages => if r = 0 then bs else .pages r npages::bs
  | .page_free addr _ => without addr bs
  | .write _ _ => bs

def step (fuel : ℕ) (down : Bool) (w : World) (call : Call) : Option World :=
  ((call.program fuel down).run w.heap).map fun r => ⟨r.2,call.blocks w.blocks r.1⟩

/-- `ptr` is null or a block of `kmalloc`. -/
def World.Holds (w : World) (ptr : Word) : Prop := ptr = 0 ∨ ∃ b ∈ w.blocks, b.chunk = some ptr

/-- `kfree`, `krealloc` and `page_free` get blocks that are held, the latter with the number of
pages that was asked for. Clients write to words of their blocks. -/
def Legal (w : World) : Call → Prop
  | .krealloc ptr _ => w.Holds ptr
  | .kfree ptr => w.Holds ptr
  | .page_free addr npages => .pages addr npages ∈ w.blocks
  | .write addr _ => addr.toNat%4 = 0 ∧ ∃ b ∈ w.blocks,
      b.addr.toNat ≤ addr.toNat ∧ addr.toNat < b.addr.toNat+b.length w.heap
  | _ => True

variable {c : Config}

/-- The layout `L` describes the heap and what the clients hold. -/
structure Describes (L : Layout c) (w : World) : Prop where
  kept : Kept L w.heap
  tidy : L.Tidy
  live : ∀ e, L.Live e ↔ e ∈ w.blocks.map (Block.holding w.heap)
  nodup : (w.blocks.map (Block.holding w.heap)).Nodup
  fits : ∀ b ∈ w.blocks, b.Fits w.heap
  used : w.heap.usedMem.toNat = (w.blocks.map (Block.charge w.heap)).sum

section lengths

variable {L L' : Layout c} {h h' : SlabHeap} {a : Word} {len : ℕ} {b : Block}

/-- The code finds the length of a block that is held. -/
theorem Kept.usable (K : Kept L h) (hlive : L.Live (.bytes a.toNat len)) : usable h a = len := by
  have S := K.shape
  obtain ⟨p,r,hr,hg⟩ := hlive
  unfold HeapBlocks.usable
  match r,hg with
  | .large m,⟨hp,hlen⟩ =>
      have husage := K.usage_large hr hp
      simp only [husage.type,if_true,husage.size,hlen]
  | .zone true z,⟨k,hk,hp,hlen⟩ =>
      have hpage := z.pageNo_of_chunkAt (S.zone_end hr) (z.lt_total (Or.inl hk)) hp
      have hne : PAGE_TYPE_SMALL ≠ PAGE_TYPE_LARGE := by decide
      simp only [(K.usage_small hr hpage).type,if_neg hne,K.zoneOf hr hpage,
        (K.held hr).chunksize,hlen]

/-- A block that is still held has the same length. -/
theorem Kept.holding_eq (K : Kept L' h') (hlive : L'.Live (b.holding h)) :
    b.holding h' = b.holding h := by
  cases b with
  | bytes a n => rw [Block.holding,K.usable hlive,Block.holding]
  | pages a n => rfl

theorem Block.Fits.of_holding (hb : b.Fits h) (heq : b.holding h' = b.holding h) : b.Fits h' := by
  cases b with
  | bytes a n =>
      simp only [Block.holding,Holding.bytes.injEq,true_and] at heq
      rw [Block.Fits,heq]
      exact hb
  | pages a n => exact hb

end lengths

/-- What the layout gives is listed, each thing once. -/
structure Listing (L : Layout c) (es : List Holding) : Prop where
  mem : ∀ e, L.Live e ↔ e ∈ es
  nodup : es.Nodup

section listings

variable {L L' : Layout c} {es es' : List Holding} {e : Holding}

theorem Listing.perm (H : Listing L es) (hp : es.Perm es') : Listing L es' :=
  ⟨fun e => (H.mem e).trans hp.mem_iff,hp.nodup_iff.mp H.nodup⟩

theorem Listing.cons (H : Listing L es) (A : Adds L L' e) : Listing L' (e::es) := by
  refine ⟨fun e' => ?_,List.nodup_cons.mpr ⟨fun h => A.fresh ((H.mem e).mpr h),H.nodup⟩⟩
  rw [A.live,H.mem,List.mem_cons,or_comm]

theorem Listing.tail (H : Listing L (e::es)) (A : Adds L' L e) : Listing L' es := by
  obtain ⟨hnot,hnodup⟩ := List.nodup_cons.mp H.nodup
  refine ⟨fun e' => ?_,hnodup⟩
  have hlive := (A.live e').symm.trans ((H.mem e').trans List.mem_cons)
  by_cases he : e' = e
  · rw [he]
    exact ⟨fun h => (A.fresh h).elim,fun h => (hnot h).elim⟩
  · simpa only [he,or_false,false_or] using hlive

/-- What is held is not longer than the heap. -/
theorem Listing.total_le (H : Listing L es) (S : Shape L) :
    (es.map Holding.length).sum ≤ c.count*4096 := by
  have hsum : (es.map Holding.length).sum =
      (es.flatMap fun e => List.range' e.start e.length).length := by
    simp only [List.length_flatMap,List.length_range']
  -- the bytes of all blocks, each once
  have hnodup : (es.flatMap fun e => List.range' e.start e.length).Nodup := by
    refine List.nodup_flatMap.mpr ⟨fun e _ => List.nodup_range',?_⟩
    refine List.Pairwise.imp_of_mem (fun {e e'} he he' hne i hi hi' => ?_) H.nodup
    have hapart := S.live_apart ((H.mem e).mpr he) ((H.mem e').mpr he') hne
    rw [List.mem_range'_1] at hi hi'
    omega
  have hin : ∀ i ∈ es.flatMap (fun e => List.range' e.start e.length),
      i ∈ List.range' (c.base*4096) (c.count*4096) := by
    intro i hi
    obtain ⟨e,he,hi⟩ := List.mem_flatMap.mp hi
    have hinside := S.live_inside ((H.mem e).mpr he)
    rw [List.mem_range'_1] at hi ⊢
    rw [← Nat.add_mul]
    exact ⟨le_trans hinside.1 hi.1,lt_of_lt_of_le hi.2 hinside.2⟩
  have hle := (hnodup.subperm hin).length_le
  rw [List.length_range',← hsum] at hle
  exact hle

/-- The count of the memory in use does not overflow. -/
theorem Listing.charge_lt (H : Listing L es) (S : Shape L) : (es.map Holding.charge).sum < 2^32 := by
  have htotal := H.total_le S
  have hend := c.end_lt
  have hle : (es.map Holding.charge).sum ≤ (es.map Holding.length).sum :=
    List.sum_le_sum fun e _ => e.charge_le
  omega

end listings

namespace Describes

variable {L L' : Layout c} {w : World} {h' : SlabHeap} {b b' : Block} {e : Holding}

theorem listing (D : Describes L w) : Listing L (w.blocks.map (Block.holding w.heap)) :=
  ⟨D.live,D.nodup⟩

theorem block_live (D : Describes L w) (hb : b ∈ w.blocks) : L.Live (b.holding w.heap) :=
  (D.live _).mpr (List.mem_map_of_mem hb)

/-- Blocks have different addresses. -/
theorem addr_inj (D : Describes L w) (hb : b ∈ w.blocks) (hb' : b' ∈ w.blocks)
    (heq : b.addr = b'.addr) : b = b' := by
  refine List.inj_on_of_nodup_map D.nodup hb hb' ?_
  by_contra hne
  have S := D.kept.shape
  have hapart := S.live_apart (D.block_live hb) (D.block_live hb') hne
  have h₁ := (D.fits b hb).start
  have h₂ := (D.fits b' hb').start
  have h₃ := S.live_end (D.block_live hb)
  have h₄ := S.live_end (D.block_live hb')
  rw [heq] at h₁
  omega

/-- The blocks are the one at `b.addr` and the others. -/
theorem perm_without (D : Describes L w) (hb : b ∈ w.blocks) :
    w.blocks.Perm (b::without b.addr w.blocks) := by
  have hnodup : w.blocks.Nodup := List.Nodup.of_map _ D.nodup
  have hsame : without b.addr w.blocks = w.blocks.erase b := by
    rw [hnodup.erase_eq_filter]
    refine List.filter_congr fun b' hb' => ?_
    rw [Bool.eq_iff_iff,decide_eq_true_iff,bne_iff_ne]
    exact not_congr ⟨D.addr_inj hb' hb,congrArg Block.addr⟩
  rw [hsame]
  exact List.perm_cons_erase hb

/-- Blocks that are still held are as before. -/
theorem blocks_eq {bs : List Block} {h : SlabHeap} (K : Kept L' h')
    (hlive : ∀ b ∈ bs, L'.Live (b.holding h)) :
    bs.map (Block.holding h') = bs.map (Block.holding h) ∧ ∀ b ∈ bs, b.Fits h → b.Fits h' := by
  have heq : ∀ b ∈ bs, b.holding h' = b.holding h := fun b hb => K.holding_eq (hlive b hb)
  exact ⟨List.map_congr_left heq,fun b hb hf => hf.of_holding (heq b hb)⟩

/-- The memory in use, by what the blocks are. -/
theorem used_eq (D : Describes L w) :
    w.heap.usedMem.toNat = ((w.blocks.map (Block.holding w.heap)).map Holding.charge).sum := by
  rw [D.used,List.map_map]
  simp only [Function.comp_def,Block.charge_holding]

theorem of_listing {bs : List Block} (K : Kept L' h') (T : L'.Tidy)
    (H : Listing L' (bs.map (Block.holding h'))) (hfits : ∀ b ∈ bs, b.Fits h')
    (hused : h'.usedMem.toNat = ((bs.map (Block.holding h')).map Holding.charge).sum) :
    Describes L' ⟨h',bs⟩ := by
  refine ⟨K,T,H.mem,H.nodup,hfits,hused.trans ?_⟩
  rw [List.map_map]
  simp only [Function.comp_def,Block.charge_holding]

/-- The clients get the block `b`. -/
theorem add (D : Describes L w) (K : Kept L' h') (A : Adds L L' e) (T : L'.Tidy)
    (hb : b.holding h' = e) (hf : b.Fits h') {s : Word} (hs : s.toNat = e.charge)
    (hused : h'.usedMem = w.heap.usedMem+s) : Describes L' ⟨h',b::w.blocks⟩ := by
  obtain ⟨hmap,hfits⟩ := blocks_eq K fun b hb => A.sub (D.block_live hb)
  have H := D.listing.cons A
  have hlt := H.charge_lt K.shape
  have hsum := D.used_eq
  rw [List.map_cons,List.sum_cons] at hlt
  refine of_listing K T ?_ (fun b' hb' => ?_) ?_
  · rw [List.map_cons,hb,hmap]
    exact H
  · rcases List.mem_cons.mp hb' with rfl | hb'
    · exact hf
    · exact hfits b' hb' (D.fits b' hb')
  · rw [List.map_cons,hb,hmap,List.map_cons,List.sum_cons,hused,BitVec.toNat_add,
      Nat.mod_eq_of_lt (by omega),hs,hsum,Nat.add_comm]

/-- The clients give the block `b` back. -/
theorem drop (D : Describes L w) (K : Kept L' h') (hb : b ∈ w.blocks)
    (A : Adds L' L (b.holding w.heap)) (T : L'.Tidy) {s : Word}
    (hs : s.toNat = (b.holding w.heap).charge) (hused : h'.usedMem = w.heap.usedMem-s) :
    Describes L' ⟨h',without b.addr w.blocks⟩ := by
  have hperm := D.perm_without hb
  have H := (D.listing.perm (hperm.map _)).tail A
  obtain ⟨hmap,hfits⟩ := blocks_eq K fun b' hb' => (H.mem _).mpr (List.mem_map_of_mem hb')
  have hsum := D.used_eq
  rw [((hperm.map _).map _).sum_eq,List.map_cons,List.map_cons,List.sum_cons] at hsum
  refine of_listing K T ?_ (fun b' hb' => ?_) ?_
  · rw [hmap]
    exact H
  · exact hfits b' hb' (D.fits b' (hperm.mem_iff.mpr (List.mem_cons_of_mem b hb')))
  · rw [hmap,hused,BitVec.toNat_sub_of_le (by rw [BitVec.le_def]; omega)]
    omega

/-- The block `b` is replaced by the block `b'`. -/
theorem move {L₁ : Layout c} (D : Describes L w) (K : Kept L' h') (hb : b ∈ w.blocks)
    (S₁ : Shape L₁) (A : Adds L L₁ e) (A' : Adds L' L₁ (b.holding w.heap)) (T : L'.Tidy)
    (hb' : b'.holding h' = e) (hf : b'.Fits h') {s t : Word} (hs : s.toNat = e.charge)
    (ht : t.toNat = (b.holding w.heap).charge) (hused : h'.usedMem = w.heap.usedMem+s-t) :
    Describes L' ⟨h',b'::without b.addr w.blocks⟩ := by
  have hperm := D.perm_without hb
  have hswap : (e::w.blocks.map (Block.holding w.heap)).Perm
      (b.holding w.heap::e::(without b.addr w.blocks).map (Block.holding w.heap)) :=
    ((hperm.map _).cons e).trans (List.Perm.swap ..)
  have H₁ := D.listing.cons A
  have H := (H₁.perm hswap).tail A'
  obtain ⟨hmap,hfits⟩ := blocks_eq K fun b₁ hb₁ =>
    (H.mem _).mpr (List.mem_cons_of_mem e (List.mem_map_of_mem hb₁))
  have hlt := H₁.charge_lt S₁
  have hsum := D.used_eq
  rw [List.map_cons,List.sum_cons,← hsum] at hlt
  rw [((hperm.map _).map _).sum_eq,List.map_cons,List.map_cons,List.sum_cons] at hsum
  refine of_listing K T ?_ (fun b₁ hb₁ => ?_) ?_
  · rw [List.map_cons,hb',hmap]
    exact H
  · rcases List.mem_cons.mp hb₁ with rfl | hb₁
    · exact hf
    · exact hfits b₁ hb₁ (D.fits b₁ (hperm.mem_iff.mpr (List.mem_cons_of_mem b hb₁)))
  · have hadd : (w.heap.usedMem+s).toNat = w.heap.usedMem.toNat+e.charge := by
      rw [BitVec.toNat_add,Nat.mod_eq_of_lt (by omega),hs]
    rw [List.map_cons,hb',hmap,List.map_cons,List.sum_cons,hused,
      BitVec.toNat_sub_of_le (by rw [BitVec.le_def]; omega)]
    omega

/-- The layout stays, and so do the blocks. -/
theorem keep (D : Describes L w) (K : Kept L h') (hused : h'.usedMem = w.heap.usedMem) :
    Describes L ⟨h',w.blocks⟩ := by
  obtain ⟨hmap,hfits⟩ := blocks_eq K fun b hb => D.block_live hb
  refine of_listing K D.tidy ?_ (fun b hb => hfits b hb (D.fits b hb)) ?_
  · rw [hmap]
    exact D.listing
  · rw [hmap,hused]
    exact D.used_eq

theorem granted {n a : Word} (D : Describes L w) (G : Granted L w.heap n a L' h') (hn : n ≠ 0) :
    Describes L' ⟨h',.bytes a n::w.blocks⟩ := by
  obtain ⟨s,hs,haccount⟩ := G.used
  have hlength := G.kept.usable G.adds.self
  refine D.add G.kept G.adds (G.tidy D.tidy) ?_ ?_ hs (Prod.mk.inj haccount).1
  · rw [Block.holding,hlength]
  · rw [Block.Fits,hlength]
    exact G.fits hn

theorem grantedPages {n a : Word} (D : Describes L w) (G : GrantedPages L w.heap n a L' h') :
    Describes L' ⟨h',.pages a n::w.blocks⟩ := by
  have hzero : w.heap.usedMem = w.heap.usedMem+0 := (BitVec.add_zero _).symm
  exact D.add G.kept G.adds (G.tidy D.tidy) rfl G.aligned rfl
    ((Prod.mk.inj G.used).1.trans hzero)

theorem released {n a : Word} (D : Describes L w) (hb : .bytes a n ∈ w.blocks)
    (R : Released L w.heap a (HeapBlocks.usable w.heap a) L' h') :
    Describes L' ⟨h',without a w.blocks⟩ := by
  obtain ⟨s,hs,haccount⟩ := R.used
  exact D.drop R.kept hb R.adds (R.tidy D.tidy) hs (Prod.mk.inj haccount).1

theorem moved {n m a q : Word} {size : Word} (D : Describes L w) (hb : .bytes a size ∈ w.blocks)
    (hn : n.toNat ≤ m.toNat) (M : Moved L w.heap a (HeapBlocks.usable w.heap a) m q L' h') :
    Describes L' ⟨h',.bytes q n::without a w.blocks⟩ := by
  obtain ⟨L₁,S₁,A,A'⟩ := M.adds
  obtain ⟨s,t,hs,ht,haccount⟩ := M.used
  have hlive : L'.Live (.bytes q.toNat (c.usable m)) := by
    refine ((A'.live _).mp A.self).resolve_right fun heq => A.fresh ?_
    rw [heq]
    exact D.block_live hb
  have hlength := M.kept.usable hlive
  refine D.move M.kept hb S₁ A A' (M.tidy D.tidy) ?_ ?_ hs ht (Prod.mk.inj haccount).1
  · rw [Block.holding,hlength]
  · rw [Block.Fits,hlength]
    exact le_trans hn M.fits

/-- A block is kept for another request that it is long enough for. -/
theorem again {n a size : Word} (D : Describes L w) (hb : .bytes a size ∈ w.blocks)
    (hn : n.toNat ≤ HeapBlocks.usable w.heap a) :
    Describes L ⟨w.heap,.bytes a n::without a w.blocks⟩ := by
  have hperm := D.perm_without hb
  have hsame : (Block.bytes a n::without a w.blocks).map (Block.holding w.heap) =
      (Block.bytes a size::without a w.blocks).map (Block.holding w.heap) := rfl
  refine of_listing D.kept D.tidy ?_ (fun b hb' => ?_) ?_
  · rw [hsame]
    exact D.listing.perm (hperm.map _)
  · rcases List.mem_cons.mp hb' with rfl | hb'
    · exact hn
    · exact D.fits b (hperm.mem_iff.mpr (List.mem_cons_of_mem _ hb'))
  · rw [hsame]
    exact D.used_eq.trans ((hperm.map _).map _).sum_eq

/-- No block is at address zero. -/
theorem without_zero (D : Describes L w) : without 0 w.blocks = w.blocks := by
  refine List.filter_eq_self.mpr fun b hb => ?_
  have hpos := (D.kept.shape.live_end (D.block_live hb)).1
  rw [(D.fits b hb).start] at hpos
  rw [decide_eq_true_iff]
  intro heq
  rw [heq] at hpos
  exact absurd hpos (by decide)

theorem holds {ptr : Word} (hl : w.Holds ptr) (hptr : ptr ≠ 0) : ∃ n, .bytes ptr n ∈ w.blocks := by
  obtain ⟨b,hb,hchunk⟩ := hl.resolve_left hptr
  cases b with
  | bytes a n =>
      cases hchunk
      exact ⟨n,hb⟩
  | pages a n => cases hchunk

variable {fuel : ℕ}

theorem callKfree (D : Describes L w) (hfuel : c.count < fuel) (down : Bool) {ptr : Word}
    (hl : w.Holds ptr) : ∃ h', ∃ L' : Layout c, (Heap.kfree fuel down ptr).run w.heap = some ((),h') ∧
      Describes L' ⟨h',without ptr w.blocks⟩ := by
  by_cases hptr : ptr = 0
  · refine ⟨w.heap,L,by rw [Heap.kfree,if_pos hptr,run_pure],?_⟩
    rw [hptr,D.without_zero]
    exact D
  · obtain ⟨n,hb⟩ := holds hl hptr
    obtain ⟨L',h',hrun,R⟩ := D.kept.kfree hfuel down (D.block_live hb)
    exact ⟨h',L',hrun,D.released hb R⟩

theorem callKrealloc (D : Describes L w) (hfuel : c.count < fuel) (down : Bool) {ptr : Word}
    (hl : w.Holds ptr) (size : Word) :
    ∃ r h', ∃ L' : Layout c, (Heap.krealloc fuel down ptr size).run w.heap = some (r,h') ∧
      Describes L' ⟨h',Call.blocks w.blocks r (.krealloc ptr size)⟩ := by
  by_cases hptr : ptr = 0
  · have hkmalloc : Heap.krealloc fuel down ptr size = Heap.kmalloc fuel down size := if_pos hptr
    rw [hkmalloc]
    rcases D.kept.kmalloc hfuel down size with hrun | ⟨b,L',h',hrun,hb,hn,G⟩
    · refine ⟨0,w.heap,L,hrun,?_⟩
      simp only [Call.blocks,ne_eq,not_true_eq_false,if_false,hptr,D.without_zero,ite_self]
      exact D
    · refine ⟨b,h',L',hrun,?_⟩
      simp only [Call.blocks,if_pos hb,hptr,D.without_zero]
      exact D.granted G hn
  · by_cases hsize : size = 0
    · obtain ⟨h',L',hrun,D'⟩ := D.callKfree hfuel down hl
      refine ⟨0,h',L',?_,?_⟩
      · simp only [Heap.krealloc,if_neg hptr,if_pos hsize,run_bind,hrun,Option.bind_some,run_pure]
      · simp only [Call.blocks,ne_eq,not_true_eq_false,if_false,if_pos hsize]
        exact D'
    · obtain ⟨n,hb⟩ := holds hl hptr
      rcases D.kept.krealloc hfuel down hsize (D.block_live hb) with
        hrun | ⟨hrun,hle⟩ | ⟨m,q,L',h',hrun,hq,hle,M⟩
      · refine ⟨0,w.heap,L,hrun,?_⟩
        simp only [Call.blocks,ne_eq,not_true_eq_false,if_false,if_neg hsize]
        exact D
      · refine ⟨ptr,w.heap,L,hrun,?_⟩
        simp only [Call.blocks,if_pos hptr]
        exact D.again hb hle
      · refine ⟨q,h',L',hrun,?_⟩
        simp only [Call.blocks,if_pos hq]
        exact D.moved hb hle M

/-- Every legal call returns, and its result is described again. -/
theorem call (D : Describes L w) (hfuel : c.count < fuel) (down : Bool) {call : Call}
    (hl : Legal w call) : ∃ r h', ∃ L' : Layout c, (call.program fuel down).run w.heap = some (r,h') ∧
      Describes L' ⟨h',call.blocks w.blocks r⟩ := by
  have K := D.kept
  cases call with
  | kmalloc size =>
      rcases K.kmalloc hfuel down size with hrun | ⟨b,L',h',hrun,hb,hn,G⟩
      · exact ⟨0,w.heap,L,hrun,D⟩
      · refine ⟨b,h',L',hrun,?_⟩
        rw [Call.blocks,if_neg hb]
        exact D.granted G hn
  | kcalloc count size =>
      rcases K.kcalloc hfuel down count size with hrun | ⟨b,L',h',hrun,hb,hn,G,-⟩
      · exact ⟨0,w.heap,L,hrun,D⟩
      · refine ⟨b,h',L',hrun,?_⟩
        rw [Call.blocks,if_neg hb]
        exact D.granted G hn
  | krealloc ptr size => exact D.callKrealloc hfuel down hl size
  | kfree ptr =>
      obtain ⟨h',L',hrun,D'⟩ := D.callKfree hfuel down hl
      refine ⟨0,h',L',?_,D'⟩
      simp only [Call.program,run_bind,hrun,Option.bind_some,run_pure]
  | page_alloc npages =>
      rcases K.grantPages hfuel down npages with hrun | ⟨b,L',h',hrun,hb,G⟩
      · exact ⟨0,w.heap,L,hrun,D⟩
      · refine ⟨b,h',L',hrun,?_⟩
        rw [Call.blocks,if_neg hb]
        exact D.grantedPages G
  | get_zeroed_pages npages =>
      rcases K.get_zeroed_pages hfuel down npages with hrun | ⟨b,L',h',hrun,hb,G⟩
      · exact ⟨0,w.heap,L,hrun,D⟩
      · refine ⟨b,h',L',hrun,?_⟩
        rw [Call.blocks,if_neg hb]
        exact D.grantedPages G
  | page_free addr npages =>
      have hb : .pages addr npages ∈ w.blocks := hl
      obtain ⟨L',h',hrun,K',A,-,T,haccount⟩ :=
        K.returnPages hfuel down (D.block_live hb) (D.fits _ hb)
      refine ⟨0,h',L',?_,?_⟩
      · simp only [Call.program,run_bind,hrun,Option.bind_some,run_pure]
      · have hzero : w.heap.usedMem = w.heap.usedMem-0 := (BitVec.sub_zero _).symm
        exact D.drop K' hb A (T D.tidy) rfl ((Prod.mk.inj haccount).1.trans hzero)
  | write addr value =>
      obtain ⟨-,b,hb,h₁,h₂⟩ := hl
      refine ⟨0,w.heap.set addr value,L,?_,?_⟩
      · simp only [Call.program,run_bind,run_modify,Option.bind_some,run_pure]
      · refine D.keep (K.write (fun x hx => mem_set_of_ne ?_) rfl) rfl
        rintro rfl
        refine hx _ (D.block_live hb) ⟨?_,?_⟩
        · rw [(D.fits b hb).start]
          exact h₁
        · rw [(D.fits b hb).start,Block.length_holding]
          exact h₂

end Describes

/-- The state after `system_heap_init`, which has accepted the heap between two addresses. -/
structure Accepted (fuel : ℕ) (down : Bool) (w : World) : Prop where
  init : ∃ h₀ b e, Fresh h₀ ∧ (system_heap_init fuel down b e).run h₀ = some ((),w.heap) ∧
    (e.toNat-b.toNat)/4096 < fuel
  accepted : w.heap.heapStart < w.heap.heapEnd
  empty : w.blocks = []

/-- Some layout describes the state. -/
def Described (fuel : ℕ) (w : World) : Prop :=
  ∃ (c : Config) (L : Layout c), c.count < fuel ∧ Describes L w

section runs

variable {fuel : ℕ} {down : Bool} {w : World}

theorem Accepted.described (H : Accepted fuel down w) : Described fuel w := by
  obtain ⟨h₀,b,e,F,hrun,hfuel⟩ := H.init
  obtain ⟨c,hcount,K,haccount⟩ := F.init hrun H.accepted hfuel
  obtain ⟨h,bs⟩ := w
  obtain rfl : bs = [] := H.empty
  refine ⟨c,Layout.initial c,hcount,Describes.of_listing K Layout.initial_tidy ⟨fun e => ?_,?_⟩ ?_ ?_⟩
  · exact ⟨fun h => (Layout.initial_not_live e h).elim,nofun⟩
  · exact List.nodup_nil
  · exact nofun
  · rw [(Prod.mk.inj haccount).1]
    rfl

theorem Described.step (H : Described fuel w) (down : Bool) {call : Call} (hl : Legal w call) :
    ∃ w', step fuel down w call = some w' ∧ Described fuel w' := by
  obtain ⟨c,L,hcount,D⟩ := H
  obtain ⟨r,h',L',hrun,D'⟩ := D.call hcount down hl
  refine ⟨_,?_,c,L',hcount,D'⟩
  rw [HeapBlocks.step,hrun,Option.map_some]

/-- What every described state has holds in every run. -/
theorem Accepted.always (H : Accepted fuel down w) {P : World → Prop}
    (hP : ∀ w, Described fuel w → P w) {cs : List Call}
    (hl : AllSteps (HeapBlocks.step fuel down) Legal w cs) :
    Always (HeapBlocks.step fuel down) P w cs :=
  always_of_invariant hP (fun _ _ H hl => H.step down hl) H.described hl

/-- A state that the clients reach. -/
def Reached (fuel : ℕ) (down : Bool) (w : World) : Prop :=
  ∃ w₀ cs, Accepted fuel down w₀ ∧ AllSteps (HeapBlocks.step fuel down) Legal w₀ cs ∧
    cs.foldlM (HeapBlocks.step fuel down) w₀ = some w

theorem Reached.described (H : Reached fuel down w) : Described fuel w := by
  obtain ⟨w₀,cs,H₀,hl,hrun⟩ := H
  have hinv := H₀.described
  clear H₀
  induction cs generalizing w₀ with
  | nil =>
      cases hrun
      exact hinv
  | cons call cs ih =>
      rw [List.foldlM_cons] at hrun
      obtain ⟨w₁,hstep,hrun⟩ := Option.bind_eq_some_iff.mp hrun
      obtain ⟨w₁',hstep',hinv'⟩ := hinv.step down hl.1
      rw [hstep] at hstep'
      cases hstep'
      exact ih w₁ (hl.2 w₁ hstep) hrun hinv'

end runs

instance (w : World) (ptr : Word) : Decidable (w.Holds ptr) :=
  inferInstanceAs (Decidable (ptr = 0 ∨ ∃ b ∈ w.blocks, b.chunk = some ptr))

instance (w : World) : ∀ call, Decidable (Legal w call)
  | .krealloc ptr _ => inferInstanceAs (Decidable (w.Holds ptr))
  | .kfree ptr => inferInstanceAs (Decidable (w.Holds ptr))
  | .page_free addr npages => inferInstanceAs (Decidable (.pages addr npages ∈ w.blocks))
  | .write addr _ => inferInstanceAs (Decidable (addr.toNat%4 = 0 ∧ ∃ b ∈ w.blocks,
      b.addr.toNat ≤ addr.toNat ∧ addr.toNat < b.addr.toNat+b.length w.heap))
  | .kmalloc _ => .isTrue trivial
  | .kcalloc _ _ => .isTrue trivial
  | .page_alloc _ => .isTrue trivial
  | .get_zeroed_pages _ => .isTrue trivial

/-- A heap of 48 pages. -/
def smallHeap : SlabHeap :=
  (((system_heap_init 50 true 0x100000 0x130000).run zeroHeap).getD ((),zeroHeap)).2

theorem accepted_smallHeap : Accepted 50 true ⟨smallHeap,[]⟩ := by
  have hsome : ((system_heap_init 50 true 0x100000 0x130000).run zeroHeap).isSome = true := by
    decide +kernel
  obtain ⟨⟨⟨⟩,h⟩,hrun⟩ := Option.isSome_iff_exists.mp hsome
  have hsmall : smallHeap = h := by simp only [smallHeap,hrun,Option.getD_some]
  refine ⟨⟨zeroHeap,0x100000,0x130000,⟨fun _ => rfl,rfl,rfl,rfl⟩,?_,by decide⟩,by decide +kernel,rfl⟩
  rw [hrun,hsmall]

theorem reached_smallHeap : Reached 50 true ⟨smallHeap,[]⟩ :=
  ⟨_,[],accepted_smallHeap,trivial,rfl⟩

/-- A chunk of 104 bytes is allocated and its first word written, and then a page. -/
def smallCalls : List Call := [.kmalloc 100,.write 0x101028 7,.page_alloc 1]

def smallWorld : World := (smallCalls.foldlM (step 50 true) ⟨smallHeap,[]⟩).getD ⟨smallHeap,[]⟩

theorem reached_smallWorld : Reached 50 true smallWorld := by
  have hsome : (smallCalls.foldlM (step 50 true) ⟨smallHeap,[]⟩).isSome = true := by decide +kernel
  obtain ⟨w,hrun⟩ := Option.isSome_iff_exists.mp hsome
  have hlegal : AllSteps (step 50 true) Legal ⟨smallHeap,[]⟩ smallCalls := by decide +kernel
  refine ⟨_,_,accepted_smallHeap,hlegal,?_⟩
  rw [smallWorld,hrun,Option.getD_some]

end CosKernel.HeapBlocks

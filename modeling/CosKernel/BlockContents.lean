import CosKernel.HeapCalls

/-!
# The contents of blocks

`memset` and `memcpy` write to blocks that the clients hold and to nothing else. With this
`kcalloc`, `get_zeroed_pages` and `krealloc` are put together from `kmalloc`, `page_alloc` and
`kfree`: new blocks have the bytes that they should have, and the other blocks keep theirs.
-/
namespace CosKernel.HeapBlocks
open SlabHeap Heap PageAllocator LinkedChain IntervalFreeList BlockMaps WordMasks
open LockedPrograms LockedPrograms.Program

variable {c : Config}

/-- The byte `i` behind `a`. The lowest byte of a word is the first one. -/
def byteAt (h : SlabHeap) (a : Word) (i : ℕ) : BitVec 8 :=
  (h.mem (a+BitVec.ofNat 32 (i/4*4))).extractLsb' (8*(i%4)) 8

section bytes

variable {start len : Word} {w mem : Word → Word} {i : ℕ}

/-- The bytes that `overwrite` takes from the new words. -/
theorem overwrite_byte (hi : i < len.toNat) :
    (overwrite start len w mem (start+BitVec.ofNat 32 (i/4*4))).extractLsb' (8*(i%4)) 8 =
      (w (BitVec.ofNat 32 (i/4*4))).extractLsb' (8*(i%4)) 8 := by
  have hoff : start+BitVec.ofNat 32 (i/4*4)-start = BitVec.ofNat 32 (i/4*4) := by bv_omega
  have htoNat : (BitVec.ofNat 32 (i/4*4)).toNat = i/4*4 := by
    rw [BitVec.toNat_ofNat,Nat.mod_eq_of_lt (by omega)]
  unfold overwrite
  simp only [hoff]
  generalize BitVec.ofNat 32 (i/4*4) = off at *
  rw [if_pos ⟨by omega,by rw [BitVec.lt_def]; omega⟩]
  split_ifs with hfull
  · rfl
  · -- the last word, of which only the lower bytes are taken
    have hmask : (1<<<(8*(len.toNat-off.toNat)) : Word)-1 = mask 32 (8*(len.toNat-off.toNat)) := by
      have : len.toNat-off.toNat = 1 ∨ len.toNat-off.toNat = 2 ∨ len.toNat-off.toNat = 3 := by omega
      rcases this with h | h | h
      · rw [h]
        decide
      · rw [h]
        decide
      · rw [h]
        decide
    rw [hmask]
    apply BitVec.eq_of_getLsbD_eq
    intro j hj
    have hlow : 8*(i%4)+j < 8*(len.toNat-off.toNat) := by omega
    simp only [BitVec.getLsbD_extractLsb',BitVec.getLsbD_or,BitVec.getLsbD_and,
      BitVec.getLsbD_shiftLeft,getLsbD_mask (show 8*(i%4)+j < 32 by omega),hlow,decide_true,
      Bool.not_true,Bool.and_false,Bool.false_and,Bool.false_or,Bool.and_true]

end bytes

section writing

variable {L : Layout c} {h : SlabHeap} {e : Holding} {a len : Word} {w : Word → Word}

/-- The bytes of a block are those of the words in it. -/
theorem byteAt_frame {h' : SlabHeap} (hmem : ∀ x, e.Covers x → h'.mem x = h.mem x)
    (ha : e.start = a.toNat) (hend : e.start+e.length ≤ 2^32) {i : ℕ} (hi : i < e.length) :
    byteAt h' a i = byteAt h a i := by
  have htoNat : (a+BitVec.ofNat 32 (i/4*4)).toNat = a.toNat+i/4*4 := by
    rw [BitVec.toNat_add,BitVec.toNat_ofNat,Nat.mod_eq_of_lt (show i/4*4 < 2^32 by omega),
      Nat.mod_eq_of_lt (by omega)]
  unfold byteAt
  rw [hmem]
  constructor
  · omega
  · omega

/-- What is held ends within the address space. -/
theorem Shape.live_end (S : Shape L) (he : L.Live e) :
    0 < e.start ∧ e.start+e.length < 2^32 ∧ 0 < e.length := by
  obtain ⟨p,r,hr,hg⟩ := he
  have hinside := S.gives_inside hr hg
  have hbounds := S.bounds hr
  omega

/-- A block is filled from its start on. -/
theorem Kept.fill (K : Kept L h) (he : L.Live e) (ha : e.start = a.toNat)
    (hlen : len.toNat ≤ e.length) (w : Word → Word) :
    Kept L {h with mem := overwrite a len w h.mem} ∧
      ∀ e' x, L.Live e' → e' ≠ e → e'.Covers x → overwrite a len w h.mem x = h.mem x := by
  have S := K.shape
  have hend := S.live_end he
  have hframe : ∀ x, ¬e.Covers x → overwrite a len w h.mem x = h.mem x := by
    intro x hx
    refine overwrite_outside fun ⟨_,hlt⟩ => hx ?_
    rw [BitVec.lt_def] at hlt
    constructor
    · rw [ha]
      bv_omega
    · rw [ha]
      bv_omega
  constructor
  · exact K.write (fun x hx => hframe x (hx e he)) rfl
  · intro e' x he' hne hx
    refine hframe x fun hx' => ?_
    have hapart := S.live_apart he' he hne
    have h₁ := hx.1
    have h₂ := hx.2
    have h₃ := hx'.1
    have h₄ := hx'.2
    omega

end writing

section zeroed

variable {L : Layout c} {h : SlabHeap} {fuel : ℕ}

/-- A cleared block has bytes zero. -/
theorem byteAt_memset {a len : Word} {i : ℕ} (hi : i < len.toNat) :
    byteAt (h.memset a len) a i = 0 := by
  unfold byteAt
  exact (overwrite_byte hi).trans (by simp)

/-- `kcalloc` clears what `kmalloc` grants. -/
theorem Kept.kcalloc (K : Kept L h) (hfuel : c.count < fuel) (down : Bool) (count size : Word) :
    (kcalloc fuel down count size).run h = some (0,h) ∨
    ∃ b L' h', (kcalloc fuel down count size).run h = some (b,h') ∧ b ≠ 0 ∧ count*size ≠ 0 ∧
      Granted L h (count*size) b L' h' ∧ ∀ i < (count*size).toNat, byteAt h' b i = 0 := by
  unfold Heap.kcalloc
  rcases K.kmalloc hfuel down (count*size) with hrun | ⟨b,L',h₁,hrun,hb,hn,G⟩
  · left
    simp only [run_bind,hrun,Option.bind_some,ne_eq,not_true_eq_false,if_false,run_pure]
  · right
    obtain ⟨K',hothers⟩ := G.kept.fill G.adds.self rfl (G.fits hn) fun _ => 0
    refine ⟨b,L',h₁.memset b (count*size),?_,hb,hn,⟨K',G.adds,?_,G.tidy,G.used⟩,?_⟩
    · simp only [run_bind,hrun,Option.bind_some,if_pos hb,run_modify,run_pure]
    · refine G.spares.trans fun e x he hx => hothers e x (G.adds.sub he) ?_ hx
      rintro rfl
      exact G.adds.fresh he
    · exact fun i hi => byteAt_memset hi

/-- What `page_alloc` owes its caller when it returns pages. -/
structure GrantedPages (L : Layout c) (h : SlabHeap) (n b : Word) (L' : Layout c)
    (h' : SlabHeap) : Prop where
  kept : Kept L' h'
  adds : Adds L L' (.pages (pageNo b) n.toNat)
  aligned : b.toNat = pageNo b*4096
  spares : Spares L h h'
  tidy : L.Tidy → L'.Tidy
  used : account h' = account h

/-- `page_alloc` returns null and changes nothing, or grants pages. -/
theorem Kept.grantPages (K : Kept L h) (hfuel : c.count < fuel) (down : Bool) (n : Word) :
    (Heap.page_alloc fuel down n).run h = some (0,h) ∨
    ∃ b L' h', (Heap.page_alloc fuel down n).run h = some (b,h') ∧ b ≠ 0 ∧
      GrantedPages L h n b L' h' := by
  rcases K.page_alloc hfuel down n with hrun | ⟨h',a,hrun,hnone,K',hs,haccount⟩
  · exact Or.inl hrun
  have S := K'.shape
  have hrole : (L.put a (some (.pages n.toNat))).role a = some (.pages n.toNat) := Layout.put_self
  have hlt := S.page_lt hrole
  refine Or.inr ⟨ptr a,_,h',hrun,ptr_ne_zero (S.bounds hrole).1 hlt,K',?_,?_,hs,fun T => ?_,haccount⟩
  · rw [pageNo_ptr hlt]
    exact S.adds_first (fun q hq => Layout.put_of_ne hq) hrole
      (fun e => Layout.not_at_of_none hnone) fun e => gives_pages
  · rw [pageNo_ptr hlt,toNat_ptr hlt]
  · refine T.change (p := a) (fun q hq => Layout.put_of_ne hq) fun z hz => ?_
    rw [hrole] at hz
    cases hz

/-- `get_zeroed_pages` clears what `page_alloc` grants. -/
theorem Kept.get_zeroed_pages (K : Kept L h) (hfuel : c.count < fuel) (down : Bool) (n : Word) :
    (get_zeroed_pages fuel down n).run h = some (0,h) ∨
    ∃ b L' h', (get_zeroed_pages fuel down n).run h = some (b,h') ∧ b ≠ 0 ∧
      GrantedPages L h n b L' h' := by
  unfold Heap.get_zeroed_pages
  rcases K.grantPages hfuel down n with hrun | ⟨b,L',h₁,hrun,hb,G⟩
  · left
    simp only [run_bind,hrun,Option.bind_some,ne_eq,not_true_eq_false,if_false,run_pure]
  · right
    have hend := G.kept.shape.live_end G.adds.self
    have hlen : (CONFIG_MM_PAGE_SIZE*n).toNat = n.toNat*4096 := by
      rw [BitVec.toNat_mul,Nat.mul_comm]
      exact Nat.mod_eq_of_lt (lt_of_le_of_lt (Nat.le_add_left ..) hend.2.1)
    obtain ⟨K',hothers⟩ := G.kept.fill G.adds.self G.aligned.symm hlen.le fun _ => 0
    refine ⟨b,L',h₁.memset b (CONFIG_MM_PAGE_SIZE*n),?_,hb,K',G.adds,G.aligned,?_,G.tidy,G.used⟩
    · simp only [run_bind,hrun,Option.bind_some,if_pos hb,run_modify,run_pure]
    · refine G.spares.trans fun e x he hx => hothers e x (G.adds.sub he) ?_ hx
      rintro rfl
      exact G.adds.fresh he

/-- `page_free` takes back pages that are held. -/
theorem Kept.returnPages {n b : Word} (K : Kept L h) (hfuel : c.count < fuel) (down : Bool)
    (hlive : L.Live (.pages (pageNo b) n.toNat)) (hb : b.toNat = pageNo b*4096) :
    ∃ L' h', (Heap.page_free fuel down b n).run h = some ((),h') ∧ Kept L' h' ∧
      Adds L' L (.pages (pageNo b) n.toNat) ∧ Spares L' h h' ∧ (L.Tidy → L'.Tidy) ∧
      account h' = account h := by
  obtain ⟨p,r,hr,hg⟩ := hlive
  match r,hg with
  | .pages m,⟨hp,hm⟩ =>
      subst hp
      have hrole : L.role (pageNo b) = some (.pages n.toNat) := by rw [hr,hm]
      have hlt := K.shape.page_lt hr
      have hptr : b = ptr (pageNo b) := by
        rw [← BitVec.toNat_inj,toNat_ptr hlt]
        exact hb
      obtain ⟨h',hrun,K',hs,haccount⟩ := K.page_free hrole hfuel down
      rw [← hptr] at hrun
      refine ⟨_,h',hrun,K',?_,hs,fun T => ?_,haccount⟩
      · exact K.shape.adds_first (fun q hq => (Layout.put_of_ne hq).symm) hrole
          (fun e => Layout.not_at_of_none Layout.put_self) fun e => gives_pages
      · refine T.change (p := pageNo b) (fun q hq => Layout.put_of_ne hq) fun z hz => ?_
        rw [Layout.put_self] at hz
        cases hz

end zeroed

section moving

variable {L L' : Layout c} {h h' : SlabHeap} {fuel len : ℕ} {n b q : Word}

/-- The block `b` of `len` bytes has moved to a new block `q` for a request of `n` bytes. -/
structure Moved (L : Layout c) (h : SlabHeap) (b : Word) (len : ℕ) (n q : Word) (L' : Layout c)
    (h' : SlabHeap) : Prop where
  kept : Kept L' h'
  adds : ∃ L₁ : Layout c, Shape L₁ ∧ Adds L L₁ (.bytes q.toNat (c.usable n)) ∧
    Adds L' L₁ (.bytes b.toNat len)
  fits : n.toNat ≤ c.usable n
  bytes : ∀ i < min len n.toNat, byteAt h' q i = byteAt h b i
  others : ∀ e x, L.Live e → e ≠ .bytes b.toNat len → e.Covers x → h'.mem x = h.mem x
  tidy : L.Tidy → L'.Tidy
  used : ∃ s t : Word, s.toNat = c.usable n ∧ t.toNat = len ∧
    account h' = ((h.use s).usedMem-t,(h.use s).maxMem)

theorem Kept.kmove (K : Kept L h) (hfuel : c.count < fuel) (down : Bool) (hn : n ≠ 0)
    (hlive : L.Live (.bytes b.toNat len)) {osize : SlabHeap → Word}
    (hosize : ∀ (L' : Layout c) h', Kept L' h' → (∀ p e, L.At p e → L'.At p e) →
      (osize h').toNat = len) :
    (kmove fuel down b n osize).run h = some (0,h) ∨
    ∃ q L' h', (kmove fuel down b n osize).run h = some (q,h') ∧ q ≠ 0 ∧ Moved L h b len n q L' h' := by
  unfold Heap.kmove
  rcases K.kmalloc hfuel down n with hrun | ⟨q,L₁,h₁,hrun,hq,-,G⟩
  · left
    simp only [run_bind,hrun,Option.bind_some,if_true,run_pure]
  right
  have hold := hosize L₁ h₁ G.kept G.adds.place
  obtain ⟨m,hm⟩ : ∃ m, (if osize h₁ < n then osize h₁ else n) = m := ⟨_,rfl⟩
  have hmin : m.toNat = min len n.toNat := by
    rw [← hm]
    split_ifs with hlt
    · rw [BitVec.lt_def] at hlt
      omega
    · rw [BitVec.lt_def] at hlt
      omega
  have hfits := G.fits hn
  -- the new block is filled from the old one
  have hm' : m.toNat ≤ c.usable n := by omega
  obtain ⟨K₂,hothers⟩ := G.kept.fill G.adds.self rfl hm' fun off => h₁.mem (b+off)
  obtain ⟨h₂,hh₂⟩ : ∃ h₂, h₁.memcpy q b m = h₂ := ⟨_,rfl⟩
  have hkept : Kept L₁ h₂ := hh₂ ▸ K₂
  have hspares : Spares L h h₂ := by
    rw [← hh₂]
    refine G.spares.trans fun e x he hx => hothers e x (G.adds.sub he) ?_ hx
    rintro rfl
    exact G.adds.fresh he
  obtain ⟨L₃,h₃,hfree,R⟩ := hkept.kfree hfuel down (G.adds.sub hlive)
  have hne : Holding.bytes q.toNat (c.usable n) ≠ .bytes b.toNat len := by
    intro heq
    rw [← heq] at hlive
    exact G.adds.fresh hlive
  have hnew : L₃.Live (.bytes q.toNat (c.usable n)) :=
    ((R.adds.live _).mp G.adds.self).resolve_right hne
  have hend := K.shape.live_end hlive
  have hend' := G.kept.shape.live_end G.adds.self
  refine ⟨q,L₃,h₃,?_,hq,R.kept,⟨L₁,hkept.shape,G.adds,R.adds⟩,hfits,fun i hi => ?_,fun e x he hne hx => ?_,
    fun T => R.tidy (G.tidy T),?_⟩
  · simp only [run_bind,hrun,Option.bind_some,if_neg hq,run_modify,hm,hh₂,hfree,run_pure]
  · rw [byteAt_frame (fun x hx => R.spares _ x hnew hx) rfl (by omega)
      (show i < c.usable n by omega),← hh₂]
    have hcopy : byteAt (h₁.memcpy q b m) q i = byteAt h₁ b i := overwrite_byte (by omega)
    rw [hcopy]
    exact byteAt_frame (fun x hx => G.spares _ x hlive hx) rfl (by omega)
      (show i < len by omega)
  · have he₃ : L₃.Live e := ((R.adds.live e).mp (G.adds.sub he)).resolve_right hne
    rw [R.spares e x he₃ hx,hspares e x he hx]
  · obtain ⟨s,hs,hs'⟩ := G.used
    obtain ⟨t,ht,ht'⟩ := R.used
    refine ⟨s,t,hs,ht,?_⟩
    rw [← hh₂] at ht'
    obtain ⟨h₄,h₅⟩ := Prod.mk.inj hs'
    rw [ht',← h₄,← h₅]
    rfl

/-- The rounded size of a request is not below it. -/
theorem le_zoneindex (hn : n ≠ 0) : n.toNat ≤ (zoneindex n).1.toNat := by
  by_cases hlt : n.toNat < 16384
  · obtain ⟨i,C⟩ := zoneindex_class hn hlt
    rw [C.size]
    exact C.fits
  · have hlarge : zoneindex n = (n,0) := by
      unfold zoneindex
      repeat rw [if_neg (by rw [BitVec.lt_def]; exact fun h => hlt (lt_of_lt_of_le h (by decide)))]
    rw [hlarge]

/-- A block behind the header of a zone is a chunk of it. -/
theorem Kept.chunksize_of_at {a p : ℕ} (K : Kept L h) (hat : L.At p (.bytes a len))
    (ha : p*4096 < a) : (h.zone (ptr p) .chunksize).toNat = len := by
  obtain ⟨r,hr,hg⟩ := hat
  match r,hg with
  | .zone true z,⟨_,_,_,hlen⟩ => rw [(K.held hr).chunksize,hlen]
  | .large m,⟨hp,_⟩ => exact absurd hp ha.ne'

/-- `krealloc` of a block that is held returns null and changes nothing, or the block itself
where its size is that of the new class, or it moves the block. -/
theorem Kept.krealloc (K : Kept L h) (hfuel : c.count < fuel) (down : Bool) (hn : n ≠ 0)
    (hlive : L.Live (.bytes b.toNat len)) :
    (krealloc fuel down b n).run h = some (0,h) ∨
    (krealloc fuel down b n).run h = some (b,h) ∧ n.toNat ≤ len ∨
    ∃ m q L' h', (krealloc fuel down b n).run h = some (q,h') ∧ q ≠ 0 ∧ n.toNat ≤ m.toNat ∧
      Moved L h b len m q L' h' := by
  have S := K.shape
  have hb : b ≠ 0 := by
    have hstart : 0 < b.toNat := (S.live_end hlive).1
    bv_omega
  obtain ⟨p,r,hr,hg⟩ := id hlive
  unfold Heap.krealloc
  simp only [if_neg hb,if_neg hn,run_bind,run_get,Option.bind_some]
  match r,hg with
  | .large m,⟨hp,hlen⟩ =>
      have hend := S.live_end hlive
      have husage := K.usage_large hr hp
      have hosize : (usageSize (h.mem (h.btokup (b &&& ~~~CONFIG_MM_PAGE_MASK)))<<<
          CONFIG_MM_PAGE_BITS).toNat = len := by
        rw [BitVec.toNat_shiftLeft,husage.size,Nat.shiftLeft_eq,hlen]
        refine Nat.mod_eq_of_lt (lt_of_le_of_lt ?_ hend.2.1)
        rw [Holding.length,hlen]
        exact Nat.le_add_left ..
      simp only [husage.type,if_true]
      rcases K.kmove hfuel down hn hlive (fun _ _ _ _ => hosize) with
        hrun | ⟨q,L',h',hrun,hq,M⟩
      · exact Or.inl hrun
      · exact Or.inr (Or.inr ⟨n,q,L',h',hrun,hq,le_refl _,M⟩)
  | .zone true z,⟨k,hk,hp,hlen⟩ =>
      have hpage := z.pageNo_of_chunkAt (S.zone_end hr) (z.lt_total (Or.inl hk)) hp
      have htype := (K.usage_small hr hpage).type
      have hne : PAGE_TYPE_SMALL ≠ PAGE_TYPE_LARGE := by decide
      have hmagic : h.zone (ptr p) .magic = ZALLOC_SLAB_MAGIC := (K.record hr).magic rfl
      have hle := le_zoneindex hn
      have hpos : (zoneindex n).1 ≠ 0 := by bv_omega
      -- after `kmalloc` the zone of the block has the same chunk size
      have hosize : ∀ (L₁ : Layout c) (h₁ : SlabHeap), Kept L₁ h₁ →
          (∀ p e, L.At p e → L₁.At p e) → (h₁.zone (ptr p) .chunksize).toNat = len := by
        intro L₁ h₁ K₁ hplace
        have hstart := z.chunkAt_start (p := p) (k := k)
        exact K₁.chunksize_of_at (hplace p (.bytes b.toNat len) ⟨_,hr,k,hk,hp,hlen⟩) (by omega)
      simp only [htype,if_neg hne,if_true,run_bind,run_act,K.zoneOf hr hpage,hmagic,ne_eq,
        not_true_eq_false,if_false,Option.bind_some,run_get]
      by_cases hsame : h.zone (ptr p) .chunksize = (zoneindex n).1
      · have hsize : (h.zone (ptr p) .chunksize).toNat = z.size := (K.held hr).chunksize
        refine Or.inr (Or.inl ⟨?_,?_⟩)
        · rw [if_pos hsame,run_pure]
        · rw [hlen,← hsize,hsame]
          exact hle
      · rw [if_neg hsame]
        rcases K.kmove hfuel down hpos hlive hosize with hrun | ⟨q,L',h',hrun,hq,M⟩
        · exact Or.inl hrun
        · exact Or.inr (Or.inr ⟨_,q,L',h',hrun,hq,hle,M⟩)

end moving

end CosKernel.HeapBlocks

import CosKernel.HeapRuns

/-!
# What the calls promise

`krealloc` keeps the contents of a block or leaves everything as it was. The product of
`kcalloc` wraps around, and its blocks are long enough only where it does not. Blocks of
`kmalloc` are aligned to their size up to the size of a page, and larger ones as far as the
pages are that the heap has for them.
-/
namespace CosKernel.HeapBlocks
open SlabHeap Heap PageAllocator TransitionRuns WordMasks
open LockedPrograms LockedPrograms.Program

variable {c : Config} {L L' : Layout c} {fuel : ℕ} {down : Bool} {w w' : World} {p m n q : Word}

/-- The block `b` is held in both states, with the same length and contents. -/
structure Block.Unchanged (w w' : World) (b : Block) : Prop where
  held : b ∈ w'.blocks
  length : b.length w'.heap = b.length w.heap
  bytes : ∀ i < b.length w.heap, byteAt w'.heap b.addr i = byteAt w.heap b.addr i

section reallocation

theorem mem_without {b : Block} {bs : List Block} : b ∈ without p bs ↔ b ∈ bs ∧ b.addr ≠ p := by
  rw [without,List.mem_filter,decide_eq_true_iff]

/-- After the removal of the block at `p` it is held only if it is the new one. -/
theorem held_iff {bs : List Block} :
    (∃ k, Block.bytes p k ∈ Block.bytes q n::without p bs) ↔ q = p := by
  simp only [List.mem_cons,mem_without,Block.addr,ne_eq,not_true_eq_false,and_false,or_false,
    Block.bytes.injEq]
  constructor
  · rintro ⟨k,hp,-⟩
    exact hp.symm
  · rintro rfl
    exact ⟨n,rfl,rfl⟩

/-- The blocks that do not move are unchanged. -/
theorem Describes.unchanged {h' : SlabHeap} {b : Block} (D : Describes L w)
    (M : Moved L w.heap p (usable w.heap p) m q L' h') (hp : .bytes p n ∈ w.blocks)
    (hb : b ∈ w.blocks) (hne : b.addr ≠ p) {bs : List Block} (hbs : b ∈ bs) :
    b.Unchanged w ⟨h',bs⟩ := by
  have hhold : b.holding w.heap ≠ .bytes p.toNat (usable w.heap p) := by
    intro heq
    exact hne (congrArg Block.addr (List.inj_on_of_nodup_map D.nodup hb hp heq))
  obtain ⟨L₁,-,A,A'⟩ := M.adds
  have hlive := D.block_live hb
  have hlive' : L'.Live (b.holding w.heap) := ((A'.live _).mp (A.sub hlive)).resolve_right hhold
  have hsame := M.kept.holding_eq hlive'
  have hend := D.kept.shape.live_end hlive
  refine ⟨hbs,?_,fun i hi => ?_⟩
  · rw [← Block.length_holding,hsame,Block.length_holding]
  · refine byteAt_frame (fun x hx => M.others _ x hlive hhold hx) (D.fits b hb).start
      (le_of_lt hend.2.1) ?_
    rw [Block.length_holding]
    exact hi

end reallocation

/-- The length of the block that `kmalloc` returns. -/
theorem Reached.kmalloc_usable {h' : SlabHeap} (H : Reached fuel down w)
    (hrun : (kmalloc fuel down n).run w.heap = some (q,h')) (hq : q ≠ 0) :
    ∃ c : Config, usable h' q = c.usable n ∧ n.toNat ≤ c.usable n ∧ 0 < n.toNat ∧
      c.usable n < 2^32 ∧ w.heap.zoneLimit.toNat = c.limit := by
  obtain ⟨c,L,hfuel,D⟩ := H.described
  rcases D.kept.kmalloc hfuel down n with hnull | ⟨b,L',h₁,hgrant,-,hn,G⟩
  · rw [hrun] at hnull
    cases hnull
    exact absurd rfl hq
  · rw [hrun] at hgrant
    cases hgrant
    have hend := G.kept.shape.live_end G.adds.self
    rw [Holding.start,Holding.length] at hend
    exact ⟨c,G.kept.usable G.adds.self,G.fits hn,by bv_omega,by omega,D.kept.setup.zoneLimit⟩

/-- A block of `kcalloc` has the length of the product and zeros, exactly when the product does
not wrap around. -/
theorem kcalloc_long_enough_iff (H : Reached fuel down w) (count size : Word) :
    ∃ q h', (kcalloc fuel down count size).run w.heap = some (q,h') ∧ (q ≠ 0 →
      (count.toNat*size.toNat ≤ usable h' q ∧
        (∀ i < count.toNat*size.toNat, byteAt h' q i = 0) ↔ count.toNat*size.toNat < 2^32)) := by
  obtain ⟨c,L,hfuel,D⟩ := H.described
  rcases D.kept.kcalloc hfuel down count size with hrun | ⟨q,L',h',hrun,hq,hn,G,hzero⟩
  · exact ⟨0,w.heap,hrun,fun h => (h rfl).elim⟩
  · refine ⟨q,h',hrun,fun _ => ?_⟩
    have husable := G.kept.usable G.adds.self
    have hend := G.kept.shape.live_end G.adds.self
    rw [Holding.start,Holding.length] at hend
    have hfits := G.fits hn
    rw [husable]
    constructor
    · rintro ⟨hle,-⟩
      omega
    · intro hlt
      have hproduct : (count*size).toNat = count.toNat*size.toNat := by
        rw [BitVec.toNat_mul,Nat.mod_eq_of_lt hlt]
      rw [← hproduct]
      exact ⟨hfits,hzero⟩

theorem kcalloc_long_enough_iff_smallWorld : ∃ q h',
    (kcalloc 50 true 3 10).run smallWorld.heap = some (q,h') ∧ (q ≠ 0 →
      (3*10 ≤ usable h' q ∧ (∀ i < 3*10, byteAt h' q i = 0) ↔ 3*10 < 2^32)) :=
  kcalloc_long_enough_iff reached_smallWorld 3 10

/-- The product of 2147483649 and 2 wraps around to 2, and the block has eight bytes. -/
theorem kcalloc_wraps : Reached 50 true smallWorld ∧
    ((kcalloc 50 true 0x80000001 2).run smallWorld.heap).map (fun r => (r.1,usable r.2 r.1)) =
      some (0x10a028,8) ∧ ¬(0x80000001 : Word).toNat*(2 : Word).toNat ≤ 8 :=
  ⟨reached_smallWorld,by decide +kernel,by decide⟩

section alignment

/-- The first entry of the list of free pages, from `b` on, with at least `npages` pages. -/
def firstFit (h : SlabHeap) (npages : Word) : ℕ → Word → Word
  | 0,_ => 0
  | fuel+1,b =>
      if b = 0 then 0
      else if npages ≤ h.page b then b
      else firstFit h npages fuel (h.next b)

/-- Where the block that `kmalloc` would take for `n` bytes has its pages: a large block is the
first run of free pages that is long enough, and a chunk is in the first zone of its class, or else
in the first zone without chunks in use, or else in a zone of free pages. -/
def origin (fuel : ℕ) (h : SlabHeap) (n : Word) : Word :=
  if h.zoneLimit ≤ n then
    firstFit h (WIDTH_ALIGN n CONFIG_MM_PAGE_SIZE>>>CONFIG_MM_PAGE_BITS) fuel h.pageList
  else
    let zone := ((index (zoneindex n).2).map h.zoneArray).getD 0
    if zone ≠ 0 then zone
    else if h.zoneFree ≠ 0 then h.zoneFree
    else firstFit h (h.zoneSize/CONFIG_MM_PAGE_SIZE) fuel h.pageList

theorem pageAllocLoop_fst {h h' : SlabHeap} {npages b : Word} {prev : Option Word}
    (hloop : pageAllocLoop npages fuel h prev = some (b,h')) :
    b = firstFit h npages fuel (h.link prev) := by
  induction fuel generalizing prev with
  | zero => cases hloop
  | succ fuel ih =>
      unfold pageAllocLoop at hloop
      unfold firstFit
      dsimp only at hloop
      split_ifs at hloop with hzero hlt heq
      · cases hloop
        rw [if_pos hzero]
      · cases hloop
        rw [if_neg hzero,if_pos (BitVec.le_of_lt hlt)]
      · cases hloop
        rw [if_neg hzero,if_pos (by bv_omega)]
      · rw [if_neg hzero,if_neg (by bv_omega)]
        exact ih hloop

theorem page_alloc_fst {h h' : SlabHeap} {npages b : Word} (hb : b ≠ 0)
    (hrun : (page_alloc fuel down npages).run h = some (b,h')) :
    b = firstFit h npages fuel h.pageList := by
  unfold Heap.page_alloc at hrun
  split_ifs at hrun with hn
  · rw [run_pure] at hrun
    cases hrun
    exact absurd rfl hb
  · simp only [run_bind,run_lock,run_act,run_unlock,run_pure,Option.bind_some] at hrun
    obtain ⟨⟨b',h₁⟩,hloop,heq⟩ := Option.bind_eq_some_iff.mp hrun
    cases heq
    exact pageAllocLoop_fst hloop

/-- The chunks of a class whose size is a power of two begin at a multiple of it. -/
theorem classOffset_dvd : ∀ i : Fin NZONES, ∀ k < 15, classSize i = 2^k → 2^k ∣ classOffset i := by
  decide +kernel

/-- A power of two is not rounded. -/
theorem Config.usable_pow (c : Config) {s : Word} {k : ℕ} (hs : s.toNat = 2^k) (hk : 3 ≤ k) :
    c.usable s = 2^k := by
  have hzones := c.zones
  have hk' : k < 32 := by
    by_contra h
    have := Nat.pow_le_pow_right (show 0 < 2 by omega) (Nat.not_lt.mp h)
    omega
  have hword : s = BitVec.ofNat 32 (2^k) := by
    rw [← hs,BitVec.ofNat_toNat,BitVec.setWidth_eq]
  unfold Config.usable
  split_ifs with hlimit
  · have hlt : k < 14 := by
      by_contra h
      have := Nat.pow_le_pow_right (show 0 < 2 by omega) (Nat.not_lt.mp h)
      omega
    rw [hword]
    interval_cases k <;> decide
  · have hge : 13 ≤ k := by
      by_contra h
      have := Nat.pow_lt_pow_right (show 1 < 2 by omega) (Nat.not_le.mp h)
      omega
    rw [toNat_pageAlign,hs]
    interval_cases k <;> decide

/-- Where a block for a power of two begins. -/
theorem pow_dvd_of_live {len k : ℕ} (hlive : L.Live (.bytes q.toNat len))
    (hlen : len = 2^k) : 2^min k 12 ∣ q.toNat := by
  have hpage : 2^min k 12 ∣ 4096 := pow_dvd_pow 2 (Nat.min_le_right k 12)
  obtain ⟨p,r,hr,hg⟩ := hlive
  match r,hg with
  | .large m,⟨hq,_⟩ =>
      rw [hq]
      exact hpage.mul_left p
  | .zone true z,⟨l,hl,hq,hsize⟩ =>
      have hclass : classSize z.index = 2^k := hsize.symm.trans hlen
      have hbounds := classSize_bounds z.index
      have hk : k < 15 := by
        by_contra h
        have := Nat.pow_le_pow_right (show 0 < 2 by omega) (Nat.not_lt.mp h)
        omega
      have hsmall : 2^min k 12 ∣ 2^k := pow_dvd_pow 2 (Nat.min_le_left k 12)
      rw [hq,Zone.chunkAt,hclass]
      exact ((hpage.mul_left p).add (hsmall.trans (classOffset_dvd z.index k hk hclass))).add
        (hsmall.mul_left l)

theorem dvd_toNat_add {a b : Word} {k : ℕ} (hk : k ≤ 32) (hb : 2^k ∣ b.toNat) :
    2^k ∣ (a+b).toNat ↔ 2^k ∣ a.toNat := by
  rw [BitVec.toNat_add,Nat.dvd_mod_iff (pow_dvd_pow 2 hk),Nat.dvd_add_left hb]

/-- A block of pages for a large block begins where the block does. -/
theorem kmallocLarge_origin {h h' : SlabHeap} {s : Word}
    (hrun : (kmallocLarge fuel down s).run h = some (q,h')) (hq : q ≠ 0) :
    q = firstFit h (WIDTH_ALIGN s CONFIG_MM_PAGE_SIZE>>>CONFIG_MM_PAGE_BITS) fuel h.pageList := by
  unfold Heap.kmallocLarge at hrun
  rw [run_bind] at hrun
  obtain ⟨⟨b,h₁⟩,hb,hrun⟩ := Option.bind_eq_some_iff.mp hrun
  by_cases hzero : b = 0
  · simp only [hzero,if_true,run_pure,Option.some.injEq,Prod.mk.injEq] at hrun
    exact absurd hrun.1.symm hq
  · simp only [if_neg hzero,run_bind,run_modify,run_lock,run_unlock,run_pure,Option.bind_some,
      Option.some.injEq,Prod.mk.injEq] at hrun
    rw [← hrun.1]
    exact page_alloc_fst hzero hb

/-- The first chunk of a zone of free pages. -/
theorem kmallocNewZone_origin {h h' : SlabHeap} {size zi : Word} {i : Fin NZONES}
    (hrun : (kmallocNewZone fuel down size zi i).run h = some (q,h')) (hq : q ≠ 0) :
    q = firstFit h (h.zoneSize/CONFIG_MM_PAGE_SIZE) fuel h.pageList+chunkOffset size := by
  unfold Heap.kmallocNewZone at hrun
  simp only [run_bind,run_unlock,run_get,Option.bind_some] at hrun
  obtain ⟨⟨z,h₁⟩,hz,hrun⟩ := Option.bind_eq_some_iff.mp hrun
  by_cases hzero : z = 0
  · simp only [hzero,if_true,run_bind,run_unlock,run_pure,Option.bind_some,Option.some.injEq,
      Prod.mk.injEq] at hrun
    exact absurd hrun.1.symm hq
  · simp only [if_neg hzero,run_bind,run_modify,run_lock,run_act,run_unlock,run_pure,
      Option.bind_some,Option.some.injEq,Prod.mk.injEq] at hrun
    rw [← hrun.1,← page_alloc_fst hzero hz]
    simp [newZone]

/-- A chunk for a power of two is aligned to it exactly when its zone is. -/
theorem Kept.kmallocSmall_origin {h h' : SlabHeap} {s : Word} {k : ℕ} (K : Kept L h)
    (hs : s.toNat = 2^k) (hk : 3 ≤ k) (hlimit : s.toNat < c.limit)
    (hrun : (Heap.kmallocSmall fuel down s).run h = some (q,h')) (hq : q ≠ 0) :
    2^k ∣ q.toNat ↔ 2^k ∣ (origin fuel h s).toNat := by
  have hzones := c.zones
  have hnotLarge : ¬h.zoneLimit ≤ s := by
    rw [BitVec.le_def,K.setup.zoneLimit]
    omega
  have hpos := Nat.two_pow_pos k
  obtain ⟨i,C⟩ := zoneindex_class (n := s) (by bv_omega) (show s.toNat < 16384 by omega)
  have hclass : classSize i = 2^k := by
    rw [← Config.usable_small hlimit C,c.usable_pow hs hk]
  have hk' : k < 15 := by
    by_contra h
    have := Nat.pow_le_pow_right (show 0 < 2 by omega) (Nat.not_lt.mp h)
    omega
  have hoffset : (chunkOffset (zoneindex s).1).toNat = classOffset i :=
    (c.total_eq K.setup.zoneSize C.size).1
  have hdvd : 2^k ∣ (chunkOffset (zoneindex s).1).toNat := by
    rw [hoffset]
    exact classOffset_dvd i k hk' hclass
  unfold Heap.kmallocSmall at hrun
  simp only [run_bind,run_lock,Option.bind_some,run_act,C.index,Option.map_some] at hrun
  unfold origin
  simp only [if_neg hnotLarge,C.index,Option.map_some,Option.getD_some]
  cases hl : L.lists i with
  | cons p ps =>
      have hchain := (K.lists i).chain
      rw [hl] at hchain
      obtain ⟨harray,hne⟩ := pointer_eq_some.mp hchain.1
      obtain ⟨z,z',l,h₁,-,hindex,hzone,-⟩ := K.fromZone_cons hl C.size
      simp only [hzone,Option.bind_some,run_bind,run_unlock,run_pure,Option.some.injEq,
        Prod.mk.injEq] at hrun
      rw [harray,if_pos hne,← hrun.1,Zone.chunk,Zone.chunkAt,Nat.add_assoc,BitVec.ofNat_add,hindex,
        hclass]
      refine dvd_toNat_add (by omega) ?_
      rw [BitVec.toNat_ofNat,Nat.dvd_mod_iff (pow_dvd_pow 2 (by omega))]
      exact (classOffset_dvd i k hk' hclass).add (Dvd.intro_left l rfl)
  | nil =>
      have hchain := (K.lists i).chain
      rw [hl] at hchain
      have hzero : h.zoneArray i = 0 := pointer_eq_none.mp hchain
      simp only [K.fromZone_nil hl,Option.bind_some,run_bind,run_act] at hrun
      simp only [hzero,ne_eq,not_true_eq_false,if_false]
      cases hspare : L.spare with
      | cons p ps =>
          have hchain := K.spare.chain
          rw [hspare] at hchain
          obtain ⟨hfree,hne⟩ := pointer_eq_some.mp hchain.1
          obtain ⟨h₁,hzone,-⟩ := K.fromFreeZones_cons hspare
          obtain ⟨h₂,hnew,-⟩ := newZone_made p (zoneindex s).1 (zoneindex s).2 i h₁
          simp only [hzone,Option.bind_some,run_bind,run_act,hnew,run_unlock,run_pure,
            Option.some.injEq,Prod.mk.injEq] at hrun
          rw [hfree,if_pos hne,← hrun.1]
          exact dvd_toNat_add (by omega) hdvd
      | nil =>
          have hchain := K.spare.chain
          rw [hspare] at hchain
          have hfree : h.zoneFree = 0 := pointer_eq_none.mp hchain
          simp only [K.fromFreeZones_nil hspare,Option.bind_some] at hrun
          rw [hfree,if_neg (by simp),kmallocNewZone_origin hrun hq]
          exact dvd_toNat_add (by omega) hdvd

theorem Kept.kmalloc_origin {h h' : SlabHeap} {s : Word} {k : ℕ} (K : Kept L h)
    (hs : s.toNat = 2^k) (hk : 3 ≤ k) (hrun : (Heap.kmalloc fuel down s).run h = some (q,h'))
    (hq : q ≠ 0) : 2^k ∣ q.toNat ↔ 2^k ∣ (origin fuel h s).toNat := by
  have hpos := Nat.two_pow_pos k
  have hs' : s ≠ 0 := by bv_omega
  unfold Heap.kmalloc at hrun
  simp only [if_neg hs',run_bind,run_get,Option.bind_some] at hrun
  by_cases hlimit : h.zoneLimit ≤ s
  · rw [if_pos hlimit] at hrun
    rw [origin,if_pos hlimit,← kmallocLarge_origin hrun hq]
  · rw [if_neg hlimit] at hrun
    have hlt : s.toNat < c.limit := by
      rw [BitVec.le_def,K.setup.zoneLimit] at hlimit
      omega
    exact K.kmallocSmall_origin hs hk hlt hrun hq

end alignment

/-- A block for a power of two from eight on is aligned to it or, if it is larger than a page,
to pages. It is aligned to its size exactly when it is not larger than a page or the pages that
the heap has for it are. -/
theorem kmalloc_alignment {s q : Word} {h' : SlabHeap} {k : ℕ} (H : Reached fuel down w)
    (hs : s.toNat = 2^k) (hk : 8 ≤ s.toNat) (hrun : (kmalloc fuel down s).run w.heap = some (q,h'))
    (hq : q ≠ 0) : min s.toNat 4096 ∣ q.toNat ∧
      (s.toNat ∣ q.toNat ↔ s.toNat ≤ 4096 ∨ s.toNat ∣ (origin fuel w.heap s).toNat) := by
  obtain ⟨c,L,hfuel,D⟩ := H.described
  have hk' : 3 ≤ k := by
    by_contra h
    have := Nat.pow_le_pow_right (show 0 < 2 by omega) (show k ≤ 2 by omega)
    omega
  have horigin := D.kept.kmalloc_origin hs hk' hrun hq
  rcases D.kept.kmalloc hfuel down s with hnull | ⟨b,L',h'',hsome,-,-,G⟩
  · rw [hrun] at hnull
    cases hnull
    exact (hq rfl).elim
  rw [hrun] at hsome
  cases hsome
  have hdvd := pow_dvd_of_live G.adds.self (c.usable_pow hs hk')
  rw [hs]
  rcases le_or_gt k 12 with hle | hlt
  · have hpage : 2^k ≤ 4096 := Nat.pow_le_pow_right (by omega) hle
    rw [Nat.min_eq_left hle] at hdvd
    rw [Nat.min_eq_left hpage]
    exact ⟨hdvd,fun _ => Or.inl hpage,fun _ => hdvd⟩
  · have hmore : ¬2^k ≤ 4096 := by
      have := Nat.pow_lt_pow_right (show 1 < 2 by omega) hlt
      omega
    rw [Nat.min_eq_right (by omega)] at hdvd ⊢
    exact ⟨hdvd,by simpa only [hmore,false_or] using horigin⟩

/-- After a zone and a page have been taken, the first two free pages begin at an even page. -/
theorem kmalloc_alignment_evenPage : ∃ h',
    (kmalloc 50 true 8192).run smallWorld.heap = some (0x10a000,h') ∧
      (origin 50 smallWorld.heap 8192).toNat = 0x10a000 ∧ min 8192 4096 ∣ 0x10a000 ∧
      (8192 ∣ 0x10a000 ↔ 8192 ≤ 4096 ∨ 8192 ∣ (origin 50 smallWorld.heap 8192).toNat) := by
  have hrun : ((kmalloc 50 true 8192).run smallWorld.heap).map Prod.fst = some 0x10a000 := by
    decide +kernel
  obtain ⟨⟨q,h'⟩,hsome,hq⟩ := Option.map_eq_some_iff.mp hrun
  obtain rfl : q = 0x10a000 := hq
  exact ⟨h',hsome,by decide +kernel,
    kmalloc_alignment (k := 13) reached_smallWorld rfl (by decide) hsome (by decide)⟩

/-- At first they begin at an odd page, and so does the block. -/
theorem kmalloc_misaligned : Reached 50 true ⟨smallHeap,[]⟩ ∧
    ((kmalloc 50 true 8192).run smallHeap).map Prod.fst = some 0x101000 ∧ ¬8192 ∣ 0x101000 :=
  ⟨reached_smallHeap,by decide +kernel,by decide⟩

end CosKernel.HeapBlocks

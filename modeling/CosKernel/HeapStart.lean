import CosKernel.BlockContents

/-!
# The start of the heap

`system_heap_init` divides the pages between two addresses into the array `memusage` and free
pages, and chooses the size of zones. After it no client holds anything, and all lists of zones
are empty.
-/
namespace CosKernel.HeapBlocks
open SlabHeap Heap PageAllocator LinkedChain IntervalFreeList BlockMaps WordMasks
open LockedPrograms LockedPrograms.Program

/-- The static variables of the allocators before `system_heap_init`. -/
structure Fresh (h : SlabHeap) : Prop where
  array : ∀ i, h.zoneArray i = 0
  free : h.zoneFree = 0
  count : h.zoneFreeCnt = 0
  used : account h = (0,0)

section start

variable {h₀ h : SlabHeap} {fuel : ℕ} {down : Bool} {start stop : Word}

theorem zoneSizeFor_cases (limsize : Word) :
    zoneSizeFor limsize 3 ZALLOC_MIN_ZONE_SIZE = 0x8000 ∨
    zoneSizeFor limsize 3 ZALLOC_MIN_ZONE_SIZE = 0x10000 ∨
    zoneSizeFor limsize 3 ZALLOC_MIN_ZONE_SIZE = 0x20000 := by
  simp only [zoneSizeFor]
  split_ifs with h₁ h₂ h₃
  · exact absurd h₃.1 (by decide)
  · exact Or.inr (Or.inr (by decide))
  · exact Or.inr (Or.inl (by decide))
  · exact Or.inl (by decide)

theorem toNat_alignDown (n : Word) :
    (WIDTH_ALIGN_DOWN n CONFIG_MM_PAGE_SIZE).toNat = n.toNat/4096*4096 := by
  have hmask : CONFIG_MM_PAGE_SIZE-1 = mask 32 12 := by decide
  unfold WIDTH_ALIGN_DOWN
  rw [hmask,toNat_and_not_mask]
  rfl

/-- The size of a zone determines its number of pages and the limit of small blocks. -/
theorem zoneSizeFor_config (limsize : Word) :
    let size := zoneSizeFor limsize 3 ZALLOC_MIN_ZONE_SIZE
    ∃ zonePages limit, (zonePages = 8 ∧ limit = 8192 ∨ (zonePages = 16 ∨ zonePages = 32) ∧
      limit = 16384) ∧ size.toNat = zonePages*4096 ∧
      (if ZALLOC_ZONE_LIMIT < size/4 then ZALLOC_ZONE_LIMIT else size/4).toNat = limit ∧
      (size/CONFIG_MM_PAGE_SIZE).toNat = zonePages := by
  rcases zoneSizeFor_cases limsize with h | h | h
  · exact ⟨8,8192,Or.inl ⟨rfl,rfl⟩,by rw [h]; decide,by rw [h]; decide,by rw [h]; decide⟩
  · exact ⟨16,16384,Or.inr ⟨Or.inl rfl,rfl⟩,by rw [h]; decide,by rw [h]; decide,by rw [h]; decide⟩
  · exact ⟨32,16384,Or.inr ⟨Or.inr rfl,rfl⟩,by rw [h]; decide,by rw [h]; decide,by rw [h]; decide⟩

/-- The number of pages of `memusage`, for `N` pages. -/
theorem usagePages_bounds {N : Word} (hpos : 0 < N.toNat) (hlt : N.toNat < 2^20) :
    let T := WIDTH_ALIGN (N*4) CONFIG_MM_PAGE_SIZE/CONFIG_MM_PAGE_SIZE
    0 < T.toNat ∧ T.toNat ≤ N.toNat ∧ T.toNat = (N.toNat+1023)/1024 := by
  have hfour : (N*4).toNat = N.toNat*4 := by
    rw [BitVec.toNat_mul]
    exact Nat.mod_eq_of_lt (by change _*4 < _; omega)
  have hT : (WIDTH_ALIGN (N*4) CONFIG_MM_PAGE_SIZE/CONFIG_MM_PAGE_SIZE).toNat =
      (N.toNat*4+4095)/4096 := by
    rw [BitVec.toNat_udiv,toNat_pageAlign,hfour]
    change _/4096 = _
    omega
  simp only [hT]
  omega

/-- The layout of a heap after its initialisation. -/
def Layout.initial (c : Config) : Layout c where
  role := Function.update (fun _ => none) c.table (some .table)
  lists := fun _ => []
  spare := []

theorem Layout.initial_role {c : Config} {p : ℕ} {r : Role c}
    (hr : (Layout.initial c).role p = some r) : p = c.table ∧ r = .table := by
  change Function.update (fun _ => none) c.table (some .table) p = some r at hr
  by_cases hp : p = c.table
  · rw [hp,Function.update_self] at hr
    exact ⟨hp,(Option.some.inj hr).symm⟩
  · rw [Function.update_of_ne hp] at hr
    cases hr

theorem Layout.initial_not_live {c : Config} (e : Holding) : ¬(Layout.initial c).Live e := by
  rintro ⟨p,r,hr,hg⟩
  obtain ⟨-,rfl⟩ := Layout.initial_role hr
  exact hg

theorem Layout.initial_tidy {c : Config} : (Layout.initial c).Tidy := by
  intro p q z z' hz
  obtain ⟨-,hr⟩ := Layout.initial_role hz
  cases hr

/-- Pages of which only `memusage` is in use. -/
theorem Layout.initial_kept {c : Config} {xs : List Interval} (setup : Setup c h)
    (hp : Partitioned c.base c.count h [(c.table,c.tablePages)] xs)
    (hnone : ∀ i, h.zoneArray i = 0) (hfree : h.zoneFree = 0) (hcount : h.zoneFreeCnt = 0) :
    Kept (Layout.initial c) h := by
  have htable : (Layout.initial c).role c.table = some .table := by
    simp only [Layout.initial,Function.update_self]
  have hnodup : (cells [(c.table,(Role.table (c := c)).span)]).Nodup := by
    have hcells := hp.exact.nodup_iff.mpr List.nodup_range'
    rw [cells_append,List.nodup_append'] at hcells
    exact hcells.2.1
  have hempty : Tiles (Role.span (c := c)) (fun _ => none) [] :=
    ⟨by simp,nofun,by simp⟩
  refine ⟨setup,⟨_,xs,hp,hempty.put hnodup c.tablePages_pos⟩,fun p => ?_,fun p r hr => ?_,
    fun i => ⟨?_,List.nodup_nil,fun p => ?_⟩,?_,List.nodup_nil,fun p => ?_,?_,Nat.zero_le 2⟩
  · constructor
    · exact fun hr => (Layout.initial_role hr).1
    · rintro rfl
      exact htable
  · obtain ⟨-,rfl⟩ := Layout.initial_role hr
    trivial
  · rw [hnone i]
    rfl
  · refine ⟨nofun,?_⟩
    rintro ⟨z,hz,-⟩
    obtain ⟨-,hr⟩ := Layout.initial_role hz
    cases hr
  · rw [hfree]
    rfl
  · refine ⟨nofun,?_⟩
    rintro ⟨z,hz⟩
    obtain ⟨-,hr⟩ := Layout.initial_role hz
    cases hr
  · rw [hcount]
    rfl

/-- The pages between two aligned addresses. -/
theorem aligned_pages {b e N : Word} (hstart : WIDTH_ALIGN b CONFIG_MM_PAGE_SIZE = start)
    (hstop : WIDTH_ALIGN_DOWN e CONFIG_MM_PAGE_SIZE = stop) (hzero : start ≠ 0) (hlt : start < stop)
    (hN : (stop-start)/CONFIG_MM_PAGE_SIZE = N) :
    start.toNat = pageNo start*4096 ∧ N.toNat*4096 = stop.toNat-start.toNat ∧ 0 < N.toNat ∧
      0 < pageNo start ∧ pageNo start+N.toNat < 2^20 := by
  have hs := toNat_pageAlign b
  have hs' := toNat_alignDown e
  rw [hstart] at hs
  rw [hstop] at hs'
  rw [BitVec.lt_def] at hlt
  have hcount : N.toNat*4096 = stop.toNat-start.toNat := by
    rw [← hN,BitVec.toNat_udiv,BitVec.toNat_sub_of_le (by rw [BitVec.le_def]; omega)]
    change _/4096*4096 = _
    omega
  have hne : start.toNat ≠ 0 := fun h => hzero (BitVec.eq_of_toNat_eq h)
  have hbase : start.toNat = pageNo start*4096 := by
    rw [pageNo,hs,Nat.mul_div_cancel _ (by decide)]
  exact ⟨hbase,hcount,by omega,by omega,by omega⟩

/-- `system_heap_init` makes the heap of a region. -/
theorem Fresh.accepts (F : Fresh h₀) {b e : Word} (down : Bool)
    (hstart : WIDTH_ALIGN b CONFIG_MM_PAGE_SIZE = start)
    (hstop : WIDTH_ALIGN_DOWN e CONFIG_MM_PAGE_SIZE = stop) (hzero : start ≠ 0) (hlt : start < stop)
    (hfuel : (stop.toNat-start.toNat)/4096 < fuel) :
    ∃ (h : SlabHeap) (c : Config), (system_heap_init fuel down b e).run h₀ = some ((),h) ∧
      c.count < fuel ∧ Kept (Layout.initial c) h ∧ account h = (0,0) := by
  have hlt' : ¬stop ≤ start := BitVec.not_le.mpr hlt
  obtain ⟨N,hN⟩ : ∃ N, (stop-start)/CONFIG_MM_PAGE_SIZE = N := ⟨_,rfl⟩
  obtain ⟨hbase,hcount,hsome,hpos,hend⟩ := aligned_pages hstart hstop hzero hlt hN
  rw [BitVec.lt_def] at hlt
  have hN' : N ≠ 0 := by
    rintro rfl
    exact absurd hsome (by decide)
  have hfuel' : N.toNat < fuel := by omega
  obtain ⟨h₁,hinit,hp₁,hrest₁⟩ := page_init_partitioned hpos hend hN' hbase hfuel' down
    {h₀ with heapStart := start, heapEnd := stop}
  obtain ⟨zonePages,limit,hzones,hsize,hlimit,hpages⟩ := zoneSizeFor_config (stop-start)
  obtain ⟨hT₁,hT₂,hT₃⟩ := usagePages_bounds (N := N) (by omega) (by omega)
  generalize hT : WIDTH_ALIGN (N*4) CONFIG_MM_PAGE_SIZE/CONFIG_MM_PAGE_SIZE = T at *
  generalize hsz : zoneSizeFor (stop-start) 3 ZALLOC_MIN_ZONE_SIZE = size at *
  generalize hlm : (if ZALLOC_ZONE_LIMIT < size/4 then ZALLOC_ZONE_LIMIT else size/4) = lim at *
  generalize hpc : size/CONFIG_MM_PAGE_SIZE = cnt at *
  have hp₂ : Partitioned (pageNo start) N.toNat
      {h₁ with zoneSize := size, zoneLimit := lim, zonePageCnt := cnt} [] _ :=
    hp₁.frame (fun _ _ => rfl) rfl
  -- the first pages become `memusage`
  obtain ⟨ys,hfirst⟩ : ∃ ys, alloc T.toNat [(pageNo start,N.toNat)] = some (pageNo start,ys) :=
    alloc_of_le (by omega)
  have hT' : T ≠ 0 := by
    rintro rfl
    exact absurd hT₁ (by decide)
  rcases hp₂.page_alloc_fits hend hfuel' down hT' with ⟨hnone,-⟩ | ⟨a,h₃,p,zs,hsome,hrun,ha,-,hp₃,hw⟩
  · rw [hfirst] at hnone
    cases hnone
  rw [hfirst] at hsome
  cases hsome
  obtain rfl : a = start := BitVec.eq_of_toNat_eq (ha.trans hbase.symm)
  let c : Config := ⟨pageNo a,N.toNat,pageNo a,T.toNat,zonePages,limit,hpos,by omega,hend,hT₃,hzones⟩
  have hrest : {h₃ with mem := h₀.mem, pageList := h₀.pageList} =
      {({h₀ with heapStart := a, heapEnd := stop} : SlabHeap) with
        zoneSize := size
        zoneLimit := lim
        zonePageCnt := cnt} := by
    calc _ = {({h₃ with mem := h₁.mem, pageList := h₁.pageList} : SlabHeap) with
          mem := h₀.mem
          pageList := h₀.pageList} := rfl
      _ = {({h₁ with mem := h₀.mem, pageList := h₀.pageList} : SlabHeap) with
          zoneSize := size
          zoneLimit := lim
          zonePageCnt := cnt} := by rw [hw.rest]
      _ = _ := by rw [hrest₁]
  have hp : Partitioned c.base c.count {h₃ with memusage := a} [(c.table,c.tablePages)] ys :=
    hp₃.frame (fun _ _ => rfl) rfl
  refine ⟨{h₃ with memusage := a},c,?_,hfuel',Layout.initial_kept ⟨?_,?_,hbase,?_,?_,?_⟩ hp ?_ ?_ ?_,?_⟩
  · unfold system_heap_init
    simp only [hstart,hstop,run_bind,run_modify,Option.bind_some,if_neg hlt',hN,hinit,hsz,hlm,hpc,
      hT,hrun]
  · exact (congrArg BitVec.toNat (congrArg SlabHeap.heapStart hrest)).trans hbase
  · refine (congrArg BitVec.toNat (congrArg SlabHeap.heapEnd hrest)).trans ?_
    change stop.toNat = (pageNo a+N.toNat)*4096
    rw [Nat.add_mul,← hbase,hcount,Nat.add_sub_cancel' hlt.le]
  · exact (congrArg BitVec.toNat (congrArg SlabHeap.zoneSize hrest)).trans hsize
  · exact (congrArg BitVec.toNat (congrArg SlabHeap.zoneLimit hrest)).trans hlimit
  · exact (congrArg BitVec.toNat (congrArg SlabHeap.zonePageCnt hrest)).trans hpages
  · exact fun i => (congrFun (congrArg SlabHeap.zoneArray hrest) i).trans (F.array i)
  · exact (congrArg SlabHeap.zoneFree hrest).trans F.free
  · exact (congrArg SlabHeap.zoneFreeCnt hrest).trans F.count
  · exact (congrArg account hrest).trans F.used

/-- A heap that `system_heap_init` accepts consists of `memusage` and free pages. -/
theorem Fresh.init (F : Fresh h₀) {b e : Word}
    (hrun : (system_heap_init fuel down b e).run h₀ = some ((),h))
    (haccepted : h.heapStart < h.heapEnd) (hfuel : (e.toNat-b.toNat)/4096 < fuel) :
    ∃ c : Config, c.count < fuel ∧ Kept (Layout.initial c) h ∧ account h = (0,0) := by
  have hstart := toNat_pageAlign b
  have hstop := toNat_alignDown e
  by_cases hle : WIDTH_ALIGN_DOWN e CONFIG_MM_PAGE_SIZE ≤ WIDTH_ALIGN b CONFIG_MM_PAGE_SIZE
  · simp only [system_heap_init,run_bind,run_modify,Option.bind_some,if_pos hle,run_pure] at hrun
    cases hrun
    exact absurd haccepted (BitVec.not_lt.mpr hle)
  by_cases hzero : WIDTH_ALIGN b CONFIG_MM_PAGE_SIZE = 0
  · rw [hzero] at hle
    simp only [system_heap_init,run_bind,run_modify,Option.bind_some,hzero,if_neg hle,page_init,
      true_or,if_true,run_act,Option.bind_none] at hrun
    cases hrun
  · have hne : (WIDTH_ALIGN b CONFIG_MM_PAGE_SIZE).toNat ≠ 0 :=
      fun h => hzero (BitVec.eq_of_toNat_eq h)
    have hfuel' : ((WIDTH_ALIGN_DOWN e CONFIG_MM_PAGE_SIZE).toNat-
        (WIDTH_ALIGN b CONFIG_MM_PAGE_SIZE).toNat)/4096 < fuel := by omega
    obtain ⟨h',c,hrun',hcount,K,haccount⟩ := F.accepts down rfl rfl hzero (BitVec.not_le.mp hle)
      hfuel'
    rw [hrun] at hrun'
    cases hrun'
    exact ⟨c,hcount,K,haccount⟩

end start

end CosKernel.HeapBlocks

import CosKernel.PagePartition

/-!
# When pages can be allocated

`page_alloc` looks at one entry of the list at a time. Since adjacent free pages are always
in the same entry, it fails only when there are not enough consecutive free pages. Otherwise
it takes the front of the first run that is long enough.
-/
namespace CosKernel.PageAllocator
open IntervalFreeList SlabHeap Heap LockedPrograms LockedPrograms.Program TransitionRuns

/-- A page of the list of free pages. -/
def FreePage (h : SlabHeap) (i : ℕ) : Prop := ∃ xs, Listed h h.pageList xs ∧ i ∈ cells xs

/-- What the memory holds is one list. -/
theorem Listed.unique {h : SlabHeap} {p : Word} {xs ys : List Interval} (hx : Listed h p xs)
    (hy : Listed h p ys) : xs = ys := by
  induction xs generalizing p ys with
  | nil =>
      have hp : p = 0 := hx
      cases ys with
      | nil => rfl
      | cons y ys =>
          obtain ⟨h₁,h₂,-,-⟩ := hy
          bv_omega
  | cons x xs ih =>
      obtain ⟨h₁,h₂,h₃,hx⟩ := hx
      cases ys with
      | nil =>
          have hp : p = 0 := hy
          bv_omega
      | cons y ys =>
          obtain ⟨k₁,k₂,k₃,hy⟩ := hy
          have hfirst : x = y := Prod.ext (by omega) (by omega)
          rw [hfirst,ih hx hy]

theorem freePage_iff {h : SlabHeap} {xs : List Interval} (hx : Listed h h.pageList xs) (i : ℕ) :
    FreePage h i ↔ i ∈ cells xs := by
  constructor
  · intro ⟨ys,hy,hi⟩
    rwa [hx.unique hy]
  · intro hi
    exact ⟨xs,hx,hi⟩

/-- There are `n` consecutive free pages. -/
def HasRun (h : SlabHeap) (n : ℕ) : Prop := ∃ a, ∀ i, a ≤ i → i < a+n → FreePage h i

/-- The call returns null iff there are not enough consecutive free pages, and leaves the heap
alone then. Otherwise it takes the front of the lowest maximal run that is long enough. -/
structure FirstFit (h : SlabHeap) (n b : Word) (h' : SlabHeap) : Prop where
  null_iff : b = 0 ↔ ¬HasRun h n.toNat
  unchanged : b = 0 → h' = h
  aligned : b.toNat = pageNo b*4096
  run : b ≠ 0 → ∃ m, MaximalRun (FreePage h) (pageNo b) m ∧ n.toNat ≤ m
  lowest : b ≠ 0 → ∀ a m, MaximalRun (FreePage h) a m → n.toNat ≤ m → pageNo b ≤ a
  taken : b ≠ 0 → ∀ i, FreePage h' i ↔
    FreePage h i ∧ ¬(pageNo b ≤ i ∧ i < pageNo b+n.toNat)

section calls

variable {base N : ℕ} {h : SlabHeap} {blocks xs : List Interval} {fuel : ℕ} {n : Word}

theorem Partitioned.hasRun_iff (H : Partitioned base N h blocks xs) (hn : n ≠ 0) :
    HasRun h n.toNat ↔ ∃ x ∈ xs, n.toNat ≤ x.2 := by
  simp only [HasRun,freePage_iff H.listed]
  constructor
  · intro ⟨a,ha⟩
    obtain ⟨x,hx,h₁,h₂⟩ := H.separated.exists_entry (by bv_omega) ha
    exact ⟨x,hx,by omega⟩
  · intro ⟨x,hx,hle⟩
    exact ⟨x.1,fun i h₁ h₂ => mem_cells.mpr ⟨x,hx,h₁,by omega⟩⟩

theorem Partitioned.maximalRun_iff (H : Partitioned base N h blocks xs) {a m : ℕ} :
    MaximalRun (FreePage h) a m ↔ (a,m) ∈ xs := by
  rw [show FreePage h = (· ∈ cells xs) from funext fun i => propext (freePage_iff H.listed i)]
  exact H.separated.maximalRun_iff

/-- The cells of the list without a front part. -/
theorem Partitioned.taken (H : Partitioned base N h blocks xs) {a k : ℕ} {ys : List Interval}
    (hr : alloc k xs = some (a,ys)) (i : ℕ) :
    i ∈ cells ys ↔ i ∈ cells xs ∧ ¬(a ≤ i ∧ i < a+k) := by
  have hperm := alloc_perm hr
  have hnodup : (cells xs++cells blocks).Nodup := by
    rw [← cells_append]
    exact H.exact.nodup_iff.mpr List.nodup_range'
  have hsplit := hperm.nodup_iff.mpr hnodup.of_append_left
  rw [← hperm.mem_iff,List.mem_append,List.mem_range'_1]
  constructor
  · intro hi
    refine ⟨Or.inr hi,fun hrange => ?_⟩
    exact List.disjoint_of_nodup_append hsplit (List.mem_range'_1.mpr hrange) hi
  · intro ⟨hi,hrange⟩
    exact hi.resolve_left hrange

theorem Partitioned.page_alloc_firstFit (H : Partitioned base N h blocks xs) (hend : base+N < 2^20)
    (hfuel : N < fuel) (down : Bool) (hn : n ≠ 0) :
    ∃ b h', (Heap.page_alloc fuel down n).run h = some (b,h') ∧ FirstFit h n b h' := by
  rcases H.page_alloc_fits hend hfuel down hn with ⟨hr,hrun⟩ | ⟨b,h',a,ys,hr,hrun,hb,ha,hp,-⟩
  · refine ⟨0,h,hrun,?_,fun _ => rfl,by simp [pageNo],?_,?_,?_⟩
    · rw [H.hasRun_iff hn]
      simpa using alloc_eq_none.mp hr
    · exact fun h => absurd rfl h
    · exact fun h => absurd rfl h
    · exact fun h => absurd rfl h
  · have hzero : b ≠ 0 := by bv_omega
    obtain ⟨m,hm,hle,hmin⟩ := alloc_first H.separated hr
    have hpage : pageNo b = a := pageNo_of hb
    refine ⟨b,h',hrun,?_,fun h => absurd h hzero,by rw [hpage,hb],fun _ => ?_,fun _ => ?_,fun _ => ?_⟩
    · rw [H.hasRun_iff hn]
      exact ⟨fun h => absurd h hzero,fun h => absurd ⟨(a,m),hm,hle⟩ h⟩
    · rw [hpage]
      exact ⟨m,H.maximalRun_iff.mpr hm,hle⟩
    · intro a' m' hrun' hle'
      rw [hpage]
      exact hmin (a',m') (H.maximalRun_iff.mp hrun') hle'
    · intro i
      rw [hpage,freePage_iff hp.listed,freePage_iff H.listed]
      exact H.taken hr i

/-- The free pages are those of the region that are in no block. -/
theorem Partitioned.freePage_iff_unused (H : Partitioned base N h blocks xs) (i : ℕ) :
    FreePage h i ↔ base ≤ i ∧ i < base+N ∧ i ∉ cells blocks := by
  rw [freePage_iff H.listed]
  constructor
  · intro hi
    have hrange := H.mem_range (Or.inl hi)
    exact ⟨hrange.1,hrange.2,fun hblock => H.disjoint hi hblock⟩
  · intro ⟨h₁,h₂,hi⟩
    have hmem : i ∈ cells (xs++blocks) := H.exact.mem_iff.mpr (List.mem_range'_1.mpr ⟨h₁,h₂⟩)
    rw [cells_append,List.mem_append] at hmem
    exact hmem.resolve_right hi

end calls

/-- In every state that is reached from `page_init` the free pages are those in no block, and
`page_alloc` succeeds whenever there are enough consecutive ones. -/
theorem page_alloc_succeeds_when_possible (base N : Word) (hbase : base ≠ 0)
    (halign : base.toNat%4096 = 0) (hN : N ≠ 0) (hend : base.toNat+N.toNat*4096 < 2^32) {fuel : ℕ}
    (hfuel : N.toNat < fuel) (down : Bool) (h₀ : SlabHeap) :
    ∃ h, (page_init fuel down base N).run h₀ = some ((),h) ∧
      ∀ cs, AllSteps (step fuel down) Legal ⟨h,[]⟩ cs →
        Always (step fuel down) (fun w =>
          (∀ i, FreePage w.heap i ↔ pageNo base ≤ i ∧ i < pageNo base+N.toNat ∧
            i ∉ cells (w.blocks.map interval)) ∧
          ∀ n, n ≠ 0 → ∃ b h', (page_alloc fuel down n).run w.heap = some (b,h') ∧
            FirstFit w.heap n b h') ⟨h,[]⟩ cs := by
  refine always_from_page_init hbase halign hN hend hfuel down h₀ fun hlimit w H => ?_
  obtain ⟨xs,hx⟩ := H.partitioned
  exact ⟨hx.freePage_iff_unused,fun n hn => hx.page_alloc_firstFit hlimit hfuel down hn⟩

/-- Of six pages the first, the third and the fourth one are free in the end. -/
def fragments : List Action :=
  [.alloc 1,.alloc 1,.alloc 1,.alloc 1,.alloc 2,.free 0x100000 1,.free 0x103000 1,.free 0x102000 1]

theorem page_alloc_succeeds_when_possible_fragments :
    ((fragments.foldlM (step 7 true) ⟨sixPages,[]⟩).bind fun w =>
      ((page_alloc 7 true 2).run w.heap).map Prod.fst) = some 0x102000 ∧
    ((fragments.foldlM (step 7 true) ⟨sixPages,[]⟩).bind fun w =>
      ((page_alloc 7 true 3).run w.heap).map Prod.fst) = some 0 ∧
    Always (step 7 true) (fun w =>
      (∀ i, FreePage w.heap i ↔ pageNo 0x100000 ≤ i ∧ i < pageNo 0x100000+6 ∧
        i ∉ cells (w.blocks.map interval)) ∧
      ∀ n, n ≠ 0 → ∃ b h', (page_alloc 7 true n).run w.heap = some (b,h') ∧
        FirstFit w.heap n b h') ⟨sixPages,[]⟩ fragments := by
  refine ⟨by decide +kernel,by decide +kernel,?_⟩
  obtain ⟨h,hinit,hrun⟩ := page_alloc_succeeds_when_possible 0x100000 6 (by decide)
    (by decide) (by decide) (by decide) (show 6 < 7 by decide) true zeroHeap
  have hsix : sixPages = h := by simp only [sixPages,hinit,Option.getD_some]
  rw [hsix]
  apply hrun
  rw [← hsix]
  decide +kernel

end CosKernel.PageAllocator

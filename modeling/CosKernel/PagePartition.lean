import CosKernel.PageAllocator

/-!
# The free pages and the blocks in use

Every page of the region belongs to one entry of the free list or to one block that is in
use. `page_alloc` and `page_free` keep this, and so does a client that writes to its own
blocks. With no block in use the free list is the whole region again.
-/
namespace CosKernel.PageAllocator
open IntervalFreeList SlabHeap Heap LockedPrograms LockedPrograms.Program TransitionRuns

/-- The free list is `xs`, and with the blocks it makes up the `N` pages from `base` on. -/
structure Partitioned (base N : ℕ) (h : SlabHeap) (blocks xs : List Interval) : Prop where
  listed : Listed h h.pageList xs
  separated : Separated xs
  exact : (cells (xs++blocks)).Perm (List.range' base N)

section steps

variable {base N : ℕ} {h : SlabHeap} {blocks xs : List Interval} {fuel : ℕ}
variable {npages : Word} {a : ℕ}

@[simp] theorem run_lock (down : Bool) (h : SlabHeap) : (lock down).run h = some ((),h) := by
  cases down <;> rfl

@[simp] theorem run_unlock (down : Bool) (site : Site) (h : SlabHeap) :
    (unlock down site).run h = some ((),h) := by
  cases down <;> rfl

theorem Partitioned.mem_range (H : Partitioned base N h blocks xs) {i : ℕ}
    (hi : i ∈ cells xs ∨ i ∈ cells blocks) : base ≤ i ∧ i < base+N := by
  rw [← List.mem_range'_1,← H.exact.mem_iff,cells_append,List.mem_append]
  exact hi

/-- A block ends within the region. -/
theorem Partitioned.block_end (H : Partitioned base N h blocks xs) {x : Interval}
    (hx : x ∈ xs ∨ x ∈ blocks) (hpos : 0 < x.2) : base ≤ x.1 ∧ x.1+x.2 ≤ base+N := by
  have hcell : ∀ i, x.1 ≤ i → i < x.1+x.2 → base ≤ i ∧ i < base+N := by
    intro i h₁ h₂
    apply H.mem_range
    rcases hx with hx | hx
    · exact Or.inl (mem_cells.mpr ⟨x,hx,h₁,h₂⟩)
    · exact Or.inr (mem_cells.mpr ⟨x,hx,h₁,h₂⟩)
  have hfirst := hcell x.1 (by omega) (by omega)
  have hlast := hcell (x.1+x.2-1) (by omega) (by omega)
  omega

theorem Partitioned.disjoint (H : Partitioned base N h blocks xs) :
    List.Disjoint (cells xs) (cells blocks) := by
  have hnodup := H.exact.nodup_iff.mpr (List.nodup_range')
  rw [cells_append] at hnodup
  exact List.disjoint_of_nodup_append hnodup

theorem Partitioned.freeList (H : Partitioned base N h blocks xs) (hend : base+N < 2^20) :
    FreeList h none xs := by
  refine ⟨H.listed,H.separated,fun x hx => ?_,fun q hq => (nomatch hq)⟩
  have := (H.block_end (Or.inl hx) (H.separated.positive x hx)).2
  omega

theorem Partitioned.length_le (H : Partitioned base N h blocks xs) : xs.length ≤ N := by
  have hle := H.separated.length_le
  have hlength := H.exact.length_eq
  rw [cells_append,List.length_append,List.length_range'] at hlength
  omega

/-- `page_alloc` does to the region what first fit does to its free list. -/
theorem Partitioned.page_alloc_fits (H : Partitioned base N h blocks xs) (hend : base+N < 2^20)
    (hfuel : N < fuel) (down : Bool) (hn : npages ≠ 0) :
    alloc npages.toNat xs = none ∧ (page_alloc fuel down npages).run h = some (0,h) ∨
    ∃ b h' a ys, alloc npages.toNat xs = some (a,ys) ∧
      (page_alloc fuel down npages).run h = some (b,h') ∧ b.toNat = a*4096 ∧ 0 < a ∧
      Partitioned base N h' ((a,npages.toNat)::blocks) ys ∧ Writes (· ∈ cells xs) none h h' := by
  unfold Heap.page_alloc
  rw [if_neg hn]
  have hlength := H.length_le
  have hlt : xs.length < fuel := by omega
  obtain ⟨hnone,hsome⟩ := (H.freeList hend).pageAllocLoop_alloc hn hlt
  cases hr : alloc npages.toNat xs with
  | none => exact Or.inl ⟨rfl,by simp [hnone hr]⟩
  | some r =>
      obtain ⟨b,h',hloop,hb,hpos,hl,hw⟩ := hsome r.1 r.2 hr
      refine Or.inr ⟨b,h',r.1,r.2,rfl,by simp [hloop],hb,hpos,⟨hl,?_,?_⟩,hw⟩
      · exact alloc_separated H.separated hr
      · refine List.Perm.trans ?_ H.exact
        rw [cells_append,cells_append,cells_cons]
        calc (cells r.2++(List.range' r.1 npages.toNat++cells blocks)).Perm
              (List.range' r.1 npages.toNat++(cells r.2++cells blocks)) :=
                List.perm_append_comm_assoc ..
          _ |>.Perm (cells xs++cells blocks) := by
              rw [← List.append_assoc]
              exact (alloc_perm hr).append_right _

/-- `page_alloc` returns null, or the first page of a new block. -/
theorem Partitioned.page_alloc (H : Partitioned base N h blocks xs) (hend : base+N < 2^20)
    (hfuel : N < fuel) (down : Bool) (npages : Word) :
    (page_alloc fuel down npages).run h = some (0,h) ∨
    ∃ b h' a ys, (page_alloc fuel down npages).run h = some (b,h') ∧ npages ≠ 0 ∧
      b.toNat = a*4096 ∧ 0 < a ∧ Partitioned base N h' ((a,npages.toNat)::blocks) ys ∧
      Writes (· ∈ cells xs) none h h' := by
  by_cases hn : npages = 0
  · exact Or.inl (by simp [Heap.page_alloc,hn])
  · rcases H.page_alloc_fits hend hfuel down hn with ⟨-,hr⟩ | ⟨b,h',a,ys,-,hr,hb,ha,hp,hw⟩
    · exact Or.inl hr
    · exact Or.inr ⟨b,h',a,ys,hr,hn,hb,ha,hp,hw⟩

/-- `page_free` takes a block back. -/
theorem Partitioned.page_free (H : Partitioned base N h ((a,npages.toNat)::blocks) xs)
    (hbase : 0 < base) (hend : base+N < 2^20) (hfuel : N < fuel) (down : Bool) {addr : Word}
    (haddr : addr.toNat = a*4096) (hn : npages ≠ 0) :
    ∃ h' ys, (page_free fuel down addr npages).run h = some ((),h') ∧
      Partitioned base N h' blocks ys ∧ Writes (fun i => i = a ∨ i ∈ cells xs) none h h' := by
  have hpos : 0 < npages.toNat := by bv_omega
  have hblock := H.block_end (x := (a,npages.toNat)) (Or.inr (by simp)) hpos
  have hlength := H.length_le
  have hapart : Apart a npages.toNat xs := by
    apply apart_of_disjoint H.separated hpos
    refine List.Disjoint.symm (List.disjoint_of_subset_right (fun i hi => ?_) H.disjoint)
    simp only [cells_cons,List.mem_append]
    exact Or.inl hi
  obtain ⟨h',hloop,hl,hw⟩ := (H.freeList hend).pageFreeLoop_free npages haddr (by omega) hn
    (by simp only at hblock; omega) hapart (fun q hq => (nomatch hq)) (show xs.length < fuel by omega)
  have hassert : ¬(addr = 0 ∨ addr%CONFIG_MM_PAGE_SIZE ≠ 0 ∨ npages = 0) := by
    have hmod : addr%CONFIG_MM_PAGE_SIZE = 0 := by
      rw [← BitVec.toNat_inj,BitVec.toNat_umod,haddr]
      simp [CONFIG_MM_PAGE_SIZE]
    simp only [hmod,hn,ne_eq,not_true_eq_false,or_self,or_false]
    bv_omega
  refine ⟨h',free a npages.toNat xs,?_,⟨hl,free_separated H.separated hapart hpos,?_⟩,hw⟩
  · unfold Heap.page_free
    rw [if_neg hassert]
    simp [hloop]
  · refine List.Perm.trans ?_ H.exact
    rw [cells_append,cells_append,cells_cons]
    calc (cells (free a npages.toNat xs)++cells blocks).Perm
          (List.range' a npages.toNat++cells xs++cells blocks) := (free_perm ..).append_right _
      _ |>.Perm (cells xs++(List.range' a npages.toNat++cells blocks)) := by
          rw [List.append_assoc]
          exact List.perm_append_comm_assoc ..

/-- Writes to other pages than the free ones do not matter. -/
theorem Partitioned.frame (H : Partitioned base N h blocks xs) {h' : SlabHeap}
    (hm : ∀ x, pageNo x ∈ cells xs → h'.mem x = h.mem x) (hl : h'.pageList = h.pageList) :
    Partitioned base N h' blocks xs := by
  refine ⟨?_,H.separated,H.exact⟩
  rw [hl]
  refine H.listed.frame fun x ⟨y,hy,hx⟩ => hm x ?_
  have := H.separated.positive y hy
  exact mem_cells.mpr ⟨y,hy,by omega,by omega⟩

theorem Partitioned.perm (H : Partitioned base N h blocks xs) {blocks' : List Interval}
    (hp : blocks'.Perm blocks) : Partitioned base N h blocks' xs :=
  ⟨H.listed,H.separated,(cells_perm (hp.append_left xs)).trans H.exact⟩

end steps

/-- The heap, and the blocks in use with their numbers of pages. -/
structure World where
  heap : SlabHeap
  blocks : List (Word × Word)

inductive Action where
  | alloc (npages : Word)
  | free (addr npages : Word)
  | write (addr value : Word)
  deriving DecidableEq, Repr

def step (fuel : ℕ) (down : Bool) (w : World) : Action → Option World
  | .alloc npages =>
      ((page_alloc fuel down npages).run w.heap).map fun r =>
        ⟨r.2,if r.1 = 0 then w.blocks else (r.1,npages)::w.blocks⟩
  | .free addr npages =>
      ((page_free fuel down addr npages).run w.heap).map fun r =>
        ⟨r.2,w.blocks.erase (addr,npages)⟩
  | .write addr value => some {w with heap := w.heap.set addr value}

/-- The pages of a block. -/
def interval (x : Word × Word) : Interval := (pageNo x.1,x.2.toNat)

/-- Blocks in use are freed with their number of pages, and clients write to their blocks. -/
def Legal (w : World) : Action → Prop
  | .alloc _ => True
  | .free addr npages => (addr,npages) ∈ w.blocks
  | .write addr _ => pageNo addr ∈ cells (w.blocks.map interval)

/-- The list of free pages is sorted and has gaps, its entries and the blocks make up the
region, and when no block is in use it is the region. -/
def Sound (base N : Word) (w : World) : Prop :=
  ∃ xs, Listed w.heap w.heap.pageList xs ∧ Separated xs ∧
    (cells (xs++w.blocks.map interval)).Perm (List.range' (pageNo base) N.toNat) ∧
    (∀ x ∈ w.blocks, x.1.toNat = pageNo x.1*4096) ∧
    (w.blocks = [] → xs = [(pageNo base,N.toNat)])

structure Invariant (base N : Word) (w : World) : Prop where
  partitioned : ∃ xs, Partitioned (pageNo base) N.toNat w.heap (w.blocks.map interval) xs
  aligned : ∀ x ∈ w.blocks, x.1.toNat = pageNo x.1*4096
  nonempty : ∀ x ∈ w.blocks, x.2 ≠ 0

section runs

variable {base N : Word} {fuel : ℕ} {down : Bool} {w : World}

theorem Invariant.sound (H : Invariant base N w) (hN : N ≠ 0) : Sound base N w := by
  obtain ⟨xs,hx⟩ := H.partitioned
  refine ⟨xs,hx.listed,hx.separated,hx.exact,H.aligned,fun hnil => ?_⟩
  have hcells := hx.exact
  rw [hnil,List.map_nil,List.append_nil] at hcells
  exact hx.separated.eq_singleton (by bv_omega) hcells

variable (hbase : 0 < pageNo base) (hend : pageNo base+N.toNat < 2^20) (hfuel : N.toNat < fuel)

include hbase hend hfuel

theorem Invariant.step (H : Invariant base N w) {c : Action} (hl : Legal w c) :
    ∃ w', step fuel down w c = some w' ∧ Invariant base N w' := by
  obtain ⟨xs,hx⟩ := H.partitioned
  cases c with
  | alloc npages =>
      rcases hx.page_alloc hend hfuel down npages with hr | ⟨b,h',a,ys,hr,hn,hb,ha,hp,-⟩
      · exact ⟨w,by rw [PageAllocator.step,hr,Option.map_some,if_pos rfl],H⟩
      · have hzero : b ≠ 0 := by bv_omega
        refine ⟨⟨h',(b,npages)::w.blocks⟩,?_,⟨ys,?_⟩,?_,?_⟩
        · rw [PageAllocator.step,hr,Option.map_some,if_neg hzero]
        · rw [List.map_cons,interval,pageNo_of hb]
          exact hp
        · intro x hx
          rcases List.mem_cons.mp hx with rfl | hx
          · rw [pageNo_of hb]
            exact hb
          · exact H.aligned x hx
        · intro x hx
          rcases List.mem_cons.mp hx with rfl | hx
          · exact hn
          · exact H.nonempty x hx
  | free addr npages =>
      have hmem : (addr,npages) ∈ w.blocks := hl
      have hperm : ((pageNo addr,npages.toNat)::(w.blocks.erase (addr,npages)).map interval).Perm
          (w.blocks.map interval) := (List.perm_cons_erase hmem).symm.map interval
      have haddr : addr.toNat = pageNo addr*4096 := H.aligned (addr,npages) hmem
      have hn : npages ≠ 0 := H.nonempty (addr,npages) hmem
      obtain ⟨h',ys,hr,hp,-⟩ := (hx.perm hperm).page_free hbase hend hfuel down haddr hn
      refine ⟨⟨h',w.blocks.erase (addr,npages)⟩,by simp [PageAllocator.step,hr],⟨ys,hp⟩,?_,?_⟩
      · exact fun x hx => H.aligned x (List.mem_of_mem_erase hx)
      · exact fun x hx => H.nonempty x (List.mem_of_mem_erase hx)
  | write addr value =>
      have hsame : ∀ y, pageNo y ∈ cells xs → (w.heap.set addr value).mem y = w.heap.mem y := by
        intro y hy
        refine mem_set_of_ne fun heq => hx.disjoint hy ?_
        rw [heq]
        exact hl
      exact ⟨{w with heap := w.heap.set addr value},rfl,⟨xs,hx.frame hsame rfl⟩,H.aligned,H.nonempty⟩

omit hfuel in
/-- `page_init` makes the region one entry of the list. -/
theorem page_init_partitioned (hN : N ≠ 0) (haddr : base.toNat = pageNo base*4096)
    (hfuel : N.toNat < fuel) (down : Bool) (h : SlabHeap) :
    ∃ h', (page_init fuel down base N).run h = some ((),h') ∧
      Partitioned (pageNo base) N.toNat h' [] [(pageNo base,N.toNat)] ∧
      {h' with mem := h.mem, pageList := h.pageList} = h := by
  have hempty : Partitioned (pageNo base) N.toNat {h with pageList := 0} [(pageNo base,N.toNat)] [] :=
    ⟨rfl,Separated.nil,by simp⟩
  obtain ⟨h',ys,hr,hp,hw⟩ := hempty.page_free hbase hend hfuel down haddr hN
  have hcells := hp.exact
  rw [List.append_nil] at hcells
  obtain rfl := hp.separated.eq_singleton (by bv_omega) hcells
  refine ⟨h',?_,hp,?_⟩
  · unfold page_init
    have hzero : base ≠ 0 := by
      rintro rfl
      simp [pageNo] at hbase
    rw [if_neg (by simp only [hzero,hN,or_self,not_false_iff]),run_bind,run_modify]
    exact hr
  · calc _ = {({h' with mem := h.mem, pageList := 0} : SlabHeap) with pageList := h.pageList} := rfl
      _ = h := by rw [hw.rest]

omit hfuel in
theorem page_init_invariant (hN : N ≠ 0) (haddr : base.toNat = pageNo base*4096)
    (hfuel : N.toNat < fuel) (down : Bool) (h : SlabHeap) :
    ∃ h', (page_init fuel down base N).run h = some ((),h') ∧ Invariant base N ⟨h',[]⟩ := by
  obtain ⟨h',hr,hp,-⟩ := page_init_partitioned hbase hend hN haddr hfuel down h
  exact ⟨h',hr,⟨_,hp⟩,by simp,by simp⟩

end runs

/-- What the invariant says holds in every state that is reached from `page_init`. -/
theorem always_from_page_init {P : World → Prop} {base N : Word} (hbase : base ≠ 0)
    (halign : base.toNat%4096 = 0) (hN : N ≠ 0) (hend : base.toNat+N.toNat*4096 < 2^32) {fuel : ℕ}
    (hfuel : N.toNat < fuel) (down : Bool) (h₀ : SlabHeap)
    (hP : pageNo base+N.toNat < 2^20 → ∀ w, Invariant base N w → P w) :
    ∃ h, (page_init fuel down base N).run h₀ = some ((),h) ∧
      ∀ cs, AllSteps (step fuel down) Legal ⟨h,[]⟩ cs → Always (step fuel down) P ⟨h,[]⟩ cs := by
  have haddr : base.toNat = pageNo base*4096 := by
    unfold pageNo
    omega
  have hpos : 0 < pageNo base := by
    unfold pageNo
    bv_omega
  have hlimit : pageNo base+N.toNat < 2^20 := by omega
  obtain ⟨h,hinit,H⟩ := page_init_invariant hpos hlimit hN haddr hfuel down h₀
  refine ⟨h,hinit,fun cs hlegal => ?_⟩
  exact always_of_invariant (hP hlimit) (fun _ _ H hl => H.step hpos hlimit hfuel hl) H hlegal

/-- From `page_init` on, every run of `page_alloc` and `page_free` keeps the free list sorted
and merged, the free pages and the blocks in use make up the region, and no assertion fails. -/
theorem page_allocator_partitions (base N : Word) (hbase : base ≠ 0)
    (halign : base.toNat%4096 = 0) (hN : N ≠ 0) (hend : base.toNat+N.toNat*4096 < 2^32) {fuel : ℕ}
    (hfuel : N.toNat < fuel) (down : Bool) (h₀ : SlabHeap) :
    ∃ h, (page_init fuel down base N).run h₀ = some ((),h) ∧
      ∀ cs, AllSteps (step fuel down) Legal ⟨h,[]⟩ cs →
        Always (step fuel down) (Sound base N) ⟨h,[]⟩ cs :=
  always_from_page_init hbase halign hN hend hfuel down h₀ fun _ _ H => H.sound hN

instance (w : World) : ∀ c, Decidable (Legal w c)
  | .alloc _ => .isTrue trivial
  | .free addr npages => inferInstanceAs (Decidable ((addr,npages) ∈ w.blocks))
  | .write addr _ => inferInstanceAs (Decidable (pageNo addr ∈ cells (w.blocks.map interval)))

/-- Six pages after `page_init`. -/
def sixPages : SlabHeap :=
  (((page_init 7 true 0x100000 6).run zeroHeap).getD ((),zeroHeap)).2

/-- Three blocks are taken and written to. The first and the last one are freed, and then the
middle one, which is merged with both. -/
def mergeBoth : List Action :=
  [.alloc 2,.alloc 1,.alloc 3,.alloc 1,.write 0x100000 7,.write 0x102004 9,.free 0x100000 2,
    .free 0x103000 3,.free 0x102000 1]

theorem page_allocator_partitions_mergeBoth :
    ((mergeBoth.foldlM (step 7 true) ⟨sixPages,[]⟩).map fun w =>
      (w.blocks,w.heap.pageList,w.heap.page w.heap.pageList,w.heap.next w.heap.pageList)) =
      some ([],0x100000,6,0) ∧
    Always (step 7 true) (Sound 0x100000 6) ⟨sixPages,[]⟩ mergeBoth := by
  refine ⟨by decide +kernel,?_⟩
  obtain ⟨h,hinit,hrun⟩ := page_allocator_partitions 0x100000 6 (by decide)
    (by decide) (by decide) (by decide) (show 6 < 7 by decide) true zeroHeap
  have hsix : sixPages = h := by simp only [sixPages,hinit,Option.getD_some]
  rw [hsix]
  apply hrun
  rw [← hsix]
  decide +kernel

end CosKernel.PageAllocator

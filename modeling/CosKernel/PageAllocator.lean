import CosKernel.IntervalFreeList
import CosKernel.SlabHeap
import CosKernel.TransitionRuns

/-!
# The page allocator

`page_alloc` and `page_free` walk the list of free pages in memory. Over the page numbers
this is a sorted free list of intervals, and both functions do to it what first fit and
merging do. They write only to free pages, to the pages that are freed, and to `page_list`.
-/
namespace CosKernel.PageAllocator
open IntervalFreeList SlabHeap Heap LockedPrograms LockedPrograms.Program TransitionRuns

/-- The number of the page of an address. -/
def pageNo (x : Word) : ℕ := x.toNat/4096

/-- From `p` on the memory holds the list `xs` of free pages. -/
def Listed (h : SlabHeap) : Word → List Interval → Prop
  | p,[] => p = 0
  | p,x::xs => p.toNat = x.1*4096 ∧ 0 < x.1 ∧ (h.page p).toNat = x.2 ∧ Listed h (h.next p) xs

/-- Outside of the pages in `S` and of the cell `prev` nothing has changed. -/
structure Writes (S : ℕ → Prop) (prev : Option Word) (h h' : SlabHeap) : Prop where
  mem : ∀ x, ¬S (pageNo x) → prev ≠ some x → h'.mem x = h.mem x
  list : prev ≠ none → h'.pageList = h.pageList
  rest : {h' with mem := h.mem, pageList := h.pageList} = h

section frames

variable {S T : ℕ → Prop} {prev : Option Word} {h h' h'' : SlabHeap} {p x v : Word} {a n : ℕ}
variable {xs : List Interval}

theorem pageNo_of (hp : p.toNat = a*4096) : pageNo p = a := by
  unfold pageNo
  omega

theorem pageNo_field (hp : p.toNat = a*4096) : pageNo (p+4) = a := by
  unfold pageNo
  bv_omega

theorem field_ne (p : Word) : p+4 ≠ p := by bv_omega

theorem mem_set_self : (h.set x v).mem x = v := by simp [SlabHeap.set]

theorem mem_set_of_ne {y : Word} (hy : y ≠ x) : (h.set x v).mem y = h.mem y := by
  simp [SlabHeap.set,hy]

theorem toNat_pages {npages : Word} (hp : p.toNat = a*4096) (hn : npages.toNat = n)
    (hlt : a+n < 2^20) : (pages p npages).toNat = (a+n)*4096 := by
  unfold pages CONFIG_MM_PAGE_SIZE
  bv_omega

theorem Writes.trans (H : Writes S prev h h') (H' : Writes S prev h' h'') : Writes S prev h h'' := by
  refine ⟨fun x hx hp => (H'.mem x hx hp).trans (H.mem x hx hp),
    fun hp => (H'.list hp).trans (H.list hp),?_⟩
  have := H'.rest
  rw [← H.rest,← H'.rest]

theorem Writes.mono (H : Writes S prev h h') (hST : ∀ a, S a → T a) : Writes T prev h h' :=
  ⟨fun x hx hp => H.mem x (fun hs => hx (hST _ hs)) hp,H.list,H.rest⟩

theorem writes_set (hx : S (pageNo x)) : Writes S prev h (h.set x v) := by
  refine ⟨fun y hy _ => mem_set_of_ne ?_,fun _ => rfl,rfl⟩
  rintro rfl
  exact hy hx

theorem writes_setLink : Writes S prev h (h.setLink prev v) := by
  cases prev with
  | none => exact ⟨fun _ _ _ => rfl,fun hp => absurd rfl hp,rfl⟩
  | some q =>
      refine ⟨fun y _ hy => mem_set_of_ne ?_,fun _ => rfl,rfl⟩
      rintro rfl
      exact hy rfl

@[simp] theorem link_setLink : (h.setLink prev v).link prev = v := by
  cases prev with
  | none => rfl
  | some q => exact mem_set_self

theorem mem_setLink (hx : prev ≠ some x) : (h.setLink prev v).mem x = h.mem x :=
  (writes_setLink (S := fun _ => False)).mem x id hx

/-- The list depends on the first pages of its entries only. -/
theorem Listed.frame (hl : Listed h p xs)
    (hm : ∀ x, (∃ y ∈ xs, pageNo x = y.1) → h'.mem x = h.mem x) : Listed h' p xs := by
  induction xs generalizing p with
  | nil => exact hl
  | cons y ys ih =>
      obtain ⟨hp,hpos,hpage,hnext⟩ := hl
      refine ⟨hp,hpos,?_,?_⟩
      · rw [SlabHeap.page,hm (p+4) ⟨y,by simp,pageNo_field hp⟩]
        exact hpage
      · rw [SlabHeap.next,hm p ⟨y,by simp,pageNo_of hp⟩]
        apply ih hnext
        intro x ⟨z,hz,hx⟩
        exact hm x ⟨z,by simp [hz],hx⟩

end frames

/-- The cell `prev` begins the list `xs`, which lies within the address space, and is not
itself in one of the free pages. -/
structure FreeList (h : SlabHeap) (prev : Option Word) (xs : List Interval) : Prop where
  listed : Listed h (h.link prev) xs
  separated : Separated xs
  bound : ∀ x ∈ xs, x.1+x.2 < 2^20
  cell : ∀ q, prev = some q → pageNo q ∉ cells xs

namespace FreeList

variable {h : SlabHeap} {prev : Option Word} {x : Interval} {xs : List Interval}

theorem head_mem (H : FreeList h prev (x::xs)) : x.1 ∈ cells (x::xs) :=
  mem_cells.mpr ⟨x,by simp,le_rfl,by have := H.separated.positive x (by simp); omega⟩

/-- The list behind the first entry begins in its field `next`. -/
theorem tail (H : FreeList h prev (x::xs)) : FreeList h (some (h.link prev)) xs := by
  obtain ⟨hp,-,-,hnext⟩ := H.listed
  refine ⟨hnext,(separated_cons.mp H.separated).2.2,fun y hy => H.bound y (by simp [hy]),?_⟩
  intro q hq hmem
  rw [← Option.some.inj hq,pageNo_of hp] at hmem
  have := H.separated.cells_gt hmem
  omega

/-- The headers of the later entries are neither in the cell nor in the first entry. -/
theorem later_ne (H : FreeList h prev (x::xs)) {y : Word} (hy : ∃ z ∈ xs, pageNo y = z.1) :
    x.1+x.2 < pageNo y ∧ prev ≠ some y := by
  obtain ⟨z,hz,hy⟩ := hy
  obtain ⟨-,hgap,hxs⟩ := separated_cons.mp H.separated
  refine ⟨by rw [hy]; exact hgap z hz,fun hq => H.cell y hq ?_⟩
  have := hxs.positive z hz
  exact mem_cells.mpr ⟨z,by simp [hz],by omega,by omega⟩

/-- Memory that a walk through the tail has written belongs to the whole list. -/
theorem writes_tail (H : FreeList h prev (x::xs)) {S : ℕ → Prop} {h' : SlabHeap}
    (hS : ∀ i ∈ cells (x::xs), S i) (hw : Writes S (some (h.link prev)) h h') :
    Writes S prev h h' := by
  refine ⟨fun y hy _ => hw.mem y hy ?_,fun _ => hw.list (by simp),hw.rest⟩
  intro hq
  apply hy
  rw [← Option.some.inj hq,pageNo_of H.listed.1]
  exact hS _ H.head_mem

/-- The first entry is still there when a walk through the tail has come back with `ys`. -/
theorem cons_listed (H : FreeList h prev (x::xs)) {S : ℕ → Prop} {h' : SlabHeap} {ys : List Interval}
    (hw : Writes S (some (h.link prev)) h h') (hx : ¬S x.1) (hprev : ∀ q, prev = some q → ¬S (pageNo q))
    (hl : Listed h' (h'.link (some (h.link prev))) ys) : Listed h' (h'.link prev) (x::ys) := by
  obtain ⟨hp,hpos,hpage,-⟩ := H.listed
  have hlink : h'.link prev = h.link prev := by
    cases hq : prev with
    | none => exact hw.list (by simp)
    | some q =>
        refine hw.mem q (hprev q hq) fun hne => ?_
        have hcell := H.cell q hq
        rw [← Option.some.inj hne,pageNo_of hp] at hcell
        exact hcell H.head_mem
  rw [hlink]
  refine ⟨hp,hpos,?_,hl⟩
  rw [SlabHeap.page,hw.mem _ (by rwa [pageNo_field hp]) fun hq => field_ne _ (Option.some.inj hq).symm]
  exact hpage

/-- An entry is replaced by its rest. -/
theorem split (H : FreeList h prev (x::xs)) {npages : Word} (hn : npages ≠ 0)
    (hlt : npages.toNat < x.2) :
    let b := h.link prev
    let n := pages b npages
    let h₁ := h.setNext n (h.next b)
    let h' := (h₁.setPage n (h₁.page b-npages)).setLink prev n
    Listed h' (h'.link prev) ((x.1+npages.toNat,x.2-npages.toNat)::xs) ∧
      Writes (· ∈ cells (x::xs)) prev h h' := by
  intro b n h₁ h'
  obtain ⟨hp,hpos,hpage,hnext⟩ := H.listed
  have hbound := H.bound x (by simp)
  have hnat : 0 < npages.toNat := by bv_omega
  have hnp : n.toNat = (x.1+npages.toNat)*4096 := toNat_pages hp rfl (by omega)
  have hcell : x.1+npages.toNat ∈ cells (x::xs) :=
    mem_cells.mpr ⟨x,by simp,by omega,by omega⟩
  have hprev : ∀ y, pageNo y = x.1+npages.toNat → prev ≠ some y := by
    intro y hy hq
    apply H.cell y hq
    rwa [hy]
  have hb₁ : h₁.page b = h.page b := by
    refine mem_set_of_ne fun heq => ?_
    have := pageNo_field hp
    rw [show h.link prev+4 = n from heq,pageNo_of hnp] at this
    omega
  have hw : Writes (· ∈ cells (x::xs)) prev h h' := by
    refine Writes.trans (writes_set ?_) (Writes.trans (writes_set ?_) writes_setLink)
    · rwa [pageNo_of hnp]
    · rwa [pageNo_field hnp]
  refine ⟨?_,hw⟩
  rw [link_setLink]
  refine ⟨hnp,by simp only; omega,?_,?_⟩
  · have hfield : h'.page n = h.page b-npages := by
      rw [SlabHeap.page,mem_setLink (hprev _ (pageNo_field hnp)),setPage,mem_set_self,hb₁]
    rw [hfield]
    change (h.page (h.link prev)-npages).toNat = x.2-npages.toNat
    bv_omega
  · have hfield : h'.next n = h.next b := by
      rw [SlabHeap.next,mem_setLink (hprev _ (pageNo_of hnp)),setPage,
        mem_set_of_ne (field_ne n).symm]
      exact mem_set_self
    rw [hfield]
    refine hnext.frame fun y hy => ?_
    obtain ⟨hgt,hne⟩ := H.later_ne hy
    have hny : pageNo y ≠ x.1+npages.toNat := by omega
    have hfar : y ≠ n+4 := by
      rintro rfl
      exact hny (pageNo_field hnp)
    have hnear : y ≠ n := by
      rintro rfl
      exact hny (pageNo_of hnp)
    rw [mem_setLink hne,setPage,mem_set_of_ne hfar]
    exact mem_set_of_ne hnear

/-- An entry is taken out. -/
theorem remove (H : FreeList h prev (x::xs)) :
    let h' := h.setLink prev (h.next (h.link prev))
    Listed h' (h'.link prev) xs ∧ Writes (· ∈ cells (x::xs)) prev h h' := by
  intro h'
  refine ⟨?_,writes_setLink⟩
  rw [link_setLink]
  refine H.listed.2.2.2.frame fun y hy => ?_
  exact mem_setLink (H.later_ne hy).2

/-- `page_alloc` is first fit. -/
theorem pageAllocLoop_alloc {npages : Word} (hn : npages ≠ 0) {fuel : ℕ} (H : FreeList h prev xs)
    (hfuel : xs.length < fuel) :
    (alloc npages.toNat xs = none → pageAllocLoop npages fuel h prev = some (0,h)) ∧
    ∀ a ys, alloc npages.toNat xs = some (a,ys) → ∃ b h',
      pageAllocLoop npages fuel h prev = some (b,h') ∧ b.toNat = a*4096 ∧ 0 < a ∧
      Listed h' (h'.link prev) ys ∧ Writes (· ∈ cells xs) prev h h' := by
  induction xs generalizing prev fuel with
  | nil =>
      cases fuel with
      | zero => simp at hfuel
      | succ fuel =>
          have hlink : h.link prev = 0 := H.listed
          simp [alloc,pageAllocLoop,hlink]
  | cons x xs ih =>
      cases fuel with
      | zero => simp at hfuel
      | succ fuel =>
          obtain ⟨hp,hpos,hpage,hnext⟩ := H.listed
          have hbound := H.bound x (by simp)
          have hb : h.link prev ≠ 0 := by bv_omega
          have hlt : npages < h.page (h.link prev) ↔ npages.toNat < x.2 := by
            rw [BitVec.lt_def,hpage]
          have heq : h.page (h.link prev) = npages ↔ x.2 = npages.toNat := by
            rw [← hpage,BitVec.toNat_eq]
          simp only [alloc,pageAllocLoop,hb,↓reduceIte,hlt,heq]
          split_ifs with h₁ h₂
          · refine ⟨False.elim,fun a ys hr => ?_⟩
            obtain ⟨rfl,rfl⟩ := Prod.mk.inj (Option.some.inj hr)
            obtain ⟨hl,hw⟩ := H.split hn h₁
            exact ⟨_,_,rfl,hp,hpos,hl,hw⟩
          · refine ⟨False.elim,fun a ys hr => ?_⟩
            obtain ⟨rfl,rfl⟩ := Prod.mk.inj (Option.some.inj hr)
            obtain ⟨hl,hw⟩ := H.remove
            exact ⟨_,_,rfl,hp,hpos,hl,hw⟩
          · obtain ⟨hnone,hsome⟩ := ih H.tail (by simpa using hfuel)
            refine ⟨fun hr => hnone (by simpa using hr),fun a ys hr => ?_⟩
            obtain ⟨r,hxs,hr'⟩ := Option.map_eq_some_iff.mp hr
            obtain ⟨rfl,rfl⟩ := Prod.mk.inj hr'
            obtain ⟨b,h',hloop,hb,ha,hl,hw⟩ := hsome r.1 r.2 hxs
            have hmono : ∀ i ∈ cells xs, i ∈ cells (x::xs) := fun i hi => by simp [hi]
            refine ⟨b,h',hloop,hb,ha,?_,H.writes_tail (fun _ hi => hi) (hw.mono hmono)⟩
            refine H.cons_listed hw (fun hx => ?_) (fun q hq hx => H.cell q hq (hmono _ hx)) hl
            have := H.separated.cells_gt hx
            omega

section free

variable {n : Word} (npages : Word) {a : ℕ}

/-- The header of a new entry in the page `a` is none of those in the list. -/
theorem header (H : FreeList h prev xs) (hn : n.toNat = a*4096) (ha : a ∉ cells xs)
    {y : Word} (hy : ∃ z ∈ xs, pageNo y = z.1) :
    y ≠ n ∧ y ≠ n+4 ∧ prev ≠ some y := by
  obtain ⟨z,hz,hy⟩ := hy
  have hmem : pageNo y ∈ cells xs := by
    have := H.separated.positive z hz
    exact mem_cells.mpr ⟨z,hz,by omega,by omega⟩
  refine ⟨?_,?_,fun hq => H.cell y hq hmem⟩
  · rintro rfl
    rw [pageNo_of hn] at hmem
    exact ha hmem
  · rintro rfl
    rw [pageNo_field hn] at hmem
    exact ha hmem

/-- An entry is added in front. -/
theorem enter (H : FreeList h prev xs) (hn : n.toNat = a*4096) (hpos : 0 < a) (ha : a ∉ cells xs)
    (hcell : ∀ q, prev = some q → pageNo q ≠ a) :
    let h' := h.pageEnter prev (h.link prev) n npages
    Listed h' (h'.link prev) ((a,npages.toNat)::xs) ∧
      Writes (fun i => i = a ∨ i ∈ cells xs) prev h h' := by
  intro h'
  have hw : Writes (fun i => i = a ∨ i ∈ cells xs) prev h h' := by
    refine Writes.trans (writes_set (Or.inl (pageNo_field hn))) (Writes.trans (writes_set ?_)
      writes_setLink)
    exact Or.inl (pageNo_of hn)
  have hprev : ∀ y, pageNo y = a → prev ≠ some y := fun y hy hq => hcell y hq hy
  refine ⟨?_,hw⟩
  have hlink : h'.link prev = n := link_setLink
  rw [hlink]
  refine ⟨hn,hpos,?_,?_⟩
  · rw [SlabHeap.page]
    change (SlabHeap.mem (setLink _ prev n) (n+4)).toNat = _
    rw [mem_setLink (hprev _ (pageNo_field hn)),setNext,mem_set_of_ne (field_ne n),setPage,
      mem_set_self]
  · have hnext : h'.next n = h.link prev := by
      rw [SlabHeap.next]
      change SlabHeap.mem (setLink _ prev n) n = _
      rw [mem_setLink (hprev _ (pageNo_of hn)),setNext,mem_set_self]
    rw [hnext]
    refine H.listed.frame fun y hy => ?_
    obtain ⟨h₁,h₂,h₃⟩ := H.header hn ha hy
    change SlabHeap.mem (setLink _ prev n) y = _
    rw [mem_setLink h₃,setNext,mem_set_of_ne h₁,setPage,mem_set_of_ne h₂]

/-- The first entry begins earlier. -/
theorem join (H : FreeList h prev (x::xs)) (hn : n.toNat = a*4096) (hpos : 0 < a)
    (ha : a ∉ cells (x::xs)) (hcell : ∀ q, prev = some q → pageNo q ≠ a)
    (hbound : x.2+npages.toNat < 2^20) :
    let h₁ := h.setPage n (h.page (h.link prev)+npages)
    let h' := (h₁.setNext n (h₁.next (h.link prev))).setLink prev n
    Listed h' (h'.link prev) ((a,x.2+npages.toNat)::xs) ∧
      Writes (fun i => i = a ∨ i ∈ cells (x::xs)) prev h h' := by
  intro h₁ h'
  obtain ⟨hp,-,hpage,hnext⟩ := H.listed
  have hw : Writes (fun i => i = a ∨ i ∈ cells (x::xs)) prev h h' := by
    refine Writes.trans (writes_set (Or.inl (pageNo_field hn))) (Writes.trans (writes_set ?_)
      writes_setLink)
    exact Or.inl (pageNo_of hn)
  have hprev : ∀ y, pageNo y = a → prev ≠ some y := fun y hy hq => hcell y hq hy
  have hb : h₁.next (h.link prev) = h.next (h.link prev) := by
    refine mem_set_of_ne fun heq => ha ?_
    have := pageNo_of hp
    rw [heq,pageNo_field hn] at this
    rw [this]
    exact H.head_mem
  refine ⟨?_,hw⟩
  rw [link_setLink]
  refine ⟨hn,hpos,?_,?_⟩
  · have hfield : h'.page n = h.page (h.link prev)+npages := by
      rw [SlabHeap.page,mem_setLink (hprev _ (pageNo_field hn)),setNext,mem_set_of_ne (field_ne n)]
      exact mem_set_self
    rw [hfield]
    simp only
    bv_omega
  · have hfield : h'.next n = h.next (h.link prev) := by
      rw [SlabHeap.next,mem_setLink (hprev _ (pageNo_of hn)),setNext,mem_set_self,hb]
    rw [hfield]
    refine hnext.frame fun y ⟨z,hz,hy⟩ => ?_
    obtain ⟨h₂,h₃,h₄⟩ := H.header hn ha (y := y) ⟨z,by simp [hz],hy⟩
    rw [mem_setLink h₄,setNext,mem_set_of_ne h₂]
    exact mem_set_of_ne h₃

/-- Only fields of the first entry change: its number of pages and its successor. -/
theorem replace (H : FreeList h prev (x::xs)) {h' : SlabHeap} {m : ℕ} {ys : List Interval}
    (hmem : ∀ y, y ≠ h.link prev → y ≠ h.link prev+4 → h'.mem y = h.mem y)
    (hlist : h'.pageList = h.pageList) (hpage : (h'.page (h.link prev)).toNat = m)
    (hl : Listed h (h'.next (h.link prev)) ys) (hys : ∀ y ∈ ys, y ∈ xs) :
    Listed h' (h'.link prev) ((x.1,m)::ys) := by
  obtain ⟨hp,hpos,-,-⟩ := H.listed
  have hlink : h'.link prev = h.link prev := by
    cases hq : prev with
    | none => exact hlist
    | some q =>
        have hcell := H.cell q hq
        refine hmem q ?_ ?_
        · intro heq
          rw [heq,pageNo_of hp] at hcell
          exact hcell H.head_mem
        · intro heq
          rw [heq,pageNo_field hp] at hcell
          exact hcell H.head_mem
  rw [hlink]
  refine ⟨hp,hpos,hpage,hl.frame fun y ⟨z,hz,hy⟩ => ?_⟩
  have hgt := (H.later_ne (y := y) ⟨z,hys z hz,hy⟩).1
  refine hmem y ?_ ?_
  · rintro rfl
    rw [pageNo_of hp] at hgt
    omega
  · rintro rfl
    rw [pageNo_field hp] at hgt
    omega

/-- The first entry grows, and the entry behind it stays apart. -/
theorem extend (H : FreeList h prev (x::xs)) (hbound : x.1+x.2+npages.toNat < 2^20) :
    let h' := h.setPage (h.link prev) (h.page (h.link prev)+npages)
    Listed h' (h'.link prev) ((x.1,x.2+npages.toNat)::xs) ∧
      Writes (· ∈ cells (x::xs)) prev h h' := by
  intro h'
  obtain ⟨hp,-,hpage,hnext⟩ := H.listed
  have hw : Writes (· ∈ cells (x::xs)) prev h h' :=
    writes_set (by rw [pageNo_field hp]; exact H.head_mem)
  have hfield : h'.page (h.link prev) = h.page (h.link prev)+npages := mem_set_self
  have hsame : h'.next (h.link prev) = h.next (h.link prev) := mem_set_of_ne (field_ne _).symm
  refine ⟨H.replace (fun y _ hy => mem_set_of_ne hy) rfl ?_ ?_ fun _ hy => hy,hw⟩
  · rw [hfield]
    bv_omega
  · rw [hsame]
    exact hnext

/-- The first entry grows up to the next one and takes it in. -/
theorem merge {y : Interval} (H : FreeList h prev (x::y::xs))
    (hgap : x.1+x.2+npages.toNat = y.1) :
    let b := h.link prev
    let h₁ := h.setPage b (h.page b+npages)
    let h₂ := h₁.setPage b (h₁.page b+h₁.page (h₁.next b))
    let h' := h₂.setNext b (h₂.next (h₂.next b))
    Listed h' (h'.link prev) ((x.1,x.2+npages.toNat+y.2)::xs) ∧
      Writes (· ∈ cells (x::y::xs)) prev h h' := by
  intro b h₁ h₂ h'
  obtain ⟨hp,-,hpage,hp',-,hpage',hnext'⟩ := H.listed
  have hy := H.bound y (by simp)
  have hypos := H.separated.positive y (by simp)
  have hmem₁ : ∀ z, z ≠ b+4 → h₁.mem z = h.mem z := fun z hz => mem_set_of_ne hz
  have hmem₂ : ∀ z, z ≠ b+4 → h₂.mem z = h.mem z := fun z hz =>
    (mem_set_of_ne hz).trans (hmem₁ z hz)
  have hfar : ∀ z, pageNo z = y.1 → z ≠ b ∧ z ≠ b+4 := by
    intro z hz
    have hgt := (H.later_ne (y := z) ⟨y,by simp,hz⟩).1
    constructor
    · rintro rfl
      rw [pageNo_of hp] at hgt
      omega
    · rintro rfl
      rw [pageNo_field hp] at hgt
      omega
  have hself₁ : h₁.page b = h.page b+npages := mem_set_self
  have hnext₁ : h₁.next b = h.next b := hmem₁ b (field_ne b).symm
  have hnext₂ : h₂.next b = h.next b := hmem₂ b (field_ne b).symm
  have hpage₁ : h₁.page (h.next b) = h.page (h.next b) := hmem₁ _ (hfar _ (pageNo_field hp')).2
  have hback : h₂.next (h.next b) = h.next (h.next b) := hmem₂ _ (hfar _ (pageNo_of hp')).2
  have hw : Writes (· ∈ cells (x::y::xs)) prev h h' := by
    have hcell : pageNo (b+4) ∈ cells (x::y::xs) := by
      rw [pageNo_field hp]
      exact H.head_mem
    refine Writes.trans (writes_set hcell) (Writes.trans (writes_set hcell) (writes_set ?_))
    rw [pageNo_of hp]
    exact H.head_mem
  refine ⟨H.replace (fun z hz hz' => (mem_set_of_ne hz).trans (hmem₂ z hz')) rfl ?_ ?_ ?_,hw⟩
  · have hfield : h'.page b = h₁.page b+h₁.page (h₁.next b) :=
      (mem_set_of_ne (field_ne b)).trans mem_set_self
    rw [hfield,hself₁,hnext₁,hpage₁]
    change (h.page (h.link prev)+npages+h.page (h.next (h.link prev))).toNat = _
    bv_omega
  · have hfield : h'.next b = h₂.next (h₂.next b) := mem_set_self
    rw [hfield,hnext₂,hback]
    exact hnext'
  · intro z hz
    simp [hz]

theorem pageGrow_grow (H : FreeList h prev (x::xs)) (hbound : x.1+x.2+npages.toNat < 2^20) :
    ∃ h', h.pageGrow (h.link prev) npages = some h' ∧
      Listed h' (h'.link prev) (grow x npages.toNat xs) ∧
      Writes (· ∈ cells (x::xs)) prev h h' := by
  obtain ⟨hp,hpos,hpage,hnext⟩ := H.listed
  have hself : (h.setPage (h.link prev) (h.page (h.link prev)+npages)).page (h.link prev) =
      h.page (h.link prev)+npages := mem_set_self
  have hsame : (h.setPage (h.link prev) (h.page (h.link prev)+npages)).next (h.link prev) =
      h.next (h.link prev) := mem_set_of_ne (field_ne _).symm
  have hend : (pages (h.link prev) (h.page (h.link prev)+npages)).toNat =
      (x.1+(x.2+npages.toNat))*4096 := toNat_pages hp (by bv_omega) (by omega)
  obtain ⟨hl,hw⟩ := H.extend npages hbound
  unfold pageGrow
  simp only [hself,hsame]
  cases xs with
  | nil =>
      have hzero : h.next (h.link prev) = 0 := hnext
      rw [if_neg (by bv_omega)]
      exact ⟨_,rfl,hl,hw⟩
  | cons y ys =>
      obtain ⟨hp',hpos',-,-⟩ := hnext
      simp only [grow]
      by_cases hgap : x.1+x.2+npages.toNat = y.1
      · obtain ⟨hl',hw'⟩ := H.merge npages hgap
        simp only [hself,hsame] at hl' hw'
        rw [if_pos (by bv_omega),if_neg (by bv_omega),if_pos hgap]
        exact ⟨_,rfl,hl',hw'⟩
      · rw [if_neg (by bv_omega),if_neg hgap]
        exact ⟨_,rfl,hl,hw⟩

/-- `page_free` is `free`, and none of its assertions fails. -/
theorem pageFreeLoop_free (hn : n.toNat = a*4096) (hpos : 0 < a) (hnp : npages ≠ 0)
    (hbound : a+npages.toNat < 2^20) {fuel : ℕ} (H : FreeList h prev xs)
    (hapart : Apart a npages.toNat xs) (hcell : ∀ q, prev = some q → pageNo q ≠ a)
    (hfuel : xs.length < fuel) :
    ∃ h', pageFreeLoop n npages fuel h prev = some h' ∧
      Listed h' (h'.link prev) (free a npages.toNat xs) ∧
      Writes (fun i => i = a ∨ i ∈ cells xs) prev h h' := by
  have hnat : 0 < npages.toNat := by bv_omega
  have hafter : (pages n npages).toNat = (a+npages.toNat)*4096 := toNat_pages hn rfl hbound
  induction xs generalizing prev fuel with
  | nil =>
      cases fuel with
      | zero => simp at hfuel
      | succ fuel =>
          have hlink : h.link prev = 0 := H.listed
          obtain ⟨hl,hw⟩ := H.enter npages hn hpos (by simp) hcell
          simp only [pageFreeLoop,hlink,↓reduceIte]
          rw [hlink] at hl hw
          exact ⟨_,rfl,hl,hw⟩
  | cons x xs ih =>
      cases fuel with
      | zero => simp at hfuel
      | succ fuel =>
          obtain ⟨hp,hxpos,hpage,hnext⟩ := H.listed
          have hx := H.bound x (by simp)
          have hpos' := H.separated.positive x (by simp)
          have hside := hapart x (by simp)
          have hb : h.link prev ≠ 0 := by bv_omega
          have hend : (pages (h.link prev) (h.page (h.link prev))).toNat = (x.1+x.2)*4096 :=
            toNat_pages hp hpage hx
          have hempty : h.page (h.link prev) ≠ 0 := by bv_omega
          have hassert : n < h.link prev ∨ pages (h.link prev) (h.page (h.link prev)) ≤ n := by
            rw [BitVec.lt_def,BitVec.le_def]
            omega
          have hbehind : pages (h.link prev) (h.page (h.link prev)) = n ↔ x.1+x.2 = a := by
            rw [← BitVec.toNat_inj]
            omega
          have hbefore : h.link prev = pages n npages ↔ a+npages.toNat = x.1 := by
            rw [← BitVec.toNat_inj]
            omega
          have hgap : pages n npages < h.link prev ↔ a+npages.toNat < x.1 := by
            rw [BitVec.lt_def]
            omega
          have hnot : a ∉ cells (x::xs) := by
            intro ha
            obtain ⟨y,hy,h₁,h₂⟩ := mem_cells.mp ha
            have := hapart y hy
            omega
          simp only [pageFreeLoop,hb,hempty,hassert,hbehind,hbefore,hgap,↓reduceIte,not_true_eq_false,
            free]
          split_ifs with h₁ h₂ h₃
          · obtain ⟨h',hg,hl,hw⟩ := H.pageGrow_grow npages (by omega)
            exact ⟨h',hg,hl,hw.mono fun i hi => Or.inr hi⟩
          · obtain ⟨hl,hw⟩ := H.join npages hn hpos hnot hcell (by omega)
            exact ⟨_,rfl,hl,hw⟩
          · obtain ⟨hl,hw⟩ := H.enter npages hn hpos hnot hcell
            exact ⟨_,rfl,hl,hw⟩
          · obtain ⟨h',hloop,hl,hw⟩ := ih H.tail (fun y hy => hapart y (by simp [hy]))
              (fun q hq => by rw [← Option.some.inj hq,pageNo_of hp]; omega) (by simpa using hfuel)
            have hmono : ∀ i, i = a ∨ i ∈ cells xs → i = a ∨ i ∈ cells (x::xs) := by
              rintro i (rfl | hi)
              · exact Or.inl rfl
              · exact Or.inr (by simp [hi])
            refine ⟨h',hloop,H.cons_listed hw ?_ ?_ hl,
              H.writes_tail (fun i hi => Or.inr hi) (hw.mono hmono)⟩
            · rintro (hxa | hi)
              · omega
              · have := H.separated.cells_gt hi
                omega
            · rintro q hq (hi | hi)
              · exact hcell q hq hi
              · exact H.cell q hq (by simp [hi])

end free

end FreeList

end CosKernel.PageAllocator

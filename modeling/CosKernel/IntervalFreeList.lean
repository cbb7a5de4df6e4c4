import Mathlib.Data.List.Perm.Basic
import Mathlib.Data.List.Range
import Mathlib.Data.List.Pairwise

/-!
# Free lists of intervals

A free list is a sorted list of intervals with gaps between them, so that it is determined
by the set of its cells. Allocation takes the front of the first interval that is long
enough, and an interval that is freed is merged with its neighbours.
-/
namespace CosKernel.IntervalFreeList

/-- A start and a length. -/
abbrev Interval := ℕ × ℕ

def cells (xs : List Interval) : List ℕ := xs.flatMap fun x => List.range' x.1 x.2

@[simp] theorem cells_nil : cells [] = [] := rfl

@[simp] theorem cells_cons (x : Interval) (xs : List Interval) :
    cells (x::xs) = List.range' x.1 x.2++cells xs := rfl

@[simp] theorem cells_append (xs ys : List Interval) : cells (xs++ys) = cells xs++cells ys :=
  List.flatMap_append

theorem mem_cells {xs : List Interval} {i : ℕ} :
    i ∈ cells xs ↔ ∃ x ∈ xs, x.1 ≤ i ∧ i < x.1+x.2 := by
  simp [cells]

theorem cells_perm {xs ys : List Interval} (h : xs.Perm ys) : (cells xs).Perm (cells ys) :=
  h.flatMap_right _

/-- No interval is empty, and each ends before the next one begins, with a gap. -/
structure Separated (xs : List Interval) : Prop where
  positive : ∀ x ∈ xs, 0 < x.2
  gaps : xs.Pairwise fun x y => x.1+x.2 < y.1

variable {xs ys : List Interval} {x : Interval} {a b m n : ℕ}

theorem Separated.nil : Separated [] := ⟨by simp,.nil⟩

theorem separated_cons : Separated (x::xs) ↔
    0 < x.2 ∧ (∀ y ∈ xs, x.1+x.2 < y.1) ∧ Separated xs := by
  constructor
  · intro h
    obtain ⟨hx,hxs⟩ := List.pairwise_cons.mp h.gaps
    exact ⟨h.positive x (by simp),hx,fun y hy => h.positive y (by simp [hy]),hxs⟩
  · intro ⟨hx,hy,hxs⟩
    refine ⟨fun y hmem => ?_,List.pairwise_cons.mpr ⟨hy,hxs.gaps⟩⟩
    rcases List.mem_cons.mp hmem with rfl | hmem
    · exact hx
    · exact hxs.positive y hmem

/-- The cells of the later intervals lie behind the first one. -/
theorem Separated.cells_gt (h : Separated (x::xs)) {i : ℕ} (hi : i ∈ cells xs) :
    x.1+x.2 < i := by
  obtain ⟨y,hy,hle,-⟩ := mem_cells.mp hi
  have := (separated_cons.mp h).2.1 y hy
  omega

theorem Separated.length_le (h : Separated xs) : xs.length ≤ (cells xs).length := by
  induction xs with
  | nil => simp
  | cons x xs ih =>
      obtain ⟨hx,-,hxs⟩ := separated_cons.mp h
      have := ih hxs
      simp only [List.length_cons,cells_cons,List.length_append,List.length_range']
      omega

theorem range'_split (h : m ≤ n) :
    List.range' a n = List.range' a m++List.range' (a+m) (n-m) := by
  rw [List.range'_append_1,show m+(n-m) = n by omega]

/-- First fit. -/
def alloc (n : ℕ) : List Interval → Option (ℕ × List Interval)
  | [] => none
  | (a,m)::xs =>
      if n < m then some (a,(a+n,m-n)::xs)
      else if m = n then some (a,xs)
      else (alloc n xs).map fun r => (r.1,(a,m)::r.2)

/-- The first cells of an interval that is long enough are given out. -/
theorem alloc_of_le {m : ℕ} (hle : n ≤ m) : ∃ ys, alloc n ((a,m)::xs) = some (a,ys) := by
  unfold alloc
  split_ifs with hlt heq
  · exact ⟨_,rfl⟩
  · exact ⟨_,rfl⟩
  · omega

theorem alloc_perm (h : alloc n xs = some (a,ys)) :
    (List.range' a n++cells ys).Perm (cells xs) := by
  induction xs generalizing ys with
  | nil => cases h
  | cons x xs ih =>
      obtain ⟨b,m⟩ := x
      unfold alloc at h
      split_ifs at h with hlt heq
      · cases h
        rw [cells_cons,cells_cons,range'_split (show n ≤ m by omega),List.append_assoc]
      · cases h
        rw [heq]
        rfl
      · obtain ⟨r,hr,hr'⟩ := Option.map_eq_some_iff.mp h
        obtain ⟨rfl,rfl⟩ := Prod.mk.inj hr'
        rw [cells_cons,cells_cons]
        exact (List.perm_append_comm_assoc ..).trans ((ih hr).append_left _)

/-- What is left begins no earlier. -/
theorem alloc_start (h : alloc n xs = some (a,ys)) {y : Interval} (hy : y ∈ ys) :
    ∃ x ∈ xs, x.1 ≤ y.1 := by
  induction xs generalizing ys with
  | nil => cases h
  | cons x xs ih =>
      obtain ⟨b,m⟩ := x
      unfold alloc at h
      split_ifs at h with hlt heq
      · obtain ⟨rfl,rfl⟩ := Prod.mk.inj (Option.some.inj h)
        rcases List.mem_cons.mp hy with rfl | hy
        · exact ⟨(b,m),by simp,by simp⟩
        · exact ⟨y,by simp [hy],le_rfl⟩
      · cases h
        exact ⟨y,by simp [hy],le_rfl⟩
      · obtain ⟨r,hr,hr'⟩ := Option.map_eq_some_iff.mp h
        obtain ⟨rfl,rfl⟩ := Prod.mk.inj hr'
        rcases List.mem_cons.mp hy with rfl | hy
        · exact ⟨(b,m),by simp,le_rfl⟩
        · obtain ⟨x,hx,hle⟩ := ih hr hy
          exact ⟨x,by simp [hx],hle⟩

theorem alloc_separated (hs : Separated xs) (h : alloc n xs = some (a,ys)) : Separated ys := by
  induction xs generalizing ys with
  | nil => cases h
  | cons x xs ih =>
      obtain ⟨b,m⟩ := x
      obtain ⟨hm,hgap,hxs⟩ := separated_cons.mp hs
      unfold alloc at h
      split_ifs at h with hlt heq
      · cases h
        refine separated_cons.mpr ⟨by simp only; omega,fun y hy => ?_,hxs⟩
        have := hgap y hy
        simp only at this ⊢
        omega
      · cases h
        exact hxs
      · obtain ⟨r,hr,hr'⟩ := Option.map_eq_some_iff.mp h
        obtain ⟨rfl,rfl⟩ := Prod.mk.inj hr'
        refine separated_cons.mpr ⟨hm,fun y hy => ?_,ih hxs hr⟩
        obtain ⟨x,hx,hle⟩ := alloc_start hr hy
        have := hgap x hx
        omega

/-- The interval `x` grows by `n` cells, perhaps up to the next one. -/
def grow (x : Interval) (n : ℕ) : List Interval → List Interval
  | [] => [(x.1,x.2+n)]
  | y::ys => if x.1+x.2+n = y.1 then (x.1,x.2+n+y.2)::ys else (x.1,x.2+n)::y::ys

/-- The `n` cells from `a` on become free. -/
def free (a n : ℕ) : List Interval → List Interval
  | [] => [(a,n)]
  | x::xs =>
      if x.1+x.2 = a then grow x n xs
      else if a+n = x.1 then (a,x.2+n)::xs
      else if a+n < x.1 then (a,n)::x::xs
      else x::free a n xs

theorem grow_perm (x : Interval) (n : ℕ) (xs : List Interval) :
    (cells (grow x n xs)).Perm (List.range' (x.1+x.2) n++cells (x::xs)) := by
  have hx : List.range' x.1 (x.2+n) = List.range' x.1 x.2++List.range' (x.1+x.2) n := by
    rw [range'_split (show x.2 ≤ x.2+n by omega)]
    simp
  have hcomm : ∀ zs : List ℕ, (List.range' x.1 x.2++(List.range' (x.1+x.2) n++zs)).Perm
      (List.range' (x.1+x.2) n++(List.range' x.1 x.2++zs)) := fun zs =>
    List.perm_append_comm_assoc ..
  cases xs with
  | nil =>
      simp only [grow,cells_cons,hx,List.append_assoc]
      exact hcomm _
  | cons y ys =>
      simp only [grow]
      split_ifs with h
      · have hy : List.range' x.1 (x.2+n+y.2) = List.range' x.1 (x.2+n)++List.range' y.1 y.2 := by
          rw [range'_split (show x.2+n ≤ x.2+n+y.2 by omega),← h]
          simp [Nat.add_assoc]
        simp only [cells_cons,hy,hx,List.append_assoc]
        exact hcomm _
      · simp only [cells_cons,hx,List.append_assoc]
        exact hcomm _

theorem free_perm (a n : ℕ) (xs : List Interval) :
    (cells (free a n xs)).Perm (List.range' a n++cells xs) := by
  induction xs with
  | nil => rfl
  | cons x xs ih =>
      unfold free
      split_ifs with h₁ h₂ h₃
      · rw [← h₁]
        exact grow_perm x n xs
      · have hx : List.range' a (x.2+n) = List.range' a n++List.range' x.1 x.2 := by
          rw [range'_split (show n ≤ x.2+n by omega),h₂]
          simp
        simp [hx,List.append_assoc]
      · rfl
      · rw [cells_cons,cells_cons]
        exact (ih.append_left _).trans (List.perm_append_comm_assoc ..)

theorem free_start {y : Interval} (hy : y ∈ free a n xs) : y.1 = a ∨ ∃ x ∈ xs, y.1 = x.1 := by
  induction xs with
  | nil =>
      simp only [free,List.mem_singleton] at hy
      exact Or.inl (by rw [hy])
  | cons x xs ih =>
      unfold free at hy
      split_ifs at hy with h₁ h₂ h₃
      · right
        cases xs with
        | nil =>
            simp only [grow,List.mem_singleton] at hy
            exact ⟨x,by simp,by rw [hy]⟩
        | cons z zs =>
            simp only [grow] at hy
            split_ifs at hy
            · rcases List.mem_cons.mp hy with rfl | hy
              · exact ⟨x,by simp,rfl⟩
              · exact ⟨y,by simp [hy],rfl⟩
            · rcases List.mem_cons.mp hy with rfl | hy
              · exact ⟨x,by simp,rfl⟩
              · exact ⟨y,List.mem_cons_of_mem x hy,rfl⟩
      · rcases List.mem_cons.mp hy with rfl | hy
        · exact Or.inl rfl
        · exact Or.inr ⟨y,by simp [hy],rfl⟩
      · rcases List.mem_cons.mp hy with rfl | hy
        · exact Or.inl rfl
        · exact Or.inr ⟨y,hy,rfl⟩
      · rcases List.mem_cons.mp hy with rfl | hy
        · exact Or.inr ⟨y,by simp,rfl⟩
        · rcases ih hy with h | ⟨z,hz,h⟩
          · exact Or.inl h
          · exact Or.inr ⟨z,by simp [hz],h⟩

/-- The `n` cells from `a` on are not free. -/
def Apart (a n : ℕ) (xs : List Interval) : Prop := ∀ x ∈ xs, a+n ≤ x.1 ∨ x.1+x.2 ≤ a

theorem grow_separated (hs : Separated (x::xs)) (hn : Apart (x.1+x.2) n xs) (hpos : 0 < n) :
    Separated (grow x n xs) := by
  obtain ⟨hx,hgap,hxs⟩ := separated_cons.mp hs
  cases xs with
  | nil => exact separated_cons.mpr ⟨by simp only; omega,by simp,Separated.nil⟩
  | cons y ys =>
      obtain ⟨hy,hgap',hys⟩ := separated_cons.mp hxs
      have hxy := hgap y (by simp)
      have hapart := hn y (by simp)
      simp only [grow]
      split_ifs with h
      · refine separated_cons.mpr ⟨by simp only; omega,fun z hz => ?_,hys⟩
        have := hgap' z hz
        simp only
        omega
      · refine separated_cons.mpr ⟨by simp only; omega,fun z hz => ?_,hxs⟩
        simp only
        rcases List.mem_cons.mp hz with rfl | hz
        · omega
        · have := hgap' z hz
          omega

theorem free_separated (hs : Separated xs) (hn : Apart a n xs) (hpos : 0 < n) :
    Separated (free a n xs) := by
  induction xs with
  | nil => exact separated_cons.mpr ⟨hpos,by simp,Separated.nil⟩
  | cons x xs ih =>
      obtain ⟨hx,hgap,hxs⟩ := separated_cons.mp hs
      have hapart := hn x (by simp)
      have hrest : Apart a n xs := fun y hy => hn y (by simp [hy])
      unfold free
      split_ifs with h₁ h₂ h₃
      · subst h₁
        exact grow_separated hs hrest hpos
      · refine separated_cons.mpr ⟨by simp only; omega,fun y hy => ?_,hxs⟩
        have := hgap y hy
        simp only
        omega
      · refine separated_cons.mpr ⟨hpos,fun y hy => ?_,hs⟩
        rcases List.mem_cons.mp hy with rfl | hy
        · exact h₃
        · have := hgap y hy
          simp only
          omega
      · refine separated_cons.mpr ⟨hx,fun y hy => ?_,ih hxs hrest⟩
        rcases free_start hy with h | ⟨z,hz,h⟩
        · omega
        · have := hgap z hz
          omega

/-- Cells that are not free are apart from the free ones. -/
theorem apart_of_disjoint (hs : Separated xs) (hpos : 0 < n)
    (h : List.Disjoint (List.range' a n) (cells xs)) : Apart a n xs := by
  intro x hx
  have hx' := hs.positive x hx
  by_contra hlap
  -- the larger one of the two starts is a cell of both
  refine h (a := max a x.1) ?_ (mem_cells.mpr ⟨x,hx,?_,?_⟩)
  · simp only [List.mem_range'_1]
    omega
  · omega
  · omega

/-- A free list is determined by its cells: an interval is a list of one. -/
theorem Separated.eq_singleton (hs : Separated xs) (hpos : 0 < n)
    (h : (cells xs).Perm (List.range' a n)) : xs = [(a,n)] := by
  have hmem : ∀ i, i ∈ cells xs ↔ a ≤ i ∧ i < a+n := fun i => by
    rw [h.mem_iff,List.mem_range'_1]
  have hlength : (cells xs).length = n := by rw [h.length_eq,List.length_range']
  cases xs with
  | nil => simp at hlength; omega
  | cons x xs =>
      obtain ⟨hx,hgap,hxs⟩ := separated_cons.mp hs
      have hself : ∀ i, x.1 ≤ i → i < x.1+x.2 → i ∈ cells (x::xs) := fun i h₁ h₂ =>
        mem_cells.mpr ⟨x,by simp,h₁,h₂⟩
      have hfirst := (hmem x.1).mp (hself x.1 le_rfl (by omega))
      cases xs with
      | nil =>
          have hstart : x.1 = a := by
            obtain ⟨y,hy,hle,-⟩ := mem_cells.mp ((hmem a).mpr ⟨le_rfl,by omega⟩)
            rw [List.mem_singleton.mp hy] at hle
            omega
          have hlen : x.2 = n := by simpa using hlength
          rw [← hstart,← hlen]
      | cons y ys =>
          -- the cell behind the first interval lies in the range but is not free
          have hy := hgap y (by simp)
          have hypos := hxs.positive y (by simp)
          have hsecond := (hmem y.1).mp (mem_cells.mpr ⟨y,by simp,le_rfl,by omega⟩)
          have hgapCell := (hmem (x.1+x.2)).mpr ⟨by omega,by omega⟩
          rw [cells_cons,List.mem_append,List.mem_range'_1] at hgapCell
          rcases hgapCell with hcell | hcell
          · omega
          · have := hs.cells_gt hcell
            omega

/-- Two entries are the same one, or there is a gap between them. -/
theorem Separated.apart (hs : Separated xs) {y : Interval} (hx : x ∈ xs) (hy : y ∈ xs) :
    x = y ∨ x.1+x.2 < y.1 ∨ y.1+y.2 < x.1 := by
  have hsymm : Std.Symm fun x y : Interval => x.1+x.2 < y.1 ∨ y.1+y.2 < x.1 :=
    ⟨fun _ _ h => h.symm⟩
  by_cases hxy : x = y
  · exact Or.inl hxy
  · have hpair : xs.Pairwise fun x y => x.1+x.2 < y.1 ∨ y.1+y.2 < x.1 := hs.gaps.imp Or.inl
    exact Or.inr (hpair.forall hx hy hxy)

/-- Consecutive cells belong to one entry. -/
theorem Separated.exists_entry (hs : Separated xs) (hn : 0 < n)
    (h : ∀ i, a ≤ i → i < a+n → i ∈ cells xs) : ∃ x ∈ xs, x.1 ≤ a ∧ a+n ≤ x.1+x.2 := by
  obtain ⟨x,hx,hle,hlt⟩ := mem_cells.mp (h a le_rfl (by omega))
  refine ⟨x,hx,hle,?_⟩
  by_contra hend
  -- the cell behind the entry would belong to another one
  obtain ⟨y,hy,hy₁,hy₂⟩ := mem_cells.mp (h (x.1+x.2) (by omega) (by omega))
  rcases hs.apart hx hy with rfl | hgap | hgap
  · omega
  · omega
  · omega

/-- A run of `n` cells of `P` from `a` on that cannot be extended. -/
structure MaximalRun (P : ℕ → Prop) (a n : ℕ) : Prop where
  nonempty : 0 < n
  inside : ∀ i, a ≤ i → i < a+n → P i
  before : ∀ b, b+1 = a → ¬P b
  behind : ¬P (a+n)

/-- The entries are the maximal runs. -/
theorem Separated.maximalRun_iff (hs : Separated xs) :
    MaximalRun (· ∈ cells xs) a n ↔ (a,n) ∈ xs := by
  constructor
  · intro h
    obtain ⟨x,hx,hle,hend⟩ := hs.exists_entry h.nonempty h.inside
    have hfirst : x.1 = a := by
      by_contra hne
      exact h.before (a-1) (by omega) (mem_cells.mpr ⟨x,hx,by omega,by have := h.nonempty; omega⟩)
    have hlast : x.2 = n := by
      by_contra hne
      exact h.behind (mem_cells.mpr ⟨x,hx,by omega,by omega⟩)
    rw [← hfirst,← hlast]
    exact hx
  · intro hx
    have hpos := hs.positive _ hx
    refine ⟨hpos,fun i h₁ h₂ => mem_cells.mpr ⟨_,hx,h₁,h₂⟩,fun b hb hmem => ?_,fun hmem => ?_⟩
    · obtain ⟨y,hy,hy₁,hy₂⟩ := mem_cells.mp hmem
      rcases hs.apart hx hy with rfl | hgap | hgap <;> simp only at * <;> omega
    · obtain ⟨y,hy,hy₁,hy₂⟩ := mem_cells.mp hmem
      rcases hs.apart hx hy with rfl | hgap | hgap <;> simp only at * <;> omega

theorem alloc_eq_none : alloc n xs = none ↔ ∀ x ∈ xs, x.2 < n := by
  induction xs with
  | nil => simp [alloc]
  | cons x xs ih =>
      obtain ⟨b,m⟩ := x
      simp only [alloc,List.forall_mem_cons]
      split_ifs with hlt heq
      · simp only [false_iff]
        omega
      · simp only [false_iff]
        omega
      · rw [Option.map_eq_none_iff,ih]
        exact ⟨fun h => ⟨by omega,h⟩,fun h => h.2⟩

/-- The first entry that is long enough, and so the one that begins first. -/
theorem alloc_first (hs : Separated xs) (h : alloc n xs = some (a,ys)) :
    ∃ m, (a,m) ∈ xs ∧ n ≤ m ∧ ∀ x ∈ xs, n ≤ x.2 → a ≤ x.1 := by
  induction xs generalizing ys with
  | nil => cases h
  | cons x xs ih =>
      obtain ⟨b,m⟩ := x
      obtain ⟨hm,hgap,hxs⟩ := separated_cons.mp hs
      have hfirst : ∀ x ∈ (b,m)::xs, n ≤ x.2 → b ≤ x.1 := by
        intro x hx _
        rcases List.mem_cons.mp hx with rfl | hx
        · exact le_rfl
        · have := hgap x hx
          simp only at this
          omega
      unfold alloc at h
      split_ifs at h with hlt heq
      · cases h
        exact ⟨m,by simp,by omega,hfirst⟩
      · cases h
        exact ⟨m,by simp,by omega,hfirst⟩
      · obtain ⟨r,hr,hr'⟩ := Option.map_eq_some_iff.mp h
        obtain ⟨rfl,rfl⟩ := Prod.mk.inj hr'
        obtain ⟨k,hk,hle,hmin⟩ := ih hxs hr
        refine ⟨k,by simp [hk],hle,fun x hx hn => ?_⟩
        rcases List.mem_cons.mp hx with rfl | hx
        · simp only at hn
          omega
        · exact hmin x hx hn

end CosKernel.IntervalFreeList

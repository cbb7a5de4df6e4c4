import Mathlib

/-!
# Red-black trees with a focus

Trees over an arbitrary element type, and the path of frames between a subtree
and the root. A frame remembers on which side its hole is, so one statement
covers both mirror images; `branch s` builds a node from the child on side `s`
and the other child. `Balanced` is the usual red-black discipline with a black
height. `Fits` says what a path expects of the tree in its hole, and the whole
tree is valid exactly when the hole gets that (`Fits.plug`, `Balanced.unplug`).
-/
namespace CosKernel.RedBlackZipper

inductive Color where
  | red
  | black
  deriving DecidableEq, Repr

inductive Side where
  | left
  | right
  deriving DecidableEq, Repr

def Side.other : Side → Side
  | .left => .right
  | .right => .left

@[simp] theorem Side.other_other (s : Side) : s.other.other = s := by cases s <;> rfl

@[simp] theorem Side.other_ne (s : Side) : s.other ≠ s := by cases s <;> simp [other]

@[simp] theorem Side.ne_other (s : Side) : s ≠ s.other := s.other_ne.symm

theorem Side.eq_or_other (s t : Side) : t = s ∨ t = s.other := by
  cases s <;> cases t <;> simp [other]

inductive ColorTree (α : Type) where
  | nil
  | node (c : Color) (l : ColorTree α) (a : α) (r : ColorTree α)
  deriving DecidableEq, Repr

variable {α : Type}

namespace ColorTree

/-- The node with `x` on side `s` and `y` on the other side. -/
def branch (s : Side) (c : Color) (x : ColorTree α) (a : α) (y : ColorTree α) : ColorTree α :=
  match s with
  | .left => .node c x a y
  | .right => .node c y a x

def toList : ColorTree α → List α
  | .nil => []
  | .node _ l a r => l.toList++a::r.toList

/-- Leaves are black. -/
def rootColor : ColorTree α → Color
  | .nil => .black
  | .node c _ _ _ => c

theorem branch_other (s : Side) (c : Color) (x : ColorTree α) (a : α) (y : ColorTree α) :
    branch s.other c x a y = branch s c y a x := by cases s <;> rfl

theorem node_eq_branch (s : Side) (c : Color) (l : ColorTree α) (a : α) (r : ColorTree α) :
    ∃ x y, node c l a r = branch s c x a y := by
  cases s with
  | left => exact ⟨l,r,rfl⟩
  | right => exact ⟨r,l,rfl⟩

theorem branch_nil_nil (s : Side) (c : Color) (a : α) :
    branch s c .nil a .nil = node c .nil a .nil := by cases s <;> rfl

@[simp] theorem branch_ne_nil (s : Side) (c : Color) (x : ColorTree α) (a : α) (y : ColorTree α) :
    branch s c x a y ≠ nil := by cases s <;> simp [branch]

@[simp] theorem rootColor_branch (s : Side) (c : Color) (x : ColorTree α) (a : α) (y : ColorTree α) :
    rootColor (branch s c x a y) = c := by cases s <;> rfl

@[simp] theorem mem_toList_branch {s : Side} {c : Color} {x y : ColorTree α} {a b : α} :
    b ∈ (branch s c x a y).toList ↔ b = a ∨ b ∈ x.toList ∨ b ∈ y.toList := by
  cases s <;> simp [branch,toList] <;> tauto

theorem toList_sublist_branch (s : Side) (c : Color) (x : ColorTree α) (a : α) (y : ColorTree α) :
    x.toList.Sublist (branch s c x a y).toList := by
  cases s with
  | left => exact List.sublist_append_left _ _
  | right => exact (List.sublist_cons_self _ _).trans (List.sublist_append_right _ _)

/-- A rotation keeps the order of the elements. -/
theorem toList_rotate (s : Side) (c d c' d' : Color) (x y z : ColorTree α) (a b : α) :
    (branch s d' (branch s c' x a y) b z).toList =
      (branch s c x a (branch s d y b z)).toList := by
  cases s <;> simp [branch,toList]

/-- The inner node that has come up stands between its parent and its grandparent as before. -/
theorem toList_inner (s : Side) (c d e f i j : Color) (x y z u : ColorTree α) (p a g : α) :
    (branch s c (branch s d y p x) a (branch s e z g u)).toList =
      (branch s f (branch s.other i (branch s j x a z) p y) g u).toList := by
  cases s <;> simp [branch,toList,Side.other]

theorem toList_branch_color (s : Side) (c d : Color) (x y : ColorTree α) (a : α) :
    (branch s c x a y).toList = (branch s d x a y).toList := by cases s <;> rfl

end ColorTree
open ColorTree

/-- One step of the path from a subtree to the root: the node `elt` with its
hole on side `side` and the subtree `sib` on the other side. -/
structure Frame (α : Type) where
  side : Side
  color : Color
  elt : α
  sib : ColorTree α
  deriving DecidableEq, Repr

/-- Innermost frame first. -/
abbrev Path (α : Type) := List (Frame α)

def plug : Path α → ColorTree α → ColorTree α
  | [],t => t
  | f::fs,t => plug fs (branch f.side f.color t f.elt f.sib)

/-- The elements before the hole. -/
def before : Path α → List α
  | [] => []
  | f::fs => before fs++(match f.side with
      | .left => []
      | .right => f.sib.toList++[f.elt])

/-- The elements after the hole. -/
def after : Path α → List α
  | [] => []
  | f::fs => (match f.side with
      | .left => f.elt::f.sib.toList
      | .right => [])++after fs

theorem toList_plug (fs : Path α) (t : ColorTree α) :
    (plug fs t).toList = before fs++t.toList++after fs := by
  induction fs generalizing t with
  | nil => simp [plug,before,after]
  | cons f fs ih =>
      rw [plug,ih]
      cases hs : f.side <;> simp [branch,before,after,toList,hs]

theorem plug_append (fs gs : Path α) (t : ColorTree α) : plug (fs++gs) t = plug gs (plug fs t) := by
  induction fs generalizing t with
  | nil => rfl
  | cons f fs ih => exact ih _

theorem plug_ne_nil (fs : Path α) {t : ColorTree α} (ht : t ≠ .nil) : plug fs t ≠ .nil := by
  induction fs generalizing t with
  | nil => exact ht
  | cons f fs ih => exact ih (branch_ne_nil _ _ _ _ _)

/-- The elements outside the hole, in no particular order. -/
def around : Path α → List α
  | [] => []
  | f::fs => f.elt::(f.sib.toList++around fs)

theorem around_append (fs gs : Path α) : around (fs++gs) = around fs++around gs := by
  induction fs with
  | nil => rfl
  | cons f fs ih => simp [around,ih]

theorem branch_perm (s : Side) (c : Color) (x : ColorTree α) (a : α) (y : ColorTree α) :
    (branch s c x a y).toList.Perm (a::(x.toList++y.toList)) := by
  cases s with
  | left => exact List.perm_middle
  | right => exact List.perm_middle.trans (List.perm_append_comm.cons a)

theorem plug_perm (fs : Path α) (t : ColorTree α) :
    (plug fs t).toList.Perm (t.toList++around fs) := by
  induction fs generalizing t with
  | nil => simp [plug,around]
  | cons f fs ih =>
      have h := (ih _).trans ((branch_perm f.side f.color t f.elt f.sib).append_right (around fs))
      refine h.trans ?_
      simp only [around,List.cons_append,List.append_assoc]
      exact List.perm_middle.symm

theorem plug_nil_perm (fs : Path α) (t : ColorTree α) :
    ((plug fs .nil).toList++t.toList).Perm (plug fs t).toList :=
  (((plug_perm fs .nil).append_right _).trans List.perm_append_comm).trans (plug_perm fs t).symm

theorem mem_plug {fs : Path α} {t : ColorTree α} {a : α} :
    a ∈ (plug fs t).toList ↔ a ∈ t.toList ∨ a ∈ around fs := by
  rw [(plug_perm fs t).mem_iff,List.mem_append]

theorem exists_plug_of_mem {t : ColorTree α} {a : α} (ha : a ∈ t.toList) :
    ∃ (fs : Path α) (c : Color) (l r : ColorTree α), t = plug fs (.node c l a r) := by
  induction t with
  | nil => simp [toList] at ha
  | node c l b r ihl ihr =>
      simp only [toList,List.mem_append,List.mem_cons] at ha
      rcases ha with ha | rfl | ha
      · obtain ⟨fs,d,x,y,rfl⟩ := ihl ha
        exact ⟨fs++[⟨.left,c,b,r⟩],d,x,y,by rw [plug_append]; rfl⟩
      · exact ⟨[],c,l,r,rfl⟩
      · obtain ⟨fs,d,x,y,rfl⟩ := ihr ha
        exact ⟨fs++[⟨.right,c,b,l⟩],d,x,y,by rw [plug_append]; rfl⟩

theorem length_le_around (fs : Path α) : fs.length ≤ (around fs).length := by
  induction fs with
  | nil => simp
  | cons f fs ih =>
      simp only [around,List.length_cons,List.length_append]
      omega

/-- In an ordered tree the innermost frame is on its side of the hole. -/
theorem frame_ordered {R : α → α → Prop} {f : Frame α} {fs : Path α} {t : ColorTree α}
    (h : (plug (f::fs) t).toList.Pairwise R) {a : α} (ha : a ∈ t.toList) :
    (f.side = .left → R a f.elt) ∧ (f.side = .right → R f.elt a) := by
  rw [plug,toList_plug,List.append_assoc,List.pairwise_append,List.pairwise_append] at h
  have hb := h.2.1.1
  constructor <;> intro hs <;> rw [hs] at hb
  · rw [branch,toList,List.pairwise_append] at hb
    exact hb.2.2 a ha f.elt (by simp)
  · rw [branch,toList,List.pairwise_append,List.pairwise_cons] at hb
    exact hb.2.1.1 a ha

/-- Black root or not, no red node with a red child, `n` black nodes on every
path to a leaf. -/
inductive Balanced : ColorTree α → Color → ℕ → Prop
  | nil : Balanced .nil .black 0
  | red {l r : ColorTree α} {a : α} {n : ℕ} :
      Balanced l .black n → Balanced r .black n → Balanced (.node .red l a r) .red n
  | black {l r : ColorTree α} {a : α} {c d : Color} {n : ℕ} :
      Balanced l c n → Balanced r d n → Balanced (.node .black l a r) .black (n+1)

/-- A whole tree: balanced with a black root. -/
def Valid (t : ColorTree α) : Prop := ∃ n, Balanced t .black n

namespace Balanced
variable {s : Side} {x y : ColorTree α} {a : α} {c d e : Color} {n : ℕ}

theorem branch_red (hx : Balanced x .black n) (hy : Balanced y .black n) :
    Balanced (branch s .red x a y) .red n := by
  cases s with
  | left => exact .red hx hy
  | right => exact .red hy hx

theorem branch_black (hx : Balanced x c n) (hy : Balanced y d n) :
    Balanced (branch s .black x a y) .black (n+1) := by
  cases s with
  | left => exact .black hx hy
  | right => exact .black hy hx

theorem of_branch_red (h : Balanced (branch s .red x a y) c n) :
    c = .red ∧ Balanced x .black n ∧ Balanced y .black n := by
  cases s with
  | left => cases h with | red hx hy => exact ⟨rfl,hx,hy⟩
  | right => cases h with | red hx hy => exact ⟨rfl,hy,hx⟩

theorem of_branch_black (h : Balanced (branch s .black x a y) c n) :
    c = .black ∧ ∃ m d e, n = m+1 ∧ Balanced x d m ∧ Balanced y e m := by
  cases s with
  | left => cases h with | black hx hy => exact ⟨rfl,_,_,_,rfl,hx,hy⟩
  | right => cases h with | black hx hy => exact ⟨rfl,_,_,_,rfl,hy,hx⟩

/-- The two children of any node agree on what they weigh. -/
theorem nil_or_branch {t : ColorTree α} (s : Side) (h : Balanced t c n) :
    (t = .nil ∧ c = .black ∧ n = 0) ∨ ∃ x a y, t = branch s c x a y := by
  cases h with
  | nil => exact Or.inl ⟨rfl,rfl,rfl⟩
  | red _ _ =>
      obtain ⟨x,y,hxy⟩ := node_eq_branch s .red _ _ _
      exact Or.inr ⟨x,_,y,hxy⟩
  | black _ _ =>
      obtain ⟨x,y,hxy⟩ := node_eq_branch s .black _ _ _
      exact Or.inr ⟨x,_,y,hxy⟩

theorem rootColor {t : ColorTree α} (h : Balanced t c n) : t.rootColor = c := by
  cases h <;> rfl

theorem branch_of_pos {t : ColorTree α} (s : Side) (h : Balanced t c (n+1)) :
    ∃ x a y, t = branch s c x a y := by
  rcases h.nil_or_branch s with ⟨-,-,h⟩ | h
  · omega
  · exact h

/-- A node with a single child is black. -/
theorem of_branch_nil (h : Balanced (branch s c x a .nil) d n) (hx : x ≠ .nil) :
    c = .black ∧ n = 1 ∧ ∃ e, Balanced x e 0 := by
  cases c with
  | red =>
      obtain ⟨-,hx',hn⟩ := h.of_branch_red
      cases hn
      rcases hx'.nil_or_branch .left with ⟨rfl,-⟩ | ⟨x,a,y,rfl⟩
      · exact absurd rfl hx
      · obtain ⟨-,m,_,_,hm,-⟩ := hx'.of_branch_black
        omega
  | black =>
      obtain ⟨-,m,d,e,rfl,hx',hn⟩ := h.of_branch_black
      cases hn
      exact ⟨rfl,rfl,d,hx'⟩

theorem branch_of_red {t : ColorTree α} (s : Side) (h : Balanced t .red n) :
    ∃ x a y, t = branch s .red x a y := by
  rcases h.nil_or_branch s with ⟨-,h,-⟩ | h
  · cases h
  · exact h

end Balanced

/-- What a path expects in its hole: black height `n`, and a black root when the
colour argument is red. The hole at the root asks for a black root. -/
inductive Fits : Path α → Color → ℕ → Prop
  | root (n : ℕ) : Fits [] .red n
  | red {fs : Path α} {s : Side} {a : α} {t : ColorTree α} {n : ℕ} :
      Balanced t .black n → Fits fs .black n → Fits (⟨s,.red,a,t⟩::fs) .red n
  | black {fs : Path α} {s : Side} {a : α} {t : ColorTree α} {c d : Color} {n : ℕ} :
      Balanced t c n → Fits fs d (n+1) → Fits (⟨s,.black,a,t⟩::fs) .black n

theorem Fits.plug {fs : Path α} {t : ColorTree α} {c d : Color} {n : ℕ} (h : Fits fs c n)
    (ht : Balanced t d n) (hc : c = .red → d = .black) : Valid (plug fs t) := by
  induction h generalizing t d with
  | root n =>
      obtain rfl := hc rfl
      exact ⟨n,ht⟩
  | red hs _ ih =>
      obtain rfl := hc rfl
      exact ih (.branch_red ht hs) fun h => by cases h
  | black hs _ ih => exact ih (.branch_black ht hs) fun _ => rfl

theorem Balanced.unplug {fs : Path α} {t : ColorTree α} (h : Valid (RedBlackZipper.plug fs t)) :
    ∃ c d n, Fits fs c n ∧ Balanced t d n ∧ (c = .red → d = .black) := by
  induction fs generalizing t with
  | nil =>
      obtain ⟨n,h⟩ := h
      exact ⟨.red,.black,n,.root n,h,fun _ => rfl⟩
  | cons f fs ih =>
      obtain ⟨side,color,elt,sib⟩ := f
      obtain ⟨c,d,n,hf,hb,hcd⟩ := ih h
      cases color with
      | red =>
          obtain ⟨rfl,ht,hs⟩ := hb.of_branch_red
          cases c with
          | red => exact absurd (hcd rfl) (by simp)
          | black => exact ⟨.red,.black,n,.red hs hf,ht,fun _ => rfl⟩
      | black =>
          obtain ⟨rfl,m,e,e',rfl,ht,hs⟩ := hb.of_branch_black
          exact ⟨.black,e,m,.black hs hf,ht,fun h => by cases h⟩

/-- Where a red root is welcome, the parent is black. -/
theorem Fits.of_black {fs : Path α} {n : ℕ} (h : Fits fs .black n) :
    ∃ s a t c d gs, fs = ⟨s,.black,a,t⟩::gs ∧ Balanced t c n ∧ Fits gs d (n+1) := by
  cases h with
  | black hs hf => exact ⟨_,_,_,_,_,_,rfl,hs,hf⟩

/-- The outermost element on side `s` is reached by a one-sided path. -/
theorem exists_extreme (s : Side) {t : ColorTree α} (ht : t ≠ .nil) :
    ∃ (fs : Path α) (d : Color) (m : ColorTree α) (b : α),
      t = plug fs (branch s.other d m b .nil) ∧ ∀ f ∈ fs, f.side = s := by
  induction t with
  | nil => exact absurd rfl ht
  | node c l a r ihl ihr =>
      obtain ⟨x,y,hxy⟩ := node_eq_branch s c l a r
      have ih : x ≠ .nil → ∃ (fs : Path α) (d : Color) (m : ColorTree α) (b : α),
          x = plug fs (branch s.other d m b .nil) ∧ ∀ f ∈ fs, f.side = s := by
        cases s with
        | left => cases hxy; exact ihl
        | right => cases hxy; exact ihr
      by_cases hx : x = .nil
      · subst hx
        exact ⟨[],c,y,a,by rw [hxy,branch_other]; rfl,by simp⟩
      · obtain ⟨fs,d,m,b,h,hs⟩ := ih hx
        refine ⟨fs++[⟨s,c,a,y⟩],d,m,b,by rw [plug_append,← h]; exact hxy,fun f hf => ?_⟩
        rcases List.mem_append.mp hf with hf | hf
        · exact hs f hf
        · rw [List.mem_singleton.mp hf]

theorem before_append (fs gs : Path α) : before (fs++gs) = before gs++before fs := by
  induction fs with
  | nil => simp [before]
  | cons f fs ih => simp [before,ih]

theorem after_append (fs gs : Path α) : after (fs++gs) = after fs++after gs := by
  induction fs with
  | nil => simp [after]
  | cons f fs ih => simp [after,ih]

theorem after_eq_nil {fs : Path α} (h : ∀ f ∈ fs, f.side = .right) : after fs = [] := by
  induction fs with
  | nil => rfl
  | cons f fs ih => simp [after,h f (by simp),ih fun g hg => h g (by simp [hg])]

theorem before_eq_nil {fs : Path α} (h : ∀ f ∈ fs, f.side = .left) : before fs = [] := by
  induction fs with
  | nil => rfl
  | cons f fs ih => simp [before,h f (by simp),ih fun g hg => h g (by simp [hg])]

/-- The elements play no part in the balance. -/
theorem Balanced.rename {s s' : Side} {x y : ColorTree α} {a b : α} {c d : Color} {n : ℕ}
    (h : Balanced (branch s c x a y) d n) : Balanced (branch s' c x b y) d n := by
  cases c with
  | red =>
      obtain ⟨rfl,hx,hy⟩ := h.of_branch_red
      exact .branch_red hx hy
  | black =>
      obtain ⟨rfl,m,d,e,rfl,hx,hy⟩ := h.of_branch_black
      exact .branch_black hx hy

theorem Fits.rename {fs gs : Path α} {s : Side} {a b : α} {t : ColorTree α} {c d : Color} {n : ℕ}
    (h : Fits (fs++⟨s,c,a,t⟩::gs) d n) : Fits (fs++⟨s,c,b,t⟩::gs) d n := by
  induction fs generalizing d n with
  | nil =>
      cases h with
      | red ht h => exact .red ht h
      | black ht h => exact .black ht h
  | cons f fs ih =>
      cases h with
      | red ht h => exact .red ht (ih h)
      | black ht h => exact .black ht (ih h)

end CosKernel.RedBlackZipper

import CosKernel.RedBlackHeap

/-!
# Trees in the heap

While the methods of a node run, the nodes form a forest: the tree of the root
pointer and some subtrees that are detached for the moment. `Forest` describes
such a state by a list of abstract trees, all laid out in the heap with null
parents at their roots and with no node in common. It also carries its own frame:
compared with a reference heap only colours, parents and links of the nodes in
`S` differ. Taking a subtree off and putting one on are then operations on the
list of trees (`Forest.detachSide`, `Forest.attachSide`), and a rotation is a
sequence of those.
-/
namespace CosKernel.RedBlackHeap
open RedBlackZipper ColorTree

variable {α T : Type}

/-- The pointer to a subtree. -/
def ref : ColorTree α → Ref α
  | .nil => .nil
  | .node _ _ a _ => .node a

/-- The root pointer of a whole tree; an empty tree has a null root. -/
def rootRef : ColorTree α → Option (Ref α)
  | .nil => none
  | .node _ _ a _ => some (.node a)

/-- The parent pointer of the subtree in the hole of a path. -/
def top : Path α → Option (Ref α)
  | [] => none
  | f::_ => some (.node f.elt)

@[simp] theorem ref_nil : ref (.nil : ColorTree α) = .nil := rfl

@[simp] theorem ref_node (c : Color) (l : ColorTree α) (a : α) (r : ColorTree α) :
    ref (.node c l a r) = .node a := rfl

@[simp] theorem ref_branch (s : Side) (c : Color) (x : ColorTree α) (a : α) (y : ColorTree α) :
    ref (branch s c x a y) = .node a := by cases s <;> rfl

@[simp] theorem rootRef_branch (s : Side) (c : Color) (x : ColorTree α) (a : α) (y : ColorTree α) :
    rootRef (branch s c x a y) = some (.node a) := by cases s <;> rfl

@[simp] theorem ref_eq_nil {t : ColorTree α} : ref t = .nil ↔ t = .nil := by
  cases t <;> simp [ref]

theorem exists_ref {t : ColorTree α} (ht : t ≠ .nil) : ∃ a, ref t = .node a := by
  cases t with
  | nil => exact absurd rfl ht
  | node c l a r => exact ⟨a,rfl⟩

theorem rootRef_eq_some {t : ColorTree α} (ht : t ≠ .nil) : rootRef t = some (ref t) := by
  cases t with
  | nil => exact absurd rfl ht
  | node c l a r => rfl

theorem mem_of_ref {t : ColorTree α} {a : α} (h : ref t = .node a) : a ∈ t.toList := by
  cases t with
  | nil => cases h
  | node c l b r =>
      cases h
      simp [toList]

/-- Below a frame the root does not depend on what is in the hole. -/
theorem exists_ref_plug (f : Frame α) (fs : Path α) :
    ∃ a ∈ around (f::fs), ∀ t, ref (plug (f::fs) t) = .node a := by
  induction fs generalizing f with
  | nil => exact ⟨f.elt,by simp [around],fun t => by simp [plug]⟩
  | cons g fs ih =>
      obtain ⟨a,ha,h⟩ := ih g
      exact ⟨a,by simp only [around,List.mem_cons,List.mem_append] at ha ⊢; tauto,fun t => h _⟩

theorem ref_plug_congr {t u : ColorTree α} (fs : Path α) (h : ref t = ref u) :
    ref (plug fs t) = ref (plug fs u) := by
  cases fs with
  | nil => exact h
  | cons f fs =>
      obtain ⟨a,-,ha⟩ := exists_ref_plug f fs
      rw [ha,ha]

theorem rootRef_plug_cons (f : Frame α) (fs : Path α) (t u : ColorTree α) :
    rootRef (plug (f::fs) t) = rootRef (plug (f::fs) u) := by
  induction fs generalizing f t u with
  | nil => simp [plug]
  | cons g fs ih => exact ih g _ _

theorem rootRef_plug_congr {t u : ColorTree α} (fs : Path α) (h : ref t = ref u) :
    rootRef (plug fs t) = rootRef (plug fs u) := by
  cases fs with
  | nil => cases t <;> cases u <;> simp_all [ref,rootRef,plug]
  | cons f fs => exact rootRef_plug_cons f fs t u

/-- The subtree `t` is laid out in the heap, and its root has parent `p`. -/
def Sub (h : Heap α T) : Option (Ref α) → ColorTree α → Prop
  | _,.nil => True
  | p,.node c l a r => h.color (.node a) = c ∧ h.parent (.node a) = p ∧
      h.link (.node a) .left = some (ref l) ∧ h.link (.node a) .right = some (ref r) ∧
      Sub h (some (.node a)) l ∧ Sub h (some (.node a)) r

/-- The nodes of a path are laid out in the heap, around a hole that holds `x`. -/
def Up (h : Heap α T) : Path α → Ref α → Prop
  | [],_ => True
  | f::fs,x => h.color (.node f.elt) = f.color ∧ h.parent (.node f.elt) = top fs ∧
      h.link (.node f.elt) f.side = some x ∧ h.link (.node f.elt) f.side.other = some (ref f.sib) ∧
      Sub h (some (.node f.elt)) f.sib ∧ Up h fs (.node f.elt)

theorem sub_branch {h : Heap α T} {p : Option (Ref α)} {s : Side} {c : Color} {x y : ColorTree α}
    {a : α} : Sub h p (branch s c x a y) ↔ h.color (.node a) = c ∧ h.parent (.node a) = p ∧
      h.link (.node a) s = some (ref x) ∧ h.link (.node a) s.other = some (ref y) ∧
      Sub h (some (.node a)) x ∧ Sub h (some (.node a)) y := by
  cases s with
  | left => rfl
  | right =>
      simp only [branch,Sub,Side.other]
      tauto

theorem sub_plug {h : Heap α T} {fs : Path α} {t : ColorTree α} :
    Sub h none (plug fs t) ↔ Sub h (top fs) t ∧ Up h fs (ref t) := by
  induction fs generalizing t with
  | nil => simp [plug,top,Up]
  | cons f fs ih =>
      rw [plug,ih,sub_branch]
      simp only [top,Up,ref_branch]
      tauto

/-- The cells of the two heaps at `x` agree. -/
def SameCell (h h' : Heap α T) (x : Ref α) : Prop :=
  h'.color x = h.color x ∧ h'.parent x = h.parent x ∧ h'.link x = h.link x

theorem SameCell.trans {h₁ h₂ h₃ : Heap α T} {z : Ref α} (h : SameCell h₁ h₂ z)
    (k : SameCell h₂ h₃ z) : SameCell h₁ h₃ z :=
  ⟨k.1.trans h.1,k.2.1.trans h.2.1,k.2.2.trans h.2.2⟩

theorem Sub.congr {h h' : Heap α T} {p : Option (Ref α)} {t : ColorTree α} (ht : Sub h p t)
    (hh : ∀ a ∈ t.toList, SameCell h h' (.node a)) : Sub h' p t := by
  induction t generalizing p with
  | nil => trivial
  | node c l a r ihl ihr =>
      obtain ⟨hc,hp,hl,hr,hL,hR⟩ := ht
      obtain ⟨h1,h2,h3⟩ := hh a (by simp [toList])
      exact ⟨h1.trans hc,h2.trans hp,h3 ▸ hl,h3 ▸ hr,ihl hL fun b hb => hh b (by simp [toList,hb]),
        ihr hR fun b hb => hh b (by simp [toList,hb])⟩

theorem Up.congr {h h' : Heap α T} {fs : Path α} {x : Ref α} (hf : Up h fs x)
    (hh : ∀ a ∈ around fs, SameCell h h' (.node a)) : Up h' fs x := by
  induction fs generalizing x with
  | nil => trivial
  | cons f fs ih =>
      obtain ⟨hc,hp,hl,hr,hs,hf⟩ := hf
      have hin : ∀ a, a = f.elt ∨ a ∈ f.sib.toList → SameCell h h' (.node a) := fun a ha =>
        hh a (by simp only [around,List.mem_cons,List.mem_append]; tauto)
      obtain ⟨h1,h2,h3⟩ := hin f.elt (.inl rfl)
      exact ⟨h1.trans hc,h2.trans hp,h3 ▸ hl,h3 ▸ hr,hs.congr fun a ha => hin a (.inr ha),
        ih hf fun a ha => hh a (by simp [around,ha])⟩

/-- Only the parent of its root changes when a subtree is hung up elsewhere. -/
theorem Sub.reparent {h h' : Heap α T} {p q : Option (Ref α)} {t : ColorTree α} (ht : Sub h p t)
    (hd : t.toList.Nodup) (hq : ∀ a, ref t = .node a → h'.parent (.node a) = q)
    (hc : ∀ a ∈ t.toList, h'.color (.node a) = h.color (.node a))
    (hl : ∀ a ∈ t.toList, h'.link (.node a) = h.link (.node a))
    (hp : ∀ a ∈ t.toList, ref t ≠ .node a → h'.parent (.node a) = h.parent (.node a)) :
    Sub h' q t := by
  cases t with
  | nil => trivial
  | node c l a r =>
      obtain ⟨hac,-,hal,har,hL,hR⟩ := ht
      have ha : a ∈ (ColorTree.node c l a r).toList := by simp [toList]
      simp only [toList,List.nodup_append,List.nodup_cons,List.mem_cons] at hd
      have cells : ∀ b ∈ (ColorTree.node c l a r).toList, b ≠ a → SameCell h h' (.node b) := by
        intro b hb hba
        exact ⟨hc b hb,hp b hb (by simpa [ref] using Ne.symm hba),hl b hb⟩
      refine ⟨(hc a ha).trans hac,hq a rfl,hl a ha ▸ hal,hl a ha ▸ har,hL.congr ?_,hR.congr ?_⟩
      · intro b hb
        exact cells b (by simp [toList,hb]) (hd.2.2 b hb a (Or.inl rfl))
      · intro b hb
        exact cells b (by simp [toList,hb]) fun hba => hd.2.1.1 (hba ▸ hb)

/-- Compared with `h₀`, only colours, parents and links of nodes in `S` may differ. -/
structure Within (h₀ : Heap α T) (S : Set α) (h : Heap α T) : Prop where
  key : h.key = h₀.key
  obj : h.obj = h₀.obj
  tree : h.tree = h₀.tree
  cell : ∀ x, (∀ a ∈ S, x ≠ .node a) → SameCell h₀ h x

/-- The trees `ds` are laid out in the heap, with no node in common. -/
structure Forest (h₀ : Heap α T) (S : Set α) (h : Heap α T) (ds : List (ColorTree α)) : Prop where
  within : Within h₀ S h
  mem : ∀ a ∈ ds.flatMap toList, a ∈ S
  nodup : (ds.flatMap toList).Nodup
  sub : ∀ d ∈ ds, Sub h none d

variable {h₀ h h' : Heap α T} {S : Set α} {cs ds : List (ColorTree α)}

theorem Within.change (hw : Within h₀ S h) (hk : h'.key = h.key)
    (ho : h'.obj = h.obj) (ht : h'.tree = h.tree)
    (hc : ∀ x, (∀ a ∈ S, x ≠ .node a) → SameCell h h' x) : Within h₀ S h' := by
  refine ⟨hk.trans hw.key,ho.trans hw.obj,ht.trans hw.tree,fun x hx => ?_⟩
  obtain ⟨h1,h2,h3⟩ := hc x hx
  obtain ⟨g1,g2,g3⟩ := hw.cell x hx
  exact ⟨h1.trans g1,h2.trans g2,h3.trans g3⟩

/-- Some trees of a forest give way to others over the same nodes. -/
theorem Forest.replace (cs es : List (ColorTree α)) (H : Forest h₀ S h (cs++ds)) (hw : Within h₀ S h')
    (hperm : (es.flatMap toList).Perm (cs.flatMap toList)) (hsub : ∀ e ∈ es, Sub h' none e)
    (hsame : ∀ a, a ∉ cs.flatMap toList → SameCell h h' (.node a)) :
    Forest h₀ S h' (es++ds) := by
  have hp : ((es++ds).flatMap toList).Perm ((cs++ds).flatMap toList) := by
    simpa only [List.flatMap_append] using hperm.append_right _
  refine ⟨hw,fun a ha => H.mem a (hp.mem_iff.mp ha),hp.nodup_iff.mpr H.nodup,fun d hd => ?_⟩
  rcases List.mem_append.mp hd with hd | hd
  · exact hsub d hd
  · refine (H.sub d (List.mem_append_right _ hd)).congr fun a ha => hsame a fun hc => ?_
    have hn := H.nodup
    rw [List.flatMap_append,List.nodup_append] at hn
    exact hn.2.2 a hc a (List.mem_flatMap.mpr ⟨d,hd,ha⟩) rfl

theorem Forest.perm (H : Forest h₀ S h cs) (hp : ds.Perm cs) : Forest h₀ S h ds :=
  ⟨H.within,fun a ha => H.mem a ((hp.flatMap_right toList).mem_iff.mp ha),
    (hp.flatMap_right toList).nodup_iff.mpr H.nodup,fun d hd => H.sub d (hp.mem_iff.mp hd)⟩

variable {fs : Path α} {s : Side} {c d : Color} {x y t u v w : ColorTree α} {a b : α}

theorem Forest.sublist (H : Forest h₀ S h cs) (hs : ds.Sublist cs) : Forest h₀ S h ds := by
  have hl : (ds.flatMap toList).Sublist (cs.flatMap toList) := by
    simpa only [List.flatMap_def] using (hs.map toList).flatten
  exact ⟨H.within,fun a ha => H.mem a (hl.subset ha),H.nodup.sublist hl,
    fun d hd => H.sub d (hs.subset hd)⟩

theorem Forest.drop (H : Forest h₀ S h (t::u::ds)) : Forest h₀ S h (t::ds) :=
  H.sublist ((List.sublist_cons_self u ds).cons_cons t)

theorem Forest.second (H : Forest h₀ S h (t::u::ds)) : Forest h₀ S h (u::t::ds) :=
  H.perm (List.Perm.swap _ _ _)

theorem Forest.third (H : Forest h₀ S h (t::u::v::ds)) : Forest h₀ S h (v::t::u::ds) :=
  H.perm (List.perm_middle : ([t,u]++v::ds).Perm _).symm

theorem Forest.focus (H : Forest h₀ S h (plug fs t::ds)) : Sub h (top fs) t ∧ Up h fs (ref t) :=
  sub_plug.mp (H.sub _ (by simp))

theorem Forest.nodup_focus (H : Forest h₀ S h (plug fs t::ds)) :
    (t.toList++around fs).Nodup := by
  have hn := H.nodup
  rw [List.flatMap_cons,List.nodup_append] at hn
  exact (plug_perm fs t).nodup_iff.mp hn.1

theorem Forest.nil_cons (H : Forest h₀ S h ds) : Forest h₀ S h (.nil::ds) :=
  ⟨H.within,by simpa [toList] using H.mem,by simpa [toList] using H.nodup,
    fun d hd => (List.mem_cons.mp hd).elim (fun h => h ▸ trivial) (H.sub d)⟩

theorem Forest.cell (H : Forest h₀ S h (plug fs (branch s c x a y)::ds)) :
    h.color (.node a) = c ∧ h.parent (.node a) = top fs ∧ h.link (.node a) s = some (ref x) ∧
      h.link (.node a) s.other = some (ref y) := by
  obtain ⟨h1,h2,h3,h4,-⟩ := sub_branch.mp H.focus.1
  exact ⟨h1,h2,h3,h4⟩

theorem Forest.mem_set (H : Forest h₀ S h (plug fs t::ds)) (ha : a ∈ t.toList ∨ a ∈ around fs) :
    a ∈ S := H.mem a (by simp [mem_plug,ha])

theorem Forest.ref_ne (H : Forest h₀ S h (plug (⟨s,c,a,y⟩::fs) x::ds)) (hx : x ≠ .nil) :
    ref x ≠ ref y := by
  intro he
  cases x with
  | nil => exact hx rfl
  | node d l b r =>
      have hn := (List.nodup_append.mp H.nodup_focus).2.2
      exact hn b (by simp [toList]) b (by simp [around,mem_of_ref (he.symm.trans rfl)]) rfl

theorem Forest.setRoot (H : Forest h₀ S h ds) (p : Option (Ref α)) :
    Forest h₀ S {h with root := p} ds :=
  ⟨⟨H.within.key,H.within.obj,H.within.tree,H.within.cell⟩,H.mem,H.nodup,
    fun d hd => (H.sub d hd).congr fun _ _ => ⟨rfl,rfl,rfl⟩⟩

theorem plug_branch_other (s : Side) (c : Color) (x : ColorTree α) (a : α) (y : ColorTree α)
    (fs : Path α) : plug fs (branch s c x a y) = plug (⟨s.other,c,a,x⟩::fs) y := by
  simp [plug,branch_other]

/-- The sentinel is black and has no children, not even itself. -/
def Sentinel (h : Heap α T) : Prop := h.color .nil = .black ∧ ∀ s, h.link .nil s = none

/-- The tree `t` hangs at the root pointer, beside the loose trees `ds`. -/
structure Standing (h₀ : Heap α T) (S : Set α) (h : Heap α T) (t : ColorTree α)
    (ds : List (ColorTree α)) : Prop where
  forest : Forest h₀ S h (t::ds)
  root : h.root = rootRef t
  owned : ∀ a ∈ S, h₀.tree (.node a) = true
  sentinel : Sentinel h₀

namespace Standing

theorem nil_color (H : Standing h₀ S h t ds) : h.color .nil = .black :=
  (H.forest.within.cell .nil (by simp)).1.trans H.sentinel.1

theorem color_focus (H : Standing h₀ S h (plug fs t) ds) : h.color (ref t) = rootColor t := by
  cases t with
  | nil => exact H.nil_color
  | node c l a r => exact H.forest.focus.1.1

theorem parent_focus (H : Standing h₀ S h (plug fs t) ds) (ht : t ≠ .nil) :
    h.parent (ref t) = top fs := by
  cases t with
  | nil => exact absurd rfl ht
  | node c l a r => exact H.forest.focus.1.2.1

theorem color_sibling (H : Standing h₀ S h (plug fs (branch s c x a y)) ds) :
    h.color (ref y) = rootColor y := by
  rw [plug_branch_other] at H
  exact H.color_focus

end Standing

/-- Outside the tree a node has no parent, no children and no tree. -/
def Loose (h : Heap α T) (a : α) : Prop :=
  h.parent (.node a) = none ∧ (∀ s, h.link (.node a) s = some .nil) ∧ h.tree (.node a) = false

/-- Between two calls: the tree `t` hangs at the root pointer, all other nodes are loose. -/
structure IsTree (h : Heap α T) (t : ColorTree α) : Prop where
  sub : Sub h none t
  nodup : t.toList.Nodup
  root : h.root = rootRef t
  owned : ∀ a ∈ t.toList, h.tree (.node a) = true
  loose : ∀ a, a ∉ t.toList → Loose h a
  sentinel : Sentinel h

/-- The tree `t` hangs at the root pointer, and nothing is known about other nodes. -/
structure Planted (h : Heap α T) (t : ColorTree α) : Prop where
  sub : Sub h none t
  nodup : t.toList.Nodup
  root : h.root = rootRef t
  owned : ∀ a ∈ t.toList, h.tree (.node a) = true
  sentinel : Sentinel h

theorem IsTree.planted (H : IsTree h t) : Planted h t :=
  ⟨H.sub,H.nodup,H.root,H.owned,H.sentinel⟩

theorem Planted.isTree (H : Planted h t) (hl : ∀ a, a ∉ t.toList → Loose h a) : IsTree h t :=
  ⟨H.sub,H.nodup,H.root,H.owned,hl,H.sentinel⟩

theorem Standing.planted (H : Standing h₀ S h t []) : Planted h t := by
  have hw := H.forest.within
  have hnil := hw.cell .nil (by simp)
  refine ⟨H.forest.sub t (by simp),by simpa using H.forest.nodup,H.root,fun a ha => ?_,
    hnil.1.trans H.sentinel.1,fun s => hnil.2.2 ▸ H.sentinel.2 s⟩
  exact hw.tree ▸ H.owned a (H.forest.mem a (by simpa using ha))

/-- A node outside of `S` is as it was. -/
def SameNode (h h' : Heap α T) (a : α) : Prop :=
  SameCell h h' (.node a) ∧ h'.tree (.node a) = h.tree (.node a)

theorem SameNode.loose (H : SameNode h h' a) (hl : Loose h a) : Loose h' a := by
  obtain ⟨⟨-,hp,hk⟩,ht⟩ := H
  exact ⟨hp.trans hl.1,fun s => hk ▸ hl.2.1 s,ht.trans hl.2.2⟩

theorem Within.sameNode (H : Within h₀ S h) (ha : a ∉ S) : SameNode h₀ h a :=
  ⟨H.cell (.node a) fun b hb he => ha (by cases he; exact hb),by rw [H.tree]⟩

theorem Planted.standing (H : Planted h t) : Standing h {b | b ∈ t.toList} h t [] :=
  ⟨⟨⟨rfl,rfl,rfl,fun _ _ => ⟨rfl,rfl,rfl⟩⟩,by simp,by simpa using H.nodup,by simpa using H.sub⟩,
    H.root,H.owned,H.sentinel⟩

theorem IsTree.standing (H : IsTree h t) : Standing h {b | b ∈ t.toList} h t [] :=
  H.planted.standing

/-- A node with no parent and no children. -/
def Unlinked (h : Heap α T) (a : α) : Prop :=
  h.parent (.node a) = none ∧ ∀ s, h.link (.node a) s = some .nil

/-- A call on the tree with the nodes `xs`: keys and objects stay, and so do other nodes. -/
structure Confined (h h' : Heap α T) (xs : List α) : Prop where
  key : h'.key = h.key
  obj : h'.obj = h.obj
  same : ∀ a, a ∉ xs → SameNode h h' a

/-- What a call leaves alone: keys, objects, and the colours of the nodes outside `xs`. -/
def Kept (h h' : Heap α T) (xs : List α) : Prop :=
  h'.key = h.key ∧ h'.obj = h.obj ∧ ∀ a, a ∉ xs → h'.color (.node a) = h.color (.node a)

theorem Confined.kept {xs : List α} (H : Confined h h' xs) : Kept h h' xs :=
  ⟨H.key,H.obj,fun a ha => (H.same a ha).1.1⟩

/-- What every repair achieves: a valid tree over the same elements in the same order. -/
def Repaired (h₀ : Heap α T) (S : Set α) (ds : List (ColorTree α)) (xs : List α)
    (r : Option (Heap α T)) : Prop :=
  ∃ h' t', r = some h' ∧ Standing h₀ S h' t' ds ∧ Valid t' ∧ t'.toList = xs

theorem Standing.repaired {h' : Heap α T} {gs : Path α} {t' u : ColorTree α} {d : Color} {m : ℕ}
    (H : Standing h₀ S h' (plug gs t') ds) (ht : Balanced t' .black m) (hf : Fits gs d m)
    (hl : t'.toList = u.toList) : Repaired h₀ S ds (plug gs u).toList (some h') :=
  ⟨h',_,rfl,H,hf.plug ht fun _ => rfl,by simp only [toList_plug,hl]⟩

variable [DecidableEq α]

theorem sameCell_setColor {z w : Ref α} (hzw : z ≠ w) : SameCell h (h.setColor w c) z := by
  simp [SameCell,Heap.setColor,hzw]

theorem sameCell_setParent {z w : Ref α} (p : Option (Ref α)) (hzw : z ≠ w) :
    SameCell h (h.setParent w p) z := by simp [SameCell,Heap.setParent,hzw]

theorem sameCell_setLink {z w : Ref α} (p : Option (Ref α)) (hzw : z ≠ w) :
    SameCell h (h.setLink w s p) z := by simp [SameCell,Heap.setLink,hzw]

/-- Recolouring the node in focus. -/
theorem Forest.setColor (d : Color) (H : Forest h₀ S h (plug fs (branch s c x a y)::ds)) :
    Forest h₀ S (h.setColor (.node a) d) (plug fs (branch s d x a y)::ds) := by
  have haS : a ∈ S := H.mem_set (Or.inl (by simp))
  have hn := H.nodup_focus
  rw [((branch_perm s c x a y).append_right _).nodup_iff,List.cons_append,List.nodup_cons] at hn
  have ha := hn.1
  simp only [List.mem_append,not_or] at ha
  have hsame : ∀ b, b ≠ a → SameCell h (h.setColor (.node a) d) (.node b) := fun b hb =>
    sameCell_setColor (by simpa using hb)
  obtain ⟨hsub,hup⟩ := H.focus
  obtain ⟨-,hp,hl,hr,hx,hy⟩ := sub_branch.mp hsub
  refine H.replace [_] [_] (H.within.change rfl rfl rfl ?_) ?_ ?_ ?_
  · exact fun z hz => sameCell_setColor (hz a haS)
  · simp [toList_plug,toList_branch_color s c d]
  · simp only [List.mem_singleton,forall_eq,sub_plug,sub_branch]
    refine ⟨⟨by simp [Heap.setColor],hp,hl,hr,hx.congr ?_,hy.congr ?_⟩,?_⟩
    · exact fun b hb => hsame b (by rintro rfl; exact ha.1.1 hb)
    · exact fun b hb => hsame b (by rintro rfl; exact ha.1.2 hb)
    · rw [ref_branch]
      rw [ref_branch] at hup
      exact hup.congr fun b hb => hsame b (by rintro rfl; exact ha.2 hb)
  · intro b hb
    exact hsame b (by rintro rfl; exact hb (by simp [mem_plug]))

/-- The link of `a` and the parent of a subtree that is not below `a` change together. -/
theorem relink {p q : Option (Ref α)} {w : Ref α} {l r : ColorTree α} (v : Ref α)
    (hx : Sub h p (.node d l b r)) (hup : Up h (⟨s,c,a,y⟩::fs) w)
    (hn : ((ColorTree.node d l b r).toList++around (⟨s,c,a,y⟩::fs)).Nodup)
    (hh : h' = (h.setParent (.node b) q).setLink (.node a) s (some v)) :
    Sub h' q (.node d l b r) ∧ Up h' (⟨s,c,a,y⟩::fs) v := by
  obtain ⟨hnx,hnf,hd⟩ := List.nodup_append.mp hn
  have hb : ∀ e ∈ around (⟨s,c,a,y⟩::fs), e ≠ b := fun e he =>
    (hd b (by simp [toList]) e he).symm
  have ha : ∀ e ∈ (ColorTree.node d l b r).toList, e ≠ a := fun e he =>
    hd e he a (by simp [around])
  have hsame : ∀ e, e ≠ b → e ≠ a → SameCell h h' (.node e) := by
    intro e heb hea
    subst hh
    exact (sameCell_setParent q (by simpa using heb)).trans
      (sameCell_setLink _ (by simpa using hea))
  simp only [around,List.nodup_cons,List.mem_append,not_or] at hnf
  constructor
  · refine hx.reparent hnx ?_ ?_ ?_ ?_
    · rintro e ⟨⟩
      simp [hh,Heap.setLink,Heap.setParent]
    · intro e he
      simp [hh,Heap.setLink,Heap.setParent]
    · intro e he
      simp [hh,Heap.setLink,Heap.setParent,ha e he]
    · intro e he hne
      have heb : e ≠ b := fun h => hne (by simp [ref,h])
      exact (hsame e heb (ha e he)).2.1
  · obtain ⟨h1,h2,-,h4,h5,h6⟩ := hup
    have hab : a ≠ b := hb a (by simp [around])
    have hsib : ∀ e ∈ y.toList, SameCell h h' (.node e) := fun e he =>
      hsame e (hb e (by simp [around,he])) fun hea => hnf.1.1 (hea ▸ he)
    have hpath : ∀ e ∈ around fs, SameCell h h' (.node e) := fun e he =>
      hsame e (hb e (by simp [around,he])) fun hea => hnf.1.2 (hea ▸ he)
    refine ⟨?_,?_,?_,?_,h5.congr hsib,h6.congr hpath⟩
    · simpa [hh,Heap.setLink,Heap.setParent] using h1
    · simpa [hh,Heap.setLink,Heap.setParent,hab] using h2
    · simp [hh,Heap.setLink]
    · simpa [hh,Heap.setLink,Heap.setParent] using h4

theorem within_relink (H : Within h₀ S h) (haS : a ∈ S) (hbS : b ∈ S) (q v : Option (Ref α)) :
    Within h₀ S ((h.setParent (.node b) q).setLink (.node a) s v) :=
  H.change rfl rfl rfl fun _ hz =>
    (sameCell_setParent q (hz b hbS)).trans (sameCell_setLink v (hz a haS))

theorem sameCell_relink {e : α} (hea : e ≠ a) (heb : e ≠ b) (q v : Option (Ref α)) :
    SameCell h ((h.setParent (.node b) q).setLink (.node a) s v) (.node e) :=
  (sameCell_setParent q (by simpa using heb)).trans (sameCell_setLink v (by simpa using hea))

/-- A subtree is taken off. -/
theorem Forest.detachSide (H : Forest h₀ S h (plug (⟨s,c,a,y⟩::fs) x::ds)) :
    ∃ h', h.detachSide (.node a) s = some (h',ref x) ∧ h'.root = h.root ∧
      Forest h₀ S h' (plug (⟨s,c,a,y⟩::fs) .nil::x::ds) := by
  have hl : h.link (.node a) s = some (ref x) := H.cell.2.2.1
  cases x with
  | nil =>
      refine ⟨h,?_,rfl,H.nil_cons.second⟩
      simp [Heap.detachSide,hl,ref]
  | node d l b r =>
      obtain ⟨hx,hup⟩ := H.focus
      have hn := H.nodup_focus
      obtain ⟨hx',hup'⟩ := relink (q := none) .nil hx hup hn rfl
      refine ⟨(h.setParent (.node b) none).setLink (.node a) s (some .nil),
        by simp [Heap.detachSide,hl,ref],rfl,?_⟩
      refine H.replace [_] [_,_] (within_relink H.within ?_ ?_ _ _) ?_ ?_ ?_
      · exact H.mem_set (Or.inr (by simp [around]))
      · exact H.mem_set (Or.inl (by simp [toList]))
      · simp only [List.flatMap_cons,List.flatMap_nil,List.append_nil]
        exact plug_nil_perm _ _
      · simp only [List.mem_cons,List.not_mem_nil,or_false,forall_eq_or_imp,forall_eq]
        exact ⟨sub_plug.mpr ⟨trivial,hup'⟩,hx'⟩
      · intro e he
        simp only [List.flatMap_cons,List.flatMap_nil,List.append_nil,mem_plug,around,
          List.mem_cons,List.mem_append,not_or] at he
        exact sameCell_relink he.2.1 (by rintro rfl; exact he.1 (by simp [toList])) _ _

/-- A detached tree is put where nothing hangs. -/
theorem Forest.attachSide (H : Forest h₀ S h (plug (⟨s,c,a,y⟩::fs) .nil::x::ds)) :
    Forest h₀ S (h.attachSide (.node a) s (ref x)) (plug (⟨s,c,a,y⟩::fs) x::ds) := by
  have hl : h.link (.node a) s = some .nil := H.cell.2.2.1
  cases x with
  | nil =>
      have hh : h.attachSide (.node a) s (ref .nil) = h := by
        simp [Heap.attachSide,ref,Heap.setLink,← hl]
      rw [hh]
      exact H.drop
  | node d l b r =>
      obtain ⟨-,hup⟩ := H.focus
      have hx := H.sub (.node d l b r) (by simp)
      have hn : ((ColorTree.node d l b r).toList++around (⟨s,c,a,y⟩::fs)).Nodup := by
        have hn := H.nodup
        rw [List.flatMap_cons,List.flatMap_cons,← List.append_assoc,List.nodup_append] at hn
        exact ((plug_nil_perm _ _).trans (plug_perm _ _)).nodup_iff.mp hn.1
      obtain ⟨hx',hup'⟩ := relink (q := some (.node a)) (.node b) hx hup hn rfl
      have hmem : ∀ e, e = a ∨ e = b → e ∈ S := fun e he =>
        H.mem e (by rcases he with rfl | rfl <;> simp [mem_plug,around,toList])
      refine H.replace [_,_] [_] (within_relink H.within (hmem a (.inl rfl)) (hmem b (.inr rfl)) _ _)
        ?_ ?_ ?_
      · simp only [List.flatMap_cons,List.flatMap_nil,List.append_nil]
        exact (plug_nil_perm _ _).symm
      · simp only [List.mem_cons,List.not_mem_nil,or_false,forall_eq]
        exact sub_plug.mpr ⟨hx',hup'⟩
      · intro e he
        simp only [List.flatMap_cons,List.flatMap_nil,List.append_nil,mem_plug,around,
          List.mem_cons,List.mem_append,not_or] at he
        exact sameCell_relink he.1.2.1 (by rintro rfl; exact he.2 (by simp [toList])) _ _

theorem Forest.whichSide (H : Forest h₀ S h (plug (⟨s,c,a,y⟩::fs) x::ds)) (hx : ref x ≠ ref y) :
    h.whichSide (.node a) (ref x) = s := by
  obtain ⟨-,-,hl,hr⟩ := H.cell
  cases s with
  | left => simp [Heap.whichSide,hl]
  | right =>
      have hr : h.link (.node a) .left = some (ref y) := hr
      simp [Heap.whichSide,hl,hr,hx.symm]

@[simp] theorem attachSide_root (u v : Ref α) : (h.attachSide u s v).root = h.root := by
  unfold Heap.attachSide
  split_ifs <;> rfl

/-- A detached tree takes the place of the tree in the hole. -/
theorem Forest.rehang (htree : ∀ a ∈ S, h₀.tree (.node a) = true)
    (H : Forest h₀ S h (plug fs t::u::ds)) (ht : t ≠ .nil) (hu : u ≠ .nil) :
    ∃ h', h.rehang (top fs) (ref t) (ref u) = some h' ∧ Forest h₀ S h' (plug fs u::t::ds) ∧
      (h.root = rootRef (plug fs v) → h'.root = rootRef (plug fs u)) := by
  cases fs with
  | nil =>
      refine ⟨{h with root := some (ref u)},?_,H.second.setRoot _,?_⟩
      · cases t with
        | nil => exact absurd rfl ht
        | node c l a r =>
            have ha : a ∈ S := H.mem a (by simp [plug,toList])
            simp [Heap.rehang,top,Heap.setRoot,ref,H.within.tree,htree a ha]
      · cases u with
        | nil => exact absurd rfl hu
        | node c l a r => exact fun _ => rfl
  | cons f fs =>
      have hs := H.whichSide (H.ref_ne ht)
      obtain ⟨h1,e1,r1,H1⟩ := H.detachSide
      refine ⟨h1.attachSide (.node f.elt) f.side (ref u),?_,
        (H1.perm (List.Perm.cons _ (List.Perm.swap _ _ _))).attachSide,?_⟩
      · simp [Heap.rehang,top,hs,e1]
      · rw [attachSide_root,r1]
        exact fun h => h.trans (rootRef_plug_cons _ _ _ _)

/-- The rotation towards `s` lifts the child on the other side. -/
theorem Forest.rotate {X Y Z : ColorTree α} {e : α} (htree : ∀ a ∈ S, h₀.tree (.node a) = true)
    (H : Forest h₀ S h (plug fs (branch s c X e (branch s d Y b Z))::ds)) :
    ∃ h', h.rotate (.node e) s = some h' ∧
      Forest h₀ S h' (plug fs (branch s d (branch s c X e Y) b Z)::ds) ∧
      (h.root = rootRef (plug fs (branch s c X e (branch s d Y b Z))) →
        h'.root = rootRef (plug fs (branch s d (branch s c X e Y) b Z))) := by
  have hpar : h.parent (.node e) = top fs := H.cell.2.1
  rw [plug_branch_other] at H
  obtain ⟨h1,e1,r1,H1⟩ := H.detachSide
  rw [← plug_branch_other] at H1
  obtain ⟨h2,e2,r2,H2⟩ :=
    (show Forest h₀ S h1 (plug [⟨s,d,b,Z⟩] Y::_::ds) from H1.second).detachSide
  obtain ⟨h3,e3,H3,r3⟩ := H2.third.rehang (v := branch s c X e (branch s d Y b Z)) htree
    (by simp) (by simp [plug])
  have H4 := (show Forest h₀ S h3 (plug (⟨s,d,b,Z⟩::fs) .nil::_::Y::ds) from H3).attachSide
  rw [plug_branch_other] at H4
  simp only [plug,ref_branch] at e1 e3
  rw [ref_branch] at H4
  refine ⟨_,by simp [Heap.rotate,e1,e2,hpar,e3]; rfl,?_,?_⟩
  · split_ifs with hY
    · subst hY
      have H5 := H4.drop
      rwa [← plug_branch_other] at H5
    · have H5 := H4.attachSide
      rwa [← plug_branch_other] at H5
  · intro hr
    have h3r := r3 (by rw [r2,r1,hr])
    rw [rootRef_plug_congr (u := branch s d (branch s c X e Y) b Z) fs (by simp [plug])] at h3r
    split_ifs <;> simpa using h3r

namespace Standing

theorem setColor (d : Color) (H : Standing h₀ S h (plug fs (branch s c x a y)) ds) :
    Standing h₀ S (h.setColor (.node a) d) (plug fs (branch s d x a y)) ds :=
  ⟨H.forest.setColor d,H.root.trans (rootRef_plug_congr fs (by simp)),H.owned,H.sentinel⟩

/-- A child of the focus is recoloured. -/
theorem setColor_child {s' : Side} {e : Color} (d : Color)
    (H : Standing h₀ S h (plug fs (branch s c x a (branch s' e u b v))) ds) :
    Standing h₀ S (h.setColor (.node b) d) (plug fs (branch s c x a (branch s' d u b v))) ds := by
  rw [plug_branch_other] at H ⊢
  exact H.setColor d

theorem setColor_near {s' : Side} {e : Color} (d : Color)
    (H : Standing h₀ S h (plug fs (branch s c (branch s' e u b v) a y)) ds) :
    Standing h₀ S (h.setColor (.node b) d) (plug fs (branch s c (branch s' d u b v) a y)) ds := by
  rw [← branch_other] at H ⊢
  exact H.setColor_child d

theorem swapColor {s' : Side} (H : Standing h₀ S h (plug fs (branch s c x a (branch s' d u b v))) ds) :
    Standing h₀ S (h.swapColor (.node a) (.node b))
      (plug fs (branch s d x a (branch s' c u b v))) ds := by
  have ha := H.color_focus
  have hb := H.color_sibling
  simp only [ref_branch,rootColor_branch] at ha hb
  rw [Heap.swapColor,ha,hb]
  exact (H.setColor d).setColor_child c

theorem swapColor_up {s' : Side}
    (H : Standing h₀ S h (plug fs (branch s c x a (branch s' d u b v))) ds) :
    Standing h₀ S (h.swapColor (.node b) (.node a))
      (plug fs (branch s d x a (branch s' c u b v))) ds := by
  have ha := H.color_focus
  have hb := H.color_sibling
  simp only [ref_branch,rootColor_branch] at ha hb
  rw [Heap.swapColor,ha,hb]
  exact (H.setColor_child c).setColor d

theorem rotate (H : Standing h₀ S h (plug fs (branch s c x a (branch s d u b v))) ds) :
    ∃ h', h.rotate (.node a) s = some h' ∧
      Standing h₀ S h' (plug fs (branch s d (branch s c x a u) b v)) ds := by
  obtain ⟨h',e,H',r⟩ := H.forest.rotate H.owned
  exact ⟨h',e,H',r H.root,H.owned,H.sentinel⟩

theorem attachSide (H : Standing h₀ S h (plug (⟨s,c,a,y⟩::fs) .nil) (x::ds)) :
    Standing h₀ S (h.attachSide (.node a) s (ref x)) (plug (⟨s,c,a,y⟩::fs) x) ds :=
  ⟨H.forest.attachSide,by rw [attachSide_root,H.root]; exact rootRef_plug_cons _ _ _ _,
    H.owned,H.sentinel⟩

theorem getBrother (H : Standing h₀ S h (plug (⟨s,c,a,y⟩::fs) x) ds) (hx : x ≠ .nil) :
    h.getBrother (ref x) = some (ref y) := by
  obtain ⟨-,-,hl,hr⟩ := H.forest.cell
  have hp : h.parent (ref x) = some (.node a) := H.parent_focus hx
  have hne := H.forest.ref_ne hx
  cases s with
  | left =>
      have hr : h.link (.node a) .right = some (ref y) := hr
      simp [Heap.getBrother,hp,hl,hr]
  | right =>
      have hr : h.link (.node a) .left = some (ref y) := hr
      simp [Heap.getBrother,hp,hr,hne.symm]

end Standing

end CosKernel.RedBlackHeap

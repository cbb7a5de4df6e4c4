import CosKernel.RedBlackForest

/-!
# Insertion

`adjustInsert` repairs a tree whose only fault is that the node it is called on,
red and balanced below, may have a red parent. The induction follows its
recursion to the grandparent; the statement fits a path of any length, since
`Fits` says all that is known about the rest of the tree.
-/
namespace CosKernel.RedBlackHeap
open RedBlackZipper ColorTree

variable {α T : Type} {h₀ h : Heap α T} {S : Set α} {ds : List (ColorTree α)}
variable {fs : Path α} {t : ColorTree α} {c : Color} {n : ℕ}

/-- The place of `a` in a list sorted by key: after all smaller and equal keys. -/
def SplitAt (key : α → ℤ) (a : α) (l r : List α) : Prop :=
  (∀ b ∈ l, key b ≤ key a) ∧ ∀ b ∈ r, key a < key b

theorem SplitAt.descend {key : α → ℤ} {a b : α} {s : Side} {x y z w : ColorTree α}
    (h : SplitAt key a (before fs) (after fs))
    (hs : (ColorTree.node c x b y).toList.Pairwise fun b c => key b ≤ key c)
    (hside : (if key a < key b then Side.left else Side.right) = s)
    (hzw : ColorTree.node c x b y = branch s c z b w) :
    SplitAt key a (before (⟨s,c,b,w⟩::fs)) (after (⟨s,c,b,w⟩::fs)) := by
  rw [toList,List.pairwise_append,List.pairwise_cons] at hs
  obtain ⟨-,⟨hy,-⟩,hx⟩ := hs
  split_ifs at hside with hk
  · subst hside
    cases hzw
    refine ⟨by simpa [before] using h.1,?_⟩
    simp only [after,List.cons_append,List.mem_cons,List.mem_append]
    rintro e (rfl | he | he)
    · exact hk
    · exact hk.trans_le (hy e he)
    · exact h.2 e he
  · subst hside
    cases hzw
    refine ⟨?_,by simpa [after] using h.2⟩
    simp only [before,List.mem_append,List.mem_singleton]
    rintro e (he | he | rfl)
    · exact h.1 e he
    · exact (hx e he b (by simp)).trans (not_lt.mp hk)
    · exact not_lt.mp hk

variable [DecidableEq α]

/-- The last rotation: the node `k` changes places and colours with the grandparent. -/
theorem Standing.lift {s : Side} {d e : Color} {q w u : ColorTree α} {k g : α} {gs : Path α}
    (H : Standing h₀ S h (plug gs (branch s e (branch s d q k w) g u)) ds) :
    ∃ h₁, h.rotate (.node g) s.other = some h₁ ∧
      Standing h₀ S (h₁.swapColor (.node g) (.node k))
        (plug gs (branch s e q k (branch s d w g u))) ds := by
  rw [← branch_other s e,← branch_other s d] at H
  obtain ⟨h₁,e,H₁⟩ := H.rotate
  rw [branch_other,branch_other] at H₁
  exact ⟨h₁,e,H₁.swapColor_up⟩

/-- With a red parent and a black uncle there are one or two rotations, whatever the other colours
are. If the node is on the inner side, it first changes places with its parent. -/
theorem adjustInsert_rotates (fuel : ℕ) {s s' : Side} {e : Color} {p g : α} {y u : ColorTree α}
    {gs : Path α} (H : Standing h₀ S h (plug (⟨s,.red,p,y⟩::⟨s',e,g,u⟩::gs) t) ds) (hne : t ≠ .nil)
    (hu : u.rootColor = .black) :
    ∃ h', Heap.adjustInsert (fuel+1) h (ref t) = some h' ∧
      (s = s' ∧ Standing h₀ S h' (plug gs (branch s' e t p (branch s' .red y g u))) ds ∨
        s = s'.other ∧ ∃ c x a z, t = branch s' c x a z ∧
          Standing h₀ S h' (plug gs (branch s' e (branch s' .red y p x) a (branch s' c z g u))) ds) := by
  have H₁ : Standing h₀ S h (plug (⟨s',e,g,u⟩::gs) (branch s .red t p y)) ds := H
  have H₂ : Standing h₀ S h (plug gs (branch s' e (branch s .red t p y) g u)) ds := H
  have hpar := H.parent_focus hne
  have hgrand := H₁.parent_focus (by simp)
  have hpc := H₁.color_focus
  have huc := H₂.color_sibling
  have hbro := H₁.getBrother (by simp)
  have hside := H.forest.whichSide (H.forest.ref_ne hne)
  have hside' := H₁.forest.whichSide (H₁.forest.ref_ne (by simp))
  simp only [ref_branch,rootColor_branch,hu,top] at hpar hgrand hpc huc hbro hside hside'
  simp only [Heap.adjustInsert,hpar,hpc,hbro,hgrand,huc,hside,hside',Option.bind_eq_bind,
    Option.bind_some]
  by_cases hss : s = s'
  · subst hss
    obtain ⟨h₁,e₁,H₃⟩ := H₂.lift
    exact ⟨_,by simp [e₁],Or.inl ⟨rfl,H₃⟩⟩
  · obtain rfl : s = s'.other := (s'.eq_or_other s).resolve_left hss
    obtain ⟨c,x,a,z,rfl⟩ : ∃ c x a z, t = branch s' c x a z := by
      cases t with
      | nil => exact absurd rfl hne
      | node c x a y =>
          obtain ⟨z,w,hzw⟩ := node_eq_branch s' c x a y
          exact ⟨c,z,a,w,hzw⟩
    rw [branch_other] at H₁
    obtain ⟨h₁,e₁,H₃⟩ := H₁.rotate
    have hside₁ := H₃.forest.whichSide (H₃.forest.ref_ne (by simp))
    obtain ⟨h₂,e₂,H₄⟩ := (show Standing h₀ S h₁ (plug gs (branch s' e _ g u)) ds from H₃).lift
    rw [ref_branch] at hside₁
    exact ⟨_,by simp [e₁,hside₁,e₂],Or.inr ⟨rfl,c,x,a,z,rfl,H₄⟩⟩

/-- With a black uncle the tree is repaired on the spot. -/
theorem adjustInsert_rotations {s s' : Side} {p g : α} {y u : ColorTree α} {gs : Path α}
    {d : Color} {fuel : ℕ}
    (H : Standing h₀ S h (plug (⟨s,.red,p,y⟩::⟨s',.black,g,u⟩::gs) t) ds)
    (ht : Balanced t .red n) (hy : Balanced y .black n) (hu : Balanced u .black n)
    (hf : Fits gs d (n+1)) :
    Repaired h₀ S ds (plug (⟨s,.red,p,y⟩::⟨s',.black,g,u⟩::gs) t).toList
      (Heap.adjustInsert (fuel+1) h (ref t)) := by
  have hne : t ≠ .nil := by rintro rfl; cases ht
  obtain ⟨h',hrun,hcase⟩ := adjustInsert_rotates fuel H hne hu.rootColor
  rw [hrun]
  change Repaired h₀ S ds (plug gs (branch s' .black (branch s .red t p y) g u)).toList _
  rcases hcase with ⟨rfl,H'⟩ | ⟨rfl,c,x,a,z,rfl,H'⟩
  · have hb := Balanced.branch_red (s := s) (a := g) hy hu
    exact H'.repaired (.branch_black ht hb) hf (toList_rotate s .black .red .red .black _ _ _ _ _).symm
  · obtain rfl : c = .red := by simpa using ht.rootColor
    obtain ⟨-,hx,hz⟩ := ht.of_branch_red
    have hb := Balanced.branch_black (s := s') (a := a) (.branch_red (s := s') (a := p) hy hx)
      (.branch_red (s := s') (a := g) hz hu)
    exact H'.repaired hb hf (toList_inner s' _ _ _ _ _ _ _ _ _ _ _ _ _)

theorem adjustInsert_spec (fuel : ℕ) (hfuel : fs.length < fuel)
    (H : Standing h₀ S h (plug fs t) ds) (ht : Balanced t .red n) (hf : Fits fs c n) :
    Repaired h₀ S ds (plug fs t).toList (Heap.adjustInsert fuel h (ref t)) := by
  induction fuel generalizing h fs t c n with
  | zero => omega
  | succ fuel ih =>
      have hne : t ≠ .nil := by rintro rfl; cases ht
      have hpar := H.parent_focus hne
      cases hf with
      | root =>
          obtain ⟨x,a,y,rfl⟩ := ht.branch_of_red .left
          obtain ⟨-,hx,hy⟩ := ht.of_branch_red
          refine ⟨_,_,?_,H.setColor .black,⟨n+1,.branch_black hx hy⟩,toList_branch_color _ _ _ _ _ _⟩
          simp only [ref_branch] at hpar ⊢
          simp [Heap.adjustInsert,hpar,top]
      | @black fs s p y c' d' _ hy hf =>
          have hp : h.color (.node p) = .black := by
            simpa using Standing.color_focus (t := branch s .black t p y) H
          refine ⟨h,_,?_,H,(Fits.black hy hf).plug ht (by simp),rfl⟩
          simp [Heap.adjustInsert,hpar,top,hp]
      | @red fs s p y _ hy hf =>
          obtain ⟨s',g,u,cu,d,gs,rfl,hu,hg⟩ := hf.of_black
          cases cu with
          | black => exact adjustInsert_rotations H ht hy hu hg
          | red =>
              obtain ⟨v,b,w,rfl⟩ := hu.branch_of_red s'
              obtain ⟨-,hv,hw⟩ := hu.of_branch_red
              have H₁ : Standing h₀ S h (plug (⟨s',.black,g,_⟩::gs) (branch s .red t p y)) ds := H
              have H₂ : Standing h₀ S h
                (plug gs (branch s' .black (branch s .red t p y) g (branch s' .red v b w))) ds := H
              have H₃ := ((H₂.setColor_child .black).setColor_near .black).setColor .red
              have hgrand := H₁.parent_focus (by simp)
              have hpc := H₁.color_focus
              have huc := H₂.color_sibling
              have hbro := H₁.getBrother (by simp)
              simp only [ref_branch,rootColor_branch,top] at hpar hgrand hpc huc hbro
              have hb := Balanced.branch_red (s := s') (a := g)
                (.branch_black (s := s) (a := p) ht hy) (.branch_black (s := s') (a := b) hv hw)
              obtain ⟨h',t',e,H',hv',hl⟩ := ih (by simp at hfuel; omega) H₃ hb hg
              refine ⟨h',t',?_,H',hv',hl.trans ?_⟩
              · simpa [Heap.adjustInsert,hpar,hpc,hbro,hgrand,huc] using e
              · cases s <;> cases s' <;> simp [plug,toList_plug,branch,toList]

/-- The descent ends at a nil link, where the node `a` is attached, whatever its colour. With
sorted keys the nodes before the link are not greater and those behind it are. -/
theorem insertBelow_reaches {a : α} {d : Color} (fuel : ℕ)
    (hfuel : fs.length+2*t.toList.length < fuel) (ht : t ≠ .nil)
    (H : Standing h₀ S h (plug fs t) (.node d .nil a .nil::ds)) :
    ∃ fuel' gs h', plug gs .nil = plug fs t ∧ gs ≠ [] ∧ gs.length < fuel' ∧
      Heap.insertBelow fuel h (ref t) (.node a) = Heap.adjustInsert fuel' h' (.node a) ∧
      Standing h₀ S h' (plug gs (.node d .nil a .nil)) ds ∧
      (t.toList.Pairwise (fun b c => h.key (.node b) ≤ h.key (.node c)) →
        SplitAt (fun b => h.key (.node b)) a (before fs) (after fs) →
        SplitAt (fun b => h.key (.node b)) a (before gs) (after gs)) := by
  induction fuel generalizing fs t with
  | zero => omega
  | succ fuel ih =>
      cases t with
      | nil => exact absurd rfl ht
      | node c x b y =>
          obtain ⟨s,hside⟩ : ∃ s, h.keySide (.node b) (.node a) = s := ⟨_,rfl⟩
          obtain ⟨z,w,hzw⟩ := node_eq_branch s c x b y
          have hdescend : (ColorTree.node c x b y).toList.Pairwise
                (fun b c => h.key (.node b) ≤ h.key (.node c)) →
              SplitAt (fun b => h.key (.node b)) a (before fs) (after fs) →
              SplitAt (fun b => h.key (.node b)) a (before (⟨s,c,b,w⟩::fs)) (after (⟨s,c,b,w⟩::fs)) :=
            fun hs hsplit => hsplit.descend hs hside hzw
          rw [hzw] at H hfuel hdescend ⊢
          rw [(branch_perm s c z b w).length_eq] at hfuel
          simp only [List.length_cons,List.length_append] at hfuel
          have hl : h.link (.node b) s = some (ref z) := H.forest.cell.2.2.1
          rw [ref_branch,Heap.insertBelow]
          simp only [hside,hl]
          cases z with
          | nil =>
              exact ⟨fuel,⟨s,c,b,w⟩::fs,_,rfl,by simp,by simp; omega,rfl,Standing.attachSide H,hdescend⟩
          | node c' x' b' y' =>
              have H' : Standing h₀ S h (plug (⟨s,c,b,w⟩::fs) (.node c' x' b' y')) _ := H
              obtain ⟨fuel',gs,h',hgs,hne,hlt,e,K,hsplit⟩ :=
                ih (by simp only [List.length_cons]; omega) (by simp) H'
              refine ⟨fuel',gs,h',hgs,hne,hlt,e,K,fun hs hfs => ?_⟩
              exact hsplit (hs.sublist (toList_sublist_branch ..)) (hdescend hs hfs)

theorem insertBelow_spec {a : α} (fuel : ℕ) (hfuel : fs.length+2*t.toList.length < fuel)
    (ht : t ≠ .nil) (H : Standing h₀ S h (plug fs t) (.node .red .nil a .nil::ds))
    (hv : Valid (plug fs t)) (hs : t.toList.Pairwise fun b c => h.key (.node b) ≤ h.key (.node c))
    (hsplit : SplitAt (fun b => h.key (.node b)) a (before fs) (after fs)) :
    ∃ l r, (plug fs t).toList = l++r ∧ SplitAt (fun b => h.key (.node b)) a l r ∧
      Repaired h₀ S ds (l++a::r) (Heap.insertBelow fuel h (ref t) (.node a)) := by
  obtain ⟨fuel',gs,h',hgs,-,hlt,e,K,hsplit'⟩ := insertBelow_reaches fuel hfuel ht H
  refine ⟨before gs,after gs,?_,hsplit' hs hsplit,?_⟩
  · rw [← hgs]
    simp [toList_plug,toList]
  · rw [← hgs] at hv
    obtain ⟨c,d,n,hf,hn,-⟩ := Balanced.unplug hv
    cases hn
    have R := adjustInsert_spec fuel' hlt K (.red .nil .nil) hf
    rw [e]
    simpa [toList_plug,toList,ref] using R

theorem Planted.insert_nil {a : α} (fuel : ℕ) (H : Planted h .nil) (ha : Unlinked h a) :
    ∃ h', h.insert fuel a = some (h',true) ∧ Planted h' (.node .black .nil a .nil) ∧
      Confined h h' [a] := by
  have hr : h.root = none := H.root
  obtain ⟨hp,hl⟩ := ha
  refine ⟨({h.attachTree (.node a) true with root := some (.node a)}).setColor (.node a) .black,
    ?_,⟨?_,by simp [toList],rfl,?_,?_⟩,rfl,rfl,?_⟩
  · simp [Heap.insert,Heap.attachTree,hr]
  · exact ⟨by simp [Heap.setColor],hp,hl .left,hl .right,trivial,trivial⟩
  · simp [toList,Heap.setColor,Heap.attachTree]
  · simpa [Sentinel,Heap.setColor,Heap.attachTree] using H.sentinel
  · intro b hb
    have hba : b ≠ a := by simpa using hb
    simp [SameNode,SameCell,Heap.setColor,Heap.attachTree,hba]

/-- The node `a` waits beside the tree. -/
theorem Planted.beside {a : α} {d : Color} (H : Planted h t) (ha : a ∉ t.toList)
    (hu : Unlinked h a) (hc : h.color (.node a) = d) :
    Standing (h.attachTree (.node a) true) {b | b = a ∨ b ∈ t.toList}
      (h.attachTree (.node a) true) (plug [] t) [.node d .nil a .nil] := by
  obtain ⟨hp,hl⟩ := hu
  refine ⟨⟨⟨rfl,rfl,rfl,fun _ _ => ⟨rfl,rfl,rfl⟩⟩,?_,?_,?_⟩,H.root,?_,H.sentinel⟩
  · simp [plug,toList,or_comm]
  · simpa [plug,toList,List.nodup_append,H.nodup] using fun b hb (hba : b = a) => ha (hba ▸ hb)
  · simp only [List.mem_cons,List.not_mem_nil,or_false,forall_eq_or_imp,forall_eq]
    exact ⟨H.sub.congr fun _ _ => ⟨rfl,rfl,rfl⟩,hc,hp,hl .left,hl .right,trivial,trivial⟩
  · rintro b (rfl | hb)
    · simp [Heap.attachTree]
    · by_cases hba : b = a
      · simp [Heap.attachTree,hba]
      · simpa [Heap.attachTree,hba] using H.owned b hb

/-- `RBTree::insert` of a red node, or of any node into an empty tree. -/
theorem Planted.insert {a : α} {fuel : ℕ} (hfuel : 2*t.toList.length < fuel) (H : Planted h t)
    (hv : Valid t) (ha : a ∉ t.toList) (hu : Unlinked h a)
    (hs : t.toList.Pairwise fun b c => h.key (.node b) ≤ h.key (.node c))
    (hc : t ≠ .nil → h.color (.node a) = .red) :
    ∃ h' t' l r, h.insert fuel a = some (h',true) ∧ Planted h' t' ∧ Valid t' ∧
      t.toList = l++r ∧ SplitAt (fun b => h.key (.node b)) a l r ∧ t'.toList = l++a::r ∧
      Confined h h' t'.toList := by
  by_cases ht : t = .nil
  · subst ht
    obtain ⟨h',e,H',K⟩ := H.insert_nil fuel hu
    exact ⟨h',_,[],[],e,H',⟨1,.black .nil .nil⟩,rfl,by simp [SplitAt],rfl,K⟩
  · obtain ⟨l,r,hlr,hsplit,h',t',e,H',hv',hl'⟩ := insertBelow_spec fuel (by simpa using hfuel) ht
      (H.beside ha hu (hc ht)) hv hs ⟨by simp [before],by simp [after]⟩
    have hlr : t.toList = l++r := hlr
    refine ⟨h',t',l,r,?_,H'.planted,hv',hlr,hsplit,hl',H'.forest.within.key,H'.forest.within.obj,?_⟩
    · have hr : (h.attachTree (.node a) true).root = some (ref t) :=
        H.root.trans (rootRef_eq_some ht)
      simp [Heap.insert,hr,e]
    · intro b hb
      have hout : b ≠ a ∧ b ∉ t.toList := by
        rw [hl'] at hb
        rw [hlr]
        simp only [List.mem_append,List.mem_cons,not_or] at hb ⊢
        tauto
      obtain ⟨hcell,htree⟩ := H'.forest.within.sameNode (a := b) (by simpa using hout)
      refine ⟨hcell,htree.trans ?_⟩
      simp [Heap.attachTree,hout.1]

theorem IsTree.insert {a : α} {fuel : ℕ} (hfuel : 2*t.toList.length < fuel) (H : IsTree h t)
    (hv : Valid t) (ha : a ∉ t.toList)
    (hs : t.toList.Pairwise fun b c => h.key (.node b) ≤ h.key (.node c))
    (hc : t ≠ .nil → h.color (.node a) = .red) :
    ∃ h' t' l r, h.insert fuel a = some (h',true) ∧ IsTree h' t' ∧ Valid t' ∧
      t.toList = l++r ∧ SplitAt (fun b => h.key (.node b)) a l r ∧ t'.toList = l++a::r ∧
      Kept h h' t'.toList := by
  obtain ⟨hp,hl,-⟩ := H.loose a ha
  obtain ⟨h',t',l,r,e,H',hv',hlr,hsplit,hl',K⟩ := H.planted.insert hfuel hv ha ⟨hp,hl⟩ hs hc
  refine ⟨h',t',l,r,e,H'.isTree fun b hb => ?_,hv',hlr,hsplit,hl',K.kept⟩
  refine (K.same b hb).loose (H.loose b fun hmem => hb ?_)
  rw [hl']
  rw [hlr] at hmem
  simp only [List.mem_append,List.mem_cons] at hmem ⊢
  tauto

end CosKernel.RedBlackHeap

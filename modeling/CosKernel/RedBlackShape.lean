import CosKernel.RedBlackQueries

/-!
# Insertion whatever the colours

A node that comes back black unbalances the tree. The tree keeps its shape all the same: as
long as the root is black, an insertion of a node of any colour follows no null link and
puts the node into the walk.
-/
namespace CosKernel.RedBlackHeap
open RedBlackZipper ColorTree

variable {α T : Type} {h₀ h : Heap α T} {S : Set α} {ds : List (ColorTree α)}
variable {fs : Path α} {t u : ColorTree α} {a : α} {fuel : ℕ}

theorem rootColor_plug_cons (f : Frame α) (fs : Path α) (t u : ColorTree α) :
    (plug (f::fs) t).rootColor = (plug (f::fs) u).rootColor := by
  induction fs generalizing f t u with
  | nil => simp [plug]
  | cons g fs ih => exact ih g _ _

theorem rootColor_plug_congr (fs : Path α) (h : t.rootColor = u.rootColor) :
    (plug fs t).rootColor = (plug fs u).rootColor := by
  cases fs with
  | nil => exact h
  | cons f fs => exact rootColor_plug_cons f fs t u

variable [DecidableEq α]

/-- A tree with a black root over the elements `xs` in this order. -/
def Regrown (h₀ : Heap α T) (S : Set α) (ds : List (ColorTree α)) (xs : List α)
    (r : Option (Heap α T)) : Prop :=
  ∃ h' t', r = some h' ∧ Standing h₀ S h' t' ds ∧ t'.rootColor = .black ∧ t'.toList = xs

/-- With a black uncle there are one or two rotations. The grandparent may have any colour. -/
theorem adjustInsert_rotations_shape {s s' : Side} {p g : α} {e : Color} {y u : ColorTree α}
    {gs : Path α}
    (H : Standing h₀ S h (plug (⟨s,.red,p,y⟩::⟨s',e,g,u⟩::gs) t) ds) (hne : t ≠ .nil)
    (hu : u.rootColor = .black)
    (hroot : (plug (⟨s,.red,p,y⟩::⟨s',e,g,u⟩::gs) t).rootColor = .black) :
    Regrown h₀ S ds (plug (⟨s,.red,p,y⟩::⟨s',e,g,u⟩::gs) t).toList
      (Heap.adjustInsert (fuel+1) h (ref t)) := by
  have hroot' : (plug gs (branch s' e (branch s .red t p y) g u)).rootColor = .black := hroot
  obtain ⟨h',hrun,hcase⟩ := adjustInsert_rotates fuel H hne hu
  rw [hrun]
  change Regrown h₀ S ds (plug gs (branch s' e (branch s .red t p y) g u)).toList _
  rcases hcase with ⟨rfl,H'⟩ | ⟨rfl,c,x,a,z,rfl,H'⟩
  · refine ⟨_,_,rfl,H',(rootColor_plug_congr gs (by simp)).trans hroot',?_⟩
    rw [toList_plug,toList_plug,toList_rotate s e .red .red e]
  · refine ⟨_,_,rfl,H',(rootColor_plug_congr gs (by simp)).trans hroot',?_⟩
    rw [toList_plug,toList_plug,toList_inner]

theorem adjustInsert_shape (fuel : ℕ) (hfuel : fs.length < fuel)
    (H : Standing h₀ S h (plug fs t) ds) (hne : t ≠ .nil)
    (hroot : fs ≠ [] → (plug fs t).rootColor = .black) :
    Regrown h₀ S ds (plug fs t).toList (Heap.adjustInsert fuel h (ref t)) := by
  induction fuel generalizing h fs t with
  | zero => omega
  | succ fuel ih =>
      have hpar := H.parent_focus hne
      cases fs with
      | nil =>
          obtain ⟨c,x,a,y,rfl⟩ : ∃ c x a y, t = branch .left c x a y := by
            cases t with
            | nil => exact absurd rfl hne
            | node c x a y => exact ⟨c,x,a,y,rfl⟩
          refine ⟨_,_,?_,H.setColor .black,by simp [plug],toList_branch_color _ _ _ _ _ _⟩
          simp only [ref_branch] at hpar ⊢
          simp [Heap.adjustInsert,hpar,top]
      | cons f fs =>
          obtain ⟨s,c,p,y⟩ := f
          have hroot := hroot (by simp)
          have hpc : h.color (.node p) = c := by
            simpa using Standing.color_focus (t := branch s c t p y) H
          cases c with
          | black =>
              refine ⟨h,_,?_,H,hroot,rfl⟩
              simp [Heap.adjustInsert,hpar,top,hpc]
          | red =>
              cases fs with
              | nil => simp [plug] at hroot
              | cons g gs =>
                  obtain ⟨s',e,g,u⟩ := g
                  by_cases hu : u.rootColor = .black
                  · exact adjustInsert_rotations_shape H hne hu hroot
                  · obtain ⟨v,b,w,rfl⟩ : ∃ v b w, u = branch s' .red v b w := by
                      cases u with
                      | nil => exact absurd rfl hu
                      | node c v b w =>
                          obtain ⟨v',w',hvw⟩ := node_eq_branch s' c v b w
                          cases c with
                          | red => exact ⟨v',b,w',hvw⟩
                          | black => exact absurd rfl hu
                    have H₁ : Standing h₀ S h (plug (⟨s',e,g,_⟩::gs) (branch s .red t p y)) ds := H
                    have H₂ : Standing h₀ S h
                      (plug gs (branch s' e (branch s .red t p y) g (branch s' .red v b w))) ds := H
                    have H₃ := ((H₂.setColor_child .black).setColor_near .black).setColor .red
                    have hgrand := H₁.parent_focus (by simp)
                    have huc := H₂.color_sibling
                    have hbro := H₁.getBrother (by simp)
                    simp only [ref_branch,rootColor_branch,top] at hpar hgrand huc hbro
                    have hup : gs ≠ [] → (plug gs (branch s' .red (branch s .black t p y) g
                        (branch s' .black v b w))).rootColor = .black := by
                      intro hgs
                      obtain ⟨f,fs,rfl⟩ := List.exists_cons_of_ne_nil hgs
                      exact (rootColor_plug_cons f fs _ _).trans hroot
                    obtain ⟨h',t',e,H',hb,hl⟩ := ih (by simp at hfuel; omega) H₃ (by simp) hup
                    refine ⟨h',t',?_,H',hb,hl.trans ?_⟩
                    · simpa [Heap.adjustInsert,hpar,hpc,hbro,hgrand,huc] using e
                    · cases s <;> cases s' <;> simp [plug,toList_plug,branch,toList]

/-- An insertion of a node of any colour. -/
theorem Planted.insert_shape (hfuel : 2*t.toList.length < fuel) (H : Planted h t)
    (hroot : t.rootColor = .black) (ha : a ∉ t.toList) (hu : Unlinked h a) :
    ∃ h' t', h.insert fuel a = some (h',true) ∧ Planted h' t' ∧ t'.rootColor = .black ∧
      t'.toList.Perm (a::t.toList) ∧ Confined h h' t'.toList := by
  by_cases ht : t = .nil
  · subst ht
    obtain ⟨h',e,H',K⟩ := H.insert_nil fuel hu
    exact ⟨h',_,e,H',rfl,by simp [toList],K⟩
  · have hbound : ([] : List (Frame α)).length+2*t.toList.length < fuel := by simpa using hfuel
    obtain ⟨fuel',gs,h₁,hgs,hne,hlt,e,K,-⟩ :=
      insertBelow_reaches fuel hbound ht (H.beside ha hu rfl)
    have hroot' : (plug gs (.node (h.color (.node a)) .nil a .nil)).rootColor = .black := by
      obtain ⟨f,fs,rfl⟩ := List.exists_cons_of_ne_nil hne
      rw [rootColor_plug_cons f fs _ .nil,hgs]
      exact hroot
    obtain ⟨h',t',e',H',hb,hl⟩ := adjustInsert_shape fuel' hlt K (by simp) fun _ => hroot'
    have hperm : t'.toList.Perm (a::t.toList) := by
      have hwalk : (before gs++after gs) = t.toList := by
        have : (plug gs .nil).toList = t.toList := congrArg toList hgs
        simpa [toList_plug,toList] using this
      rw [hl,toList_plug,← hwalk]
      simp only [toList,List.nil_append,List.append_assoc,List.cons_append]
      exact List.perm_middle
    refine ⟨h',t',?_,H'.planted,hb,hperm,H'.forest.within.key,H'.forest.within.obj,?_⟩
    · have hr : (h.attachTree (.node a) true).root = some (ref t) :=
        H.root.trans (rootRef_eq_some ht)
      have hstep : Heap.insertBelow fuel (h.attachTree (.node a) true) (ref t) (.node a) = some h' :=
        e.trans e'
      simp [Heap.insert,hr,hstep]
    · intro b hb
      have hout : b ≠ a ∧ b ∉ t.toList := by
        rw [hperm.mem_iff] at hb
        simpa [not_or] using hb
      obtain ⟨hcell,htree⟩ := H'.forest.within.sameNode (a := b) (by simpa using hout)
      refine ⟨hcell,htree.trans ?_⟩
      simp [Heap.attachTree,hout.1]

end CosKernel.RedBlackHeap

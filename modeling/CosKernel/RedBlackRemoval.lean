import CosKernel.RedBlackInsertion

/-!
# Removal

`adjustLeave` is called on a subtree that is one black node short. Its second
half, `adjustNeighbor`, ends the repair with at most two rotations; otherwise
the sibling is painted red and the shortage moves to the parent.
-/
namespace CosKernel.RedBlackHeap
open RedBlackZipper ColorTree

variable {α T : Type} {h₀ h : Heap α T} {S : Set α} {ds : List (ColorTree α)}
variable {gs : Path α} {s : Side} {c d : Color} {x y z u v w : ColorTree α} {a b e f p : α} {k : ℕ}

/-- The path above a parent of colour `c` whose subtrees have height `k+1` in a sound tree. -/
def Expects (gs : Path α) (c : Color) (k : ℕ) : Prop :=
  match c with
  | .red => Fits gs .black (k+1)
  | .black => ∃ d, Fits gs d (k+2)

theorem Expects.valid (hf : Expects gs c k) (hx : Balanced x .black (k+1))
    (hy : Balanced y .black (k+1)) : Valid (plug gs (branch s c x a y)) := by
  cases c with
  | red => exact Fits.plug hf (.branch_red hx hy) (by simp)
  | black =>
      obtain ⟨d,hf⟩ := hf
      exact hf.plug (.branch_black hx hy) fun _ => rfl

theorem Standing.repaired_expects {h' : Heap α T} {t : ColorTree α}
    (H : Standing h₀ S h' (plug gs (branch s c x a y)) ds) (hf : Expects gs c k)
    (hx : Balanced x .black (k+1)) (hy : Balanced y .black (k+1))
    (hl : (branch s c x a y).toList = t.toList) : Repaired h₀ S ds (plug gs t).toList (some h') :=
  ⟨h',_,rfl,H,hf.valid hx hy,by simp only [toList_plug,hl]⟩

theorem Standing.linkBlack (H : Standing h₀ S h (plug gs (branch s c x a y)) ds) :
    h.linkBlack (.node a) s = some (decide (x.rootColor = .black)) ∧
      h.linkBlack (.node a) s.other = some (decide (y.rootColor = .black)) := by
  obtain ⟨-,-,hl,hr⟩ := H.forest.cell
  have hy := H.color_sibling
  have hx := Standing.color_focus (show Standing h₀ S h (plug (⟨s,c,a,y⟩::gs) x) ds from H)
  simp [Heap.linkBlack,hl,hr,hx,hy]

theorem Standing.linksBlack (H : Standing h₀ S h (plug gs (branch s c x a y)) ds) :
    h.linksBlack (.node a) = some (decide (x.rootColor = .black ∧ y.rootColor = .black)) := by
  obtain ⟨hx,hy⟩ := H.linkBlack
  cases s with
  | left =>
      have hy : h.linkBlack (.node a) .right = _ := hy
      by_cases hc : x.rootColor = .black <;> simp [Heap.linksBlack,hx,hy,hc]
  | right =>
      have hy : h.linkBlack (.node a) .left = _ := hy
      by_cases hc : y.rootColor = .black <;> simp [Heap.linksBlack,hx,hy,hc]

variable [DecidableEq α]

/-- The red inner child of the neighbour is rotated to the outside. -/
theorem Standing.straighten
    (H : Standing h₀ S h (plug gs (branch s c x p (branch s .black (branch s .red u e v) b z))) ds) :
    ∃ h', (h.swapColor (.node b) (.node e)).rotate (.node b) s.other = some h' ∧
      Standing h₀ S h' (plug gs (branch s c x p (branch s .black u e (branch s .red v b z)))) ds := by
  rw [plug_branch_other,← branch_other s .black] at H
  have H₁ := H.swapColor
  rw [← branch_other s .black] at H₁
  obtain ⟨h',e,H₂⟩ := H₁.rotate
  rw [branch_other,branch_other,← plug_branch_other] at H₂
  exact ⟨h',e,H₂⟩

/-- The last rotation: the neighbour takes the place and colour of the parent. -/
theorem Standing.lift_neighbor
    (H : Standing h₀ S h (plug gs (branch s c x p (branch s .black y b (branch s .red u e v)))) ds) :
    ∃ h', ((h.setColor (.node e) .black).swapColor (.node p) (.node b)).rotate (.node p) s = some h' ∧
      Standing h₀ S h' (plug gs (branch s c (branch s .black x p y) b (branch s .black u e v))) ds := by
  rw [plug_branch_other] at H
  have H₁ := H.setColor_child .black
  rw [← plug_branch_other] at H₁
  exact H₁.swapColor.rotate

/-- The neighbour has a red outer child. -/
theorem adjustNeighbor_outer {t : ColorTree α}
    (H : Standing h₀ S h (plug gs (branch s c x p (branch s .black y b z))) ds)
    (hx : Balanced x .black k) (hy : Balanced y d k) (hz : Balanced z .red k)
    (hf : Expects gs c k) (ht : (branch s c x p (branch s .black y b z)).toList = t.toList) :
    Repaired h₀ S ds (plug gs t).toList ((h.link (.node b) s.other).bind fun n =>
      if h.color n = .red then
        ((h.setColor n .black).swapColor (.node p) (.node b)).rotate (.node p) s
      else some h) := by
  obtain ⟨u,e,v,rfl⟩ := hz.branch_of_red s
  obtain ⟨-,hu,hv⟩ := hz.of_branch_red
  have H₁ := H
  rw [plug_branch_other] at H₁
  have hl := H₁.forest.cell.2.2.2
  have hc := H₁.color_sibling
  obtain ⟨h',e',H₂⟩ := H.lift_neighbor
  simp only [ref_branch,rootColor_branch] at hl hc
  have R := H₂.repaired_expects hf (.branch_black hx hy) (.branch_black hu hv) (t := t) ?_
  · simpa [hl,hc,e'] using R
  · rw [← ht]
    cases s <;> simp [branch,toList]

theorem adjustNeighbor_spec {cy cz : Color}
    (H : Standing h₀ S h (plug gs (branch s c x p (branch s .black y b z))) ds)
    (hx : Balanced x .black k) (hy : Balanced y cy k) (hz : Balanced z cz k)
    (hf : Expects gs c k) (hc : ¬(c = .black ∧ cy = .black ∧ cz = .black)) :
    Repaired h₀ S ds (plug gs (branch s c x p (branch s .black y b z))).toList
      (h.adjustNeighbor (.node p) (.node b)) := by
  have H₁ := H
  rw [plug_branch_other] at H₁
  have hp := H.color_focus
  have hside := H₁.forest.whichSide (H₁.forest.ref_ne (by simp))
  have hlinks := H₁.linksBlack
  obtain ⟨hnear,hfar⟩ := H₁.linkBlack
  simp only [ref_branch,rootColor_branch,hy.rootColor,hz.rootColor] at hp hside hlinks hnear hfar
  simp only [Heap.adjustNeighbor,hp,hside,hlinks,hnear,hfar,s.other_other]
  cases cz with
  | red =>
      have R := adjustNeighbor_outer H hx hy hz hf rfl
      cases c <;> cases cy <;> simpa using R
  | black =>
      cases cy with
      | black =>
          obtain rfl : c = .red := by
            cases c with
            | red => rfl
            | black => simp at hc
          have hb := Balanced.branch_black (s := s) (a := p) hx (.branch_red (s := s) (a := b) hy hz)
          refine ⟨_,_,by simp,H.swapColor,Fits.plug hf hb (by simp),?_⟩
          simp only [toList_plug]
          cases s <;> simp [branch,toList]
      | red =>
          obtain ⟨u,e,v,rfl⟩ := hy.branch_of_red s
          obtain ⟨-,hu,hv⟩ := hy.of_branch_red
          have hl := H₁.forest.cell.2.2.1
          obtain ⟨h₁,e₁,H₂⟩ := H.straighten
          have hm := H₂.forest.cell.2.2.2
          have R := adjustNeighbor_outer (t := branch s c x p (branch s .black (branch s .red u e v) b z))
            H₂ hx hu (.branch_red hv hz) hf (by cases s <;> simp [branch,toList])
          rw [ref_branch] at hl hm
          cases c <;> simpa [hl,e₁,hm] using R

theorem Standing.link_ne {t : ColorTree α} (H : Standing h₀ S h (plug (⟨s,c,p,y⟩::gs) t) ds)
    (hy : y ≠ .nil) : ref t ≠ ref y := by
  by_cases ht : t = .nil
  · subst ht
    exact fun h => hy (ref_eq_nil.mp h.symm)
  · exact H.forest.ref_ne ht

/-- The subtree in the hole is one black node short of what its path expects. -/
theorem adjustLeave_spec {fs : Path α} {t : ColorTree α} {ct : Color} (fuel : ℕ)
    (hfuel : fs.length < fuel) (H : Standing h₀ S h (plug fs t) ds) (ht : Balanced t ct k)
    (hf : Fits fs d (k+1)) (hne : fs = [] → t ≠ .nil) :
    Repaired h₀ S ds (plug fs t).toList (Heap.adjustLeave fuel h (ref t) (top fs)) := by
  induction fuel generalizing h fs t ct d k with
  | zero => omega
  | succ fuel ih =>
      cases ct with
      | red =>
          obtain ⟨x,a,y,rfl⟩ := ht.branch_of_red .left
          obtain ⟨-,hx,hy⟩ := ht.of_branch_red
          have hc := H.color_focus
          have R := (H.setColor .black).repaired (.branch_black hx hy) hf
            (toList_branch_color .left .black .red x y a)
          rw [ref_branch,rootColor_branch] at hc
          cases fs <;> simpa [Heap.adjustLeave,top,hc] using R
      | black =>
          have hc := H.color_focus
          rw [ht.rootColor] at hc
          cases hf with
          | root =>
              rcases ht.nil_or_branch .left with ⟨rfl,-,-⟩ | ⟨x,a,y,rfl⟩
              · exact absurd rfl (hne rfl)
              · have R := (H.setColor .black).repaired ht (.root k) rfl
                simpa [Heap.adjustLeave,top] using R
          | @red gs s p y _ hy hf =>
              obtain ⟨u,b,v,rfl⟩ := hy.branch_of_pos s
              obtain ⟨-,m,cu,cv,hm,hu,hv⟩ := hy.of_branch_black
              obtain rfl : k = m := by omega
              have H₁ : Standing h₀ S h (plug gs (branch s .red t p (branch s .black u b v))) ds := H
              have R := adjustNeighbor_spec H₁ ht hu hv hf (by simp)
              have hs := H.forest.whichSide (H.link_ne (by simp))
              have hl := H₁.forest.cell.2.2.2
              have hp := H₁.color_focus
              have hb := H₁.color_sibling
              simp only [ref_branch,rootColor_branch] at hl hp hb
              simpa [Heap.adjustLeave,top,plug,hc,hs,hl,hp,hb] using R
          | @black gs s p y cy d _ hy hf =>
              obtain ⟨u,b,v,rfl⟩ := hy.branch_of_pos s
              have H₁ : Standing h₀ S h (plug gs (branch s .black t p (branch s cy u b v))) ds := H
              have hs := H.forest.whichSide (H.link_ne (by simp))
              have hl := H₁.forest.cell.2.2.2
              have hp := H₁.color_focus
              have hb := H₁.color_sibling
              simp only [ref_branch,rootColor_branch] at hl hp hb
              cases cy with
              | red =>
                  obtain ⟨-,hu,hv⟩ := hy.of_branch_red
                  obtain ⟨h₁,e₁,H₂⟩ := H₁.swapColor.rotate
                  obtain ⟨u₁,b₁,v₁,rfl⟩ := hu.branch_of_pos s
                  obtain ⟨-,m,cu,cv,hm,hu₁,hv₁⟩ := hu.of_branch_black
                  obtain rfl : k = m := by omega
                  have H₃ : Standing h₀ S h₁ (plug (⟨s,.black,b,v⟩::gs)
                    (branch s .red t p (branch s .black u₁ b₁ v₁))) ds := H₂
                  have R := adjustNeighbor_spec H₃ ht hu₁ hv₁ (Fits.black hv hf) (by simp)
                  have hl₁ := H₃.forest.cell.2.2.2
                  rw [ref_branch] at hl₁
                  have hxs : (plug (⟨s,.black,b,v⟩::gs) (branch s .red t p
                    (branch s .black u₁ b₁ v₁))).toList = (plug gs (branch s .black t p
                      (branch s .red (branch s .black u₁ b₁ v₁) b v))).toList := by
                    simp only [plug,toList_plug]
                    cases s <;> simp [branch,toList]
                  rw [hxs] at R
                  simpa [Heap.adjustLeave,top,plug,hc,hs,hl,hb,e₁,hl₁] using R
              | black =>
                  obtain ⟨-,m,cu,cv,hm,hu,hv⟩ := hy.of_branch_black
                  obtain rfl : k = m := by omega
                  have hlinks : h.linksBlack (.node b) = some (decide (cu = .black ∧ cv = .black)) := by
                    rw [← hu.rootColor,← hv.rootColor]
                    rw [plug_branch_other] at H₁
                    exact H₁.linksBlack
                  by_cases hq : cu = .black ∧ cv = .black
                  · obtain ⟨rfl,rfl⟩ := hq
                    have hpar := H₁.parent_focus (by simp)
                    rw [ref_branch] at hpar
                    have hb' := Balanced.branch_black (s := s) (a := p) ht
                      (.branch_red (s := s) (a := b) hu hv)
                    have R := ih (by simpa using hfuel) (H₁.setColor_child .red) hb' hf (by simp)
                    have hxs : (plug gs (branch s .black t p (branch s .red u b v))).toList =
                        (plug gs (branch s .black t p (branch s .black u b v))).toList := by
                      simp only [toList_plug]
                      cases s <;> simp [branch,toList]
                    rw [hxs,ref_branch] at R
                    simpa [Heap.adjustLeave,top,plug,hc,hs,hl,hp,hb,hlinks,hpar] using R
                  · have R := adjustNeighbor_spec H₁ ht hu hv ⟨_,hf⟩ (by simpa using hq)
                    simpa [Heap.adjustLeave,top,plug,hc,hs,hl,hp,hb,hlinks,hq] using R

end CosKernel.RedBlackHeap

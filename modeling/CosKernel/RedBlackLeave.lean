import CosKernel.RedBlackRemoval

/-!
# Leaving the tree

`leave` detaches a node and hands the repair to `adjustLeave`. Whatever it
reattaches goes to the side that a comparison of keys selects, so each lemma
asks that this is the side on which the subtree has to hang. With two children
the node first trades places with the maximum of its left subtree.
-/
namespace CosKernel.RedBlackHeap
open RedBlackZipper ColorTree

variable {α T : Type} {h₀ h : Heap α T} {S : Set α} {ds : List (ColorTree α)}
variable {fs gs : Path α} {s : Side} {c d : Color} {t u v x y : ColorTree α} {a b : α}

/-- The comparison of keys puts `x` back on the side of the innermost frame. -/
def KeyFits (h : Heap α T) (fs : Path α) (x : Ref α) : Prop :=
  match fs with
  | [] => True
  | f::_ => h.keySide (.node f.elt) x = f.side

theorem keySide_congr {h' : Heap α T} (hk : h'.key = h.key) (p x : Ref α) :
    h'.keySide p x = h.keySide p x := by simp only [Heap.keySide,hk]

theorem Forest.key_eq {h' : Heap α T} {cs : List (ColorTree α)} (H : Forest h₀ S h cs)
    (H' : Forest h₀ S h' ds) : h'.key = h.key := H'.within.key.trans H.within.key.symm

theorem keyFits_right {f : Frame α} {z : α} (hs : f.side = .right)
    (hk : h.key (.node f.elt) ≤ h.key (.node z)) : KeyFits h (f::fs) (.node z) := by
  simp [KeyFits,Heap.keySide,hs,hk]

theorem KeyFits.congr {h' : Heap α T} {z : Ref α} (hk : h'.key = h.key) (hf : KeyFits h fs z) :
    KeyFits h' fs z := by
  cases fs with
  | nil => trivial
  | cons f fs => exact (keySide_congr hk _ _).trans hf

theorem Sub.search {p : Option (Ref α)} {m : ColorTree α} {fuel : ℕ}
    (hs : ∀ f ∈ fs, f.side = s) (hfuel : fs.length < fuel)
    (H : Sub h p (plug fs (branch s.other c m b .nil))) :
    h.search s fuel (ref (plug fs (branch s.other c m b .nil))) = some (.node b) := by
  induction fs using List.reverseRecOn generalizing p fuel with
  | nil =>
      obtain ⟨-,-,-,hl,-⟩ := sub_branch.mp H
      have hl : h.link (.node b) s.other.other = some .nil := hl
      obtain ⟨fuel,rfl⟩ := Nat.exists_eq_add_of_lt hfuel
      rw [s.other_other] at hl
      simp only [plug,ref_branch,Heap.search,hl]
  | append_singleton fs f ih =>
      obtain rfl : f.side = s := hs f (by simp)
      have hplug : plug (fs++[f]) (branch f.side.other c m b .nil) = branch f.side f.color
        (plug fs (branch f.side.other c m b .nil)) f.elt f.sib := by rw [plug_append]; rfl
      rw [hplug] at H ⊢
      obtain ⟨-,-,hl,-,hsub,-⟩ := sub_branch.mp H
      obtain ⟨fuel,rfl⟩ := Nat.exists_eq_add_of_lt hfuel
      obtain ⟨e,he⟩ := exists_ref (plug_ne_nil fs (branch_ne_nil f.side.other c m b .nil))
      have hlt : fs.length < (fs++[f]).length+fuel := by simp; omega
      have ih := ih (fun g hg => hs g (by simp [hg])) hlt hsub
      rw [he] at hl ih
      simp only [ref_branch,Heap.search,hl,ih]

/-- The balance does not notice the exchange. -/
theorem valid_swap {qs : Path α} {m r : ColorTree α} {mx : α} {cm : Color} (s : Side)
    (hv : Valid (plug (qs++⟨.left,c,a,r⟩::fs) (.node cm m mx .nil))) :
    Valid (plug (qs++⟨.left,c,mx,r⟩::fs) (branch s cm m a .nil)) := by
  obtain ⟨d,e,n,hf,hb,hde⟩ := Balanced.unplug hv
  exact hf.rename.plug (Balanced.rename (s := .left) hb) hde

theorem Standing.search_max {qs : Path α} {m r : ColorTree α} {mx : α} {cm : Color} {fuel : ℕ}
    (hfuel : qs.length < fuel) (hq : ∀ q ∈ qs, q.side = .right)
    (H : Standing h₀ S h (plug fs (.node c (plug qs (.node cm m mx .nil)) a r)) ds) :
    h.search .right fuel (ref (plug qs (.node cm m mx .nil))) = some (.node mx) ∧
      h.link (.node mx) .left = some (ref m) := by
  obtain ⟨-,-,-,-,hsub,-⟩ := H.forest.focus.1
  have H' : Standing h₀ S h (plug (qs++⟨.left,c,a,r⟩::fs) (.node cm m mx .nil)) ds := by
    rw [plug_append]
    exact H
  exact ⟨Sub.search (s := .right) hq hfuel hsub,H'.forest.focus.1.2.2.1⟩

variable [DecidableEq α]

theorem Forest.detach (H : Forest h₀ S h (plug (⟨s,c,a,y⟩::fs) x::ds)) (hx : x ≠ .nil) :
    ∃ h', h.detach (.node a) (ref x) = some h' ∧ h'.root = h.root ∧
      Forest h₀ S h' (plug (⟨s,c,a,y⟩::fs) .nil::x::ds) := by
  obtain ⟨-,-,hl,hr⟩ := H.cell
  obtain ⟨h',e,r,H'⟩ := H.detachSide
  refine ⟨h',?_,r,H'⟩
  have hne := H.ref_ne hx
  cases s with
  | left =>
      have hr : h.link (.node a) .right = some (ref y) := hr
      simp [Heap.detach,hl,hr,hne.symm,e]
  | right => simp [Heap.detach,hl,e]

theorem Forest.attach (H : Forest h₀ S h (plug (⟨s,c,a,y⟩::fs) .nil::x::ds))
    (hk : h.keySide (.node a) (ref x) = s) :
    Forest h₀ S (h.attach (.node a) (ref x)) (plug (⟨s,c,a,y⟩::fs) x::ds) := by
  rw [Heap.attach,hk]
  exact H.attachSide

theorem Forest.replaceChild (htree : ∀ a ∈ S, h₀.tree (.node a) = true)
    (H : Forest h₀ S h (plug fs u::t::ds)) (hu : u ≠ .nil) (ht : t ≠ .nil)
    (hk : KeyFits h fs (ref t)) :
    ∃ h', h.replaceChild (top fs) (ref u) (ref t) = some h' ∧ Forest h₀ S h' (plug fs t::u::ds) ∧
      (h.root = rootRef (plug fs v) → h'.root = rootRef (plug fs t)) := by
  cases fs with
  | nil =>
      refine ⟨{h with root := some (ref t)},?_,H.second.setRoot _,fun _ => ?_⟩
      · cases u with
        | nil => exact absurd rfl hu
        | node c l a r =>
            have ha : a ∈ S := H.mem a (by simp [plug,toList])
            simp [Heap.replaceChild,top,Heap.setRoot,ref,H.within.tree,htree a ha]
      · exact (rootRef_eq_some ht).symm
  | cons f fs =>
      obtain ⟨h₁,e₁,r₁,H₁⟩ := H.detach hu
      have hk₁ := (keySide_congr (H.key_eq H₁) _ _).trans hk
      refine ⟨h₁.attach (.node f.elt) (ref t),by simp [Heap.replaceChild,top,e₁],
        (H₁.perm (List.Perm.cons _ (List.Perm.swap _ _ _))).attach hk₁,fun hr => ?_⟩
      rw [Heap.attach,attachSide_root,r₁,hr]
      exact rootRef_plug_cons _ _ _ _

theorem leave_leaf {fuel : ℕ} (hfuel : fs.length < fuel)
    (H : Standing h₀ S h (plug fs (.node c .nil a .nil)) ds)
    (hv : Valid (plug fs (.node c .nil a .nil))) :
    Repaired h₀ S (.node c .nil a .nil::ds) (plug fs .nil).toList
      (Heap.leave (fuel+1) h (.node a)) := by
  obtain ⟨hc,hp,hl,hr,-⟩ := H.forest.focus.1
  have hl : h.link (.node a) .left = some .nil := hl
  have hr : h.link (.node a) .right = some .nil := hr
  cases fs with
  | nil =>
      have ha : h.tree (.node a) = true := by
        rw [H.forest.within.tree]
        exact H.owned a (H.forest.mem_set (Or.inl (by simp [toList])))
      refine ⟨{h with root := none},.nil,?_,⟨(H.forest.setRoot none).nil_cons,rfl,H.owned,H.sentinel⟩,
        ⟨0,.nil⟩,rfl⟩
      simp [Heap.leave,hl,hr,hp,top,Heap.setRoot,ha]
  | cons f fs =>
      obtain ⟨d,e,n,hf,hb,hde⟩ := Balanced.unplug hv
      have hside := H.forest.whichSide (H.forest.ref_ne (by simp))
      obtain ⟨h₁,e₁,r₁,H₁⟩ := H.forest.detach (by simp)
      have H₁ : Standing h₀ S h₁ (plug (f::fs) .nil) (.node c .nil a .nil::ds) :=
        ⟨H₁,r₁.trans (H.root.trans (rootRef_plug_cons _ _ _ _)),H.owned,H.sentinel⟩
      have hc₁ : h₁.color (.node a) = c := (H₁.forest.sub (.node c .nil a .nil) (by simp)).1
      have hl₁ : h₁.link (.node f.elt) f.side = some .nil := H₁.forest.cell.2.2.1
      simp only [ref] at hside e₁
      cases c with
      | red =>
          cases hb with
          | red hb _ =>
            refine ⟨h₁,_,?_,H₁,hf.plug hb fun _ => rfl,rfl⟩
            simp [Heap.leave,hl,hr,hp,top,e₁,hc₁]
      | black =>
          cases hb with
          | black hb _ =>
            cases hb
            have R := adjustLeave_spec fuel hfuel H₁ .nil hf (by simp)
            simpa [Heap.leave,hl,hr,hp,top,e₁,hc₁,hside,hl₁] using R

theorem leave_single {fuel : ℕ} (hfuel : fs.length < fuel)
    (H : Standing h₀ S h (plug fs (branch s c t a .nil)) ds) (ht : t ≠ .nil)
    (hv : Valid (plug fs (branch s c t a .nil))) (hk : KeyFits h fs (ref t)) :
    Repaired h₀ S (.node c .nil a .nil::ds) (plug fs t).toList
      (Heap.leave (fuel+1) h (.node a)) := by
  obtain ⟨-,hp,hl,hr⟩ := H.forest.cell
  obtain ⟨d,e,n,hf,hb,-⟩ := Balanced.unplug hv
  obtain ⟨rfl,rfl,e,ht'⟩ := hb.of_branch_nil ht
  have H₀ : Forest h₀ S h (plug (⟨s,.black,a,.nil⟩::fs) t::ds) := H.forest
  obtain ⟨h₁,e₁,r₁,H₁⟩ := H₀.detachSide
  have hk₁ := hk.congr (H₀.key_eq H₁)
  have H₁ : Forest h₀ S h₁ (plug fs (.node .black .nil a .nil)::t::ds) := by
    rw [← branch_nil_nil s]
    exact H₁
  obtain ⟨h₂,e₂,H₂,r₂⟩ := H₁.replaceChild (v := branch s .black t a .nil) H.owned (by simp) ht hk₁
  have H₂ : Standing h₀ S h₂ (plug fs t) (.node .black .nil a .nil::ds) :=
    ⟨H₂,r₂ (r₁.trans H.root),H.owned,H.sentinel⟩
  have hc₂ : h₂.color (.node a) = .black := (H₂.forest.sub (.node .black .nil a .nil) (by simp)).1
  have R := adjustLeave_spec fuel hfuel H₂ ht' hf fun _ => ht
  rw [ref_node] at e₂
  cases s with
  | left =>
      have hr : h.link (.node a) .right = some .nil := hr
      simpa [Heap.leave,hl,hr,ht,e₁,hp,e₂,hc₂] using R
  | right =>
      have hr : h.link (.node a) .left = some .nil := hr
      simpa [Heap.leave,hl,hr,ht,e₁,hp,e₂,hc₂] using R

theorem Forest.unhook (htree : ∀ a ∈ S, h₀.tree (.node a) = true)
    (H : Forest h₀ S h (plug fs u::ds)) (hu : u ≠ .nil) :
    ∃ h', h.unhook (top fs) (ref u) = some h' ∧ Forest h₀ S h' (plug fs .nil::u::ds) ∧
      (fs ≠ [] → h'.root = h.root) := by
  cases fs with
  | nil =>
      obtain ⟨a,ha⟩ := exists_ref hu
      refine ⟨{h with root := none},?_,(H.setRoot _).nil_cons,by simp⟩
      have haS : a ∈ S := H.mem_set (Or.inl (mem_of_ref ha))
      simp [Heap.unhook,top,Heap.setRoot,ha,H.within.tree,htree a haS]
  | cons f fs =>
      obtain ⟨h',e,r,H'⟩ := H.detach hu
      exact ⟨h',e,H',fun _ => r⟩

theorem Forest.hookUp (htree : ∀ a ∈ S, h₀.tree (.node a) = true) (haS : a ∈ S)
    (H : Forest h₀ S h (plug fs .nil::t::ds)) (ht : t ≠ .nil) (hk : KeyFits h fs (ref t)) :
    ∃ h', h.hookUp (top fs) (.node a) (ref t) = some h' ∧ Forest h₀ S h' (plug fs t::ds) ∧
      ((fs ≠ [] → h.root = rootRef (plug fs v)) → h'.root = rootRef (plug fs t)) := by
  cases fs with
  | nil =>
      refine ⟨{h with root := some (ref t)},?_,H.second.drop.setRoot _,
        fun _ => (rootRef_eq_some ht).symm⟩
      simp [Heap.hookUp,top,Heap.setRoot,H.within.tree,htree a haS]
  | cons f fs =>
      refine ⟨h.attach (.node f.elt) (ref t),rfl,H.attach hk,fun hr => ?_⟩
      rw [Heap.attach,attachSide_root,hr (by simp)]
      exact rootRef_plug_cons _ _ _ _

theorem Forest.placeMax {qs : Path α} {A r : ColorTree α} {mx : α} {cm : Color} {p : Option (Ref α)}
    (H : Forest h₀ S h (plug qs (.node cm .nil mx .nil)::A::r::ds)) (hA : ref A = .node a)
    (hk : KeyFits h qs (.node a)) (hp : qs ≠ [] → p = top qs) :
    ∃ h', h.placeMax (.node a) (.node mx) (ref (plug qs (.node cm .nil mx .nil))) (ref r) p =
        some h' ∧
      Forest h₀ S h' (.node cm (plug qs A) mx r::ds) ∧ h'.root = h.root := by
  cases qs with
  | nil =>
      have H₁ := (show Forest h₀ S h (plug [⟨.right,cm,mx,.nil⟩] .nil::r::A::ds) from
        H.perm (List.Perm.cons _ (List.Perm.swap _ _ _))).attachSide
      have H₂ := (show Forest h₀ S _ (plug [⟨.left,cm,mx,r⟩] .nil::A::ds) from H₁).attachSide
      refine ⟨_,?_,H₂,by simp⟩
      simp [Heap.placeMax,plug,hA]
  | cons q qs =>
      obtain ⟨z,hz,hroot⟩ := exists_ref_plug q qs
      have hne : mx ≠ z := (List.nodup_append.mp H.nodup_focus).2.2 mx (by simp [toList]) z hz
      obtain ⟨h₁,e₁,r₁,H₁⟩ := H.detach (by simp)
      have hk₁ : h₁.keySide (.node q.elt) (ref A) = q.side := by
        rw [keySide_congr (H.key_eq H₁),hA]
        exact hk
      have H₂ := (H₁.perm (List.Perm.cons _ (List.Perm.swap _ _ _))).attach hk₁
      have H₃ := (show Forest h₀ S _ (plug [⟨.left,cm,mx,.nil⟩] .nil::_::r::ds) from
        H₂.second).attachSide
      have H₄ := (show Forest h₀ S _ (plug [⟨.right,cm,mx,_⟩] .nil::r::ds) from H₃).attachSide
      rw [hroot,hA] at H₄
      rw [ref_node] at e₁
      refine ⟨_,?_,H₄,by simp [Heap.attach,r₁]⟩
      simp [Heap.placeMax,hroot,hne,hp,top,e₁]

/-- The node ends up where the maximum was; the shape and its colours stay. -/
theorem swapWithMax_spec {qs : Path α} {m r : ColorTree α} {mx : α} {cm : Color} {fuel : ℕ}
    (hfuel : qs.length < fuel) (hq : ∀ q ∈ qs, q.side = .right)
    (H : Standing h₀ S h (plug (qs++⟨.left,c,a,r⟩::fs) (.node cm m mx .nil)) ds)
    (hk : KeyFits h fs (.node mx)) (hka : KeyFits h qs (.node a)) :
    ∃ h', Heap.swapWithMax fuel h (.node a) = some h' ∧
      Standing h₀ S h' (plug (qs++⟨.left,c,mx,r⟩::fs)
        (branch (h.keySide (.node a) (ref m)) cm m a .nil)) ds := by
  have haS : a ∈ S := H.forest.mem_set (Or.inr (by simp [around_append,around]))
  have hmp := H.parent_focus (by simp)
  rw [plug_append] at H
  have H₀ : Standing h₀ S h (plug fs (.node c (plug qs (.node cm m mx .nil)) a r)) ds := H
  have hp := H₀.parent_focus (by simp)
  obtain ⟨-,-,hl,-,hsub,-⟩ := H₀.forest.focus.1
  have hsearch := Sub.search (s := .right) hq hfuel hsub
  obtain ⟨h₁,e₁,r₁,H₁⟩ := H.forest.detachSide
  obtain ⟨h₂,e₂,r₂,H₂⟩ :=
    (show Forest h₀ S h₁ (plug (⟨.right,c,a,.nil⟩::fs) r::_::ds) from H₁).detachSide
  obtain ⟨h₃,e₃,r₃,H₃⟩ :=
    (show Forest h₀ S h₂ (plug (⟨.left,cm,mx,.nil⟩::qs) m::_::r::ds) from H₂.third).detachSide
  have H₃ : Forest h₀ S h₃ (plug (⟨h.keySide (.node a) (ref m),c,a,.nil⟩::fs) .nil::m::
      plug qs (.node cm .nil mx .nil)::r::ds) := by
    have H₃ := H₃.third.perm (List.Perm.cons _ (List.Perm.swap _ _ _))
    simpa only [plug,branch_nil_nil] using H₃
  have H₄ : Forest h₀ S _ (plug fs (branch (h.keySide (.node a) (ref m)) c m a .nil)::_::r::ds) :=
    H₃.attach (keySide_congr (H₀.forest.key_eq H₃) _ _)
  obtain ⟨h₅,e₅,H₅,r₅⟩ := H₄.unhook H.owned (by simp)
  obtain ⟨h₆,e₆,H₆,r₆⟩ := (H₅.second.third.perm (List.Perm.cons _ (List.Perm.cons _
    (List.Perm.swap _ _ _)))).placeMax (ref_branch _ _ _ _ _) (hka.congr (H₀.forest.key_eq H₅))
    (p := top (qs++⟨.left,c,a,r⟩::fs)) (by cases qs <;> simp [top])
  obtain ⟨h₇,e₇,H₇,r₇⟩ := H₆.second.hookUp
    (v := .node c (plug qs (.node cm m mx .nil)) a r) H.owned haS (by simp)
    (hk.congr (H₀.forest.key_eq H₆))
  have hcl : ref (plug qs (.node cm .nil mx .nil)) = ref (plug qs (.node cm m mx .nil)) :=
    ref_plug_congr qs rfl
  have H₇ : Standing h₀ S h₇ (plug fs (.node cm (plug qs
      (branch (h.keySide (.node a) (ref m)) c m a .nil)) mx r)) ds := by
    refine ⟨H₇,r₇ fun hfs => ?_,H.owned,H.sentinel⟩
    rw [r₆,r₅ hfs,Heap.attach,attachSide_root,r₃,r₂,r₁,H₀.root]
  simp only [ref_branch,ref_node,hcl] at e₅ e₆ e₇ hmp hp
  refine ⟨h₇.swapColor (.node a) (.node mx),?_,?_⟩
  · have hsearch : h.search .right fuel (ref (plug qs (.node cm m mx .nil))) = some (.node mx) :=
      hsearch
    simp [Heap.swapWithMax,hl,hsearch,hp,hmp,e₁,e₂,e₃,e₅,e₆,e₇]
  · have H₈ : Standing h₀ S h₇ (plug (qs++⟨.left,cm,mx,r⟩::fs)
        (branch (h.keySide (.node a) (ref m)) c m a .nil)) ds := by
      rw [plug_append]
      exact H₇
    have hcm := H₇.color_focus
    have hca := H₈.color_focus
    have H₉ := H₈.setColor cm
    rw [plug_append] at H₉ ⊢
    rw [ref_branch,rootColor_branch] at hca
    rw [Heap.swapColor,show h₇.color (.node mx) = cm from hcm,hca]
    exact Standing.setColor (s := .left) c H₉

/-- `leave` of a node with two children. -/
theorem leave_double {qs : Path α} {m r : ColorTree α} {mx : α} {cm : Color} {fuel : ℕ}
    (hfuel : qs.length+fs.length+1 < fuel) (hq : ∀ q ∈ qs, q.side = .right) (hr : r ≠ .nil)
    (H : Standing h₀ S h (plug (qs++⟨.left,c,a,r⟩::fs) (.node cm m mx .nil)) ds)
    (hv : Valid (plug (qs++⟨.left,c,a,r⟩::fs) (.node cm m mx .nil)))
    (hk : KeyFits h fs (.node mx)) (hka : KeyFits h qs (.node a))
    (hkm : m ≠ .nil → KeyFits h (qs++⟨.left,c,mx,r⟩::fs) (ref m)) :
    Repaired h₀ S (.node cm .nil a .nil::ds) (plug (qs++⟨.left,c,mx,r⟩::fs) m).toList
      (Heap.leave (fuel+2) h (.node a)) := by
  have H₀ : Standing h₀ S h (plug fs (.node c (plug qs (.node cm m mx .nil)) a r)) ds := by
    rw [plug_append] at H
    exact H
  obtain ⟨-,-,hl,hr',-⟩ := H₀.forest.focus.1
  have hln : plug qs (.node cm m mx .nil) ≠ .nil := plug_ne_nil qs (by simp)
  have hleave : Heap.leave (fuel+2) h (.node a) =
      (Heap.swapWithMax (fuel+1) h (.node a)).bind fun h => Heap.leave (fuel+1) h (.node a) := by
    rw [Heap.leave]
    simp [hl,hr',hln,hr]
  obtain ⟨h₁,e₁,H₁⟩ := swapWithMax_spec (show qs.length < fuel+1 by omega) hq H hk hka
  have hv₁ := valid_swap (h.keySide (.node a) (ref m)) hv
  have hlen : (qs++⟨.left,c,mx,r⟩::fs).length < fuel := by simp; omega
  rw [hleave,e₁]
  by_cases hm : m = .nil
  · subst hm
    rw [branch_nil_nil] at H₁ hv₁
    exact leave_leaf hlen H₁ hv₁
  · exact leave_single hlen H₁ hm hv₁ ((hkm hm).congr (H.forest.key_eq H₁.forest))

theorem Standing.fitsBelow_iff {z : Ref α} (H : Standing h₀ S h (plug fs t) ds) (ht : t ≠ .nil) :
    h.fitsBelow (ref t) z = true ↔ KeyFits h fs z := by
  have hp := H.parent_focus ht
  cases fs with
  | nil => simp [Heap.fitsBelow,hp,top,KeyFits]
  | cons f fs =>
      have hs := H.forest.whichSide (H.forest.ref_ne ht)
      simp [Heap.fitsBelow,hp,top,KeyFits,hs]

theorem toList_plug_erase {l r : ColorTree α} {xs : List α}
    (hn : (plug fs (.node c l a r)).toList.Nodup)
    (hx : xs = before fs++l.toList++(r.toList++after fs)) :
    xs = (plug fs (.node c l a r)).toList.erase a := by
  have he : (plug fs (.node c l a r)).toList = (before fs++l.toList)++a::(r.toList++after fs) := by
    simp [toList_plug,toList]
  rw [he] at hn ⊢
  have ha : a ∉ before fs++l.toList := fun h =>
    (List.nodup_append.mp hn).2.2 a h a (by simp) rfl
  rw [List.erase_append_right _ ha,List.erase_cons_head,hx]

/-- In an ordered tree the condition on the heap is what `leave_double` asks for. -/
theorem sidesKept_double {qs : Path α} {m r : ColorTree α} {mx : α} {cm : Color} {fuel : ℕ}
    (hfuel : qs.length < fuel) (hq : ∀ q ∈ qs, q.side = .right) (hr : r ≠ .nil)
    (H : Standing h₀ S h (plug fs (.node c (plug qs (.node cm m mx .nil)) a r)) ds)
    (hs : (plug fs (.node c (plug qs (.node cm m mx .nil)) a r)).toList.Pairwise
      fun b c => h.key (.node b) ≤ h.key (.node c))
    (hk : h.sidesKept fuel (.node a) = true) :
    KeyFits h fs (.node mx) ∧ KeyFits h qs (.node a) ∧
      (m ≠ .nil → KeyFits h (qs++⟨.left,c,mx,r⟩::fs) (ref m)) := by
  obtain ⟨-,-,hl,hr',-⟩ := H.forest.focus.1
  obtain ⟨hsearch,hm⟩ := H.search_max hfuel hq
  obtain ⟨b,hb⟩ := exists_ref hr
  obtain ⟨e,he⟩ := exists_ref (plug_ne_nil qs (show ColorTree.node cm m mx .nil ≠ .nil by simp))
  rw [he] at hl hsearch
  rw [hb] at hr'
  simp only [Heap.sidesKept,hl,hr',hsearch,hm,Bool.and_eq_true] at hk
  rw [toList_plug,List.append_assoc,List.pairwise_append,List.pairwise_append,toList,
    List.pairwise_append] at hs
  obtain ⟨hso,-,hcross⟩ := hs.2.1.1
  refine ⟨(H.fitsBelow_iff (by simp)).mp hk.1,?_,fun hmn => ?_⟩
  · cases qs with
    | nil => trivial
    | cons q qs =>
        refine keyFits_right (hq q (by simp)) (hcross q.elt ?_ a (by simp))
        exact mem_plug.mpr (Or.inr (by simp [around]))
  · cases qs with
    | nil =>
        obtain rfl : mx = e := by simpa [plug] using he
        simpa [KeyFits,hmn] using hk.2
    | cons q qs =>
        obtain ⟨z,hz⟩ := exists_ref hmn
        rw [hz]
        refine keyFits_right (hq q (by simp)) ((frame_ordered hso ?_).2 (hq q (by simp)))
        simp [toList,mem_of_ref hz]

theorem leave_spec {fuel : ℕ} (hfuel : t.toList.length+4 ≤ fuel) (H : Standing h₀ S h t ds)
    (hv : Valid t) (hs : t.toList.Pairwise fun b c => h.key (.node b) ≤ h.key (.node c))
    (ha : a ∈ t.toList) (hk : h.sidesKept fuel (.node a) = true) :
    ∃ c, Repaired h₀ S (.node c .nil a .nil::ds) (t.toList.erase a) (h.leave fuel (.node a)) := by
  obtain ⟨fs,c,l,r,rfl⟩ := exists_plug_of_mem ha
  have hn : (plug fs (.node c l a r)).toList.Nodup := by
    have hn := H.forest.nodup
    rw [List.flatMap_cons,List.nodup_append] at hn
    exact hn.1
  have hlen := (plug_perm fs (.node c l a r)).length_eq
  have hfs := length_le_around fs
  simp only [toList,List.length_append,List.length_cons] at hlen
  obtain ⟨fuel,rfl⟩ := Nat.exists_eq_add_of_le' (show 2 ≤ fuel by omega)
  obtain ⟨-,-,hl,hr,-⟩ := H.forest.focus.1
  by_cases hln : l = .nil
  · subst hln
    by_cases hrn : r = .nil
    · subst hrn
      refine ⟨c,?_⟩
      rw [← toList_plug_erase hn (show (plug fs .nil).toList = _ by simp [toList_plug,toList])]
      exact leave_leaf (by omega) H hv
    · obtain ⟨b,hb⟩ := exists_ref hrn
      have hk : KeyFits h fs (ref r) := by
        rw [← H.fitsBelow_iff (by simp)]
        simpa [Heap.sidesKept,hl,hr,hb] using hk
      refine ⟨c,?_⟩
      rw [← toList_plug_erase hn (show (plug fs r).toList = _ by simp [toList_plug,toList])]
      exact leave_single (s := .right) (by omega) H hrn hv hk
  · obtain ⟨e,he⟩ := exists_ref hln
    by_cases hrn : r = .nil
    · subst hrn
      have hk : KeyFits h fs (ref l) := by
        rw [← H.fitsBelow_iff (by simp)]
        simpa [Heap.sidesKept,hl,hr,he] using hk
      refine ⟨c,?_⟩
      rw [← toList_plug_erase hn (show (plug fs l).toList = _ by simp [toList_plug,toList])]
      exact leave_single (s := .left) (by omega) H hln hv hk
    · obtain ⟨qs,cm,m,mx,rfl,hq⟩ := exists_extreme .right hln
      have hqs := length_le_around qs
      have hlen' := (plug_perm qs (branch (.other .right) cm m mx .nil)).length_eq
      simp only [List.length_append] at hlen'
      refine ⟨cm,?_⟩
      rw [← toList_plug_erase hn (show (plug (qs++⟨.left,c,mx,r⟩::fs) m).toList = _ by
        simp [toList_plug,before_append,after_append,after_eq_nil hq,before,after,branch,toList,
          Side.other])]
      obtain ⟨hk₁,hk₂,hk₃⟩ := sidesKept_double (by omega) hq hrn H hs hk
      have hp : plug fs (.node c (plug qs (.node cm m mx .nil)) a r) =
        plug (qs++⟨.left,c,a,r⟩::fs) (.node cm m mx .nil) := by rw [plug_append]; rfl
      exact leave_double (by omega) hq hrn (hp ▸ H) (hp ▸ hv) hk₁ hk₂ hk₃

/-- The end of `remove`: the node that has left gets nil links and no tree. -/
theorem Standing.planted_remove {h' : Heap α T} (H : Standing h S h' t [.node c .nil a .nil]) :
    let h'' := ((h'.setLink (.node a) .left (some .nil)).setLink (.node a) .right
      (some .nil)).attachTree (.node a) false
    Planted h'' t ∧ Loose h'' a ∧ ∀ b, b ∉ S → SameNode h h'' b := by
  intro h''
  have hw := H.forest.within
  have hnil := hw.cell .nil (by simp)
  have hn : (t.toList++[a]).Nodup := by simpa [toList] using H.forest.nodup
  have hat : a ∉ t.toList := fun h => (List.nodup_append.mp hn).2.2 a h a (by simp) rfl
  have ha := H.forest.sub (.node c .nil a .nil) (by simp)
  have haS : a ∈ S := H.forest.mem a (by simp [toList])
  refine ⟨⟨?_,(List.nodup_append.mp hn).1,H.root,fun b hb => ?_,?_⟩,?_,fun b hb => ?_⟩
  · refine (H.forest.sub t (by simp)).congr fun b hb => ?_
    have hba : b ≠ a := fun h => hat (h ▸ hb)
    simp [h'',SameCell,Heap.setLink,Heap.attachTree,hba]
  · have hba : b ≠ a := fun h => hat (h ▸ hb)
    have := H.owned b (H.forest.mem b (by simp [hb]))
    simpa [h'',Heap.setLink,Heap.attachTree,hba,hw.tree] using this
  · exact ⟨hnil.1.trans H.sentinel.1,by
      simpa [h'',Heap.setLink,Heap.attachTree,hnil.2.2] using H.sentinel.2⟩
  · refine ⟨ha.2.1,fun s => ?_,by simp [h'',Heap.attachTree]⟩
    cases s <;> simp [h'',Heap.setLink,Heap.attachTree]
  · have hba : b ≠ a := fun h => hb (h ▸ haS)
    obtain ⟨⟨hc,hp,hl⟩,ht⟩ := hw.sameNode hb
    exact ⟨⟨hc,hp,by simpa [h'',Heap.setLink,Heap.attachTree,hba] using hl⟩,
      by simpa [h'',Heap.setLink,Heap.attachTree,hba] using ht⟩

/-- `RBTree::remove` of a node that reattaches its subtrees where they belong. -/
theorem Planted.remove {fuel : ℕ} (hfuel : t.toList.length+4 ≤ fuel) (H : Planted h t)
    (hv : Valid t) (hs : t.toList.Pairwise fun b c => h.key (.node b) ≤ h.key (.node c))
    (ha : a ∈ t.toList) (hk : h.sidesKept fuel (.node a) = true) :
    ∃ h' t', h.remove fuel a = some (h',true) ∧ Planted h' t' ∧ Valid t' ∧
      t'.toList = t.toList.erase a ∧ Loose h' a ∧ Confined h h' t.toList := by
  obtain ⟨c,h₁,t',e,H₁,hv',hl⟩ := leave_spec hfuel H.standing hv hs ha hk
  have hr : h.root ≠ none := by
    rw [H.root]
    cases t with
    | nil => simp [toList] at ha
    | node c l b r => simp [rootRef]
  obtain ⟨hplanted,hloose,hsame⟩ := H₁.planted_remove
  refine ⟨_,t',?_,hplanted,hv',hl,hloose,H₁.forest.within.key,H₁.forest.within.obj,hsame⟩
  simp [Heap.remove,hr,H.owned a ha,e]

theorem IsTree.remove {fuel : ℕ} (hfuel : t.toList.length+4 ≤ fuel) (H : IsTree h t)
    (hv : Valid t) (hs : t.toList.Pairwise fun b c => h.key (.node b) ≤ h.key (.node c))
    (ha : a ∈ t.toList) (hk : h.sidesKept fuel (.node a) = true) :
    ∃ h' t', h.remove fuel a = some (h',true) ∧ IsTree h' t' ∧ Valid t' ∧
      t'.toList = t.toList.erase a ∧ Kept h h' t.toList := by
  obtain ⟨h',t',e,H',hv',hl,hloose,K⟩ := H.planted.remove hfuel hv hs ha hk
  refine ⟨h',t',e,H'.isTree fun b hb => ?_,hv',hl,K.kept⟩
  by_cases hba : b = a
  · rw [hba]
    exact hloose
  · have hout : b ∉ t.toList := fun h => hb (hl ▸ (List.mem_erase_of_ne hba).mpr h)
    exact (K.same b hout).loose (H.loose b hout)

end CosKernel.RedBlackHeap

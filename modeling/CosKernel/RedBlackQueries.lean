import CosKernel.RedBlackLeave

/-!
# Queries

With pairwise distinct keys the walk of the tree is strictly increasing. Then
every comparison of keys in `leave` decides as the side does, and `min`, `max`,
`size` and `lookup` give what the walk says.
-/
namespace CosKernel.RedBlackHeap
open RedBlackZipper ColorTree

variable {α T : Type} {h₀ h : Heap α T} {S : Set α} {ds : List (ColorTree α)}
variable {fs : Path α} {t : ColorTree α} {c : Color} {a b : α} {fuel : ℕ}

/-- The elements have strictly increasing keys. -/
def Increasing (h : Heap α T) (xs : List α) : Prop :=
  xs.Pairwise fun a b => h.key (.node a) < h.key (.node b)

theorem Increasing.weaken {xs : List α} (hs : Increasing h xs) :
    xs.Pairwise fun a b => h.key (.node a) ≤ h.key (.node b) := hs.imp le_of_lt

theorem Increasing.keyFits (hs : Increasing h (plug fs t).toList) (ha : a ∈ t.toList) :
    KeyFits h fs (.node a) := by
  cases fs with
  | nil => trivial
  | cons f fs =>
      obtain ⟨hl,hr⟩ := frame_ordered hs ha
      cases hf : f.side with
      | left => simp [KeyFits,Heap.keySide,hf,hl hf]
      | right => simp [KeyFits,Heap.keySide,hf,(hr hf).le]

theorem Sub.lookupBelow {p : Option (Ref α)} (k : ℤ) (ht : t ≠ .nil)
    (hfuel : t.toList.length ≤ fuel) (H : Sub h p t) (hs : Increasing h t.toList) :
    h.lookupBelow k fuel (ref t) =
      some ((t.toList.find? fun a => h.key (.node a) = k).map .node) := by
  induction t generalizing p fuel with
  | nil => exact absurd rfl ht
  | node c l a r ihl ihr =>
      obtain ⟨-,-,hl,hr,hL,hR⟩ := H
      simp only [toList,List.length_append,List.length_cons] at hfuel
      obtain ⟨fuel,rfl⟩ := Nat.exists_eq_add_of_le' (show 1 ≤ fuel by omega)
      rw [Increasing,toList,List.pairwise_append,List.pairwise_cons] at hs
      obtain ⟨hsl,⟨har,hsr⟩,hla⟩ := hs
      rw [ref_node,Heap.lookupBelow,toList,List.find?_append,List.find?_cons]
      rcases lt_trichotomy k (h.key (.node a)) with hk | hk | hk
      · have hright : r.toList.find? (fun b => h.key (.node b) = k) = none := by
          simp only [List.find?_eq_none,decide_eq_true_eq]
          exact fun b hb => (hk.trans (har b hb)).ne'
        simp only [hk.ne',hk,if_true,if_false,hl,hright]
        cases l with
        | nil => simp [toList]
        | node c' l' b r' =>
            have := ihl (by simp) (show _ ≤ fuel by omega) hL hsl
            simpa using this
      · have hleft : l.toList.find? (fun b => h.key (.node b) = k) = none := by
          simp only [List.find?_eq_none,decide_eq_true_eq]
          exact fun b hb => hk ▸ (hla b hb a (by simp)).ne
        simp [← hk,hleft]
      · have hleft : l.toList.find? (fun b => h.key (.node b) = k) = none := by
          simp only [List.find?_eq_none,decide_eq_true_eq]
          exact fun b hb => ((hla b hb a (by simp)).trans hk).ne
        simp only [hk.ne,not_lt.mpr hk.le,if_false,hr,hleft]
        cases r with
        | nil => simp [toList]
        | node c' l' b r' =>
            have := ihr (by simp) (show _ ≤ fuel by omega) hR hsr
            simpa using this

variable [DecidableEq α]

/-- Distinct keys put every subtree back where it was. -/
theorem Standing.sidesKept (hfuel : t.toList.length < fuel) (H : Standing h₀ S h t ds)
    (hs : Increasing h t.toList) (ha : a ∈ t.toList) : h.sidesKept fuel (.node a) = true := by
  obtain ⟨fs,c,l,r,rfl⟩ := exists_plug_of_mem ha
  obtain ⟨-,-,hl,hr,-⟩ := H.forest.focus.1
  have hfit : ∀ b ∈ (ColorTree.node c l a r).toList, h.fitsBelow (.node a) (.node b) = true :=
    fun b hb => (H.fitsBelow_iff (by simp)).mpr (hs.keyFits hb)
  by_cases hln : l = .nil
  · subst hln
    by_cases hrn : r = .nil
    · subst hrn
      simp [Heap.sidesKept,hl,hr]
    · obtain ⟨b,hb⟩ := exists_ref hrn
      simpa [Heap.sidesKept,hl,hr,hb] using hfit b (by simp [toList,mem_of_ref hb])
  · obtain ⟨e,he⟩ := exists_ref hln
    by_cases hrn : r = .nil
    · subst hrn
      simpa [Heap.sidesKept,hl,hr,he] using hfit e (by simp [toList,mem_of_ref he])
    · obtain ⟨b,hb⟩ := exists_ref hrn
      obtain ⟨qs,cm,m,mx,rfl,hq⟩ := exists_extreme .right hln
      have hqs := length_le_around qs
      have hlen := (plug_perm fs (.node c (plug qs (.node cm m mx .nil)) a r)).length_eq
      have hlen' := (plug_perm qs (.node cm m mx .nil)).length_eq
      simp only [branch,Side.other,toList,List.length_append,List.length_cons] at hlen hlen' hfuel
      obtain ⟨hsearch,hm⟩ := Standing.search_max (show qs.length < fuel by omega) hq H
      have hmx := hfit mx (by simp [toList,mem_plug,branch,Side.other])
      have hfitm : ∀ z, ref m = .node z → h.keySide (.node mx) (.node z) = .left := by
        intro z hz
        have hp : plug fs (.node c (plug qs (.node cm m mx .nil)) a r) =
          plug (⟨.left,cm,mx,.nil⟩::(qs++⟨.left,c,a,r⟩::fs)) m := by simp only [plug,plug_append]; rfl
        have hs : Increasing h (plug fs (.node c (plug qs (.node cm m mx .nil)) a r)).toList := hs
        rw [hp] at hs
        exact hs.keyFits (mem_of_ref hz)
      have he : ref (plug qs (.node cm m mx .nil)) = .node e := he
      have hl : h.link (.node a) .left = some (.node e) := hl.trans (congrArg some he)
      rw [he] at hsearch
      simp only [Heap.sidesKept,hl,hr,hb,hsearch,hm,hmx]
      cases m with
      | nil => simp
      | node c' l' z r' => simp [hfitm z rfl]

theorem Sub.extremes (hfuel : t.toList.length < fuel) (H : Sub h none t) (hr : h.root = rootRef t) :
    h.min fuel = some (t.toList.head?.map h.obj) ∧
      h.max fuel = some (t.toList.getLast?.map h.obj) := by
  by_cases ht : t = .nil
  · subst ht
    have hr : h.root = none := hr
    simp [Heap.min,Heap.max,Heap.extreme,hr,toList]
  · rw [rootRef_eq_some ht] at hr
    have key : ∀ s, ∃ qs d m b, t = plug qs (branch s.other d m b .nil) ∧ (∀ f ∈ qs, f.side = s) ∧
        h.search s fuel (ref t) = some (.node b) := by
      intro s
      obtain ⟨qs,d,m,b,rfl,hq⟩ := exists_extreme s ht
      have hlen := (plug_perm qs (branch s.other d m b .nil)).length_eq
      have hqs := length_le_around qs
      rw [List.length_append] at hlen
      exact ⟨qs,d,m,b,rfl,hq,Sub.search hq (by omega) H⟩
    constructor
    · obtain ⟨qs,d,m,b,hq,hs,he⟩ := key .left
      have hl : t.toList.head? = some b := by
        simp [hq,toList_plug,before_eq_nil hs,branch,Side.other,toList]
      simp [Heap.min,Heap.extreme,hr,he,Heap.getObj,hl]
    · obtain ⟨qs,d,m,b,hq,hs,he⟩ := key .right
      have hl : t.toList.getLast? = some b := by
        simp [hq,toList_plug,after_eq_nil hs,branch,Side.other,toList]
      simp [Heap.max,Heap.extreme,hr,he,Heap.getObj,hl]

theorem Sub.countSize {p : Option (Ref α)} (ht : t ≠ .nil) (hfuel : t.toList.length ≤ fuel)
    (H : Sub h p t) : h.countSize fuel (some (ref t)) = some t.toList.length := by
  induction t generalizing p fuel with
  | nil => exact absurd rfl ht
  | node c l a r ihl ihr =>
      obtain ⟨-,-,hl,hr,hL,hR⟩ := H
      simp only [toList,List.length_append,List.length_cons] at hfuel
      obtain ⟨fuel,rfl⟩ := Nat.exists_eq_add_of_le' (show 1 ≤ fuel by omega)
      have hl' : l ≠ .nil → _ := fun hn => ihl hn (show _ ≤ fuel by omega) hL
      have hr' : r ≠ .nil → _ := fun hn => ihr hn (show _ ≤ fuel by omega) hR
      have hsum : 1+r.toList.length+l.toList.length = (ColorTree.node c l a r).toList.length := by
        simp only [toList,List.length_append,List.length_cons]
        omega
      rw [← hsum]
      by_cases hln : l = .nil <;> by_cases hrn : r = .nil <;>
        simp [Heap.countSize,hl,hr,hln,hrn,hl',hr',toList]

end CosKernel.RedBlackHeap

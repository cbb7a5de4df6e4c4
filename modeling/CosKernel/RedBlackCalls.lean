import CosKernel.RedBlackQueries
import CosKernel.TransitionRuns

/-!
# Single calls on a valid tree

One call of `remove` or `insert` on any valid tree, whatever the other nodes look like.
A removal takes one node out of the walk. An insertion puts the new node behind the last
node whose key is not greater, so that nodes with equal keys stand in the order in which
they were inserted; `min` gives the first one, and `lookup` finds one of them.
-/
namespace CosKernel.RedBlackHeap
open RedBlackZipper ColorTree

variable {α T : Type} {h : Heap α T} {t : ColorTree α} {a : α} {fuel : ℕ}

/-- The keys do not decrease. -/
def Sorted (h : Heap α T) (xs : List α) : Prop :=
  xs.Pairwise fun a b => h.key (.node a) ≤ h.key (.node b)

/-- Equal keys may be on both sides of a node. The descent turns away only from a side on
which the key cannot be. -/
theorem Sub.lookupBelow_sorted {p : Option (Ref α)} (k : ℤ) (ht : t ≠ .nil)
    (hfuel : t.toList.length ≤ fuel) (H : Sub h p t) (hs : Sorted h t.toList) :
    (∃ a ∈ t.toList, h.key (.node a) = k ∧ h.lookupBelow k fuel (ref t) = some (some (.node a))) ∨
      (∀ a ∈ t.toList, h.key (.node a) ≠ k) ∧ h.lookupBelow k fuel (ref t) = some none := by
  induction t generalizing p fuel with
  | nil => exact absurd rfl ht
  | node c l a r ihl ihr =>
      obtain ⟨-,-,hl,hr,hL,hR⟩ := H
      simp only [toList,List.length_append,List.length_cons] at hfuel
      obtain ⟨fuel,rfl⟩ := Nat.exists_eq_add_of_le' (show 1 ≤ fuel by omega)
      rw [Sorted,toList,List.pairwise_append,List.pairwise_cons] at hs
      obtain ⟨hsl,⟨har,hsr⟩,hla⟩ := hs
      simp only [ref_node,Heap.lookupBelow,toList,List.mem_append,List.mem_cons]
      rcases lt_trichotomy k (h.key (.node a)) with hk | hk | hk
      · have hright : ∀ b ∈ r.toList, h.key (.node b) ≠ k := fun b hb =>
          (lt_of_lt_of_le hk (har b hb)).ne'
        simp only [hk.ne',hk,if_true,if_false,hl]
        cases l with
        | nil =>
            right
            simp only [ref_nil,toList,List.not_mem_nil,false_or,and_true]
            rintro b (rfl | hb)
            · exact hk.ne'
            · exact hright b hb
        | node c' l' b r' =>
            rcases ihl (by simp) (show _ ≤ fuel by omega) hL hsl with ⟨e,he,hke,hf⟩ | ⟨hno,hf⟩
            · exact Or.inl ⟨e,Or.inl he,hke,hf⟩
            · refine Or.inr ⟨?_,hf⟩
              rintro e (he | rfl | he)
              · exact hno e he
              · exact hk.ne'
              · exact hright e he
      · left
        exact ⟨a,Or.inr (Or.inl rfl),hk.symm,if_pos hk.symm⟩
      · have hleft : ∀ b ∈ l.toList, h.key (.node b) ≠ k := fun b hb =>
          (lt_of_le_of_lt (hla b hb a (by simp)) hk).ne
        simp only [hk.ne,not_lt.mpr hk.le,if_false,hr]
        cases r with
        | nil =>
            right
            simp only [ref_nil,toList,List.not_mem_nil,or_false,and_true]
            rintro b (hb | rfl)
            · exact hleft b hb
            · exact hk.ne
        | node c' l' b r' =>
            rcases ihr (by simp) (show _ ≤ fuel by omega) hR hsr with ⟨e,he,hke,hf⟩ | ⟨hno,hf⟩
            · exact Or.inl ⟨e,Or.inr (Or.inr he),hke,hf⟩
            · refine Or.inr ⟨?_,hf⟩
              rintro e (he | rfl | he)
              · exact hleft e he
              · exact hk.ne
              · exact hno e he

/-- `lookup` finds an object iff there is a node with the key, and then one of its nodes. -/
theorem Planted.lookup_sorted (H : Planted h t) (hs : Sorted h t.toList)
    (hfuel : t.toList.length ≤ fuel) (k : ℤ) :
    (∃ a ∈ t.toList, h.key (.node a) = k ∧ h.lookup fuel k = some (some (h.obj a))) ∨
      (∀ a ∈ t.toList, h.key (.node a) ≠ k) ∧ h.lookup fuel k = some none := by
  by_cases ht : t = .nil
  · subst ht
    have hr : h.root = none := H.root
    simp [Heap.lookup,hr,toList]
  · have hr := H.root.trans (rootRef_eq_some ht)
    rcases H.sub.lookupBelow_sorted k ht hfuel hs with ⟨a,ha,hk,hf⟩ | ⟨hno,hf⟩
    · exact Or.inl ⟨a,ha,hk,by simp [Heap.lookup,hr,hf,Heap.getObj]⟩
    · exact Or.inr ⟨hno,by simp [Heap.lookup,hr,hf]⟩

variable [DecidableEq α]

/-- A removal from a valid tree with distinct keys takes exactly the node out. -/
theorem remove_takes_node_out (H : Planted h t) (hvalid : Valid t)
    (hkeys : Increasing h t.toList) (ha : a ∈ t.toList) (hfuel : t.toList.length+4 ≤ fuel) :
    ∃ h' t', h.remove fuel a = some (h',true) ∧ Planted h' t' ∧ Valid t' ∧
      t'.toList = t.toList.erase a ∧ Increasing h' t'.toList ∧ Loose h' a ∧
      Confined h h' t.toList := by
  have hsides := H.standing.sidesKept (show t.toList.length < fuel by omega) hkeys ha
  obtain ⟨h',t',e,H',hv',hl,hloose,K⟩ := H.remove hfuel hvalid hkeys.weaken ha hsides
  refine ⟨h',t',e,H',hv',hl,?_,hloose,K⟩
  rw [Increasing,K.key,hl]
  exact hkeys.sublist List.erase_sublist

/-- Three nodes: 1 is the root, and the red nodes 0 and 2 are its children. -/
def threeStanding : Heap (Fin 3) (Fin 3) where
  key := fun | .nil => -1 | .node a => a.val
  color := fun | .nil => .black | .node a => if a = 1 then .black else .red
  parent := fun | .nil => none | .node a => if a = 1 then none else some (.node 1)
  link := fun x s => match x,s with
    | .nil,_ => none
    | .node a,.left => if a = 1 then some (.node 0) else some .nil
    | .node a,.right => if a = 1 then some (.node 2) else some .nil
  tree := fun | .nil => false | .node _ => true
  obj := id
  root := some (.node 1)

/-- The root trades places with node 0 and leaves. -/
theorem remove_takes_node_out_root :
    ∃ h' t', threeStanding.remove 7 1 = some (h',true) ∧ Planted h' t' ∧ Valid t' ∧
      t'.toList = [0,2] ∧ Increasing h' t'.toList ∧ Loose h' 1 ∧
      Confined threeStanding h' [0,1,2] := by
  refine remove_takes_node_out
    (t := .node .black (.node .red .nil 0 .nil) 1 (.node .red .nil 2 .nil)) ?_ ?_ ?_ ?_ ?_
  · refine ⟨?_,by decide,rfl,fun a _ => rfl,rfl,fun s => rfl⟩
    exact ⟨rfl,rfl,rfl,rfl,⟨rfl,rfl,rfl,rfl,trivial,trivial⟩,rfl,rfl,rfl,rfl,trivial,trivial⟩
  · exact ⟨1,.black (.red .nil .nil) (.red .nil .nil)⟩
  · unfold Increasing
    decide
  · decide
  · decide

/-- An insertion into a valid tree puts the node behind all nodes with the same key. -/
theorem insert_is_stable (H : Planted h t) (hvalid : Valid t) (hsorted : Sorted h t.toList)
    (hfresh : Unlinked h a) (hred : h.color (.node a) = .red) (ha : a ∉ t.toList)
    (hfuel : 2*t.toList.length+2 ≤ fuel) :
    ∃ h' t' l r, h.insert fuel a = some (h',true) ∧ Planted h' t' ∧ Valid t' ∧
      t.toList = l++r ∧ (∀ b ∈ l, h.key (.node b) ≤ h.key (.node a)) ∧
      (∀ b ∈ r, h.key (.node a) < h.key (.node b)) ∧ t'.toList = l++a::r ∧
      Sorted h' t'.toList ∧ Confined h h' t'.toList ∧
      h'.min fuel = some ((l++a::r).head?.map h.obj) ∧
      ∀ k, (∃ b ∈ t'.toList, h.key (.node b) = k ∧ h'.lookup fuel k = some (some (h.obj b))) ∨
        (∀ b ∈ t'.toList, h.key (.node b) ≠ k) ∧ h'.lookup fuel k = some none := by
  obtain ⟨h',t',l,r,e,H',hv',hlr,hsplit,hl',K⟩ :=
    H.insert (show 2*t.toList.length < fuel by omega) hvalid ha hfresh hsorted fun _ => hred
  have hlength : t'.toList.length = t.toList.length+1 := by
    rw [hl',hlr]
    simp only [List.length_append,List.length_cons]
    omega
  have hs : Sorted h' t'.toList := by
    rw [Sorted,hlr,List.pairwise_append] at hsorted
    rw [Sorted,K.key,hl',List.pairwise_append,List.pairwise_cons]
    refine ⟨hsorted.1,⟨fun b hb => (hsplit.2 b hb).le,hsorted.2.1⟩,?_⟩
    intro b hb c hc
    rcases List.mem_cons.mp hc with rfl | hc
    · exact hsplit.1 b hb
    · exact hsorted.2.2 b hb c hc
  have hmin := (H'.sub.extremes (show t'.toList.length < fuel by omega) H'.root).1
  have hlookup := H'.lookup_sorted hs (show t'.toList.length ≤ fuel by omega)
  rw [hl',K.obj] at hmin
  rw [K.key,K.obj] at hlookup
  exact ⟨h',t',l,r,e,H',hv',hlr,hsplit.1,hsplit.2,hl',hs,K,hmin,hlookup⟩

/-- Nodes 0 and 1 stand in the tree and node 2 is new. All have the key 5. -/
def twoEqual : Heap (Fin 3) (Fin 3) where
  key := fun | .nil => -1 | .node _ => 5
  color := fun | .nil => .black | .node a => if a = 0 then .black else .red
  parent := fun | .nil => none | .node a => if a = 1 then some (.node 0) else none
  link := fun x s => match x,s with
    | .nil,_ => none
    | .node _,.left => some .nil
    | .node a,.right => if a = 0 then some (.node 1) else some .nil
  tree := fun | .nil => false | .node a => decide (a ≠ 2)
  obj := id
  root := some (.node 0)

theorem insert_is_stable_twoEqual :
    ∃ h' t' l r, twoEqual.insert 6 2 = some (h',true) ∧ Planted h' t' ∧ Valid t' ∧
      [0,1] = l++r ∧ (∀ b ∈ l, twoEqual.key (.node b) ≤ twoEqual.key (.node 2)) ∧
      (∀ b ∈ r, twoEqual.key (.node 2) < twoEqual.key (.node b)) ∧ t'.toList = l++2::r ∧
      Sorted h' t'.toList ∧ Confined twoEqual h' t'.toList ∧
      h'.min 6 = some ((l++2::r).head?.map twoEqual.obj) ∧
      ∀ k, (∃ b ∈ t'.toList, twoEqual.key (.node b) = k ∧
          h'.lookup 6 k = some (some (twoEqual.obj b))) ∨
        (∀ b ∈ t'.toList, twoEqual.key (.node b) ≠ k) ∧ h'.lookup 6 k = some none := by
  refine insert_is_stable (t := .node .black .nil 0 (.node .red .nil 1 .nil)) ?_ ?_ ?_ ?_ ?_ ?_ ?_
  · refine ⟨⟨rfl,rfl,rfl,rfl,trivial,rfl,rfl,rfl,rfl,trivial,trivial⟩,by decide,rfl,by decide,rfl,
      fun s => rfl⟩
  · exact ⟨1,.black .nil (.red .nil .nil)⟩
  · unfold Sorted
    decide
  · exact ⟨rfl,fun s => by cases s <;> rfl⟩
  · rfl
  · decide
  · decide

end CosKernel.RedBlackHeap

import CosKernel.RedBlackQueries
import CosKernel.TransitionRuns

/-!
# Whole lifetimes of nodes

A finite set of node objects is inserted into one tree and removed from it in
any order; outside the tree a node may get another key. The machine records the
nodes that are in the tree and those that ever were. `insert` into a non-empty
tree keeps the colour of the node, and `remove` does not make a node red again,
so a node that left the tree black spoils the balance when it comes back.
Equal keys are safe as long as no removal meets a comparison of keys that
disagrees with the side on which a subtree has to hang.
-/
namespace CosKernel.RedBlackHeap
open RedBlackZipper ColorTree TransitionRuns

inductive Call (α : Type) where
  | insert (a : α)
  | remove (a : α)
  | setKey (a : α) (k : ℤ)
  deriving DecidableEq, Repr

structure Life (α T : Type) where
  heap : Heap α T
  present : Finset α
  used : Finset α

/-- Fuel for every recursion over the nodes of `α`. -/
def enough (α : Type) [Fintype α] : ℕ := 2*Fintype.card α+4

variable {α T : Type} [DecidableEq α] [Fintype α]

def Life.call (s : Life α T) : Call α → Option (Life α T)
  | .insert a => (s.heap.insert (enough α) a).map fun r => ⟨r.1,insert a s.present,insert a s.used⟩
  | .remove a => (s.heap.remove (enough α) a).map fun r => ⟨r.1,s.present.erase a,s.used⟩
  | .setKey a k => some {s with heap := s.heap.setKey (.node a) k}

/-- All nodes as their constructor leaves them, and an empty tree. -/
def Constructed (h : Heap α T) : Prop :=
  h.root = none ∧ Sentinel h ∧ ∀ a, Loose h a ∧ h.color (.node a) = .red

def Life.start (h : Heap α T) : Life α T := ⟨h,∅,∅⟩

/-- Nodes enter and leave in turn, and the keys in the tree are distinct. -/
def DistinctKeys (s : Life α T) : Call α → Prop
  | .insert a => a ∉ s.present ∧ ∀ b ∈ s.present, s.heap.key (.node b) ≠ s.heap.key (.node a)
  | .remove a => a ∈ s.present
  | .setKey a _ => a ∉ s.present

/-- A node that enters a non-empty tree is red. -/
def RedOnEntry (s : Life α T) : Call α → Prop
  | .insert a => s.present.Nonempty → s.heap.color (.node a) = .red
  | _ => True

/-- The pointers form the valid red-black tree `t` over the nodes that are present. -/
structure SoundTree (s : Life α T) (t : ColorTree α) : Prop where
  layout : Sub s.heap none t
  root : s.heap.root = rootRef t
  valid : Valid t
  nil : s.heap.color .nil = .black
  increasing : Increasing s.heap t.toList
  elements : ∀ a, a ∈ t.toList ↔ a ∈ s.present
  min : s.heap.min (enough α) = some (t.toList.head?.map s.heap.obj)
  max : s.heap.max (enough α) = some (t.toList.getLast?.map s.heap.obj)
  size : s.heap.size (enough α) = some s.present.card
  lookup : ∀ k, s.heap.lookup (enough α) k =
    some ((t.toList.find? fun a => s.heap.key (.node a) = k).map s.heap.obj)

/-- What holds between two calls. -/
structure Ordered (R : ℤ → ℤ → Prop) (s : Life α T) (t : ColorTree α) : Prop where
  tree : IsTree s.heap t
  valid : Valid t
  sorted : t.toList.Pairwise fun a b => R (s.heap.key (.node a)) (s.heap.key (.node b))
  elements : ∀ a, a ∈ t.toList ↔ a ∈ s.present

variable {s : Life α T} {t : ColorTree α} {R : ℤ → ℤ → Prop} {a : α}

omit [Fintype α] in
theorem Ordered.length (H : Ordered R s t) : t.toList.length = s.present.card := by
  rw [← List.toFinset_card_of_nodup H.tree.nodup]
  congr 1
  ext a
  simp [H.elements]

omit [DecidableEq α] in
theorem Ordered.fuel (H : Ordered R s t) : 2*t.toList.length+4 ≤ enough α := by
  have := H.tree.nodup.length_le_card
  unfold enough
  omega

theorem Ordered.sound (H : Ordered (· < ·) s t) : SoundTree s t := by
  have hf := H.fuel
  obtain ⟨hmin,hmax⟩ := Sub.extremes (show t.toList.length < enough α by omega) H.tree.sub H.tree.root
  refine ⟨H.tree.sub,H.tree.root,H.valid,H.tree.sentinel.1,H.sorted,H.elements,hmin,hmax,?_,?_⟩
  · rw [← H.length]
    by_cases ht : t = .nil
    · subst ht
      have hr : s.heap.root = none := H.tree.root
      simp [Heap.size,hr,toList]
    · have hr := H.tree.root.trans (rootRef_eq_some ht)
      simp [Heap.size,hr,Sub.countSize ht (show _ ≤ enough α by omega) H.tree.sub]
  · intro k
    by_cases ht : t = .nil
    · subst ht
      have hr : s.heap.root = none := H.tree.root
      simp [Heap.lookup,hr,toList]
    · have hr := H.tree.root.trans (rootRef_eq_some ht)
      have hl := Sub.lookupBelow k ht (show _ ≤ enough α by omega) H.tree.sub H.sorted
      cases hfind : t.toList.find? fun a => s.heap.key (.node a) = k <;>
        simp_all [Heap.lookup,Heap.getObj]

theorem Ordered.insert (H : Ordered R s t) (hR : ∀ x y, R x y → x ≤ y) (ha : a ∉ s.present)
    (hRa : ∀ b ∈ s.present,
      (s.heap.key (.node b) ≤ s.heap.key (.node a) → R (s.heap.key (.node b)) (s.heap.key (.node a))) ∧
      (s.heap.key (.node a) < s.heap.key (.node b) → R (s.heap.key (.node a)) (s.heap.key (.node b))))
    (hc : s.present.Nonempty → s.heap.color (.node a) = .red) :
    ∃ s' t', s.call (.insert a) = some s' ∧ Ordered R s' t' ∧
      s'.present = insert a s.present ∧ s'.used = insert a s.used ∧
      Kept s.heap s'.heap t'.toList := by
  have hf := H.fuel
  have hne : t ≠ .nil → s.present.Nonempty := by
    intro ht
    obtain ⟨b,hb⟩ := exists_ref ht
    exact ⟨b,(H.elements b).mp (mem_of_ref hb)⟩
  obtain ⟨h',t',l,r,e,H',hv,hl,hsplit,hl',K⟩ := H.tree.insert (show 2*t.toList.length < enough α by omega)
    H.valid (fun h => ha ((H.elements a).mp h)) (H.sorted.imp fun h => hR _ _ h) fun ht => hc (hne ht)
  have hmem : ∀ b, b ∈ l++r → b ∈ s.present := fun b hb => (H.elements b).mp (hl ▸ hb)
  refine ⟨⟨h',Insert.insert a s.present,Insert.insert a s.used⟩,t',by simp [Life.call,e],
    ⟨H',hv,?_,?_⟩,rfl,rfl,K⟩
  · have hs := H.sorted
    rw [hl,List.pairwise_append] at hs
    simp only [K.1,hl',List.pairwise_append,List.pairwise_cons,List.mem_cons]
    refine ⟨hs.1,⟨fun b hb => (hRa b (hmem b (by simp [hb]))).2 (hsplit.2 b hb),hs.2.1⟩,?_⟩
    rintro b hb c (rfl | hc)
    · exact (hRa b (hmem b (by simp [hb]))).1 (hsplit.1 b hb)
    · exact hs.2.2 b hb c hc
  · intro b
    have hb := H.elements b
    rw [hl] at hb
    simp only [hl',List.mem_append,List.mem_cons,Finset.mem_insert,← hb]
    tauto

theorem Ordered.remove (H : Ordered R s t) (hR : ∀ x y, R x y → x ≤ y) (ha : a ∈ s.present)
    (hk : s.heap.sidesKept (enough α) (.node a) = true) :
    ∃ s' t', s.call (.remove a) = some s' ∧ Ordered R s' t' ∧
      s'.present = s.present.erase a ∧ s'.used = s.used ∧ Kept s.heap s'.heap t.toList := by
  have hf := H.fuel
  obtain ⟨h',t',e,H',hv,hl,K⟩ := H.tree.remove (show t.toList.length+4 ≤ enough α by omega) H.valid
    (H.sorted.imp fun h => hR _ _ h) ((H.elements a).mpr ha) hk
  refine ⟨⟨h',s.present.erase a,s.used⟩,t',by simp [Life.call,e],
    ⟨H',hv,?_,?_⟩,rfl,rfl,K⟩
  · simp only [K.1,hl]
    exact H.sorted.sublist List.erase_sublist
  · intro b
    rw [hl,H.tree.nodup.mem_erase_iff,H.elements,Finset.mem_erase]

omit [Fintype α] in
/-- Outside the tree a key may change. -/
theorem Ordered.setKey (H : Ordered R s t) (ha : a ∉ s.present) (k : ℤ) :
    Ordered R {s with heap := s.heap.setKey (.node a) k} t := by
  obtain ⟨⟨h1,h2,h3,h4,h5,h6⟩,hv,hs,he⟩ := H
  refine ⟨⟨h1.congr fun _ _ => ⟨rfl,rfl,rfl⟩,h2,h3,h4,h5,h6⟩,hv,?_,he⟩
  refine hs.imp_of_mem fun {b c} hb hc h => ?_
  have hba : b ≠ a := fun h => ha (h ▸ (he b).mp hb)
  have hca : c ≠ a := fun h => ha (h ▸ (he c).mp hc)
  simpa [Heap.setKey,hba,hca] using h

omit [DecidableEq α] [Fintype α] in
theorem Constructed.ordered {h : Heap α T} (H : Constructed h) : Ordered R (Life.start h) .nil :=
  ⟨⟨trivial,by simp [toList],H.1,by simp [toList],fun a _ => (H.2.2 a).1,H.2.1⟩,⟨0,.nil⟩,
    by simp [toList],by simp [toList,Life.start]⟩

instance DistinctKeys.decidable (s : Life α T) : ∀ c, Decidable (DistinctKeys s c)
  | .insert a => inferInstanceAs (Decidable (a ∉ s.present ∧
      ∀ b ∈ s.present, s.heap.key (.node b) ≠ s.heap.key (.node a)))
  | .remove a => inferInstanceAs (Decidable (a ∈ s.present))
  | .setKey a _ => inferInstanceAs (Decidable (a ∉ s.present))

instance RedOnEntry.decidable (s : Life α T) : ∀ c, Decidable (RedOnEntry s c)
  | .insert a => inferInstanceAs (Decidable (s.present.Nonempty → s.heap.color (.node a) = .red))
  | .remove _ => .isTrue trivial
  | .setKey _ _ => .isTrue trivial

/-- As long as only red nodes enter a non-empty tree, every call keeps the tree sound. -/
theorem red_black_tree_stays_sound {h : Heap α T} {calls : List (Call α)} (hstart : Constructed h)
    (hkeys : AllSteps Life.call DistinctKeys (Life.start h) calls)
    (hred : AllSteps Life.call RedOnEntry (Life.start h) calls) :
    Always Life.call (fun s => ∃ t, SoundTree s t) (Life.start h) calls := by
  refine always_of_invariant (I := fun s => ∃ t, Ordered (· < ·) s t)
    (fun s ⟨t,H⟩ => ⟨t,H.sound⟩) ?_ ⟨.nil,hstart.ordered⟩ (hkeys.and hred)
  rintro s (a | a | ⟨a,k⟩) ⟨t,H⟩ ⟨hd,hr⟩
  · obtain ⟨s',t',e,H',-⟩ := H.insert (fun _ _ => le_of_lt) hd.1
      (fun b hb => ⟨fun h => lt_of_le_of_ne h (hd.2 b hb),id⟩) hr
    exact ⟨s',e,t',H'⟩
  · have hf := H.fuel
    have hk := H.tree.standing.sidesKept (show t.toList.length < enough α by omega) H.sorted
      ((H.elements a).mpr hd)
    obtain ⟨s',t',e,H',-⟩ := H.remove (fun _ _ => le_of_lt) hd hk
    exact ⟨s',e,t',H'⟩
  · exact ⟨_,rfl,t,H.setKey hd k⟩

def freshHeap (key : α → ℤ) (obj : α → T) : Heap α T where
  key := fun | .nil => -1 | .node a => key a
  color := fun | .nil => .black | .node _ => .red
  parent := fun _ => none
  link := fun x _ => match x with | .nil => none | .node _ => some .nil
  tree := fun _ => false
  obj := obj
  root := none

omit [DecidableEq α] [Fintype α] in
theorem freshHeap_constructed (key : α → ℤ) (obj : α → T) : Constructed (freshHeap key obj) :=
  ⟨rfl,⟨rfl,fun _ => rfl⟩,fun _ => ⟨⟨rfl,fun _ => rfl,rfl⟩,rfl⟩⟩

/-- Three nodes with the keys 0, 1 and 2. -/
def threeNodes : Heap (Fin 3) (Fin 3) := freshHeap (fun a => a.val) id

/-- Node 1 leaves the tree red, gets another key, and comes back. -/
def redReturn : List (Call (Fin 3)) :=
  [.insert 0,.insert 1,.remove 1,.setKey 1 7,.insert 1,.insert 2,.remove 0]

theorem red_black_tree_stays_sound_redReturn :
    Always Life.call (fun s => ∃ t, SoundTree s t) (Life.start threeNodes) redReturn :=
  red_black_tree_stays_sound (freshHeap_constructed _ _) (by decide) (by decide)

/-- Node 0 leaves the tree black and comes back below node 1. -/
def blackReturn : List (Call (Fin 3)) := [.insert 0,.remove 0,.insert 1,.insert 0]

theorem blackReturn_unbalances : AllSteps Life.call DistinctKeys (Life.start threeNodes) blackReturn ∧
    ¬Always Life.call (fun s => ∃ t, SoundTree s t) (Life.start threeNodes) blackReturn := by
  refine ⟨by decide,fun h => ?_⟩
  obtain ⟨s,hs,t,H⟩ := h.last
  have hfacts : (blackReturn.foldlM Life.call (Life.start threeNodes)).map (fun s =>
      (s.heap.root,s.heap.color (.node 0),s.heap.link (.node 1) .left,
        s.heap.link (.node 1) .right)) =
      some (some (.node 1),.black,some (.node 0),some .nil) := by decide
  rw [hs] at hfacts
  simp only [Option.map_some,Option.some.injEq,Prod.mk.injEq] at hfacts
  obtain ⟨hroot,hc,hl,hr⟩ := hfacts
  obtain ⟨n,hb⟩ := H.valid
  obtain ⟨d,x,y,rfl⟩ : ∃ d x y, t = .node d x 1 y := by
    have := H.root.symm.trans hroot
    cases t <;> simp_all [rootRef]
  obtain ⟨-,-,hx,hy,hX,-⟩ := H.layout
  have hy : y = .nil := ref_eq_nil.mp (Option.some.inj (hy.symm.trans hr))
  obtain ⟨e,x₁,x₂,rfl⟩ : ∃ e x₁ x₂, x = .node e x₁ 0 x₂ := by
    have := Option.some.inj (hx.symm.trans hl)
    cases x <;> simp_all [ref]
  subst hy
  obtain rfl : e = .black := hX.1.symm.trans hc
  have hone := (Balanced.of_branch_nil (s := .left) hb (by simp)).2.2
  obtain ⟨e,hz⟩ := hone
  cases hz

/-- Every node is inserted once, as its constructor left it; keys may be equal. -/
def FreshNodes (s : Life α T) : Call α → Prop
  | .insert a => a ∉ s.used
  | .remove a => a ∈ s.present
  | .setKey _ _ => False

/-- No removal reattaches a subtree on the wrong side. -/
def SidesKept (s : Life α T) : Call α → Prop
  | .remove a => s.heap.sidesKept (enough α) (.node a) = true
  | _ => True

/-- The links below the root of `t` are those of `t`. -/
def Links (h : Heap α T) : ColorTree α → Prop
  | .nil => True
  | .node _ l a r => h.link (.node a) .left = some (ref l) ∧
      h.link (.node a) .right = some (ref r) ∧ Links h l ∧ Links h r

/-- The nodes reachable from the root are those that are present, each reached
once, in the order of their keys. -/
structure NothingLost (s : Life α T) (t : ColorTree α) : Prop where
  root : s.heap.root = rootRef t
  links : Links s.heap t
  once : t.toList.Nodup
  elements : ∀ a, a ∈ t.toList ↔ a ∈ s.present
  sorted : t.toList.Pairwise fun a b => s.heap.key (.node a) ≤ s.heap.key (.node b)

omit [DecidableEq α] [Fintype α] in
theorem Sub.links {h : Heap α T} {p : Option (Ref α)} {t : ColorTree α} (H : Sub h p t) :
    Links h t := by
  induction t generalizing p with
  | nil => trivial
  | node c l a r ihl ihr => exact ⟨H.2.2.1,H.2.2.2.1,ihl H.2.2.2.2.1,ihr H.2.2.2.2.2⟩

omit [DecidableEq α] [Fintype α] in
/-- A set of nodes that is closed under the links contains all reachable nodes. -/
theorem Links.subset {h : Heap α T} {t : ColorTree α} (Z : α → Prop) (H : Links h t)
    (hZ : ∀ a, Z a → ∀ s b, h.link (.node a) s = some (.node b) → Z b)
    (hroot : ∀ a, ref t = .node a → Z a) : ∀ a ∈ t.toList, Z a := by
  induction t with
  | nil => simp [toList]
  | node c l a r ihl ihr =>
      obtain ⟨hl,hr,hL,hR⟩ := H
      have ha : Z a := hroot a rfl
      intro b hb
      simp only [toList,List.mem_append,List.mem_cons] at hb
      rcases hb with hb | rfl | hb
      · exact ihl hL (fun e he => hZ a ha .left e (he ▸ hl)) b hb
      · exact ha
      · exact ihr hR (fun e he => hZ a ha .right e (he ▸ hr)) b hb

/-- With equal keys no node is lost as long as the removals keep the sides. -/
theorem equal_keys_lose_nothing {h : Heap α T} {calls : List (Call α)} (hstart : Constructed h)
    (hfresh : AllSteps Life.call FreshNodes (Life.start h) calls)
    (hsides : AllSteps Life.call SidesKept (Life.start h) calls) :
    Always Life.call (fun s => ∃ t, NothingLost s t) (Life.start h) calls := by
  refine always_of_invariant (I := fun s => ∃ t, Ordered (· ≤ ·) s t ∧ s.present ⊆ s.used ∧
      ∀ a, a ∉ s.used → s.heap.color (.node a) = .red)
    (fun s ⟨t,H,_⟩ => ⟨t,H.tree.root,H.tree.sub.links,H.tree.nodup,H.elements,H.sorted⟩) ?_
    ⟨.nil,hstart.ordered,by simp [Life.start],fun a _ => (hstart.2.2 a).2⟩ (hfresh.and hsides)
  rintro s (a | a | ⟨a,k⟩) ⟨t,H,hsub,hred⟩ ⟨hf,hs⟩
  · obtain ⟨s',t',e,H',hp,hu,K⟩ := H.insert (fun _ _ => id) (fun h => hf (hsub h))
      (fun b hb => ⟨id,le_of_lt⟩) fun _ => hred a hf
    have hsub' : s'.present ⊆ s'.used := by
      rw [hp,hu]
      exact Finset.insert_subset_insert a hsub
    refine ⟨s',e,t',H',hsub',fun b hb => ?_⟩
    rw [K.2.2 b fun h => hb (hsub' ((H'.elements b).mp h))]
    exact hred b fun h => hb (hu ▸ Finset.mem_insert_of_mem h)
  · obtain ⟨s',t',e,H',hp,hu,K⟩ := H.remove (fun _ _ => id) hf hs
    refine ⟨s',e,t',H',by rw [hp,hu]; exact (Finset.erase_subset _ _).trans hsub,fun b hb => ?_⟩
    rw [hu] at hb
    rw [K.2.2 b fun h => hb (hsub ((H.elements b).mp h))]
    exact hred b hb
  · exact hf.elim

instance FreshNodes.decidable (s : Life α T) : ∀ c, Decidable (FreshNodes s c)
  | .insert a => inferInstanceAs (Decidable (a ∉ s.used))
  | .remove a => inferInstanceAs (Decidable (a ∈ s.present))
  | .setKey _ _ => .isFalse id

instance SidesKept.decidable (s : Life α T) : ∀ c, Decidable (SidesKept s c)
  | .remove a => inferInstanceAs (Decidable (s.heap.sidesKept (enough α) (.node a) = true))
  | .insert _ => .isTrue trivial
  | .setKey _ _ => .isTrue trivial

/-- Eight nodes with the same key. -/
def eightEqual : Heap (Fin 8) (Fin 8) := freshHeap (fun _ => 5) id

def insertEight : List (Call (Fin 8)) := (List.finRange 8).map .insert

theorem equal_keys_lose_nothing_eight : Always Life.call (fun s => ∃ t, NothingLost s t)
    (Life.start eightEqual) (insertEight++[.remove 3,.remove 0]) :=
  equal_keys_lose_nothing (freshHeap_constructed _ _) (by decide +kernel) (by decide +kernel)

/-- The removal of node 1 hangs the rest of its subtree over the right subtree of node 3. -/
def removeOne : List (Call (Fin 8)) := insertEight++[.remove 1]

/-- What is left after the removal of node 1: nodes 3, 0 and 2 refer only to each
other, and node 7 is still present. -/
def lostSeven (s : Life (Fin 8) (Fin 8)) : Bool :=
  s.heap.root = some (.node 3) ∧ 7 ∈ s.present ∧ ∀ a ∈ [3,0,2],∀ b,
    s.heap.link (.node a) .left = some (.node b) ∨ s.heap.link (.node a) .right = some (.node b) →
      b ∈ [3,0,2]

theorem removeOne_loses_nodes :
    AllSteps Life.call FreshNodes (Life.start eightEqual) removeOne ∧
    ¬Always Life.call (fun s => ∃ t, NothingLost s t) (Life.start eightEqual) removeOne := by
  refine ⟨by decide +kernel,fun h => ?_⟩
  obtain ⟨s,hs,t,H⟩ := h.last
  have hlost : (removeOne.foldlM Life.call (Life.start eightEqual)).map lostSeven = some true := by
    decide +kernel
  rw [hs,Option.map_some,Option.some.injEq,lostSeven,decide_eq_true_eq] at hlost
  obtain ⟨hroot,h7,hclosed⟩ := hlost
  have hsub := H.links.subset (fun a => a ∈ [3,0,2]) ?_ ?_ 7 ((H.elements 7).mpr h7)
  · simp at hsub
  · intro a ha s b hb
    refine hclosed a ha b ?_
    cases s with
    | left => exact Or.inl hb
    | right => exact Or.inr hb
  · intro a ha
    have hr := H.root.symm.trans hroot
    cases t with
    | nil => cases ha
    | node c l b r =>
        cases ha
        cases hr
        simp

end CosKernel.RedBlackHeap

import CosKernel.PartialMorphisms
import CosKernel.ThreadHomes

/-!
# Pointer lists with the sequences they stand for

A morphism of list families carries every method of one family to the same method of the other.
The checked lists keep the linked nodes and the sequences side by side and fault where the two
could part: at a `push_back` of a node that is in a list already or that brings an old `_pNext`
into an empty list, and at an `erase` of a node that is not in the list. That the nodes stand for
the sequences is a field, so both projections are morphisms without further conditions.
-/
namespace CosKernel
open IntrusiveList PartialMorphisms

/-- Every method is carried over. The node after another one is asked for within a list only;
`Mem` says what is in a list. -/
structure ListMorphism (σ σ' : Type) {ι ν : Type} [ListFamily σ ι ν] [ListFamily σ' ι ν] where
  toFun : σ → σ'
  Mem : σ → ι → ν → Prop
  pushBack : ∀ s l p, Carries toFun (ListFamily.pushBack s l p) (ListFamily.pushBack (toFun s) l p)
  erase : ∀ s l p, Carries toFun (ListFamily.erase s l p) (ListFamily.erase (toFun s) l p)
  empty : ∀ s l, ListFamily.empty (toFun s) l = ListFamily.empty s l
  front : ∀ s l, ListFamily.front (toFun s) l = ListFamily.front s l
  begin : ∀ s l, ListFamily.begin (toFun s) l = ListFamily.begin s l
  size : ∀ fuel s l, Carries id (ListFamily.size fuel s l) (ListFamily.size fuel (toFun s) l)
  next : ∀ {s l a}, Mem s l a → ListFamily.next (toFun s) l a = ListFamily.next s l a
  mem_begin : ∀ {s l a}, ListFamily.begin s l = some a → Mem s l a
  mem_next : ∀ {s l a b}, Mem s l a → ListFamily.next s l a = some b → Mem s l b ∧ b ≠ a
  mem_pushBack : ∀ {s s' l a m p}, Mem s l a → ListFamily.pushBack s m p = some s' → Mem s' l a
  mem_erase : ∀ {s s' l a m p}, Mem s l a → a ≠ p → ListFamily.erase s m p = some s' → Mem s' l a

/-- Nodes and sequences that agree; `home` tells the list of a node. -/
structure CheckedLists (ι ν : Type) where
  store : Store ι ν ν
  lists : Sequences ι ν
  home : ν → Option ι
  represents : Represents store lists.get
  values : ∀ a, (store.node a).value = a
  mem_iff : ∀ l a, a ∈ lists.get l ↔ home a = some l

namespace CheckedLists

variable {ι ν : Type}

/-- No list holds a node. -/
def constructed (s : Store ι ν ν) (h : ∀ l, (s.list l).pHead = none)
    (hv : ∀ a, (s.node a).value = a) : CheckedLists ι ν where
  store := s
  lists := ⟨fun _ => []⟩
  home _ := none
  represents := ⟨fun l => ⟨h l,fun hn => absurd rfl hn,List.isChain_nil,by simp⟩,by simp,by simp⟩
  values := hv
  mem_iff := by simp

variable {c : CheckedLists ι ν} {s : Store ι ν ν} {l : ι} {p : ν}

theorem housed (c : CheckedLists ι ν) : c.lists.Housed c.home := ⟨c.mem_iff,c.represents.nodup⟩

variable [DecidableEq ι] [DecidableEq ν]

theorem pushed (hp : c.home p = none)
    (hc : c.lists.get l = [] → (c.store.node p).pNext = none) (h : c.store.pushBack l p = some s) :
    Represents s (c.lists.set l (c.lists.get l++[p])).get ∧ ∀ a, (s.node a).value = a := by
  have hout : ∀ m, p ∉ c.lists.get m := by
    intro m hm
    rw [(c.mem_iff m p).mp hm] at hp
    cases hp
  obtain ⟨s',hs',hr,hv⟩ := pushBack_spec c.represents hout hc
  obtain rfl := Option.some.inj (hs'.symm.trans h)
  exact ⟨hr,fun a => by rw [hv,c.values]⟩

theorem erased (hp : c.home p = some l) (h : c.store.erase l p = some s) :
    Represents s (c.lists.set l ((c.lists.get l).erase p)).get ∧ ∀ a, (s.node a).value = a := by
  obtain ⟨s',hs',hr,hv⟩ := erase_spec c.represents ((c.mem_iff l p).mpr hp)
  obtain rfl := Option.some.inj (hs'.symm.trans h)
  exact ⟨hr,fun a => by rw [hv,c.values]⟩

def pushBack (c : CheckedLists ι ν) (l : ι) (p : ν) : Option (CheckedLists ι ν) :=
  if hc : c.home p = none ∧ (c.lists.get l = [] → (c.store.node p).pNext = none) then
    (c.store.pushBack l p).pmap
      (fun s hs => ⟨s,c.lists.set l (c.lists.get l++[p]),Function.update c.home p (some l),
        (pushed hc.1 hc.2 hs).1,(pushed hc.1 hc.2 hs).2,(c.housed.push hc.1 l).mem⟩)
      fun _ hs => hs
  else none

def erase (c : CheckedLists ι ν) (l : ι) (p : ν) : Option (CheckedLists ι ν) :=
  if hc : c.home p = some l then
    (c.store.erase l p).pmap
      (fun s hs => ⟨s,c.lists.set l ((c.lists.get l).erase p),Function.update c.home p none,
        (erased hc hs).1,(erased hc hs).2,(c.housed.erase hc).mem⟩)
      fun _ hs => hs
  else none

instance : ListFamily (CheckedLists ι ν) ι ν where
  pushBack := pushBack
  erase := erase
  empty c l := (c.lists.get l).isEmpty
  front c l := (c.lists.get l).head?
  begin c l := (c.lists.get l).head?
  next c l a := Sequences.after a (c.lists.get l)
  size fuel c l :=
    if (c.lists.get l).length ≤ fuel then some (c.lists.get l).length else none

variable {c' : CheckedLists ι ν} {a b : ν} {m : ι}

theorem pushBack_some (h : c.pushBack l p = some c') :
    c.store.pushBack l p = some c'.store ∧ c'.lists = c.lists.set l (c.lists.get l++[p]) := by
  unfold pushBack at h
  split_ifs at h with hc
  obtain ⟨s,hs,hs',rfl⟩ := Option.pmap_eq_some_iff.mp h
  exact ⟨hs',rfl⟩

theorem erase_some (h : c.erase l p = some c') :
    c.store.erase l p = some c'.store ∧ c'.lists = c.lists.set l ((c.lists.get l).erase p) := by
  unfold erase at h
  split_ifs at h with hc
  obtain ⟨s,hs,hs',rfl⟩ := Option.pmap_eq_some_iff.mp h
  exact ⟨hs',rfl⟩

theorem mem_pushBack (ha : a ∈ c.lists.get m) (h : c.pushBack l p = some c') :
    a ∈ c'.lists.get m := by
  rw [(pushBack_some h).2]
  by_cases hm : m = l
  · subst hm
    simp [ha]
  · simpa [hm] using ha

theorem mem_erase (ha : a ∈ c.lists.get m) (hap : a ≠ p) (h : c.erase l p = some c') :
    a ∈ c'.lists.get m := by
  rw [(erase_some h).2]
  by_cases hm : m = l
  · subst hm
    simpa using (List.mem_erase_of_ne hap).mpr ha
  · simpa [hm] using ha

omit [DecidableEq ι] in
/-- The links lead from a member of a list to the one after it. -/
theorem getNext_eq (ha : a ∈ c.lists.get l) :
    c.store.getNext a = Sequences.after a (c.lists.get l) := by
  have hpath := (c.represents.chained l).path
  generalize c.lists.get l = xs at ha hpath
  induction xs with
  | nil => cases ha
  | cons x xs ih =>
      unfold Sequences.after
      split_ifs with hx
      · subst hx
        exact hpath.1
      · exact ih ((List.mem_cons.mp ha).resolve_left (Ne.symm hx)) hpath.2

omit [DecidableEq ι] [DecidableEq ν] in
theorem front_eq (c : CheckedLists ι ν) (l : ι) : c.store.front l = (c.lists.get l).head? := by
  rw [Store.front,(c.represents.chained l).head]
  simp [c.values]

def toStore : ListMorphism (CheckedLists ι ν) (Store ι ν ν) where
  toFun := store
  Mem c l a := a ∈ c.lists.get l
  pushBack _ _ _ _ h := (pushBack_some h).1
  erase _ _ _ _ h := (erase_some h).1
  empty c l := by
    change c.store.empty l = _
    rw [Store.empty,(c.represents.chained l).head]
    change (c.lists.get l).head?.isNone = (c.lists.get l).isEmpty
    cases c.lists.get l <;> rfl
  front c l := c.front_eq l
  begin c l := (c.represents.chained l).head
  size fuel c l n h := by
    change (if (c.lists.get l).length ≤ fuel then some (c.lists.get l).length else none) = some n at h
    split_ifs at h with hf
    cases h
    change c.store.size fuel l = _
    rw [Store.size,(c.represents.chained l).head,(c.represents.chained l).path.sizeLoop hf]
    simp
  next h := getNext_eq h
  mem_begin h := List.mem_of_head? h
  mem_next {c l} _ _ _ h := Sequences.after_mem (c.represents.nodup l) h
  mem_pushBack := mem_pushBack
  mem_erase := mem_erase

def toSequences : ListMorphism (CheckedLists ι ν) (Sequences ι ν) where
  toFun := lists
  Mem c l a := a ∈ c.lists.get l
  pushBack _ _ _ _ h := congrArg some (pushBack_some h).2.symm
  erase _ _ _ _ h := congrArg some (erase_some h).2.symm
  empty _ _ := rfl
  front _ _ := rfl
  begin _ _ := rfl
  size fuel c l n h := by
    change (if (c.lists.get l).length ≤ fuel then some (c.lists.get l).length else none) = some n at h
    split_ifs at h
    exact h
  next _ := rfl
  mem_begin h := List.mem_of_head? h
  mem_next {c l} _ _ _ h := Sequences.after_mem (c.represents.nodup l) h
  mem_pushBack := mem_pushBack
  mem_erase := mem_erase

end CheckedLists

end CosKernel

import CosKernel.IntrusiveListRefinement

/-!
# Families of lists behind one interface

The kernel uses its thread lists through a few methods. The interface is
instantiated twice: by the linked nodes of coslib, and by plain sequences for
statements that take the list as the ideal append and remove sequence. Both are
local: an operation on one list does not make another one empty, or end that.
-/
namespace CosKernel

/-- List objects `ι` over the nodes of the threads `ν`. A `none` from `pushBack`
or `erase` is a null dereference and from `size` exhausted fuel; elsewhere it is
the null result. -/
class ListFamily (σ : Type) (ι ν : outParam Type) where
  pushBack : σ → ι → ν → Option σ
  erase : σ → ι → ν → Option σ
  empty : σ → ι → Bool
  front : σ → ι → Option ν
  begin : σ → ι → Option ν
  next : σ → ι → ν → Option ν
  size : ℕ → σ → ι → Option ℕ

/-- The node of a thread carries the thread as its value. -/
instance {ι ν : Type} [DecidableEq ι] [DecidableEq ν] :
    ListFamily (IntrusiveList.Store ι ν ν) ι ν where
  pushBack := IntrusiveList.Store.pushBack
  erase := IntrusiveList.Store.erase
  empty := IntrusiveList.Store.empty
  front := IntrusiveList.Store.front
  begin := IntrusiveList.Store.begin
  next s _ a := s.getNext a
  size fuel s l := s.size fuel l

/-- Lists as plain sequences. -/
structure Sequences (ι ν : Type) where
  get : ι → List ν

namespace Sequences

variable {ι ν : Type} [DecidableEq ι]

def set (s : Sequences ι ν) (l : ι) (xs : List ν) : Sequences ι ν :=
  ⟨Function.update s.get l xs⟩

@[simp] theorem set_get_self (s : Sequences ι ν) (l : ι) (xs : List ν) :
    (s.set l xs).get l = xs := by simp [set]

@[simp] theorem set_get_of_ne (s : Sequences ι ν) {l m : ι} (xs : List ν) (h : m ≠ l) :
    (s.set l xs).get m = s.get m := by simp [set,h]

/-- The element after the first occurrence of `a`. -/
def after [DecidableEq ν] (a : ν) : List ν → Option ν
  | [] => none
  | b::xs => if b = a then xs.head? else after a xs

instance [DecidableEq ν] : ListFamily (Sequences ι ν) ι ν where
  pushBack s l p := some (s.set l (s.get l++[p]))
  erase s l p := some (s.set l ((s.get l).erase p))
  empty s l := (s.get l).isEmpty
  front s l := (s.get l).head?
  begin s l := (s.get l).head?
  next s l a := after a (s.get l)
  size _ s l := some (s.get l).length

end Sequences

/-- An operation on a list leaves open whether the others are empty, and `front` finds a node in the
lists that are not. -/
class LocalLists (σ : Type) {ι ν : outParam Type} [ListFamily σ ι ν] : Prop where
  pushBack : ∀ {s s' : σ} {l m : ι} {p : ν}, m ≠ l → ListFamily.pushBack s l p = some s' →
    ListFamily.empty s' m = ListFamily.empty s m
  erase : ∀ {s s' : σ} {l m : ι} {p : ν}, m ≠ l → ListFamily.erase s l p = some s' →
    ListFamily.empty s' m = ListFamily.empty s m
  front : ∀ {s : σ} {l : ι}, ListFamily.front s l = none ↔ ListFamily.empty s l = true

section families

variable {ι ν : Type} [DecidableEq ι] [DecidableEq ν]

instance : LocalLists (Sequences ι ν) where
  pushBack hm h := by
    obtain rfl := Option.some.inj h
    exact congrArg List.isEmpty (Sequences.set_get_of_ne _ _ hm)
  erase hm h := by
    obtain rfl := Option.some.inj h
    exact congrArg List.isEmpty (Sequences.set_get_of_ne _ _ hm)
  front {s l} := by
    change (s.get l).head? = none ↔ (s.get l).isEmpty = true
    rw [List.head?_eq_none_iff,List.isEmpty_iff]

open IntrusiveList

variable {τ : Type} {s s' : Store ι ν τ} {l m : ι} {p : ν}

theorem pushBack_list (hm : m ≠ l) (h : s.pushBack l p = some s') : s'.list m = s.list m := by
  unfold Store.pushBack at h
  split_ifs at h
  · cases h
    exact s.setList_other _ hm
  · cases h
    rfl
  · obtain ⟨t,-,rfl⟩ := Option.map_eq_some_iff.mp h
    simp [hm]

theorem erase_list (hm : m ≠ l) (h : s.erase l p = some s') : s'.list m = s.list m := by
  unfold Store.erase at h
  split_ifs at h
  · split at h
    · cases h
      exact s.setList_other _ hm
    · cases h
      simp [hm]
  · obtain ⟨t,-,rfl⟩ := Option.map_eq_some_iff.mp h
    simp [hm]
  · obtain ⟨b,-,h⟩ := Option.bind_eq_some_iff.mp h
    obtain ⟨a,-,h⟩ := Option.bind_eq_some_iff.mp h
    cases h
    rfl

instance : LocalLists (Store ι ν ν) where
  pushBack hm h := congrArg (fun e : Ends ν => e.pHead.isNone) (pushBack_list hm h)
  erase hm h := congrArg (fun e : Ends ν => e.pHead.isNone) (erase_list hm h)
  front {s l} := by
    change (s.list l).pHead.map _ = none ↔ (s.list l).pHead.isNone = true
    rw [Option.map_eq_none_iff,Option.isNone_iff_eq_none]

end families

end CosKernel

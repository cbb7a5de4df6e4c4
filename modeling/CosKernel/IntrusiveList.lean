import Mathlib

/-!
# The intrusive doubly linked list of coslib

The link fields live in the nodes, and one node object may move between any
number of list objects. The store therefore holds all nodes and all lists of
one family. `push_back` and `erase` are translated statement by statement;
following a null link is a fault. The two comparisons that end `erase`
(`p->_pPrev == NULL; p->_pNext == NULL;`) have no effect and leave no trace
here, so an erased node keeps its old links.

`Represents` says which sequence each list stands for. It constrains neither
the `_pPrev` of a head nor the `_pTail` of an empty list, which the code leaves
behind with old values, and it says nothing about nodes outside the lists.
-/
namespace CosKernel.IntrusiveList

structure Node (ν τ : Type) where
  value : τ
  pNext : Option ν
  pPrev : Option ν
  deriving DecidableEq, Repr

structure Ends (ν : Type) where
  pHead : Option ν
  pTail : Option ν
  deriving DecidableEq, Repr

/-- All nodes and all list objects of one family. -/
structure Store (ι ν τ : Type) where
  node : ν → Node ν τ
  list : ι → Ends ν

variable {ι ν τ : Type}

namespace Store

section Nodes
variable [DecidableEq ν]

def setNext (s : Store ι ν τ) (a : ν) (v : Option ν) : Store ι ν τ :=
  {s with node := Function.update s.node a {s.node a with pNext := v}}

def setPrev (s : Store ι ν τ) (a : ν) (v : Option ν) : Store ι ν τ :=
  {s with node := Function.update s.node a {s.node a with pPrev := v}}

@[simp] theorem setNext_list (s : Store ι ν τ) (a : ν) (v : Option ν) :
    (s.setNext a v).list = s.list := rfl

@[simp] theorem setPrev_list (s : Store ι ν τ) (a : ν) (v : Option ν) :
    (s.setPrev a v).list = s.list := rfl

theorem setNext_pNext (s : Store ι ν τ) (a b : ν) (v : Option ν) :
    ((s.setNext a v).node b).pNext = if b = a then v else (s.node b).pNext := by
  by_cases h : b = a <;> simp [setNext,h]

@[simp] theorem setNext_pPrev (s : Store ι ν τ) (a b : ν) (v : Option ν) :
    ((s.setNext a v).node b).pPrev = (s.node b).pPrev := by
  by_cases h : b = a <;> simp [setNext,h]

@[simp] theorem setNext_value (s : Store ι ν τ) (a b : ν) (v : Option ν) :
    ((s.setNext a v).node b).value = (s.node b).value := by
  by_cases h : b = a <;> simp [setNext,h]

theorem setPrev_pPrev (s : Store ι ν τ) (a b : ν) (v : Option ν) :
    ((s.setPrev a v).node b).pPrev = if b = a then v else (s.node b).pPrev := by
  by_cases h : b = a <;> simp [setPrev,h]

@[simp] theorem setPrev_pNext (s : Store ι ν τ) (a b : ν) (v : Option ν) :
    ((s.setPrev a v).node b).pNext = (s.node b).pNext := by
  by_cases h : b = a <;> simp [setPrev,h]

@[simp] theorem setPrev_value (s : Store ι ν τ) (a b : ν) (v : Option ν) :
    ((s.setPrev a v).node b).value = (s.node b).value := by
  by_cases h : b = a <;> simp [setPrev,h]

end Nodes

section Lists
variable [DecidableEq ι]

def setList (s : Store ι ν τ) (l : ι) (e : Ends ν) : Store ι ν τ :=
  {s with list := Function.update s.list l e}

@[simp] theorem setList_node (s : Store ι ν τ) (l : ι) (e : Ends ν) :
    (s.setList l e).node = s.node := rfl

@[simp] theorem setList_self (s : Store ι ν τ) (l : ι) (e : Ends ν) :
    (s.setList l e).list l = e := by simp [setList]

@[simp] theorem setList_other (s : Store ι ν τ) {l m : ι} (e : Ends ν) (h : m ≠ l) :
    (s.setList l e).list m = s.list m := by simp [setList,h]

end Lists

def begin (s : Store ι ν τ) (l : ι) : Option ν := (s.list l).pHead

def getNext (s : Store ι ν τ) (a : ν) : Option ν := (s.node a).pNext

def empty (s : Store ι ν τ) (l : ι) : Bool := (s.list l).pHead.isNone

/-- The null result of the source is `none`. -/
def front (s : Store ι ν τ) (l : ι) : Option τ :=
  (s.list l).pHead.map fun a => (s.node a).value

/-- The counting loop of `size`; `none` means that the fuel ran out. -/
def sizeLoop (s : Store ι ν τ) : ℕ → Option ν → ℕ → Option ℕ
  | _,none,i => some i
  | 0,some _,_ => none
  | fuel+1,some a,i => sizeLoop s fuel (s.node a).pNext (i+1)

def size (s : Store ι ν τ) (fuel : ℕ) (l : ι) : Option ℕ :=
  s.sizeLoop fuel (s.list l).pHead 0

/-- `while (pos--)` tests the old value, so a negative position only ends at
the null link. The outer `none` means that the fuel ran out. -/
def getNodeLoop (s : Store ι ν τ) : ℕ → ℤ → Option ν → Option (Option ν)
  | fuel,pos,p =>
      if pos = 0 then some p else
        match fuel,p with
        | _,none => some none
        | 0,some _ => none
        | fuel+1,some a => getNodeLoop s fuel (pos-1) (s.node a).pNext

def getNode (s : Store ι ν τ) (fuel : ℕ) (l : ι) (pos : ℤ) : Option (Option ν) :=
  s.getNodeLoop fuel pos (s.list l).pHead

/-- The walk `begin(), getNext(), ...` up to the null link. -/
def walk (s : Store ι ν τ) : ℕ → Option ν → Option (List ν)
  | _,none => some []
  | 0,some _ => none
  | fuel+1,some a => (walk s fuel (s.getNext a)).map (a :: ·)

section Updates
variable [DecidableEq ι] [DecidableEq ν]

def pushBack (s : Store ι ν τ) (l : ι) (p : ν) : Option (Store ι ν τ) :=
  if (s.list l).pHead = none then
    some (s.setList l ⟨some p,some p⟩)
  else if (s.list l).pTail = some p then
    some s
  else
    (s.list l).pTail.map fun t =>
      (((s.setNext t (some p)).setPrev p (some t)).setNext p none).setList l
        {s.list l with pTail := some p}

def erase (s : Store ι ν τ) (l : ι) (p : ν) : Option (Store ι ν τ) :=
  if (s.list l).pHead = some p then
    let s' := s.setList l {s.list l with pHead := (s.node p).pNext}
    match (s.node p).pNext with
    | none => some s'
    | some b => some (s'.setPrev b none)
  else if (s.list l).pTail = some p then
    (s.node p).pPrev.map fun t =>
      (s.setList l {s.list l with pTail := some t}).setNext t none
  else do
    let b ← (s.node p).pNext
    let s' := s.setPrev b (s.node p).pPrev
    let a ← (s'.node p).pPrev
    some (s'.setNext a (s'.node p).pNext)

end Updates

end Store

/-- The two link fields agree between neighbours. -/
def Linked (s : Store ι ν τ) (a b : ν) : Prop :=
  (s.node a).pNext = some b ∧ (s.node b).pPrev = some a

/-- The list object `l` stands for the sequence `xs`. -/
structure Chained (s : Store ι ν τ) (l : ι) (xs : List ν) : Prop where
  head : (s.list l).pHead = xs.head?
  tail : xs ≠ [] → (s.list l).pTail = xs.getLast?
  links : xs.IsChain (Linked s)
  last : ∀ a ∈ xs.getLast?, (s.node a).pNext = none

/-- The whole family stands for the sequences `f`, without sharing nodes. -/
structure Represents (s : Store ι ν τ) (f : ι → List ν) : Prop where
  chained : ∀ l, Chained s l (f l)
  nodup : ∀ l, (f l).Nodup
  disjoint : ∀ l m, l ≠ m → (f l).Disjoint (f m)

/-- A list is untouched by writes to nodes it does not hold. -/
theorem Chained.frame {s s' : Store ι ν τ} {l : ι} {xs : List ν} (h : Chained s l xs)
    (hl : s'.list l = s.list l) (hn : ∀ a ∈ xs, s'.node a = s.node a) : Chained s' l xs := by
  refine ⟨hl ▸ h.head,fun hx => hl ▸ h.tail hx,?_,?_⟩
  · refine h.links.imp_of_mem_imp fun a b ha hb hab => ?_
    simpa only [Linked,hn a ha,hn b hb] using hab
  · intro a ha
    rw [hn a (List.mem_of_getLast? ha)]
    exact h.last a ha

section Observers
variable {s : Store ι ν τ}

/-- Following `_pNext` from the head of `xs` visits `xs` and then null. -/
def Path (s : Store ι ν τ) : List ν → Prop
  | [] => True
  | a::xs => (s.node a).pNext = xs.head? ∧ Path s xs

theorem Chained.path {l : ι} {xs : List ν} (h : Chained s l xs) : Path s xs := by
  have key : ∀ ys : List ν, ys.IsChain (Linked s) →
      (∀ a ∈ ys.getLast?, (s.node a).pNext = none) → Path s ys := by
    intro ys
    induction ys with
    | nil => exact fun _ _ => trivial
    | cons a ys ih =>
        intro hc hl
        cases ys with
        | nil => exact ⟨hl a (by simp),trivial⟩
        | cons b ys =>
            rw [List.isChain_cons_cons] at hc
            exact ⟨hc.1.1,ih hc.2 (by simpa using hl)⟩
  exact key xs h.links h.last

theorem Path.walk {xs : List ν} (h : Path s xs) {fuel : ℕ} (hf : xs.length ≤ fuel) :
    s.walk fuel xs.head? = some xs := by
  induction xs generalizing fuel with
  | nil => cases fuel <;> rfl
  | cons a xs ih =>
      obtain ⟨fuel,rfl⟩ : ∃ k, fuel = k+1 := ⟨fuel-1,by simp at hf; omega⟩
      simp only [List.head?_cons,Store.walk,Store.getNext,h.1]
      rw [ih h.2 (by simpa using hf)]
      rfl

theorem Path.sizeLoop {xs : List ν} (h : Path s xs) {fuel : ℕ} (hf : xs.length ≤ fuel) (i : ℕ) :
    s.sizeLoop fuel xs.head? i = some (i+xs.length) := by
  induction xs generalizing fuel i with
  | nil => cases fuel <;> rfl
  | cons a xs ih =>
      obtain ⟨fuel,rfl⟩ : ∃ k, fuel = k+1 := ⟨fuel-1,by simp at hf; omega⟩
      simp only [List.head?_cons,Store.sizeLoop,h.1]
      rw [ih h.2 (by simpa using hf)]
      simp only [List.length_cons,Option.some.injEq]
      omega

/-- The element at an index, null outside the list; negative indices run off
the end. -/
def nth (xs : List ν) (pos : ℤ) : Option ν := if pos < 0 then none else xs[pos.toNat]?

theorem Path.getNodeLoop {xs : List ν} (h : Path s xs) {fuel : ℕ} (hf : xs.length ≤ fuel)
    (pos : ℤ) : s.getNodeLoop fuel pos xs.head? = some (nth xs pos) := by
  induction xs generalizing fuel pos with
  | nil =>
      unfold Store.getNodeLoop
      split_ifs with hp
      · simp [nth,hp]
      · cases fuel <;> simp [nth]
  | cons a xs ih =>
      obtain ⟨fuel,rfl⟩ : ∃ k, fuel = k+1 := ⟨fuel-1,by simp at hf; omega⟩
      unfold Store.getNodeLoop
      split_ifs with hp
      · simp [nth,hp]
      · simp only [List.head?_cons,h.1]
        rw [ih h.2 (by simpa using hf)]
        rcases lt_trichotomy pos 0 with hlt | heq | hgt
        · simp only [nth,hlt,ite_true,show pos-1 < 0 by omega]
        · exact (hp heq).elim
        · obtain ⟨k,rfl⟩ : ∃ k : ℕ, pos = k+1 := ⟨(pos-1).toNat,by omega⟩
          have hk : ¬ ((k : ℤ)+1 < 0) := by omega
          have hk' : ¬ ((k : ℤ) < 0) := by omega
          have ht : ((k : ℤ)+1).toNat = k+1 := by omega
          simp [nth,hk,hk',ht]

end Observers

end CosKernel.IntrusiveList

import Mathlib

/-!
# Bags ordered by a key

A bag keeps its items in the order of integer keys; items with equal keys stay in
the order in which they came. The key of an item may change while the item is not
in the bag.
-/
namespace CosKernel

structure OrderedBag (α : Type) where
  key : α → ℤ
  items : List α

namespace OrderedBag

variable {α : Type}

/-- Behind all items whose key is not greater. -/
def place (key : α → ℤ) (a : α) : List α → List α
  | [] => [a]
  | b::bs => if key a < key b then a::b::bs else b::place key a bs

def insert (s : OrderedBag α) (a : α) : OrderedBag α := {s with items := place s.key a s.items}

def remove [DecidableEq α] (s : OrderedBag α) (a : α) : OrderedBag α :=
  {s with items := s.items.erase a}

def setKey [DecidableEq α] (s : OrderedBag α) (a : α) (k : ℤ) : OrderedBag α :=
  {s with key := Function.update s.key a k}

def Sorted (s : OrderedBag α) : Prop := s.items.Pairwise fun a b => s.key a ≤ s.key b

variable {key : α → ℤ} {a b : α} {xs : List α} {s : OrderedBag α}

@[simp] theorem insert_key : (s.insert a).key = s.key := rfl

@[simp] theorem setKey_items [DecidableEq α] {k : ℤ} : (s.setKey a k).items = s.items := rfl

theorem place_split (key : α → ℤ) (a : α) (xs : List α) :
    ∃ l r, xs = l++r ∧ place key a xs = l++a::r ∧ (∀ b ∈ l, key b ≤ key a) ∧
      ∀ b ∈ r.head?, key a < key b := by
  induction xs with
  | nil => exact ⟨[],[],rfl,rfl,by simp,by simp⟩
  | cons b bs ih =>
      by_cases hab : key a < key b
      · exact ⟨[],b::bs,rfl,by simp [place,hab],by simp,by simpa using hab⟩
      · obtain ⟨l,r,rfl,hp,hl,hr⟩ := ih
        refine ⟨b::l,r,rfl,by simp [place,hab,hp],?_,hr⟩
        simpa using ⟨not_lt.mp hab,hl⟩

theorem place_append {l r : List α} (hl : ∀ b ∈ l, key b ≤ key a)
    (hr : ∀ b ∈ r, key a < key b) : place key a (l++r) = l++a::r := by
  induction l with
  | nil =>
      cases r with
      | nil => rfl
      | cons b r => simp [place,hr b (List.mem_cons_self ..)]
  | cons b l ih =>
      have hle := hl b (List.mem_cons_self ..)
      simp [place,not_lt.mpr hle,ih fun c hc => hl c (List.mem_cons_of_mem b hc)]

/-- In a sorted list everything behind the new item has a greater key. -/
theorem place_sorted (hs : xs.Pairwise fun a b => key a ≤ key b) :
    ∃ l r, xs = l++r ∧ place key a xs = l++a::r ∧ (∀ b ∈ l, key b ≤ key a) ∧
      ∀ b ∈ r, key a < key b := by
  obtain ⟨l,r,rfl,hp,hl,hr⟩ := place_split key a xs
  refine ⟨l,r,rfl,hp,hl,fun b hb => ?_⟩
  cases r with
  | nil => simp at hb
  | cons c cs =>
      have hc : key a < key c := hr c (by simp)
      rcases List.mem_cons.mp hb with rfl | hb
      · exact hc
      · have hcs := (List.pairwise_append.mp hs).2.1
        exact hc.trans_le ((List.pairwise_cons.mp hcs).1 b hb)

@[simp] theorem mem_place : b ∈ place key a xs ↔ b = a ∨ b ∈ xs := by
  obtain ⟨l,r,rfl,hp,-⟩ := place_split key a xs
  rw [hp]
  simp only [List.mem_append,List.mem_cons]
  tauto

theorem place_perm : (place key a xs).Perm (a::xs) := by
  obtain ⟨l,r,rfl,hp,-⟩ := place_split key a xs
  rw [hp]
  exact List.perm_middle

theorem Sorted.insert (hs : s.Sorted) (a : α) : (s.insert a).Sorted := by
  obtain ⟨l,r,hxs,hp,hl,hr⟩ := place_sorted (a := a) hs
  unfold Sorted at hs ⊢
  simp only [OrderedBag.insert]
  rw [hp,List.pairwise_append]
  rw [hxs,List.pairwise_append] at hs
  refine ⟨hs.1,List.pairwise_cons.mpr ⟨fun b hb => (hr b hb).le,hs.2.1⟩,fun b hb c hc => ?_⟩
  rcases List.mem_cons.mp hc with rfl | hc
  · exact hl b hb
  · exact hs.2.2 b hb c hc

theorem Sorted.remove [DecidableEq α] (hs : s.Sorted) (a : α) : (s.remove a).Sorted :=
  List.Pairwise.sublist List.erase_sublist hs

theorem Sorted.setKey [DecidableEq α] (hs : s.Sorted) (ha : a ∉ s.items) (k : ℤ) :
    (s.setKey a k).Sorted := by
  refine List.Pairwise.imp_of_mem (fun {b c} hb hc h => ?_) hs
  have hba : b ≠ a := fun e => ha (e ▸ hb)
  have hca : c ≠ a := fun e => ha (e ▸ hc)
  simpa [OrderedBag.setKey,hba,hca] using h

end OrderedBag

end CosKernel

import Mathlib

/-!
# Byte memory and the words on a stack

Addresses have 32 bits and wrap around. A double word is stored with its lowest
byte first, and it may start at any address. `Words m a ws` lists the double
words from an address on; pushing one on a stack that grows downwards puts it
before the list.
-/
namespace CosKernel.ByteMemory

abbrev Dword := BitVec 32

abbrev Memory := Dword → BitVec 8

/-- The `n` bytes from `a` on. -/
def span (a : Dword) (n : ℕ) : Set Dword := {x | (x-a).toNat < n}

def load (m : Memory) (a : Dword) : Dword := m (a+3)++m (a+2)++m (a+1)++m a

def store (m : Memory) (a v : Dword) : Memory := fun x =>
  if (x-a).toNat < 4 then v.extractLsb' (8*(x-a).toNat) 8 else m x

variable {m m' : Memory} {a b v x : Dword} {n k : ℕ} {ws : List Dword}

theorem mem_span : x ∈ span a n ↔ (x-a).toNat < n := Iff.rfl

theorem span_mono (h : n ≤ k) : span a n ⊆ span a k := fun _ hx => lt_of_lt_of_le hx h

theorem span_subset (h : (a-b).toNat+n ≤ k) : span a n ⊆ span b k := by
  intro x hx
  rw [mem_span] at *
  bv_omega

theorem span_disjoint (hab : n ≤ (b-a).toNat) (hba : k ≤ (a-b).toNat) :
    Disjoint (span a n) (span b k) := by
  rw [Set.disjoint_left]
  intro x hx hx'
  rw [mem_span] at *
  bv_omega

theorem load_congr (h : Set.EqOn m m' (span a 4)) : load m a = load m' a := by
  have hbyte : ∀ i : Dword, i.toNat < 4 → m (a+i) = m' (a+i) := by
    intro i hi
    apply h
    rw [mem_span]
    simpa using hi
  have h0 : m a = m' a := by simpa using hbyte 0 (by decide)
  simp only [load,hbyte 3 (by decide),hbyte 2 (by decide),hbyte 1 (by decide),h0]

theorem load_store (m : Memory) (a v : Dword) : load (store m a v) a = v := by
  have hbyte : ∀ i : Dword, i.toNat < 4 →
      store m a v (a+i) = v.extractLsb' (8*i.toNat) 8 := by
    intro i hi
    simp [store,hi]
  have h0 : store m a v a = v.extractLsb' 0 8 := by simpa using hbyte 0 (by decide)
  simp only [load,hbyte 3 (by decide),hbyte 2 (by decide),hbyte 1 (by decide),h0]
  change v.extractLsb' 24 8++v.extractLsb' 16 8++v.extractLsb' 8 8++v.extractLsb' 0 8 = v
  rw [BitVec.extractLsb'_append_extractLsb'_eq_extractLsb' (by rfl),
    BitVec.extractLsb'_append_extractLsb'_eq_extractLsb' (by rfl),
    BitVec.extractLsb'_append_extractLsb'_eq_extractLsb' (by rfl)]
  exact BitVec.extractLsb'_eq_self

theorem store_eqOn {s : Set Dword} (h : Disjoint s (span a 4)) :
    Set.EqOn (store m a v) m s := by
  intro x hx
  have hout : ¬ (x-a).toNat < 4 := Set.disjoint_left.mp h hx
  exact if_neg hout

theorem load_store_of_disjoint (h : Disjoint (span b 4) (span a 4)) :
    load (store m a v) b = load m b := load_congr (store_eqOn h)

/-- The double words from `a` on. -/
def Words (m : Memory) (a : Dword) : List Dword → Prop
  | [] => True
  | w::ws => load m a = w ∧ Words m (a+4) ws

theorem Words.congr (hn : 4*ws.length ≤ 2^32) (h : Set.EqOn m m' (span a (4*ws.length)))
    (hw : Words m a ws) : Words m' a ws := by
  induction ws generalizing a with
  | nil => trivial
  | cons w ws ih =>
      simp only [List.length_cons] at hn h
      have hfirst : Set.EqOn m m' (span a 4) := h.mono (span_mono (by omega))
      have hrest : Set.EqOn m m' (span (a+4) (4*ws.length)) := by
        apply h.mono
        apply span_subset
        bv_omega
      exact ⟨(load_congr hfirst).symm.trans hw.1,ih (by omega) hrest hw.2⟩

/-- A push keeps the words that are on the stack. -/
theorem Words.push (hn : 4*ws.length+4 ≤ 2^32) (hw : Words m a ws) (v : Dword) :
    Words (store m (a-4) v) (a-4) (v::ws) := by
  refine ⟨load_store m (a-4) v,?_⟩
  rw [BitVec.sub_add_cancel]
  apply hw.congr (by omega)
  apply Set.EqOn.symm
  apply store_eqOn
  apply span_disjoint <;> bv_omega

theorem words_append {us : List Dword} :
    Words m a (ws++us) ↔ Words m a ws ∧ Words m (a+BitVec.ofNat 32 (4*ws.length)) us := by
  induction ws generalizing a with
  | nil => simp [Words]
  | cons w ws ih =>
      have hadd : a+4+BitVec.ofNat 32 (4*ws.length) = a+BitVec.ofNat 32 (4*(ws.length+1)) := by
        bv_omega
      simp only [List.cons_append,Words,ih,List.length_cons,hadd,and_assoc]

/-- The words are pushed one after the other, the last one is on top. -/
def pushes (m : Memory) (a : Dword) (vs : List Dword) : Memory × Dword :=
  vs.foldl (fun s v => (store s.1 (s.2-4) v,s.2-4)) (m,a)

theorem pushes_cons (m : Memory) (a v : Dword) (vs : List Dword) :
    pushes m a (v::vs) = pushes (store m (a-4) v) (a-4) vs := rfl

theorem pushes_address (m : Memory) (a : Dword) (vs : List Dword) :
    (pushes m a vs).2 = a-BitVec.ofNat 32 (4*vs.length) := by
  induction vs generalizing m a with
  | nil => simp [pushes]
  | cons v vs ih =>
      rw [pushes_cons,ih,List.length_cons]
      bv_omega

theorem Words.pushes (vs : List Dword) (hn : 4*(vs.length+ws.length) ≤ 2^32) (h : Words m a ws) :
    Words (pushes m a vs).1 (pushes m a vs).2 (vs.reverse++ws) := by
  induction vs generalizing m a ws with
  | nil => exact h
  | cons v vs ih =>
      simp only [List.length_cons] at hn
      have hpush : Words (store m (a-4) v) (a-4) (v::ws) := h.push (by omega) v
      have hrest := ih (by simp only [List.length_cons]; omega) hpush
      simpa [pushes_cons] using hrest

/-- Pushes write only below the stack pointer. -/
theorem pushes_eqOn (m : Memory) (a : Dword) (vs : List Dword) (hn : 4*vs.length ≤ 2^32) :
    Set.EqOn (ByteMemory.pushes m a vs).1 m
      (span (a-BitVec.ofNat 32 (4*vs.length)) (4*vs.length))ᶜ := by
  induction vs generalizing m a with
  | nil => exact Set.eqOn_refl _ _
  | cons v vs ih =>
      simp only [List.length_cons] at hn ⊢
      intro x hx
      have hx' : ¬ (x-(a-BitVec.ofNat 32 (4*(vs.length+1)))).toNat < 4*(vs.length+1) := hx
      have hrest : x ∉ span (a-4-BitVec.ofNat 32 (4*vs.length)) (4*vs.length) := by
        rw [mem_span]
        bv_omega
      have hfirst : x ∉ span (a-4) 4 := by
        rw [mem_span]
        bv_omega
      rw [pushes_cons,ih (store m (a-4) v) (a-4) (by omega) hrest]
      exact if_neg hfirst

end CosKernel.ByteMemory

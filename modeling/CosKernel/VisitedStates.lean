import CosKernel.LockedPrograms

/-!
# The states that a program visits

A program that runs alone passes through a state after each of its atomic steps. A quantity of
the state may be the same in all of them (`Steady`), or it may change in one step only (`Once`),
and then it has no other values than those before and after the program.
-/
namespace CosKernel.LockedPrograms.Program

variable {S L A B C : Type}

/-- The states after each atomic step of the program alone. -/
def visited : Program S L A → S → List S
  | done _,_ => []
  | take next,s => visited next s
  | release _ next,s => visited next s
  | access f next,s =>
      match f s with
      | none => []
      | some r => r.2::visited (next r.1) r.2

theorem visited_bind {p : Program S L A} {g : A → Program S L B} {s s' : S} {a : A}
    (hrun : run p s = some (a,s')) : visited (p >>= g) s = visited p s++visited (g a) s' := by
  change visited (p.bind g) s = _
  induction p generalizing s with
  | done b =>
      cases hrun
      rfl
  | take next ih => exact ih hrun
  | release site next ih => exact ih hrun
  | access f next ih =>
      simp only [run] at hrun
      simp only [bind,visited]
      obtain ⟨r,hf,hrun⟩ := Option.bind_eq_some_iff.mp hrun
      simp only [hf,List.cons_append]
      rw [ih r.1 hrun]

/-- The program ends in the last state that it visits. -/
theorem eq_or_mem_visited {p : Program S L A} {s s' : S} {a : A} (hrun : run p s = some (a,s')) :
    s' = s ∨ s' ∈ visited p s := by
  induction p generalizing s with
  | done b =>
      cases hrun
      exact Or.inl rfl
  | take next ih => exact ih hrun
  | release site next ih => exact ih hrun
  | access f next ih =>
      simp only [run] at hrun
      obtain ⟨r,hf,hrun⟩ := Option.bind_eq_some_iff.mp hrun
      simp only [visited,hf,List.mem_cons]
      exact Or.inr (ih r.1 hrun)

variable (m : S → C)

/-- No step changes `m`. -/
def Steady : Program S L A → Prop
  | done _ => True
  | take next => Steady next
  | release _ next => Steady next
  | access f next => ∀ s b s', f s = some (b,s') → m s' = m s ∧ Steady (next b)

/-- At most one step changes `m`. -/
def Once : Program S L A → Prop
  | done _ => True
  | take next => Once next
  | release _ next => Once next
  | access f next => ∀ s b s', f s = some (b,s') →
      m s' = m s ∧ Once (next b) ∨ Steady m (next b)

variable {m}

theorem Steady.once {p : Program S L A} (h : Steady m p) : Once m p := by
  induction p with
  | done a => trivial
  | take next ih => exact ih h
  | release site next ih => exact ih h
  | access f next ih =>
      intro s b s' hf
      exact Or.inr (h s b s' hf).2

theorem Steady.bind {p : Program S L A} {g : A → Program S L B} (h : Steady m p)
    (hg : ∀ a, Steady m (g a)) : Steady m (p >>= g) := by
  change Steady m (p.bind g)
  induction p with
  | done a => exact hg a
  | take next ih => exact ih h
  | release site next ih => exact ih h
  | access f next ih =>
      intro s b s' hf
      obtain ⟨hm,hnext⟩ := h s b s' hf
      exact ⟨hm,ih b hnext⟩

theorem Once.bind {p : Program S L A} {g : A → Program S L B} (h : Once m p)
    (hg : ∀ a, Steady m (g a)) : Once m (p >>= g) := by
  change Once m (p.bind g)
  induction p with
  | done a => exact (hg a).once
  | take next ih => exact ih h
  | release site next ih => exact ih h
  | access f next ih =>
      intro s b s' hf
      rcases h s b s' hf with ⟨hm,hnext⟩ | hnext
      · exact Or.inl ⟨hm,ih b hnext⟩
      · exact Or.inr (hnext.bind hg)

theorem Steady.bind_once {p : Program S L A} {g : A → Program S L B} (h : Steady m p)
    (hg : ∀ a, Once m (g a)) : Once m (p >>= g) := by
  change Once m (p.bind g)
  induction p with
  | done a => exact hg a
  | take next ih => exact ih h
  | release site next ih => exact ih h
  | access f next ih =>
      intro s b s' hf
      obtain ⟨hm,hnext⟩ := h s b s' hf
      exact Or.inl ⟨hm,ih b hnext⟩

theorem steady_pure (a : A) : Steady m (pure a : Program S L A) := trivial

theorem steady_act {f : S → Option (B × S)} (h : ∀ s b s', f s = some (b,s') → m s' = m s) :
    Steady m (act f : Program S L B) := fun s b s' hf => ⟨h s b s' hf,trivial⟩

theorem steady_get (g : S → B) : Steady m (get g : Program S L B) :=
  steady_act fun s b s' hf => by
    cases hf
    rfl

theorem steady_modify {g : S → S} (h : ∀ s, m (g s) = m s) :
    Steady m (modify g : Program S L Unit) :=
  steady_act fun s b s' hf => by
    cases hf
    exact h s

theorem once_act (f : S → Option (B × S)) : Once m (act f : Program S L B) :=
  fun _ _ _ _ => Or.inr trivial

/-- A step after which `m` is as before or the program is steady. -/
theorem once_act_bind {f : S → Option (B × S)} {g : B → Program S L A}
    (h : ∀ s b s', f s = some (b,s') → m s' = m s ∧ Once m (g b) ∨ Steady m (g b)) :
    Once m (act f >>= g) := h

theorem Steady.visited {p : Program S L A} (h : Steady m p) {s t : S} (ht : t ∈ visited p s) :
    m t = m s := by
  induction p generalizing s with
  | done a => cases ht
  | take next ih => exact ih h ht
  | release site next ih => exact ih h ht
  | access f next ih =>
      simp only [Program.visited] at ht
      cases hf : f s with
      | none =>
          rw [hf] at ht
          cases ht
      | some r =>
          simp only [hf,List.mem_cons] at ht
          obtain ⟨hm,hnext⟩ := h s r.1 r.2 hf
          rcases ht with rfl | ht
          · exact hm
          · exact (ih r.1 hnext ht).trans hm

theorem Steady.run {p : Program S L A} (h : Steady m p) {s s' : S} {a : A}
    (hrun : Program.run p s = some (a,s')) : m s' = m s := by
  rcases eq_or_mem_visited hrun with rfl | hmem
  · rfl
  · exact h.visited hmem

/-- The values of `m` are those before and after the program. -/
theorem Once.visited {p : Program S L A} (h : Once m p) {s s' t : S} {a : A}
    (hrun : Program.run p s = some (a,s')) (ht : t ∈ visited p s) : m t = m s ∨ m t = m s' := by
  induction p generalizing s with
  | done a => cases ht
  | take next ih => exact ih h hrun ht
  | release site next ih => exact ih h hrun ht
  | access f next ih =>
      simp only [Program.run] at hrun
      obtain ⟨r,hf,hrun⟩ := Option.bind_eq_some_iff.mp hrun
      simp only [Program.visited,hf,List.mem_cons] at ht
      rcases h s r.1 r.2 hf with ⟨hm,hnext⟩ | hnext
      · rcases ht with rfl | ht
        · exact Or.inl hm
        · rw [← hm]
          exact ih r.1 hnext hrun ht
      · right
        rcases ht with rfl | ht
        · exact (hnext.run hrun).symm
        · exact (hnext.visited ht).trans (hnext.run hrun).symm

end CosKernel.LockedPrograms.Program

import Mathlib.Logic.Basic

/-!
# Programs with a lock

A program works on a shared state of type `S` in atomic steps and takes and releases one
lock in between. Every release carries a label for its place in the program. A step of
the state that has no result is a fault, and the program stops there.

Programs run alone, where the lock does nothing, or together with others; for the latter
`Guarded` speaks about a program without its state, since others may change it between
any two steps.
-/
namespace CosKernel.LockedPrograms

inductive Program (S L A : Type) : Type 1 where
  | done (a : A)
  | take (next : Program S L A)
  | release (site : L) (next : Program S L A)
  | access {B : Type} (f : S → Option (B × S)) (next : B → Program S L A)

namespace Program

variable {S L A B C : Type}

def bind : Program S L A → (A → Program S L B) → Program S L B
  | done a,g => g a
  | take next,g => take (bind next g)
  | release site next,g => release site (bind next g)
  | access f next,g => access f fun b => bind (next b) g

instance : Monad (Program S L) where
  pure := done
  bind := bind

/-- One atomic step. -/
def act (f : S → Option (B × S)) : Program S L B := access f done

/-- One atomic step that only looks at the state. -/
def get (g : S → B) : Program S L B := act fun s => some (g s,s)

/-- One atomic step that only changes the state. -/
def modify (g : S → S) : Program S L Unit := act fun s => some ((),g s)

/-- The program alone. -/
def run : Program S L A → S → Option (A × S)
  | done a,s => some (a,s)
  | take next,s => run next s
  | release _ next,s => run next s
  | access f next,s => (f s).bind fun r => run (next r.1) r.2

@[simp] theorem run_pure (a : A) (s : S) : run (pure a : Program S L A) s = some (a,s) := rfl

@[simp] theorem run_act (f : S → Option (B × S)) (s : S) : run (act f : Program S L B) s = f s := by
  unfold act run
  cases f s <;> rfl

@[simp] theorem run_get (g : S → B) (s : S) :
    run (get g : Program S L B) s = some (g s,s) := run_act _ _

@[simp] theorem run_modify (g : S → S) (s : S) :
    run (modify g : Program S L Unit) s = some ((),g s) := run_act _ _

@[simp] theorem run_bind (p : Program S L A) (g : A → Program S L B) (s : S) :
    run (p >>= g) s = (run p s).bind fun r => run (g r.1) r.2 := by
  change run (p.bind g) s = _
  induction p generalizing s with
  | done a => rfl
  | take next ih => exact ih s
  | release site next ih => exact ih s
  | access f next ih =>
      simp only [bind,run,Option.bind_assoc]
      congr 1
      funext r
      exact ih r.1 r.2

/-- The program alone keeps to the lock: it takes the lock when it does not hold it and
releases it when it does. What holds at the end is `Q`. -/
def Obeys (Q : A → Bool → S → Prop) : Program S L A → Bool → S → Prop
  | done a,held,s => Q a held s
  | take next,held,s => held = false ∧ Obeys Q next true s
  | release _ next,held,s => held = true ∧ Obeys Q next false s
  | access f next,held,s => ∀ b s', f s = some (b,s') → Obeys Q (next b) held s'

theorem obeys_bind {Q : B → Bool → S → Prop} (p : Program S L A) (g : A → Program S L B)
    (held : Bool) (s : S) : Obeys Q (p >>= g) held s ↔
      Obeys (fun a held s => Obeys Q (g a) held s) p held s := by
  change Obeys Q (p.bind g) held s ↔ _
  induction p generalizing held s with
  | done a => rfl
  | take next ih =>
      simp only [bind,Obeys,ih]
  | release site next ih =>
      simp only [bind,Obeys,ih]
  | access f next ih =>
      simp only [bind,Obeys,ih]

/-- Whatever the state is at each step, the program keeps to the lock, except that it
executes the releases labelled `bad` without holding it. What holds at the end is `Q`. -/
def Guarded (bad : L → Prop) (Q : A → Bool → Prop) : Program S L A → Bool → Prop
  | done a,held => Q a held
  | take next,held => held = false ∧ Guarded bad Q next true
  | release site next,held =>
      bad site ∧ held = false ∨ ¬bad site ∧ held = true ∧ Guarded bad Q next false
  | access _ next,held => ∀ b, Guarded bad Q (next b) held

theorem guarded_bind {bad : L → Prop} {Q : B → Bool → Prop} (p : Program S L A)
    (g : A → Program S L B) (held : Bool) : Guarded bad Q (p >>= g) held ↔
      Guarded bad (fun a held => Guarded bad Q (g a) held) p held := by
  change Guarded bad Q (p.bind g) held ↔ _
  induction p generalizing held with
  | done a => rfl
  | take next ih =>
      simp only [bind,Guarded,ih]
  | release site next ih =>
      simp only [bind,Guarded,ih]
  | access f next ih =>
      simp only [bind,Guarded,ih]

section steps

variable {bad : L → Prop} {Q : B → Bool → Prop} {P : B → Bool → S → Prop} {held : Bool} {s : S}

@[simp] theorem guarded_pure {b : B} :
    Guarded bad Q (pure b : Program S L B) held ↔ Q b held := Iff.rfl

@[simp] theorem guarded_act {f : S → Option (B × S)} :
    Guarded bad Q (act f : Program S L B) held ↔ ∀ b, Q b held := Iff.rfl

@[simp] theorem guarded_get {g : S → B} :
    Guarded bad Q (get g : Program S L B) held ↔ ∀ b, Q b held := Iff.rfl

@[simp] theorem guarded_modify {Q : Unit → Bool → Prop} {g : S → S} :
    Guarded bad Q (modify g : Program S L Unit) held ↔ Q () held := by
  exact ⟨fun h => h (),fun h _ => h⟩

@[simp] theorem obeys_pure {b : B} :
    Obeys P (pure b : Program S L B) held s ↔ P b held s := Iff.rfl

@[simp] theorem obeys_act {f : S → Option (B × S)} :
    Obeys P (act f : Program S L B) held s ↔ ∀ b s', f s = some (b,s') → P b held s' := Iff.rfl

theorem obeys_act_some {f : S → Option (B × S)} {b : B} {s' : S} (h : f s = some (b,s')) :
    Obeys P (act f : Program S L B) held s ↔ P b held s' := by
  rw [obeys_act,h]
  exact ⟨fun H => H b s' rfl,fun H c u hs => by cases hs; exact H⟩

@[simp] theorem obeys_get {g : S → B} :
    Obeys P (get g : Program S L B) held s ↔ P (g s) held s := obeys_act_some rfl

@[simp] theorem obeys_modify {P : Unit → Bool → S → Prop} {g : S → S} :
    Obeys P (modify g : Program S L Unit) held s ↔ P () held (g s) := obeys_act_some rfl

end steps

/-- A program that always keeps to the lock does so alone, and its result is that of `run`. -/
theorem Guarded.obeys_iff {P : A → Bool → S → Prop} {p : Program S L A} {held final : Bool}
    (h : Guarded (fun _ => False) (fun _ held => held = final) p held) (s : S) :
    Obeys P p held s ↔ ∀ a s', run p s = some (a,s') → P a final s' := by
  induction p generalizing held s with
  | done a =>
      obtain rfl : held = final := h
      simp only [Obeys,run,Option.some.injEq,Prod.mk.injEq,and_imp]
      exact ⟨fun h _ _ ha hs => ha ▸ hs ▸ h,fun h => h a s rfl rfl⟩
  | take next ih =>
      obtain ⟨rfl,hnext⟩ := h
      simp only [Obeys,run,true_and]
      exact ih hnext s
  | release site next ih =>
      obtain ⟨hbad,-⟩ | ⟨-,rfl,hnext⟩ := h
      · exact hbad.elim
      · simp only [Obeys,run,true_and]
        exact ih hnext s
  | access f next ih =>
      simp only [Obeys,run,fun b s' => ih b (h b) s']
      constructor
      · intro H a s' hrun
        obtain ⟨⟨b,u⟩,hf,hrun⟩ := Option.bind_eq_some_iff.mp hrun
        exact H b u hf a s' hrun
      · intro H b u hf a s' hrun
        exact H a s' (by rw [hf]; exact hrun)

end Program

end CosKernel.LockedPrograms

import Mathlib

/-!
# Runs of a partial step function

A machine is a function from a state and an action to an optional next state;
`none` is a fault (a null dereference, a failed assertion, exhausted fuel). A
run is a list of actions. Two readings of "in every reached state" are kept
apart: `Always` also promises that no step faults, `Throughout` speaks only
about the states that are reached. `Follows` relates the states before and after
each step, and `LeadsTo` names the last state as well. `AllSteps` says that every
action of a run meets a condition in the state in which it is taken.
-/
namespace CosKernel.TransitionRuns

/-! The library's instance for the numerals of the small types in concrete runs, by name. -/

instance neZeroOne : NeZero 1 := Nat.instNeZeroSucc

instance neZeroTwo : NeZero 2 := Nat.instNeZeroSucc

instance neZeroThree : NeZero 3 := Nat.instNeZeroSucc

instance neZeroFour : NeZero 4 := Nat.instNeZeroSucc

instance neZeroFive : NeZero 5 := Nat.instNeZeroSucc

instance neZeroSix : NeZero 6 := Nat.instNeZeroSucc

variable {σ α : Type*} (step : σ → α → Option σ)

/-- Every action is taken in a state in which it meets `C`. -/
def AllSteps (C : σ → α → Prop) : σ → List α → Prop
  | _,[] => True
  | s,a::as => C s a ∧ ∀ s', step s a = some s' → AllSteps C s' as

/-- No step faults, and `P` holds at the start and after every step. -/
def Always (P : σ → Prop) : σ → List α → Prop
  | s,[] => P s
  | s,a::as => P s ∧ ∃ s', step s a = some s' ∧ Always P s' as

/-- `P` holds at the start and in every state that a later step reaches. -/
def Throughout (P : σ → Prop) : σ → List α → Prop
  | s,[] => P s
  | s,a::as => P s ∧ ∀ s', step s a = some s' → Throughout P s' as

/-- No step faults, and every step is one that `R` describes. -/
def Follows (R : σ → α → σ → Prop) : σ → List α → Prop
  | _,[] => True
  | s,a::as => ∃ s', step s a = some s' ∧ R s a s' ∧ Follows R s' as

/-- The same for a run that ends in the last argument. -/
def LeadsTo (R : σ → α → σ → Prop) : σ → List α → σ → Prop
  | s,[],u => u = s
  | s,a::as,u => ∃ s', step s a = some s' ∧ R s a s' ∧ LeadsTo R s' as u

instance AllSteps.decidable {C : σ → α → Prop} [∀ s a, Decidable (C s a)] :
    ∀ (s : σ) (as : List α), Decidable (AllSteps step C s as)
  | _,[] => .isTrue trivial
  | s,a::as =>
      match h : step s a with
      | none => decidable_of_iff (C s a) (by simp [AllSteps,h])
      | some s' =>
          have := AllSteps.decidable (C := C) s' as
          decidable_of_iff (C s a ∧ AllSteps step C s' as) (by simp [AllSteps,h])

instance Throughout.decidable {P : σ → Prop} [DecidablePred P] :
    ∀ (s : σ) (as : List α), Decidable (Throughout step P s as)
  | s,[] => inferInstanceAs (Decidable (P s))
  | s,a::as =>
      match h : step s a with
      | none => decidable_of_iff (P s) (by simp [Throughout,h])
      | some s' =>
          have := Throughout.decidable (P := P) s' as
          decidable_of_iff (P s ∧ Throughout step P s' as) (by simp [Throughout,h])

variable {step}
variable {C D G : σ → α → Prop} {I P : σ → Prop}

theorem AllSteps.mono (h : ∀ s a, C s a → G s a) {s : σ} {as : List α}
    (hs : AllSteps step C s as) : AllSteps step G s as := by
  induction as generalizing s with
  | nil => trivial
  | cons a as ih => exact ⟨h s a hs.1,fun s' hs' => ih (hs.2 s' hs')⟩

theorem allSteps_of_forall (h : ∀ s a, C s a) (s : σ) (as : List α) : AllSteps step C s as := by
  induction as generalizing s with
  | nil => trivial
  | cons a as ih => exact ⟨h s a,fun s' _ => ih s'⟩

theorem AllSteps.and {s : σ} {as : List α} (h : AllSteps step C s as)
    (k : AllSteps step G s as) : AllSteps step (fun s a => C s a ∧ G s a) s as := by
  induction as generalizing s with
  | nil => trivial
  | cons a as ih => exact ⟨⟨h.1,k.1⟩,fun s' hs' => ih (h.2 s' hs') (k.2 s' hs')⟩

/-- Conditions that agree wherever an invariant holds are met by the same runs. -/
theorem allSteps_congr (hiff : ∀ s a, I s → G s a → (C s a ↔ D s a))
    (hstep : ∀ s a s', I s → G s a → step s a = some s' → I s')
    {s : σ} {as : List α} (hs : I s) (hG : AllSteps step G s as) :
    AllSteps step C s as ↔ AllSteps step D s as := by
  induction as generalizing s with
  | nil => rfl
  | cons a as ih =>
      refine and_congr (hiff s a hs hG.1) (forall_congr' fun s' => ?_)
      exact imp_congr_right fun hs' => ih (hstep s a s' hs hG.1 hs') (hG.2 s' hs')

theorem allSteps_concat {s : σ} {as : List α} {a : α} :
    AllSteps step C s (as++[a]) ↔
      AllSteps step C s as ∧ ∀ s', as.foldlM step s = some s' → C s' a := by
  induction as generalizing s with
  | nil =>
      simp only [List.nil_append,AllSteps,List.foldlM_nil]
      constructor
      · exact fun h => ⟨trivial,fun s' hs' => Option.some.inj hs' ▸ h.1⟩
      · exact fun h => ⟨h.2 s rfl,fun _ _ => trivial⟩
  | cons b as ih =>
      simp only [List.cons_append,AllSteps,ih,List.foldlM_cons]
      constructor
      · rintro ⟨hb,h⟩
        refine ⟨⟨hb,fun s' hs' => (h s' hs').1⟩,fun u hu => ?_⟩
        obtain ⟨s',hs',hu⟩ := Option.bind_eq_some_iff.mp hu
        exact (h s' hs').2 u hu
      · rintro ⟨⟨hb,h⟩,hlast⟩
        refine ⟨hb,fun s' hs' => ⟨h s' hs',fun u hu => hlast u ?_⟩⟩
        exact Option.bind_eq_some_iff.mpr ⟨s',hs',hu⟩

theorem Always.last {s : σ} {as : List α} (h : Always step P s as) :
    ∃ s', as.foldlM step s = some s' ∧ P s' := by
  induction as generalizing s with
  | nil => exact ⟨s,rfl,h⟩
  | cons a as ih =>
      obtain ⟨-,s',hs',h⟩ := h
      obtain ⟨u,hu,hp⟩ := ih h
      exact ⟨u,by simpa [List.foldlM_cons,hs'] using hu,hp⟩

theorem Follows.last {R : σ → α → σ → Prop} {s : σ} {as : List α} (h : Follows step R s as) :
    ∃ s', as.foldlM step s = some s' := by
  induction as generalizing s with
  | nil => exact ⟨s,rfl⟩
  | cons a as ih =>
      obtain ⟨s',hs',-,h⟩ := h
      obtain ⟨u,hu⟩ := ih h
      exact ⟨u,by simpa [List.foldlM_cons,hs'] using hu⟩

/-- What every step of `R` says of the state and the action before it. -/
theorem Follows.allSteps {R : σ → α → σ → Prop}
    (hR : ∀ s a s', step s a = some s' → R s a s' → C s a) {s : σ} {as : List α}
    (h : Follows step R s as) : AllSteps step C s as := by
  induction as generalizing s with
  | nil => trivial
  | cons a as ih =>
      obtain ⟨s',hs',hr,h⟩ := h
      refine ⟨hR s a s' hs' hr,fun u hu => ?_⟩
      rw [← Option.some.inj (hs'.symm.trans hu)]
      exact ih h

theorem Throughout.head {s : σ} {as : List α} (h : Throughout step P s as) : P s := by
  cases as with
  | nil => exact h
  | cons a as => exact h.1

theorem Throughout.and {Q : σ → Prop} {s : σ} {as : List α} (h : Throughout step P s as)
    (k : Throughout step Q s as) : Throughout step (fun s => P s ∧ Q s) s as := by
  induction as generalizing s with
  | nil => exact ⟨h,k⟩
  | cons a as ih => exact ⟨⟨h.1,k.1⟩,fun s' hs' => ih (h.2 s' hs') (k.2 s' hs')⟩

theorem Throughout.allSteps {s : σ} {as : List α} (h : Throughout step P s as) :
    AllSteps step (fun s a => P s ∧ ∀ s', step s a = some s' → P s') s as := by
  induction as generalizing s with
  | nil => trivial
  | cons a as ih =>
      exact ⟨⟨h.1,fun s' hs' => (h.2 s' hs').head⟩,fun s' hs' => ih (h.2 s' hs')⟩

theorem Throughout.last {s s' : σ} {as : List α} (h : Throughout step P s as)
    (hs : as.foldlM step s = some s') : P s' := by
  induction as generalizing s with
  | nil => exact Option.some.inj hs ▸ h
  | cons a as ih =>
      rw [List.foldlM_cons] at hs
      obtain ⟨u,hu,hs⟩ := Option.bind_eq_some_iff.mp hs
      exact ih (h.2 u hu) hs

/-- An invariant that implies `P`, and that every permitted step keeps without
faulting, makes `P` hold along the whole run. -/
theorem always_of_invariant (hP : ∀ s, I s → P s)
    (hstep : ∀ s a, I s → C s a → ∃ s', step s a = some s' ∧ I s')
    {s : σ} {as : List α} (hs : I s) (h : AllSteps step C s as) : Always step P s as := by
  induction as generalizing s with
  | nil => exact hP s hs
  | cons a as ih =>
      obtain ⟨s',hs',hi⟩ := hstep s a hs h.1
      exact ⟨hP s hs,s',hs',ih hi (h.2 s' hs')⟩

theorem follows_of_invariant {R : σ → α → σ → Prop}
    (hstep : ∀ s a, I s → C s a → ∃ s', step s a = some s' ∧ R s a s' ∧ I s')
    {s : σ} {as : List α} (hs : I s) (h : AllSteps step C s as) : Follows step R s as := by
  induction as generalizing s with
  | nil => trivial
  | cons a as ih =>
      obtain ⟨s',hs',hr,hi⟩ := hstep s a hs h.1
      exact ⟨s',hs',hr,ih hi (h.2 s' hs')⟩

theorem leadsTo_of_invariant {R : σ → α → σ → Prop}
    (hstep : ∀ s a, I s → C s a → ∃ s', step s a = some s' ∧ R s a s' ∧ I s')
    {s : σ} {as : List α} (hs : I s) (h : AllSteps step C s as) :
    ∃ u, as.foldlM step s = some u ∧ LeadsTo step R s as u ∧ I u := by
  induction as generalizing s with
  | nil => exact ⟨s,rfl,rfl,hs⟩
  | cons a as ih =>
      obtain ⟨s',hs',hr,hi⟩ := hstep s a hs h.1
      obtain ⟨u,hu,hlead,hiu⟩ := ih hi (h.2 s' hs')
      exact ⟨u,by simpa [List.foldlM_cons,hs'] using hu,⟨s',hs',hr,hlead⟩,hiu⟩

theorem throughout_of_invariant (hP : ∀ s, I s → P s)
    (hstep : ∀ s a s', I s → C s a → step s a = some s' → I s')
    {s : σ} {as : List α} (hs : I s) (h : AllSteps step C s as) : Throughout step P s as := by
  induction as generalizing s with
  | nil => exact hP s hs
  | cons a as ih => exact ⟨hP s hs,fun s' hs' => ih (hstep s a s' hs h.1 hs') (h.2 s' hs')⟩

/-- The same for an invariant that every step keeps. -/
theorem throughout_of_step (hP : ∀ s, I s → P s)
    (hstep : ∀ s a s', I s → step s a = some s' → I s') {s : σ} (as : List α) (hs : I s) :
    Throughout step P s as := by
  induction as generalizing s with
  | nil => exact hP s hs
  | cons a as ih => exact ⟨hP s hs,fun s' hs' => ih (hstep s a s' hs hs')⟩

/-- When a step that misses `C` falsifies `P` at once, the condition is exact. -/
theorem always_iff (hP : ∀ s, I s → P s)
    (hgood : ∀ s a, I s → G s a → C s a → ∃ s', step s a = some s' ∧ I s')
    (hbad : ∀ s a s', I s → G s a → ¬ C s a → step s a = some s' → ¬ P s')
    {s : σ} {as : List α} (hs : I s) (hG : AllSteps step G s as) :
    Always step P s as ↔ AllSteps step C s as := by
  refine ⟨?_,fun h => always_of_invariant hP (fun s a hi hc => hgood s a hi hc.1 hc.2) hs
    (hG.and h)⟩
  induction as generalizing s with
  | nil => exact fun _ => trivial
  | cons a as ih =>
      rintro ⟨-,s',hs',h⟩
      have hp : P s' := by cases as with
        | nil => exact h
        | cons b bs => exact h.1
      have hc : C s a := by
        by_contra hc
        exact hbad s a s' hs hG.1 hc hs' hp
      obtain ⟨u,hu,hi⟩ := hgood s a hs hG.1 hc
      refine ⟨hc,fun v hv => ?_⟩
      have hsv : s' = v := Option.some.inj (hs'.symm.trans hv)
      have huv : u = v := Option.some.inj (hu.symm.trans hv)
      subst hsv huv
      exact ih hi (hG.2 _ hv) h

/-- The same for the states that are reached: a step that misses `C` may still
fault. -/
theorem throughout_iff (hP : ∀ s, I s → P s)
    (hgood : ∀ s a s', I s → G s a → C s a → step s a = some s' → I s')
    (hbad : ∀ s a s', I s → G s a → ¬ C s a → step s a = some s' → ¬ P s')
    {s : σ} {as : List α} (hs : I s) (hG : AllSteps step G s as) :
    Throughout step P s as ↔ AllSteps step (fun s a => C s a ∨ (step s a).isNone = true) s as := by
  have hkeep : ∀ s a s', I s → G s a ∧ (C s a ∨ (step s a).isNone = true) → step s a = some s' →
      I s' := by
    intro s a s' hi hc hs'
    refine hgood s a s' hi hc.1 (hc.2.resolve_right fun hn => ?_) hs'
    simp [hs'] at hn
  refine ⟨?_,fun h => throughout_of_invariant hP hkeep hs (hG.and h)⟩
  induction as generalizing s with
  | nil => exact fun _ => trivial
  | cons a as ih =>
      rintro ⟨-,h⟩
      have hc : C s a ∨ (step s a).isNone = true := by
        by_contra hc
        obtain ⟨hc,hn⟩ := not_or.mp hc
        obtain ⟨s',hs'⟩ := Option.ne_none_iff_exists'.mp (by simpa using hn)
        exact hbad s a s' hs hG.1 hc hs' (h s' hs').head
      exact ⟨hc,fun s' hs' => ih (hkeep s a s' hs ⟨hG.1,hc⟩ hs') (hG.2 s' hs') (h s' hs')⟩

/-- Two systems fault together or go on to related states. -/
theorem lockstep_run {τ : Type} {step' : τ → α → Option τ} {R : σ → τ → Prop}
    (h : ∀ s t a, R s t → step s a = none ∧ step' t a = none ∨
      ∃ s' t', step s a = some s' ∧ step' t a = some t' ∧ R s' t')
    {s : σ} {t : τ} (hst : R s t) (as : List α) :
    as.foldlM step s = none ∧ as.foldlM step' t = none ∨
      ∃ s' t', as.foldlM step s = some s' ∧ as.foldlM step' t = some t' ∧ R s' t' := by
  induction as generalizing s t with
  | nil => exact .inr ⟨s,t,rfl,rfl,hst⟩
  | cons a as ih =>
      simp only [List.foldlM_cons,Option.bind_eq_bind]
      obtain ⟨hs,ht⟩ | ⟨s',t',hs,ht,hst'⟩ := h s t a hst
      · rw [hs,ht]
        exact .inl ⟨rfl,rfl⟩
      · rw [hs,ht,Option.bind_some,Option.bind_some]
        exact ih hst'

end CosKernel.TransitionRuns

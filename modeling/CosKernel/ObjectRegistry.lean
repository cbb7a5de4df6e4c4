import CosKernel.IpcObjects
import CosKernel.TransitionRuns

/-!
# The object registry

Every kernel object is entered into a map of its class under its name, and
`find` looks the name up there. An entry is removed by name, whichever object
it holds, by every detachment and every destructor on the way. Interrupts are
disabled around each access to the maps, so the atomic actions are the
constructor, `detach` and the destructor of `Object`, and the methods of the
derived classes are sequences of these that other threads may interleave.

An address that holds an object is not given to another one before the object
is destroyed, and no destroyed object is used: an action that breaks this
faults, as does an access past the end of the array of maps.
-/
namespace CosKernel.ObjectRegistry
open TransitionRuns

def CONFIG_NAME_MAX : ℕ := 32

/-- A name that `strcpy` copies into `name_` together with its end mark. -/
structure Name where
  text : String
  short : text.utf8ByteSize < CONFIG_NAME_MAX
  deriving DecidableEq

/-- The maps are the entries of an array of `Object_Class_Unknown` elements. -/
inductive ObjectClass where
  | semaphore
  | mutex
  | event
  | mailBox
  | messageQueue
  | timer
  | device
  | thread
  | unknown
  deriving DecidableEq, Repr

structure Object where
  type : ObjectClass
  name : Name
  deriving DecidableEq

structure Registry (ω : Type) where
  container : ObjectClass → Name → Option ω
  object : ω → Option Object

/-- What a constructor that finds its name taken prints and leaves in `errno`. -/
structure Failure where
  message : String
  errno : ℤ
  deriving DecidableEq, Repr

/-- The sections with interrupts disabled, on the object at the address `o`. -/
inductive Action (ω : Type) where
  | construct (o : ω) (type : ObjectClass) (name : Name)
  | detach (o : ω)
  | destroy (o : ω)
  deriving DecidableEq

variable {ω : Type} [DecidableEq ω]

namespace Registry

def init : Registry ω := ⟨fun _ _ => none,fun _ => none⟩

def setEntry (s : Registry ω) (d : Object) (e : Option ω) : Registry ω :=
  {s with container := fun c n => if c = d.type ∧ n = d.name then e else s.container c n}

/-- `Object::Object`. -/
def construct (s : Registry ω) (o : ω) (type : ObjectClass) (name : Name) :
    Option (Registry ω × Option Failure) :=
  if type = .unknown ∨ s.object o ≠ none then none
  else
    let s' := {s with object := Function.update s.object o (some ⟨type,name⟩)}
    if s.container type name = none then some (s'.setEntry ⟨type,name⟩ (some o),none)
    else some (s',some ⟨"ERROR : Object name " ++ name.text ++ " is not unique!\n",-ERR_FULL⟩)

/-- `Object::detach`. -/
def detach (s : Registry ω) (o : ω) : Option (Registry ω) := do
  let d ← s.object o
  some (s.setEntry d none)

/-- `Object::~Object`, after which the memory is free for other objects. -/
def destroy (s : Registry ω) (o : ω) : Option (Registry ω) := do
  let s' ← s.detach o
  some {s' with object := Function.update s'.object o none}

/-- No value of the enumeration is above `Object_Class_Unknown`, so only the null pointer
fails the check of the parameters. -/
def find (s : Registry ω) (name : Option Name) (type : ObjectClass) : Option (Option ω) :=
  match name with
  | none => some none
  | some n => if type = .unknown then none else some (s.container type n)

def step (s : Registry ω) : Action ω → Option (Registry ω)
  | .construct o type name => (s.construct o type name).map Prod.fst
  | .detach o => s.detach o
  | .destroy o => s.destroy o

/-- `Device::find`. -/
def deviceFind (s : Registry ω) (name : Option Name) : Option (Option ω) := s.find name .device

/-- `Thread::find`, which looks among the devices. -/
def threadFind (s : Registry ω) (name : Option Name) : Option (Option ω) := s.find name .device

end Registry

open Registry

/-- The classes whose constructors and destructors touch one entry. -/
inductive Kind where
  | semaphore
  | mutex
  | event
  | mailBox
  | messageQueue
  | timer
  | device
  deriving DecidableEq, Repr

/-- Mail boxes are entered among the events. -/
def Kind.type : Kind → ObjectClass
  | .semaphore => .semaphore
  | .mutex => .mutex
  | .event => .event
  | .mailBox => .event
  | .messageQueue => .messageQueue
  | .timer => .timer
  | .device => .device

/-- A thread and the timer that its constructor makes. -/
structure ThreadObject (ω : Type) where
  self : ω
  threadTimer : ω

/-- The methods that reach the registry. -/
inductive Call (ω : Type) where
  | construct (k : Kind) (o : ω) (name : Name)
  | detach (o : ω)
  | destroy (k : Kind) (o : ω)
  | constructThread (t : ThreadObject ω) (name : Name)
  | detachThread (t : ThreadObject ω)
  | exit (t : ThreadObject ω)
  | destroyThread (t : ThreadObject ω)

def timerDetach (o : ω) : List (Action ω) := [.detach o]

/-- `Timer::~Timer`, which detaches before the destructor of the base does it again. -/
def timerDestroy (o : ω) : List (Action ω) := timerDetach o++[.destroy o]

/-- `Thread::detach`. The defunct list does not matter here. -/
def threadDetach (t : ThreadObject ω) : List (Action ω) :=
  timerDetach t.threadTimer++[.detach t.self]

/-- `Thread::~Thread` and the destructor of its base. -/
def threadDestroy (t : ThreadObject ω) : List (Action ω) :=
  threadDetach t++timerDestroy t.threadTimer++[.destroy t.self]

def Call.actions : Call ω → List (Action ω)
  | .construct k o name => [.construct o k.type name]
  | .detach o => [.detach o]
  | .destroy .timer o => timerDestroy o
  | .destroy _ o => [.destroy o]
  | .constructThread t name =>
      [.construct t.self .thread name,.construct t.threadTimer .timer name]
  | .detachThread t => threadDetach t
  | .exit t => threadDetach t
  | .destroyThread t => threadDestroy t

def run (as : List (Action ω)) : Option (Registry ω) := as.foldlM step init

/-- The object whose entry the action removes. -/
def Action.leaving : Action ω → Option ω
  | .construct .. => none
  | .detach o => some o
  | .destroy o => some o

/-- The object was entered under the name, and since then it has been neither detached nor
destroyed. -/
def Registered (as : List (Action ω)) (c : ObjectClass) (n : Name) (o : ω) : Prop :=
  ∃ as₁ as₂ s, as = as₁++.construct o c n::as₂ ∧ run as₁ = some s ∧ s.container c n = none ∧
    ∀ a ∈ as₂, a.leaving ≠ some o

/-- The lookup does not fault, and it finds what is registered. -/
def Answers (as : List (Action ω)) (c : ObjectClass) (n : Name) (r : Option (Option ω)) : Prop :=
  ∃ q, r = some q ∧ ∀ o, q = some o ↔ Registered as c n o

/-- No other object stands in the entry that the action erases. -/
def Harmless (s : Registry ω) (a : Action ω) : Prop :=
  ∀ o ∈ a.leaving, ∀ d ∈ s.object o, ∀ p ∈ s.container d.type d.name, p = o

instance (s : Registry ω) (a : Action ω) : Decidable (Harmless s a) := by
  unfold Harmless
  infer_instance

theorem construct_eq {s s' : Registry ω} {o : ω} {c : ObjectClass} {n : Name}
    (h : s.step (.construct o c n) = some s') :
    c ≠ .unknown ∧ s.object o = none ∧ s'.object = Function.update s.object o (some ⟨c,n⟩) ∧
      ∀ c' n', s'.container c' n' =
        if (c' = c ∧ n' = n) ∧ s.container c n = none then some o else s.container c' n' := by
  simp only [step,construct] at h
  split_ifs at h with hbad hfree
  · cases h
  · cases h
    rw [not_or,not_not] at hbad
    exact ⟨hbad.1,hbad.2,rfl,by simp [setEntry,hfree]⟩
  · cases h
    rw [not_or,not_not] at hbad
    exact ⟨hbad.1,hbad.2,rfl,by simp [hfree]⟩

omit [DecidableEq ω] in
theorem detach_eq {s s' : Registry ω} {o : ω} (h : s.detach o = some s') :
    ∃ d, s.object o = some d ∧ s' = s.setEntry d none := by
  obtain ⟨d,hd,h⟩ := Option.bind_eq_some_iff.mp h
  exact ⟨d,hd,(Option.some.inj h).symm⟩

/-- A detachment and a destruction erase the same entry. -/
theorem leaving_eq {s s' : Registry ω} {a : Action ω} {o : ω} (ha : a.leaving = some o)
    (h : s.step a = some s') :
    ∃ d, s.object o = some d ∧ s'.container = (s.setEntry d none).container ∧
      ∀ p, p ≠ o → s'.object p = s.object p := by
  cases a with
  | construct o c n => cases ha
  | detach o =>
      cases ha
      obtain ⟨d,hd,rfl⟩ := detach_eq h
      exact ⟨d,hd,rfl,fun p _ => rfl⟩
  | destroy o =>
      cases ha
      obtain ⟨u,hu,h⟩ := Option.bind_eq_some_iff.mp h
      obtain ⟨d,hd,rfl⟩ := detach_eq hu
      cases h
      exact ⟨d,hd,rfl,fun p hp => Function.update_of_ne hp _ _⟩

/-- Every entry is in a map that exists and holds an object of its class and its name. -/
def Sound (s : Registry ω) : Prop :=
  ∀ c n o, s.container c n = some o → c ≠ .unknown ∧ s.object o = some ⟨c,n⟩

theorem Sound.step {s s' : Registry ω} {a : Action ω} (H : Sound s) (h : s.step a = some s') :
    Sound s' := by
  intro c n p hp
  cases ha : a.leaving with
  | none =>
      cases a with
      | construct o c' n' =>
          obtain ⟨hc,hfresh,hobject,hcontainer⟩ := construct_eq h
          rw [hcontainer] at hp
          rw [hobject]
          split_ifs at hp with hnew
          · cases hp
            rw [Function.update_self,hnew.1.1,hnew.1.2]
            exact ⟨hc,rfl⟩
          · obtain ⟨hknown,hold⟩ := H c n p hp
            have hne : p ≠ o := by
              intro e
              rw [e,hfresh] at hold
              cases hold
            rw [Function.update_of_ne hne]
            exact ⟨hknown,hold⟩
      | detach o => cases ha
      | destroy o => cases ha
  | some o =>
      obtain ⟨d,hd,hcontainer,hobject⟩ := leaving_eq ha h
      rw [hcontainer] at hp
      simp only [setEntry] at hp
      split_ifs at hp with hkey
      obtain ⟨hknown,hold⟩ := H c n p hp
      have hne : p ≠ o := by
        intro e
        rw [e,hd] at hold
        cases hold
        exact hkey ⟨rfl,rfl⟩
      rw [hobject p hne]
      exact ⟨hknown,hold⟩

theorem run_concat (as : List (Action ω)) (a : Action ω) :
    run (as++[a]) = (run as).bind fun s => s.step a := by
  unfold run
  rw [List.foldlM_append]
  simp

theorem Sound.run {as : List (Action ω)} {s : Registry ω} (h : run as = some s) : Sound s := by
  induction as using List.reverseRecOn generalizing s with
  | nil =>
      cases h
      intro c n o h
      cases h
  | append_singleton as a ih =>
      rw [run_concat] at h
      obtain ⟨u,hu,h⟩ := Option.bind_eq_some_iff.mp h
      exact (ih hu).step h

/-- The last action enters the object, or it was registered before and stays. -/
theorem registered_concat {as : List (Action ω)} {a : Action ω} {s : Registry ω}
    (hs : run as = some s) (c : ObjectClass) (n : Name) (o : ω) :
    Registered (as++[a]) c n o ↔
      (a = .construct o c n ∧ s.container c n = none) ∨
        (Registered as c n o ∧ a.leaving ≠ some o) := by
  constructor
  · rintro ⟨as₁,as₂,u,e,hu,hfree,hstay⟩
    induction as₂ using List.reverseRecOn with
    | nil =>
        obtain ⟨rfl,ha⟩ := List.append_inj' e rfl
        cases ha
        rw [hs] at hu
        cases hu
        exact Or.inl ⟨rfl,hfree⟩
    | append_singleton as₂ b =>
        have e' : as++[a] = (as₁++.construct o c n::as₂)++[b] := by simpa using e
        obtain ⟨rfl,hb⟩ := List.append_inj' e' rfl
        cases hb
        exact Or.inr ⟨⟨as₁,as₂,u,rfl,hu,hfree,fun x hx => hstay x (by simp [hx])⟩,
          hstay a (by simp)⟩
  · rintro (⟨rfl,hfree⟩ | ⟨⟨as₁,as₂,u,rfl,hu,hfree,hstay⟩,ha⟩)
    · exact ⟨as,[],s,rfl,hs,hfree,by simp⟩
    · refine ⟨as₁,as₂++[a],u,by simp,hu,hfree,fun x hx => ?_⟩
      rcases List.mem_append.mp hx with hx | hx
      · exact hstay x hx
      · rw [List.mem_singleton.mp hx]
        exact ha

/-- The maps hold exactly what is registered. -/
def Exact (as : List (Action ω)) (s : Registry ω) : Prop :=
  ∀ c n o, s.container c n = some o ↔ Registered as c n o

theorem Exact.init : Exact [] (Registry.init : Registry ω) := by
  intro c n o
  constructor
  · intro h
    cases h
  · rintro ⟨as₁,as₂,s,e,-⟩
    simp at e

theorem Exact.step {as : List (Action ω)} {a : Action ω} {s s' : Registry ω}
    (H : Exact as s) (hs : run as = some s) (hstep : s.step a = some s') (ha : Harmless s a) :
    Exact (as++[a]) s' := by
  intro c n p
  rw [registered_concat hs,← H c n p]
  cases hl : a.leaving with
  | none =>
      cases a with
      | construct o c' n' =>
          obtain ⟨-,-,-,hcontainer⟩ := construct_eq hstep
          rw [hcontainer]
          split_ifs with hnew
          · obtain ⟨⟨rfl,rfl⟩,hfree⟩ := hnew
            simp [hfree]
          · constructor
            · exact fun h => Or.inr ⟨h,by simp⟩
            · rintro (⟨e,hfree⟩ | h)
              · cases e
                exact absurd ⟨⟨rfl,rfl⟩,hfree⟩ hnew
              · exact h.1
      | detach o => cases hl
      | destroy o => cases hl
  | some o =>
      obtain ⟨d,hd,hcontainer,-⟩ := leaving_eq hl hstep
      have hconstruct : a ≠ .construct p c n := by
        intro e
        rw [e] at hl
        cases hl
      rw [hcontainer]
      simp only [setEntry,hconstruct,false_and,false_or,ne_eq,Option.some.injEq]
      split_ifs with hkey
      · -- the erased entry held nobody or the object itself
        obtain ⟨rfl,rfl⟩ := hkey
        have hown := ha o hl d hd p
        constructor
        · intro h
          cases h
        · intro h
          exact absurd (hown h.1).symm h.2
      · constructor
        · intro h
          refine ⟨h,?_⟩
          rintro rfl
          have hp := (Sound.run hs c n o h).2
          rw [hd] at hp
          cases hp
          exact hkey ⟨rfl,rfl⟩
        · exact fun h => h.1

/-- An entry that is erased although another object holds it is missing afterwards. -/
theorem Exact.harmless {as : List (Action ω)} {a : Action ω} {s s' : Registry ω}
    (H : Exact as s) (hs : run as = some s) (hstep : s.step a = some s')
    (H' : Exact (as++[a]) s') : Harmless s a := by
  intro o ho d hd p hp
  by_contra hne
  obtain ⟨d',hd',hcontainer,-⟩ := leaving_eq ho hstep
  cases hd.symm.trans hd'
  have hreg : Registered (as++[a]) d.type d.name p := by
    rw [registered_concat hs,← H]
    refine Or.inr ⟨hp,fun h => hne ?_⟩
    exact Option.some.inj (h.symm.trans ho)
  have hgone := (H' d.type d.name p).mpr hreg
  rw [hcontainer] at hgone
  simp [setEntry] at hgone

/-- The maps are exact all along a run when no action erases the entry of another object, and
not otherwise. -/
theorem exact_prefixes_iff {as : List (Action ω)} {s : Registry ω} (hs : run as = some s) :
    (∀ as₁ s₁, as₁ <+: as → run as₁ = some s₁ → Exact as₁ s₁) ↔
      AllSteps step Harmless init as := by
  induction as using List.reverseRecOn generalizing s with
  | nil =>
      simp only [List.prefix_nil,AllSteps,iff_true]
      intro as₁ s₁ e h
      subst e
      cases h
      exact Exact.init
  | append_singleton as a ih =>
      have hrun := hs
      rw [run_concat] at hs
      obtain ⟨u,hu,hstep⟩ := Option.bind_eq_some_iff.mp hs
      rw [allSteps_concat,← ih hu]
      constructor
      · intro h
        have hbefore : Exact as u := h as u (List.prefix_append as [a]) hu
        have hafter : Exact (as++[a]) s := h (as++[a]) s (List.prefix_refl _) hrun
        refine ⟨fun as₁ s₁ hpre => h as₁ s₁ (hpre.trans (List.prefix_append as [a])),?_⟩
        intro v hv
        cases hu.symm.trans hv
        exact hbefore.harmless hu hstep hafter
      · rintro ⟨h,ha⟩ as₁ s₁ hpre hs₁
        rcases List.prefix_concat_iff.mp hpre with rfl | hpre
        · cases hrun.symm.trans hs₁
          exact (h as u (List.prefix_refl _) hu).step hu hstep (ha u hu)
        · exact h as₁ s₁ hpre hs₁

omit [DecidableEq ω] in
theorem find_eq (s : Registry ω) (n : Name) {c : ObjectClass} (hc : c ≠ .unknown) :
    s.find (some n) c = some (s.container c n) := if_neg hc

theorem answers_iff {as : List (Action ω)} {c : ObjectClass} {n : Name} {q : Option ω} :
    Answers as c n (some q) ↔ ∀ o, q = some o ↔ Registered as c n o := by
  constructor
  · rintro ⟨q',e,h⟩
    cases e
    exact h
  · exact fun h => ⟨q,rfl,h⟩

/-- Nothing is registered in the class that has no map. -/
theorem Registered.known {as : List (Action ω)} {s : Registry ω} (hs : run as = some s)
    {c : ObjectClass} {n : Name} {o : ω} (h : Registered as c n o) : c ≠ .unknown := by
  obtain ⟨as₁,as₂,u,rfl,hu,-,-⟩ := h
  unfold run at hs hu
  rw [List.foldlM_append,hu] at hs
  change (u.step (.construct o c n)).bind _ = some s at hs
  obtain ⟨v,hv,-⟩ := Option.bind_eq_some_iff.mp hs
  exact (construct_eq hv).1

theorem exact_iff {as : List (Action ω)} {s : Registry ω} (hs : run as = some s) :
    Exact as s ↔ ∀ c n, c ≠ .unknown → Answers as c n (s.find (some n) c) := by
  have hanswers : ∀ c n, c ≠ .unknown → (Answers as c n (s.find (some n) c) ↔
      ∀ o, s.container c n = some o ↔ Registered as c n o) := by
    intro c n hc
    rw [find_eq s n hc,answers_iff]
  constructor
  · exact fun h c n hc => (hanswers c n hc).mpr (h c n)
  · intro h c n o
    constructor
    · intro ho
      have hc := (Sound.run hs c n o ho).1
      exact ((hanswers c n hc).mp (h c n hc) o).mp ho
    · intro ho
      have hc := ho.known hs
      exact ((hanswers c n hc).mp (h c n hc) o).mpr ho

/-- Lookups are right all along a run exactly when nothing that is detached or destroyed has
the class and the name of another registered object. `Device::find` is then right as well, but
`Thread::find` only for names under which there is neither a thread nor a device. -/
theorem find_answers_iff {as : List (Action ω)} {s : Registry ω} (hs : run as = some s) :
    ((∀ as₁ s₁, as₁ <+: as → run as₁ = some s₁ →
        ∀ c n, c ≠ .unknown → Answers as₁ c n (s₁.find (some n) c)) ↔
      AllSteps step Harmless init as) ∧
    (AllSteps step Harmless init as → ∀ n, Answers as .device n (s.deviceFind (some n)) ∧
      (Answers as .thread n (s.threadFind (some n)) ↔
        ∀ o, ¬ Registered as .thread n o ∧ ¬ Registered as .device n o)) := by
  constructor
  · rw [← exact_prefixes_iff hs]
    constructor
    · exact fun h as₁ s₁ hpre hs₁ => (exact_iff hs₁).mpr (h as₁ s₁ hpre hs₁)
    · exact fun h as₁ s₁ hpre hs₁ => (exact_iff hs₁).mp (h as₁ s₁ hpre hs₁)
  · intro h n
    have hexact : Exact as s := (exact_prefixes_iff hs).mpr h as s (List.prefix_refl _) hs
    have hdevice : s.threadFind (some n) = some (s.container .device n) := rfl
    refine ⟨(exact_iff hs).mp hexact .device n (by simp),?_⟩
    rw [hdevice,answers_iff]
    constructor
    · intro hthread o
      -- an object that is found has the class device, and it would have the class thread
      have hnone : ∀ p, s.container .device n ≠ some p := by
        intro p hp
        have hp' := (hexact .thread n p).mpr ((hthread p).mp hp)
        cases (Sound.run hs _ _ _ hp).2.symm.trans (Sound.run hs _ _ _ hp').2
      refine ⟨fun ho => hnone o ((hthread o).mpr ho),fun ho => hnone o ?_⟩
      exact (hexact .device n o).mpr ho
    · intro hnone o
      rw [hexact .device n o]
      exact ⟨fun ho => absurd ho (hnone o).2,fun ho => absurd ho (hnone o).1⟩

def nameT : Name := ⟨"t",by decide⟩

/-- A thread exits and is deleted before its addresses and its name are used again. -/
def lifecycle : List (Action (Fin 4)) := List.flatMap Call.actions
  [.construct .device 0 nameT,.constructThread ⟨1,2⟩ nameT,.exit ⟨1,2⟩,.destroyThread ⟨1,2⟩,
    .constructThread ⟨2,1⟩ nameT,.construct .mailBox 3 nameT,.detach 3]

theorem find_answers_iff_lifecycle :
    AllSteps step Harmless init lifecycle ∧ ∃ s, run lifecycle = some s ∧
      s.find (some nameT) .thread = some (some 2) ∧
      (∀ c n, c ≠ .unknown → Answers lifecycle c n (s.find (some n) c)) ∧
      Answers lifecycle .device nameT (s.deviceFind (some nameT)) := by
  have hthread : (run lifecycle).bind (fun s => s.find (some nameT) .thread) = some (some 2) := by
    decide +kernel
  have hharmless : AllSteps step Harmless init lifecycle := by decide +kernel
  obtain ⟨s,hs,hfind⟩ := Option.bind_eq_some_iff.mp hthread
  obtain ⟨hexact,hdevice⟩ := find_answers_iff hs
  refine ⟨hharmless,s,hs,hfind,?_,(hdevice hharmless nameT).1⟩
  exact hexact.mpr hharmless lifecycle s (List.prefix_refl _) hs

/-- The second of two semaphores of one name is destroyed. -/
def takenName : List (Action (Fin 4)) := List.flatMap Call.actions
  [.construct .semaphore 0 nameT,.construct .semaphore 1 nameT,.destroy .semaphore 1]

/-- A thread takes the name of one that has exited and is deleted later. -/
def reusedName : List (Action (Fin 4)) := List.flatMap Call.actions
  [.constructThread ⟨0,1⟩ nameT,.exit ⟨0,1⟩,.constructThread ⟨2,3⟩ nameT,.destroyThread ⟨0,1⟩]

/-- The first semaphore and the new thread are not found any more, and no thread is ever found
by `Thread::find`. -/
theorem find_loses_registered :
    ((run takenName).bind (fun s => s.find (some nameT) .semaphore) = some none ∧
      Registered takenName .semaphore nameT 0) ∧
    ((run reusedName).bind (fun s => s.find (some nameT) .thread) = some none ∧
      Registered reusedName .thread nameT 2) ∧
    ((run (reusedName.take 6)).bind (fun s => s.find (some nameT) .thread) = some (some 2) ∧
      (run (reusedName.take 6)).bind (fun s => s.threadFind (some nameT)) = some none ∧
      Registered (reusedName.take 6) .thread nameT 2) := by
  have hexited : (run (reusedName.take 4)).isSome ∧
      ∀ s ∈ run (reusedName.take 4), s.container .thread nameT = none := by decide +kernel
  obtain ⟨s,hs⟩ := Option.isSome_iff_exists.mp hexited.1
  refine ⟨⟨by decide +kernel,[],takenName.tail,init,rfl,rfl,rfl,by decide⟩,
    ⟨by decide +kernel,reusedName.take 4,reusedName.drop 5,s,rfl,hs,hexited.2 s hs,by decide⟩,
    by decide +kernel,by decide +kernel,
    reusedName.take 4,[.construct 3 .timer nameT],s,rfl,hs,hexited.2 s hs,by decide⟩

end CosKernel.ObjectRegistry

import CosKernel.RoundRobin
import Mathlib

/-!
# Critical sections of the scheduler

`enter_critical` and `exit_critical` count the nested critical sections in `lock_nest_`, which has
16 bits with a sign, and `process` switches only when it is zero. A run is a sequence of these
calls. Between two calls the other code may do anything to the ready queue, so every call comes
with the queue that it finds; the current thread and the counter change in these calls only. The
depth is counted beside the kernel.
-/
namespace CosKernel.CriticalSections
open TransitionRuns RoundRobin RedBlackHeap

/-- What `next_thread` reads. -/
structure Queue (σ : Type) where
  lists : σ
  priorityTree : Heap Priority Priority

inductive Op where
  | enterCritical
  | exitCritical
  | process
  deriving DecidableEq, Repr

/-- The greatest depth, as a comment in `enter_critical` has it. -/
def UINT16_MAX : ℕ := 0xffff

def depthStep (d : ℕ) : Op → Option ℕ
  | .enterCritical => some (d+1)
  | .exitCritical => some (d-1)
  | .process => some d

/-- Every `exit_critical` has its `enter_critical`. -/
def Bracketed (d : ℕ) (op : Op) : Prop :=
  (op = .enterCritical → d < UINT16_MAX) ∧ (op = .exitCritical → 0 < d)
deriving Decidable

/-- Critical sections are left from a depth that a signed word can count, and from one more. -/
def Shallow (d : ℕ) (op : Op) : Prop := op = .exitCritical → d ≤ 32768
deriving Decidable

section kernel

variable {σ θ : Type} (ο : Type) [DecidableEq θ] [ListFamily σ (ListId ο) θ]

def enterCritical (k : Kernel σ θ) : Kernel σ θ :=
  {k with lockNest := (k.lockNest+1).bmod (2^16)}

def exitCritical (k : Kernel σ θ) : Option (Kernel σ θ) :=
  let lockNest := (k.lockNest-1).bmod (2^16)
  if lockNest ≤ 0 then Kernel.process (ο := ο) {k with lockNest := 0}
  else some {k with lockNest := lockNest}

def perform (k : Kernel σ θ) : Op → Option (Kernel σ θ)
  | .enterCritical => some (enterCritical k)
  | .exitCritical => exitCritical ο k
  | .process => Kernel.process (ο := ο) k

/-- The kernel as a call finds it. -/
def found (k : Kernel σ θ) (q : Queue σ) : Kernel σ θ :=
  {k with lists := q.lists, priorityTree := q.priorityTree}

structure State (σ θ : Type) where
  kernel : Kernel σ θ
  depth : ℕ

def step (s : State σ θ) (a : Op × Queue σ) : Option (State σ θ) := do
  let k ← perform ο (found s.kernel a.2) a.1
  let depth ← depthStep s.depth a.1
  some ⟨k,depth⟩

def Queue.nextThread (q : Queue σ) : Option (Option θ) :=
  Kernel.firstReady ο q.lists q.priorityTree

/-- Inside of a critical section the current thread stays, and outside the scheduler is not
locked. -/
def Guards (s : State σ θ) (_ : Op × Queue σ) (s' : State σ θ) : Prop :=
  (0 < s.depth → 0 < s'.depth → s'.kernel.currentThread = s.kernel.currentThread) ∧
    (s'.depth = 0 → s'.kernel.lockNest = 0)

/-- The counter after as many calls as the depth. -/
structure Counts (s : State σ θ) : Prop where
  lockNest : s.kernel.lockNest = (s.depth : ℤ).bmod (2^16)
  current : ∃ c, s.kernel.currentThread = some c
  depth : s.depth ≤ UINT16_MAX

end kernel

section counter

variable {d : ℕ}

theorem bmod_succ : ((d : ℤ).bmod (2^16)+1).bmod (2^16) = ((d+1 : ℕ) : ℤ).bmod (2^16) := by
  rw [Int.bmod_add_bmod]
  rfl

theorem bmod_pred (hd : 0 < d) :
    ((d : ℤ).bmod (2^16)-1).bmod (2^16) = ((d-1 : ℕ) : ℤ).bmod (2^16) := by
  rw [Int.bmod_sub_bmod]
  congr 1
  omega

theorem bmod_eq_zero_iff (hd : d ≤ UINT16_MAX) : (d : ℤ).bmod (2^16) = 0 ↔ d = 0 := by
  unfold UINT16_MAX at hd
  rw [Int.bmod_def]
  split_ifs <;> omega

/-- Above `32767` the counter is negative. -/
theorem bmod_nonpos_iff (hd : d ≤ UINT16_MAX) :
    (d : ℤ).bmod (2^16) ≤ 0 ↔ d = 0 ∨ 32768 ≤ d := by
  unfold UINT16_MAX at hd
  rw [Int.bmod_def]
  split_ifs <;> omega

end counter

section steps

variable {σ θ ο : Type} [DecidableEq θ] [ListFamily σ (ListId ο) θ]
variable {s : State σ θ} {q : Queue σ} {u c : θ}

theorem step_of_perform {k : Kernel σ θ} {op : Op} {d : ℕ}
    (hk : perform ο (found s.kernel q) op = some k) (hd : depthStep s.depth op = some d) :
    step ο s (op,q) = some ⟨k,d⟩ := by
  simp only [step,hk,hd,Option.bind_eq_bind,Option.bind_some]

theorem step_enter (H : Counts s) (hd : s.depth < UINT16_MAX) :
    ∃ s', step ο s (.enterCritical,q) = some s' ∧ s'.depth = s.depth+1 ∧ Counts s' ∧
      Guards s (.enterCritical,q) s' := by
  refine ⟨_,step_of_perform rfl rfl,rfl,⟨?_,H.current,hd⟩,fun _ _ => rfl,?_⟩
  · change (s.kernel.lockNest+1).bmod (2^16) = _
    rw [H.lockNest,bmod_succ]
  · exact fun h => absurd h (Nat.succ_ne_zero _)

theorem step_process (H : Counts s) (hq : q.nextThread ο = some (some u)) :
    ∃ s', step ο s (.process,q) = some s' ∧ s'.depth = s.depth ∧ Counts s' ∧
      Guards s (.process,q) s' := by
  obtain ⟨c,hc⟩ := H.current
  have hzero := bmod_eq_zero_iff H.depth
  rw [← H.lockNest] at hzero
  by_cases hlock : s.kernel.lockNest = 0
  · have hprocess : perform ο (found s.kernel q) .process =
        some {found s.kernel q with currentThread := some u} := process_selects hlock hq hc
    refine ⟨_,step_of_perform hprocess rfl,rfl,⟨H.lockNest,⟨u,rfl⟩,H.depth⟩,?_,fun _ => hlock⟩
    exact fun hd => absurd (hzero.mp hlock) hd.ne'
  · have hprocess : perform ο (found s.kernel q) .process = some (found s.kernel q) :=
      if_neg hlock
    exact ⟨_,step_of_perform hprocess rfl,rfl,⟨H.lockNest,⟨c,hc⟩,H.depth⟩,fun _ _ => rfl,
      fun hd => absurd (hzero.mpr hd) hlock⟩

theorem exitCritical_eq (H : Counts s) (hd : 0 < s.depth) :
    exitCritical ο (found s.kernel q) =
      if s.depth = 1 ∨ 32768 < s.depth then
        Kernel.process (ο := ο) {found s.kernel q with lockNest := 0}
      else some {found s.kernel q with lockNest := ((s.depth-1 : ℕ) : ℤ).bmod (2^16)} := by
  have hcount : (found s.kernel q).lockNest = (s.depth : ℤ).bmod (2^16) := H.lockNest
  have hle := H.depth
  have hnonpos := bmod_nonpos_iff (d := s.depth-1) (by omega)
  have hiff : s.depth-1 = 0 ∨ 32768 ≤ s.depth-1 ↔ s.depth = 1 ∨ 32768 < s.depth := by omega
  simp only [exitCritical,hcount,bmod_pred hd,hnonpos,hiff]

/-- When the counter is cleared, `process` switches to the selected thread. -/
theorem step_exit_cleared (H : Counts s) (hd : s.depth = 1 ∨ 32768 < s.depth)
    (hq : q.nextThread ο = some (some u)) :
    step ο s (.exitCritical,q) =
      some ⟨{found s.kernel q with lockNest := 0, currentThread := some u},s.depth-1⟩ := by
  obtain ⟨c,hc⟩ := H.current
  refine step_of_perform ?_ rfl
  change exitCritical ο (found s.kernel q) = _
  rw [exitCritical_eq H (by omega),if_pos hd]
  exact process_selects rfl hq hc

/-- A critical section is left from a depth that was counted right. -/
theorem step_exit (H : Counts s) (hd : 0 < s.depth) (hshallow : s.depth ≤ 32768)
    (hq : q.nextThread ο = some (some u)) :
    ∃ s', step ο s (.exitCritical,q) = some s' ∧ s'.depth = s.depth-1 ∧ Counts s' ∧
      Guards s (.exitCritical,q) s' := by
  have hdepth := H.depth
  by_cases hlast : s.depth = 1
  · refine ⟨_,step_exit_cleared H (.inl hlast) hq,rfl,⟨?_,⟨u,rfl⟩,?_⟩,?_,fun _ => rfl⟩
    · simp [hlast]
    · exact (Nat.sub_le _ _).trans hdepth
    · intro _ hinside
      exact absurd hinside (by simp [hlast])
  · have hexit : perform ο (found s.kernel q) .exitCritical =
        some {found s.kernel q with lockNest := ((s.depth-1 : ℕ) : ℤ).bmod (2^16)} := by
      change exitCritical ο (found s.kernel q) = _
      rw [exitCritical_eq H hd,if_neg (by omega)]
    refine ⟨_,step_of_perform hexit rfl,rfl,⟨?_,H.current,?_⟩,fun _ _ => rfl,?_⟩
    · simp only
    · exact (Nat.sub_le _ _).trans hdepth
    · intro houter
      have houter : s.depth-1 = 0 := houter
      omega

/-- One step of a bracketed run with a counter that is right. -/
theorem step_spec {op : Op} (H : Counts s) (hb : Bracketed s.depth op)
    (hshallow : Shallow s.depth op) (hq : q.nextThread ο = some (some u)) :
    ∃ s', step ο s (op,q) = some s' ∧ depthStep s.depth op = some s'.depth ∧ Counts s' ∧
      Guards s (op,q) s' := by
  cases op with
  | enterCritical =>
      obtain ⟨s',hs',hd,hrest⟩ := step_enter (ο := ο) (q := q) H (hb.1 rfl)
      exact ⟨s',hs',congrArg some hd.symm,hrest⟩
  | exitCritical =>
      obtain ⟨s',hs',hd,hrest⟩ := step_exit H (hb.2 rfl) (hshallow rfl) hq
      exact ⟨s',hs',congrArg some hd.symm,hrest⟩
  | process =>
      obtain ⟨s',hs',hd,hrest⟩ := step_process H hq
      exact ⟨s',hs',congrArg some hd.symm,hrest⟩

/-- A critical section is left from too deep: the thread is switched inside of the others. -/
theorem step_deep {op : Op} (H : Counts s) (hdeep : ¬Shallow s.depth op)
    (hq : q.nextThread ο = some (some u)) (hu : s.kernel.currentThread ≠ some u) :
    ∀ s', step ο s (op,q) = some s' → ¬Guards s (op,q) s' := by
  obtain ⟨rfl,hd⟩ := Classical.not_imp.mp hdeep
  intro s' hs' hguards
  rw [step_exit_cleared H (.inr (by omega)) hq] at hs'
  obtain rfl := Option.some.inj hs'
  have hsame := hguards.1 (by omega) (show 0 < s.depth-1 by omega)
  exact hu hsame.symm

/-- A run is described by the calls, and by the queue that each of them finds. -/
theorem follows_of_shallow {ops : List Op} (H : Counts s)
    (hb : AllSteps depthStep Bracketed s.depth ops)
    (hshallow : AllSteps depthStep Shallow s.depth ops) {qs : List (Queue σ)}
    (hqs : ∀ q ∈ qs, ∃ u : θ, q.nextThread ο = some (some u)) :
    Follows (step ο) Guards s (ops.zip qs) := by
  induction ops generalizing s qs with
  | nil => trivial
  | cons op ops ih =>
      cases qs with
      | nil => trivial
      | cons q qs =>
          obtain ⟨u,hq⟩ := hqs q (.head _)
          obtain ⟨s',hs',hd,H',hguards⟩ := step_spec H hb.1 hshallow.1 hq
          exact ⟨s',hs',hguards,ih H' (hb.2 _ hd) (hshallow.2 _ hd) fun r hr => hqs r (.tail _ hr)⟩

theorem shallow_of_follows {ops : List Op} (H : Counts s)
    (hchoice : ∀ c : θ, ∃ (q : Queue σ) (u : θ), q.nextThread ο = some (some u) ∧ u ≠ c)
    (hb : AllSteps depthStep Bracketed s.depth ops)
    (hall : ∀ qs : List (Queue σ), qs.length = ops.length →
      (∀ q ∈ qs, ∃ u : θ, q.nextThread ο = some (some u)) →
      Follows (step ο) Guards s (ops.zip qs)) :
    AllSteps depthStep Shallow s.depth ops := by
  induction ops generalizing s with
  | nil => trivial
  | cons op ops ih =>
      obtain ⟨c,hc⟩ := H.current
      obtain ⟨q,u,hq,hu⟩ := hchoice c
      have hshallow : Shallow s.depth op := by
        by_contra hdeep
        have hrun := hall (List.replicate (ops.length+1) q) (by simp)
          fun r hr => ⟨u,List.eq_of_mem_replicate hr ▸ hq⟩
        obtain ⟨s',hs',hguards,-⟩ := hrun
        exact step_deep H hdeep hq (by simpa [hc] using hu.symm) s' hs' hguards
      obtain ⟨s',hs',hd,H',-⟩ := step_spec H hb.1 hshallow hq
      refine ⟨hshallow,fun d' hd' => ?_⟩
      obtain rfl := Option.some.inj (hd.symm.trans hd')
      refine ih H' (hb.2 _ hd) fun qs hlength hqs => ?_
      have hrun := hall (q::qs) (by simp [hlength]) fun r hr => by
        rcases List.mem_cons.mp hr with rfl | hr
        · exact ⟨u,hq⟩
        · exact hqs r hr
      obtain ⟨s'',hs'',-,hrest⟩ := hrun
      obtain rfl := Option.some.inj (hs'.symm.trans hs'')
      exact hrest

theorem enters (n : ℕ) (H : Counts s) (hn : s.depth+n ≤ UINT16_MAX) :
    ∃ s', (List.replicate n (.enterCritical,q)).foldlM (step ο) s = some s' ∧ Counts s' ∧
      s'.depth = s.depth+n ∧ s'.kernel.currentThread = s.kernel.currentThread := by
  induction n generalizing s with
  | zero => exact ⟨s,rfl,H,rfl,rfl⟩
  | succ n ih =>
      have hstep : step ο s (.enterCritical,q) =
          some ⟨enterCritical (found s.kernel q),s.depth+1⟩ := step_of_perform rfl rfl
      obtain ⟨_,hs₁,-,H₁,-⟩ := step_enter (ο := ο) (q := q) H (by omega)
      obtain rfl := Option.some.inj (hstep.symm.trans hs₁)
      obtain ⟨s',hs',H',hd,hc⟩ := ih H₁ (by simp only; omega)
      refine ⟨s',?_,H',?_,hc⟩
      · rw [List.replicate_succ,List.foldlM_cons,hstep]
        exact hs'
      · rw [hd]
        simp only
        omega

end steps

/-- Whatever queues the calls find, no thread is switched inside of a critical section and the
scheduler is not locked outside, iff no critical section is left from deeper than `32768`. -/
theorem critical_sections_guarded_iff {σ θ ο : Type} [DecidableEq θ] [ListFamily σ (ListId ο) θ]
    (hchoice : ∀ c : θ, ∃ (q : Queue σ) (u : θ), q.nextThread ο = some (some u) ∧ u ≠ c)
    {k : Kernel σ θ} (hcurrent : k.currentThread ≠ none) (hlock : k.lockNest = 0)
    {ops : List Op} (hb : AllSteps depthStep Bracketed 0 ops) :
    (∀ qs : List (Queue σ), qs.length = ops.length →
      (∀ q ∈ qs, ∃ u : θ, q.nextThread ο = some (some u)) →
      Follows (step ο) Guards ⟨k,0⟩ (ops.zip qs)) ↔ AllSteps depthStep Shallow 0 ops := by
  have H : Counts (⟨k,0⟩ : State σ θ) :=
    ⟨by simpa using hlock,Option.ne_none_iff_exists'.mp hcurrent,Nat.zero_le _⟩
  constructor
  · exact shallow_of_follows H hchoice hb
  · exact fun hshallow qs _ hqs => follows_of_shallow H hb hshallow hqs

/-- The ready queue of an idle thread and two others, with its first thread selected. -/
def selecting (prio : Fin 3 → Priority) : Queue (Sequences (ListId Empty) (Fin 3)) :=
  ⟨(Scheduler.startedKernel (ο := Empty) prio).lists,
    (Scheduler.startedKernel (ο := Empty) prio).priorityTree⟩

/-- The thread 1 runs. -/
def running : Kernel (Sequences (ListId Empty) (Fin 3)) (Fin 3) :=
  Scheduler.startedKernel ![254,10,20]

theorem selecting_next : (selecting ![254,10,20]).nextThread Empty = some (some (1 : Fin 3)) ∧
    (selecting ![254,20,10]).nextThread Empty = some (some (2 : Fin 3)) := by
  decide +kernel

/-- Two critical sections with a call of `process` in the inner one. -/
theorem critical_sections_guarded_iff_nested :
    AllSteps depthStep Shallow 0
        [.enterCritical,.enterCritical,.process,.exitCritical,.exitCritical] ∧
      ∀ qs : List (Queue (Sequences (ListId Empty) (Fin 3))), qs.length = 5 →
        (∀ q ∈ qs, ∃ u : Fin 3, q.nextThread Empty = some (some u)) →
        Follows (step Empty) Guards ⟨running,0⟩
          ([.enterCritical,.enterCritical,.process,.exitCritical,.exitCritical].zip qs) := by
  have hchoice : ∀ c : Fin 3, ∃ (q : Queue (Sequences (ListId Empty) (Fin 3))) (u : Fin 3),
      q.nextThread Empty = some (some u) ∧ u ≠ c := by
    intro c
    by_cases hc : c = 1
    · exact ⟨_,2,selecting_next.2,by simp [hc]⟩
    · exact ⟨_,1,selecting_next.1,Ne.symm hc⟩
  have hshallow : AllSteps depthStep Shallow 0
      [.enterCritical,.enterCritical,.process,.exitCritical,.exitCritical] := by decide
  exact ⟨hshallow,(critical_sections_guarded_iff hchoice (by decide +kernel) (by decide +kernel)
    (by decide)).mpr hshallow⟩

/-- After 32769 calls of `enter_critical` the first `exit_critical` clears the counter, and a
thread that has become ready is switched to inside of 32768 critical sections. -/
theorem deep_exit_switches :
    ∃ s s', (List.replicate 32769 (.enterCritical,selecting ![254,20,10])).foldlM (step Empty)
        ⟨running,0⟩ = some s ∧
      step Empty s (.exitCritical,selecting ![254,20,10]) = some s' ∧
      s.kernel.currentThread = some 1 ∧ s'.depth = 32768 ∧
      s'.kernel.currentThread = some 2 ∧ s'.kernel.lockNest = 0 := by
  have hcurrent : running.currentThread = some 1 := by decide +kernel
  have hlock : running.lockNest = 0 := by decide +kernel
  obtain ⟨s,hs,H,hd,hc⟩ := enters (ο := Empty) (q := selecting ![254,20,10])
    (s := ⟨running,0⟩) 32769 ⟨by simpa using hlock,⟨1,hcurrent⟩,Nat.zero_le _⟩ (by decide)
  have hdepth : s.depth = 32769 := hd.trans (Nat.zero_add _)
  refine ⟨s,_,hs,step_exit_cleared H (.inr (by omega)) selecting_next.2,hc.trans hcurrent,?_,rfl,
    rfl⟩
  exact congrArg (·-1) hdepth

end CosKernel.CriticalSections

import CosKernel.InterruptSwitches

/-!
# Switches seen by the threads

Runs of the processor from the boot code on, with any number of threads, calls
of `process` and interrupts. A thread does not notice that it was switched out,
except that `ebx` is lost in every call that switches; and the running thread is
always the current one of the scheduler.
-/
namespace CosKernel.ContextSwitch
open ByteMemory X86 X86.Machine TransitionRuns

variable {θ : Type} [DecidableEq θ] {L : Layout θ}

/-- Before the scheduler starts. -/
structure Boot (L : Layout θ) (w : World θ) : Prop where
  current : w.currentThread = none
  running : w.running = none
  nest : w.interruptNest = 0
  flag : load w.machine.mem (L.cell .flag) = 0
  resting : ∀ t, w.resting t = none

omit [DecidableEq θ] in
theorem Boot.settled {w : World θ} (H : Boot L w) : Settled L w := by
  refine ⟨H.current.trans H.running.symm,H.nest,H.flag,?_,?_⟩
  · exact fun t ht => absurd (H.resting t) ht
  · intro t s hs
    rw [H.resting] at hs
    cases hs

/-- What a thread finds when it runs again. -/
def Continues (m' : Machine) : Origin → Prop
  | .created tentry parameter _ texit =>
      m'.eip = tentry ∧ m'.eflags = 0x200 ∧ Stack m' [texit,parameter]
  | .called m => m'.eip = m.top ∧ m'.reg .esp = m.reg .esp+4 ∧ m'.eflags = m.eflags ∧
      m'.reg .ebp = m.reg .ebp ∧ m'.reg .esi = m.reg .esi ∧ m'.reg .edi = m.reg .edi ∧
      (m'.reg .ebx = m.reg .ebx ↔ m.reg .ebx = m.top)
  | .interrupted m => m'.toCpu = m.toCpu

omit [DecidableEq θ] in
theorem Settled.continues {w w' : World θ} {t : θ} {s : Rest} (H : Settled L w)
    (h : Resumed L w w') (hs : w.resting t = some s) (ht : w'.running = some t) :
    Continues w'.machine s.origin := by
  obtain ⟨hcpu,himage⟩ := h t s hs ht
  cases ho : s.origin with
  | created tentry parameter stackAddr texit =>
      obtain ⟨hwords,hon⟩ := (H.rest t s hs).arguments ho
      rw [ho] at hcpu
      refine ⟨congrArg Cpu.eip hcpu,congrArg Cpu.eflags hcpu,?_⟩
      have hesp : w'.machine.reg .esp = stackAddr-8 := congrFun (congrArg Cpu.reg hcpu) .esp
      rw [Stack,hesp]
      exact hwords.congr (by simp) (himage.mono hon).symm
  | called m =>
      rw [ho] at hcpu
      have hreg : ∀ r, w'.machine.reg r = (returned m).reg r := congrFun (congrArg Cpu.reg hcpu)
      have heip : w'.machine.eip = (returned m).eip := congrArg Cpu.eip hcpu
      have hflags : w'.machine.eflags = (returned m).eflags := congrArg Cpu.eflags hcpu
      refine ⟨heip,hreg .esp,hflags,hreg .ebp,hreg .esi,hreg .edi,?_⟩
      rw [hreg .ebx]
      exact eq_comm
  | interrupted m =>
      rw [ho] at hcpu
      exact hcpu

/-- A thread that is switched back in continues at its return address with the stack pointer, the
flags and `ebp`, `esi` and `edi` of its call. `ebx` is overwritten with the return address, and a
call of `arch_context_switch_interrupt` overwrites it with its first argument. -/
theorem switch_restores_all_but_ebx (L : Layout θ) {w : World θ} (hboot : Boot L w)
    {as : List (Action θ)} (hlegal : AllSteps (World.step L) (Legal L) w as) :
    Follows (World.step L) (fun w _ w' => ∀ t s, w.resting t = some s → w'.running = some t →
      Continues w'.machine s.origin) w as ∧
    ∀ (m : Machine) (ret from_ to_ : Dword), Stack m [ret,from_,to_] →
      (∀ a ∈ L.globals.variables, Disjoint (span (m.reg .esp-4) 8) (span a 4)) →
      ∃ m', archContextSwitchInterrupt L.globals m = m' ∧ m'.eip = ret ∧
        m'.reg .esp = m.reg .esp+4 ∧ m'.reg .ebp = m.reg .ebp ∧ m'.reg .esi = m.reg .esi ∧
        m'.reg .edi = m.reg .edi ∧ (m'.reg .ebx = m.reg .ebx ↔ m.reg .ebx = from_) := by
  constructor
  · refine follows_of_invariant (I := Settled L) ?_ hboot.settled hlegal
    intro w a H h
    obtain ⟨w',hstep,⟨hresumed,-⟩,H'⟩ := H.step h
    exact ⟨w',hstep,fun t s hs ht => H.continues hresumed hs ht,H'⟩
  · intro m ret from_ to_ hstack hfree
    obtain ⟨m',hcall,heip,hesp,hebp,hesi,hedi,hebx,-⟩ := archContextSwitchInterrupt_spec hstack hfree
    refine ⟨m',hcall,heip,hesp,hebp,hesi,hedi,?_⟩
    rw [hebx]
    exact eq_comm

/-- The addresses of the variables in an example with two threads. -/
def twoCells : Cell (Fin 2) → Dword
  | .sp t => 0x100+4*BitVec.ofNat 32 t
  | .flag => 0x200
  | .fromThread => 0x204
  | .toThread => 0x208

def twoBases (t : Fin 2) : Dword := 0x1000+0x1000*BitVec.ofNat 32 t

theorem twoCells_apart (c d : Cell (Fin 2)) (h : c ≠ d) : 4 ≤ (twoCells d-twoCells c).toNat := by
  cases c with
  | sp t => cases d <;> decide +revert
  | _ => cases d <;> first | contradiction | decide +revert

def twoStacks : Layout (Fin 2) where
  stack t := span (twoBases t) 0x1000
  cell := twoCells
  isrTable := 0x300
  isrParam := 0x400
  threadAt a := if a = 0x100 then some 0 else if a = 0x104 then some 1 else none
  threadAt_sp := by decide
  stacks_apart t u h := by
    apply span_disjoint <;> decide +revert
  cells_apart c d h := span_disjoint (twoCells_apart c d h) (twoCells_apart d c h.symm)
  stack_cell t c := by
    apply span_disjoint <;> cases c <;> decide +revert

/-- The boot code runs on a stack of its own. -/
def booted : World (Fin 2) where
  machine :=
    { reg := fun r => if r = .esp then 0x800 else 0
      seg := fun _ => 0x10
      eip := 0
      eflags := 0
      mem := fun _ => 0 }
  currentThread := none
  running := none
  interruptNest := 0
  resting := fun _ => none

theorem booted_boot : Boot twoStacks booted := ⟨rfl,rfl,rfl,by decide +kernel,fun _ => rfl⟩

def starting : List (Action (Fin 2)) :=
  [.create 0 0xa0 7 0x2000 0xe0,.create 1 0xb0 8 0x3000 0xe0,.start 0 0xc0]

/-- Both threads are created, and thread 0 runs. -/
def started : World (Fin 2) :=
  ((booted.create twoStacks 0 0xa0 7 0x2000 0xe0).create twoStacks 1 0xb0 8 0x3000 0xe0).start
    twoStacks 0 0xc0

theorem starting_legal (as : List (Action (Fin 2)))
    (h : AllSteps (World.step twoStacks) (Legal twoStacks) started as) :
    AllSteps (World.step twoStacks) (Legal twoStacks) booted (starting++as) := by
  refine ⟨⟨?_,span_subset (by decide)⟩,?_⟩
  · simp [Exists,booted]
  intro w₁ h₁
  cases h₁
  refine ⟨⟨?_,span_subset (by decide)⟩,?_⟩
  · simp [Exists,booted,World.create]
  intro w₂ h₂
  cases h₂
  refine ⟨⟨rfl,?_,?_,?_⟩,?_⟩
  · simp [booted,World.create]
  · intro u
    apply span_disjoint <;> decide +revert +kernel
  · intro c
    apply span_disjoint <;> cases c <;> decide +revert +kernel
  intro w₃ h₃
  cases h₃
  exact h

/-- Thread 0 switches to thread 1 and is switched back to. -/
def backAndForth : List (Action (Fin 2)) := [.process 0 1 0xd0,.process 0 0 0xd4]

theorem backAndForth_legal :
    AllSteps (World.step twoStacks) (Legal twoStacks) started backAndForth := by
  refine ⟨⟨Or.inl ?_,0,rfl,?_⟩,?_⟩
  · exact Option.isSome_iff_ne_none.mp (by decide +kernel)
  · rw [Set.sdiff_empty]
    exact span_subset (by decide +kernel)
  intro w₁ h₁
  rw [World.step,World.process_other ⟨rfl,by decide +kernel⟩ rfl] at h₁
  cases h₁
  refine ⟨⟨Or.inl ?_,1,rfl,?_⟩,fun _ _ => trivial⟩
  · exact Option.isSome_iff_ne_none.mp (by decide +kernel)
  · rw [Set.sdiff_empty]
    exact span_subset (by decide +kernel)

theorem switch_restores_all_but_ebx_backAndForth : Boot twoStacks booted ∧
    AllSteps (World.step twoStacks) (Legal twoStacks) booted (starting++backAndForth) ∧
    Follows (World.step twoStacks) (fun w _ w' => ∀ t s, w.resting t = some s →
      w'.running = some t → Continues w'.machine s.origin) booted (starting++backAndForth) :=
  ⟨booted_boot,starting_legal _ backAndForth_legal,
    (switch_restores_all_but_ebx twoStacks booted_boot (starting_legal _ backAndForth_legal)).1⟩

/-- `ebx` is zero when thread 0 calls, and the return address when it runs again. It is also lost
in a call of `arch_context_switch_interrupt`. -/
theorem ebx_is_lost : started.running = some 0 ∧ started.machine.reg .ebx = 0 ∧
    (backAndForth.foldlM (World.step twoStacks) started).map
      (fun w => (w.running,w.machine.eip,w.machine.reg .ebx)) = some (some 0,0xd0,0xd0) ∧
    (archContextSwitchInterrupt twoStacks.globals
      (World.called started.machine [0x100,0x104] 0xd0)).reg .ebx = 0x100 := by
  decide +kernel

/-- The deferred switch stores the frame of the interrupted thread for that thread alone and loads
that of the thread which is then current. So the thread that runs is always the current one. -/
theorem deferred_switch_is_exact (L : Layout θ) {w : World θ} (hboot : Boot L w)
    {as : List (Action θ)} (hlegal : AllSteps (World.step L) (Legal L) w as) :
    Follows (World.step L) (InterruptExact L) w as ∧
    Always (World.step L) (fun w => w.currentThread = w.running ∧
      load w.machine.mem (L.cell .flag) = 0) w as := by
  constructor
  · refine follows_of_invariant (I := Settled L) ?_ hboot.settled hlegal
    intro w a H h
    obtain ⟨w',hstep,⟨-,hexact⟩,H'⟩ := H.step h
    exact ⟨w',hstep,hexact,H'⟩
  · refine always_of_invariant (I := Settled L) ?_ ?_ hboot.settled hlegal
    · exact fun w H => ⟨H.current,H.flag⟩
    · intro w a H h
      obtain ⟨w',hstep,-,H'⟩ := H.step h
      exact ⟨w',hstep,H'⟩

/-- An interrupt whose handler calls `process` and finds thread 1. -/
def entered : World (Fin 2) :=
  started.handling twoStacks (run (interruptEntry 0) (deliver started.machine))

def handled : World (Fin 2) := (entered.process twoStacks 0 1 0xd0).getD entered

def preempted : Action (Fin 2) :=
  .interrupt 0 (run (interruptEntry 0) (deliver started.machine))
    [.process 0 1 0xd0,.code handled.machine.popped.popped]
    (run [.addlImm 8 .esp] handled.machine.popped.popped)

theorem keeps_of_eq {θ : Type} {L : Layout θ} {w : World θ} {keep : Set Dword} {mem mem' : Memory}
    (h : mem' = mem) : Keeps L w keep mem mem' := by
  subst h
  exact ⟨fun _ _ => Set.eqOn_refl _ _,fun _ => Set.eqOn_refl _ _,Set.eqOn_refl _ _⟩

theorem preempted_legal : Legal twoStacks started preempted := by
  have hprocess : entered.event twoStacks (.process 0 1 0xd0) = some handled := by
    have hsome : (entered.process twoStacks 0 1 0xd0).isSome := by decide +kernel
    obtain ⟨w,hw⟩ := Option.isSome_iff_exists.mp hsome
    rw [handled,hw]
    exact hw
  refine ⟨⟨0,rfl,?_⟩,⟨rfl,keeps_of_eq rfl⟩,?_,?_⟩
  · rw [Set.sdiff_empty]
    exact span_subset (by decide +kernel)
  · refine ⟨⟨Or.inl ?_,0,rfl,?_⟩,?_⟩
    · exact Option.isSome_iff_ne_none.mp (by decide +kernel)
    · refine Set.subset_sdiff.mpr ⟨span_subset (by decide +kernel),?_⟩
      apply span_disjoint <;> decide +kernel
    · intro w hw
      cases hprocess.symm.trans hw
      exact ⟨keeps_of_eq ((mem_popped _).trans (mem_popped _)),fun _ _ => trivial⟩
  · intro w₂ hw₂
    have hfold : ([.process 0 1 0xd0,.code handled.machine.popped.popped].foldlM
        (World.event twoStacks) entered) =
        some {handled with machine := handled.machine.popped.popped} := by
      rw [List.foldlM_cons,hprocess]
      rfl
    cases hfold.symm.trans hw₂
    exact ⟨by decide +kernel,rfl,keeps_of_eq rfl⟩

theorem deferred_switch_is_exact_preempted : Boot twoStacks booted ∧
    AllSteps (World.step twoStacks) (Legal twoStacks) booted (starting++[preempted]) ∧
    ((starting++[preempted]).foldlM (World.step twoStacks) booted).map
      (fun w => (w.currentThread,w.running,w.machine.eip)) = some (some 1,some 1,0xb0) ∧
    Follows (World.step twoStacks) (InterruptExact twoStacks) booted (starting++[preempted]) := by
  have hlegal : AllSteps (World.step twoStacks) (Legal twoStacks) booted (starting++[preempted]) :=
    starting_legal [preempted] ⟨preempted_legal,fun _ _ => trivial⟩
  exact ⟨booted_boot,hlegal,by decide +kernel,
    (deferred_switch_is_exact twoStacks booted_boot hlegal).1⟩

end CosKernel.ContextSwitch

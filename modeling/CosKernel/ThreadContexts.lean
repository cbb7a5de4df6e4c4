import CosKernel.InterruptFrames
import CosKernel.TransitionRuns

/-!
# Threads on one processor

The machine runs the code of one thread at a time, which may do anything except
write to the stacks of the threads that rest and to the variables of the
switches. `currentThread` is what the scheduler takes for the running thread;
`running` is the owner of the `sp_` from which the stack pointer was last loaded.
For each thread that rests it is recorded how it came to rest and what the memory
was then.

The choice of `next_thread()` and the lock of the scheduler are open: they come
with the call of `process`. Interrupts are not nested.
-/
namespace CosKernel.ContextSwitch
open ByteMemory X86 X86.Machine TransitionRuns

/-- The variables of the switches; `sp t` is the field `sp_` of the thread. -/
inductive Cell (θ : Type) where
  | sp (t : θ)
  | flag
  | fromThread
  | toThread
  deriving DecidableEq

/-- Stacks and variables are disjoint parts of the memory. -/
structure Layout (θ : Type) where
  stack : θ → Set Dword
  cell : Cell θ → Dword
  isrTable : Dword
  isrParam : Dword
  threadAt : Dword → Option θ
  threadAt_sp : ∀ t, threadAt (cell (.sp t)) = some t
  stacks_apart : ∀ t u, t ≠ u → Disjoint (stack t) (stack u)
  cells_apart : ∀ c d, c ≠ d → Disjoint (span (cell c) 4) (span (cell d) 4)
  stack_cell : ∀ t c, Disjoint (stack t) (span (cell c) 4)

/-- How a thread came to rest: built by `arch_stack_init`, in a call of `arch_context_switch`
that the machine was about to execute, or interrupted. -/
inductive Origin where
  | created (tentry parameter stackAddr texit : Dword)
  | called (m : Machine)
  | interrupted (m : Machine)

def Origin.cpu : Origin → Cpu
  | .created tentry _ stackAddr _ => initial tentry stackAddr
  | .called m => returned m
  | .interrupted m => m.toCpu

structure Rest where
  origin : Origin
  image : Memory

structure World (θ : Type) where
  machine : Machine
  currentThread : Option θ
  running : Option θ
  interruptNest : BitVec 8
  resting : θ → Option Rest

/-- What an interrupt handler does: arbitrary code, and calls of `process`. -/
inductive Event (θ : Type) where
  | code (m : Machine)
  | process (lockNest : ℤ) (next : θ) (ret : Dword)

/-- Calls come with the address that they return to. In an interrupt, `m₁` and `m₃` are the
machine when `interrupt_enter` and `interrupt_leave` return. -/
inductive Action (θ : Type) where
  | code (m : Machine)
  | create (t : θ) (tentry parameter stackAddr texit : Dword)
  | start (t : θ) (ret : Dword)
  | process (lockNest : ℤ) (next : θ) (ret : Dword)
  | interrupt (irqno : Dword) (m₁ : Machine) (isr : List (Event θ)) (m₃ : Machine)

variable {θ : Type} [DecidableEq θ] (L : Layout θ)

def Layout.globals : Globals where
  threadSwitchInterruptFlag := L.cell .flag
  interruptFromThread := L.cell .fromThread
  interruptToThread := L.cell .toThread
  isrTable := L.isrTable
  isrParam := L.isrParam

namespace World

/-- The running thread comes to rest and another one runs. -/
def handOver (w : World θ) (o : Origin) (m : Machine) (next : Option θ) : World θ :=
  {w with
    machine := m
    running := next
    resting := fun t => if next = some t then none else
      if w.running = some t then some ⟨o,m.mem⟩ else w.resting t}

/-- The machine at the entry of a function with these arguments. -/
def called (m : Machine) (args : List Dword) (ret : Dword) : Machine :=
  (args.reverse++[ret]).foldl pushed m

/-- `Scheduler::process`, when `next_thread()` returns `next`. -/
def process (w : World θ) (lockNest : ℤ) (next : θ) (ret : Dword) : Option (World θ) :=
  if lockNest = 0 then
    if w.currentThread = some next then some w else do
      let fromThread ← w.currentThread
      let w := {w with currentThread := some next}
      let m := called w.machine [L.cell (.sp fromThread),L.cell (.sp next)] ret
      if w.interruptNest = 0 then
        some (w.handOver (.called m) (archContextSwitch m) (L.threadAt (L.cell (.sp next))))
      else some {w with machine := archContextSwitchInterrupt L.globals m}
  else some w

/-- `Scheduler::start` with the first thread. -/
def start (w : World θ) (t : θ) (ret : Dword) : World θ :=
  let m := called w.machine [L.cell (.sp t)] ret
  {w with currentThread := some t}.handOver (.called m) (archContextSwitchTo m)
    (L.threadAt (L.cell (.sp t)))

/-- The stack and the `sp_` of a new thread. -/
def create (w : World θ) (t : θ) (tentry parameter stackAddr texit : Dword) : World θ :=
  let s := archStackInit w.machine.mem tentry parameter stackAddr texit
  let mem := store s.1 (L.cell (.sp t)) s.2
  {w with
    machine := {w.machine with mem := mem}
    resting := Function.update w.resting t
      (some ⟨.created tentry parameter stackAddr texit,mem⟩)}

def event (w : World θ) : Event θ → Option (World θ)
  | .code m => some {w with machine := m}
  | .process lockNest next ret => w.process L lockNest next ret

/-- The handler's code begins, after `interrupt_enter` has returned with `m`. -/
def handling (w : World θ) (m : Machine) : World θ :=
  {w with machine := run (dispatch L.globals) m, interruptNest := w.interruptNest+1}

/-- The code after the return of `interrupt_leave`, when the machine `m₀` was interrupted. -/
def leaving (w : World θ) (m₀ : Machine) : World θ :=
  let w' : World θ :=
    {w with machine := interruptReturn L.globals w.machine, interruptNest := w.interruptNest-1}
  if (run (testFlag L.globals) w.machine).zf then
    w'.handOver (.interrupted m₀) w'.machine (L.threadAt (load w.machine.mem (L.cell .toThread)))
  else w'

/-- `_hdinterrupts` from the return of `interrupt_enter` on. -/
def interrupt (w : World θ) (m₁ : Machine) (isr : List (Event θ)) (m₃ : Machine) :
    Option (World θ) := do
  let w₂ ← isr.foldlM (event L) (w.handling L m₁)
  some ({w₂ with machine := m₃}.leaving L w.machine)

def step (w : World θ) : Action θ → Option (World θ)
  | .code m => some {w with machine := m}
  | .create t tentry parameter stackAddr texit =>
      some (w.create L t tentry parameter stackAddr texit)
  | .start t ret => some (w.start L t ret)
  | .process lockNest next ret => w.process L lockNest next ret
  | .interrupt _ m₁ isr m₃ => w.interrupt L m₁ isr m₃

variable {L} {w : World θ} {lockNest : ℤ} {fromThread next : θ} {ret : Dword}

theorem process_same (h : ¬ (lockNest = 0 ∧ w.currentThread ≠ some next)) :
    w.process L lockNest next ret = some w := by
  unfold process
  split_ifs with hlock hcurrent
  · rfl
  · exact absurd ⟨hlock,hcurrent⟩ h
  · rfl

/-- A call that finds another thread switches at once, or it leaves that to the interrupt. -/
theorem process_other (h : lockNest = 0 ∧ w.currentThread ≠ some next)
    (hfrom : w.currentThread = some fromThread) :
    w.process L lockNest next ret = some (
      let m := called w.machine [L.cell (.sp fromThread),L.cell (.sp next)] ret
      let w := {w with currentThread := some next}
      if w.interruptNest = 0 then w.handOver (.called m) (archContextSwitch m) (some next)
      else {w with machine := archContextSwitchInterrupt L.globals m}) := by
  unfold process
  rw [if_pos h.1,if_neg h.2,hfrom]
  simp only [Option.bind_eq_bind,Option.bind_some,L.threadAt_sp]
  split_ifs <;> rfl

end World

section legal

variable (w : World θ)

/-- Nothing is written to the stacks of resting threads, to the variables and to `keep`. -/
structure Keeps (keep : Set Dword) (mem mem' : Memory) : Prop where
  onStack : ∀ t, w.resting t ≠ none → Set.EqOn mem' mem (L.stack t)
  cells : ∀ c, Set.EqOn mem' mem (span (L.cell c) 4)
  keep : Set.EqOn mem' mem keep

/-- A C function that is called in the machine `m` returns in `m'`. -/
structure Returns (keep : Set Dword) (m m' : Machine) : Prop where
  esp : m'.reg .esp = m.reg .esp
  keeps : Keeps L w keep m.mem m'.mem

/-- The next `n` bytes of the stack belong to the running thread. -/
def Room (n : ℕ) (keep : Set Dword) : Prop :=
  ∃ r, w.running = some r ∧
    span (w.machine.reg .esp-BitVec.ofNat 32 n) n ⊆ L.stack r \ keep

/-- The frame of an interrupt and the word that holds its address. -/
def saved : Set Dword := span (w.machine.reg .esp-60) 60

def Exists (t : θ) : Prop := w.resting t ≠ none ∨ w.running = some t

def LegalEvent (keep : Set Dword) (w : World θ) : Event θ → Prop
  | .code m => Keeps L w keep w.machine.mem m.mem
  | .process _ next _ => Exists w next ∧ Room L w 16 keep

/-- Code keeps to its memory, stacks do not overflow, and only threads that exist are switched
to. -/
def Legal (w : World θ) : Action θ → Prop
  | .code m => Keeps L w ∅ w.machine.mem m.mem
  | .create t _ _ stackAddr _ => ¬ Exists w t ∧ span (stackAddr-64) 64 ⊆ L.stack t
  | .start t _ => w.running = none ∧ w.resting t ≠ none ∧
      (∀ u, Disjoint (span (w.machine.reg .esp-12) 12) (L.stack u)) ∧
      ∀ c, Disjoint (span (w.machine.reg .esp-12) 12) (span (L.cell c) 4)
  | .process _ next _ => Exists w next ∧ Room L w 64 ∅
  | .interrupt irqno m₁ isr m₃ => Room L w 68 ∅ ∧
      Returns L w (saved w) (run (interruptEntry irqno) (deliver w.machine)) m₁ ∧
      AllSteps (World.event L) (LegalEvent L (saved w)) (w.handling L m₁) isr ∧
      ∀ w₂, isr.foldlM (World.event L) (w.handling L m₁) = some w₂ →
        w₂.machine.reg .esp = w.machine.reg .esp-68 ∧
        Returns L w₂ (saved w) (run [.addlImm 8 .esp] w₂.machine) m₃

end legal

variable {L}

/-- The frame of a resting thread is on its stack, which is as it was left. -/
structure Resting (L : Layout θ) (mem : Memory) (t : θ) (s : Rest) : Prop where
  image : Set.EqOn mem s.image (L.stack t)
  onStack : span (load mem (L.cell (.sp t))) 56 ⊆ L.stack t
  frame : FrameOf s.image (load mem (L.cell (.sp t))) s.origin.cpu
  arguments : ∀ {tentry parameter stackAddr texit},
    s.origin = .created tentry parameter stackAddr texit →
      Words s.image (stackAddr-8) [texit,parameter] ∧ span (stackAddr-8) 8 ⊆ L.stack t

/-- Between the actions the scheduler knows which thread runs, and no switch is pending. -/
structure Settled (L : Layout θ) (w : World θ) : Prop where
  current : w.currentThread = w.running
  nest : w.interruptNest = 0
  flag : load w.machine.mem (L.cell .flag) = 0
  apart : ∀ t, w.resting t ≠ none → w.running ≠ some t
  rest : ∀ t s, w.resting t = some s → Resting L w.machine.mem t s

omit [DecidableEq θ] in
theorem Resting.congr {mem mem' : Memory} {t : θ} {s : Rest} (H : Resting L mem t s)
    (hstack : Set.EqOn mem' mem (L.stack t)) (hsp : Set.EqOn mem' mem (span (L.cell (.sp t)) 4)) :
    Resting L mem' t s := by
  have hload : load mem' (L.cell (.sp t)) = load mem (L.cell (.sp t)) := load_congr hsp
  refine ⟨hstack.trans H.image,?_,?_,H.arguments⟩
  · rw [hload]
    exact H.onStack
  · rw [hload]
    exact H.frame

omit [DecidableEq θ] in
theorem Resting.frameOf {mem : Memory} {t : θ} {s : Rest} (H : Resting L mem t s) :
    FrameOf mem (load mem (L.cell (.sp t))) s.origin.cpu :=
  H.frame.congr (H.image.mono H.onStack).symm

omit [DecidableEq θ] in
theorem Settled.keeps {w : World θ} {keep : Set Dword} {m : Machine} (H : Settled L w)
    (h : Keeps L w keep w.machine.mem m.mem) : Settled L {w with machine := m} := by
  refine ⟨H.current,H.nest,?_,H.apart,fun t s hs => ?_⟩
  · exact (load_congr (h.cells .flag)).trans H.flag
  · have hrest : w.resting t ≠ none := ne_of_eq_of_ne hs (by simp)
    exact (H.rest t s hs).congr (h.onStack t hrest) (h.cells (.sp t))

/-- Another thread runs, and the one that ran has a frame. -/
theorem settled_handOver {w : World θ} {o : Origin} {m : Machine} {next : θ}
    (hcurrent : w.currentThread = some next) (hnest : w.interruptNest = 0)
    (hflag : load m.mem (L.cell .flag) = 0)
    (hrest : ∀ t s, t ≠ next → w.running ≠ some t → w.resting t = some s → Resting L m.mem t s)
    (hself : ∀ r, r ≠ next → w.running = some r → Resting L m.mem r ⟨o,m.mem⟩) :
    Settled L (w.handOver o m (some next)) := by
  refine ⟨hcurrent,hnest,hflag,?_,?_⟩
  · intro t ht e
    simp only [World.handOver] at ht e
    rw [if_pos e] at ht
    exact ht rfl
  · intro t s hs
    simp only [World.handOver,Option.some.injEq] at hs
    split_ifs at hs with hnext hrun
    · cases hs
      exact hself t (Ne.symm hnext) hrun
    · exact hrest t s (Ne.symm hnext) hrun hs

/-- The machine at the entry of a function. -/
theorem called_spec (m : Machine) (args : List Dword) (ret : Dword) (hn : args.length ≤ 2) :
    Stack (World.called m args ret) (ret::args) ∧
      (World.called m args ret).reg .esp = m.reg .esp-BitVec.ofNat 32 (4*(args.length+1)) ∧
      Set.EqOn (World.called m args ret).mem m.mem
        (span (m.reg .esp-BitVec.ofNat 32 (4*(args.length+1))) (4*(args.length+1)))ᶜ := by
  have hlen : (args.reverse++[ret]).length = args.length+1 := by simp
  have hempty : Stack m [] := trivial
  have hstack := hempty.pushes (args.reverse++[ret]) (by rw [hlen,List.length_nil]; omega)
  have hesp := esp_pushes m (args.reverse++[ret])
  have hmem := pushes_eqOn m (args.reverse++[ret]) (by rw [hlen]; omega)
  rw [hlen] at hesp hmem
  rw [List.append_nil,List.reverse_append,List.reverse_reverse] at hstack
  unfold World.called
  exact ⟨hstack,hesp,hmem⟩

omit [DecidableEq θ] in
/-- A thread has come to rest with a frame that was written to its stack and whose address is
in its `sp_`. -/
theorem resting_stored {mem mem' : Memory} {r : θ} {o : Origin} {sp : Dword}
    (hmem : mem' = store mem (L.cell (.sp r)) sp) (hstack : span sp 56 ⊆ L.stack r)
    (hframe : FrameOf mem sp o.cpu)
    (harguments : ∀ {tentry parameter stackAddr texit},
      o = .created tentry parameter stackAddr texit →
        Words mem' (stackAddr-8) [texit,parameter] ∧ span (stackAddr-8) 8 ⊆ L.stack r) :
    Resting L mem' r ⟨o,mem'⟩ := by
  have hload : load mem' (L.cell (.sp r)) = sp := by
    rw [hmem]
    exact load_store _ _ _
  refine ⟨Set.eqOn_refl _ _,?_,?_,harguments⟩
  · rw [hload]
    exact hstack
  · rw [hload]
    apply hframe.congr
    rw [hmem]
    exact (store_eqOn ((L.stack_cell r (.sp r)).mono_left hstack)).symm

/-- A voluntary switch. -/
theorem Settled.switch {w : World θ} {r next : θ} {s : Rest} (H : Settled L w)
    (hr : w.running = some r) (hs : w.resting next = some s)
    (hroom : span (w.machine.reg .esp-64) 64 ⊆ L.stack r) (ret : Dword) :
    ∃ m m', World.called w.machine [L.cell (.sp r),L.cell (.sp next)] ret = m ∧
      archContextSwitch m = m' ∧ m'.toCpu = s.origin.cpu ∧
      Set.EqOn m'.mem s.image (L.stack next) ∧
      Settled L ({w with currentThread := some next}.handOver (.called m) m' (some next)) := by
  have hne : next ≠ r := by
    rintro rfl
    exact H.apart next (by simp [hs]) hr
  obtain ⟨hstack,hesp,hargs⟩ :=
    called_spec w.machine [L.cell (.sp r),L.cell (.sp next)] ret (by simp)
  obtain ⟨m,hm⟩ : ∃ m, World.called w.machine [L.cell (.sp r),L.cell (.sp next)] ret = m := ⟨_,rfl⟩
  rw [hm] at hstack hesp hargs
  change m.reg .esp = w.machine.reg .esp-12 at hesp
  change Set.EqOn m.mem w.machine.mem (span (w.machine.reg .esp-12) 12)ᶜ at hargs
  obtain ⟨mem,hframe,hmem,hswitch⟩ := archContextSwitch_spec hstack
  rw [hesp,show w.machine.reg .esp-12-52 = w.machine.reg .esp-64 by bv_omega] at hframe hmem hswitch
  obtain ⟨mem',hmem'⟩ : ∃ mem', mem' = store mem (L.cell (.sp r)) (w.machine.reg .esp-64) := ⟨_,rfl⟩
  -- everything was written to the stack of the thread and to its `sp_`
  have hbelow : span (w.machine.reg .esp-12) 12 ⊆ L.stack r :=
    (span_subset (by bv_omega)).trans hroom
  have hframeRoom : span (w.machine.reg .esp-64) 56 ⊆ L.stack r :=
    (span_mono (by decide)).trans hroom
  have hkept : ∀ S, Disjoint S (L.stack r) → Disjoint S (span (L.cell (.sp r)) 4) →
      Set.EqOn mem' w.machine.mem S := by
    intro S hS hcell
    rw [hmem']
    apply (store_eqOn hcell).trans
    apply (hmem.mono (hS.mono_right hframeRoom).subset_compl_right).trans
    exact hargs.mono (hS.mono_right hbelow).subset_compl_right
  have hothers : ∀ t u, t ≠ r → w.resting t = some u → Resting L mem' t u := by
    intro t u ht hu
    apply (H.rest t u hu).congr
    · exact hkept _ (L.stacks_apart t r ht) (L.stack_cell t _)
    · exact hkept _ (L.stack_cell r _).symm (L.cells_apart _ _ (by simpa using ht))
  have hnext : Resting L mem' next s := hothers next s hne hs
  have hcpu : archContextSwitch m = {s.origin.cpu with mem := mem'} :=
    hswitch mem' s.origin.cpu hmem' hnext.frameOf
  refine ⟨m,_,hm,hcpu,rfl,hnext.image,settled_handOver rfl H.nest ?_ ?_ ?_⟩
  · have hflag : Set.EqOn mem' w.machine.mem (span (L.cell .flag) 4) :=
      hkept _ (L.stack_cell r _).symm (L.cells_apart _ _ (by simp))
    exact (load_congr hflag).trans H.flag
  · intro t u _ ht hu
    exact hothers t u (fun e => ht (e ▸ hr)) hu
  · intro t ht hrun
    have hrt : t = r := Option.some.inj (hrun.symm.trans hr)
    subst hrt
    refine resting_stored hmem' hframeRoom hframe ?_
    intro _ _ _ _ e
    cases e

/-- The first switch leaves the stack of the boot code for good. -/
theorem Settled.start {w : World θ} {t : θ} {s : Rest} (H : Settled L w) (hr : w.running = none)
    (hs : w.resting t = some s)
    (hstacks : ∀ u, Disjoint (span (w.machine.reg .esp-12) 12) (L.stack u))
    (hcells : ∀ c, Disjoint (span (w.machine.reg .esp-12) 12) (span (L.cell c) 4)) (ret : Dword) :
    (w.start L t ret).machine.toCpu = s.origin.cpu ∧
      Set.EqOn (w.start L t ret).machine.mem s.image (L.stack t) ∧
      Settled L (w.start L t ret) := by
  obtain ⟨hstack,hesp,hargs⟩ := called_spec w.machine [L.cell (.sp t)] ret (by simp)
  obtain ⟨m,hm⟩ : ∃ m, World.called w.machine [L.cell (.sp t)] ret = m := ⟨_,rfl⟩
  rw [hm] at hstack hesp hargs
  change m.reg .esp = w.machine.reg .esp-8 at hesp
  change Set.EqOn m.mem w.machine.mem (span (w.machine.reg .esp-8) 8)ᶜ at hargs
  obtain ⟨mem,hmem⟩ : ∃ mem, mem = store m.mem (m.reg .esp-4) (m.reg .ebp) := ⟨_,rfl⟩
  have hkept : ∀ S, Disjoint (span (w.machine.reg .esp-12) 12) S →
      Set.EqOn mem w.machine.mem S := by
    intro S hS x hx
    have hout : ¬ (x-(w.machine.reg .esp-12)).toNat < 12 := fun h => Set.disjoint_left.mp hS h hx
    have hfirst : x ∉ span (m.reg .esp-4) 4 := by
      rw [hesp,mem_span]
      bv_omega
    have hsecond : x ∉ span (w.machine.reg .esp-8) 8 := by
      rw [mem_span]
      bv_omega
    rw [hmem]
    exact (if_neg hfirst).trans (hargs hsecond)
  have hothers : ∀ u v, w.resting u = some v → Resting L mem u v := by
    intro u v hv
    exact (H.rest u v hv).congr (hkept _ (hstacks u)) (hkept _ (hcells _))
  have hnext := hothers t s hs
  have hcpu : archContextSwitchTo m = {s.origin.cpu with mem := mem} :=
    archContextSwitchTo_spec hstack hmem hnext.frameOf
  have hstart : w.start L t ret = {w with currentThread := some t}.handOver (.called m)
      {s.origin.cpu with mem := mem} (some t) := by
    simp only [World.start,hm,hcpu,L.threadAt_sp]
  rw [hstart]
  refine ⟨rfl,hnext.image,settled_handOver rfl H.nest ?_ ?_ ?_⟩
  · exact (load_congr (hkept _ (hcells .flag))).trans H.flag
  · intro u v _ _ hv
    exact hothers u v hv
  · intro u _ hu
    rw [hr] at hu
    cases hu

theorem Settled.create {w : World θ} {t : θ} {stackAddr : Dword} (H : Settled L w)
    (ht : ¬ Exists w t) (hroom : span (stackAddr-64) 64 ⊆ L.stack t)
    (tentry parameter texit : Dword) :
    Settled L (w.create L t tentry parameter stackAddr texit) := by
  obtain ⟨mem,hinit,hframe,hwords,hmem⟩ :=
    archStackInit_spec w.machine.mem tentry parameter stackAddr texit
  obtain ⟨mem',hmem'⟩ : ∃ mem', mem' = store mem (L.cell (.sp t)) (stackAddr-64) := ⟨_,rfl⟩
  have hcreate : w.create L t tentry parameter stackAddr texit =
      {w with
        machine := {w.machine with mem := mem'}
        resting := Function.update w.resting t
          (some ⟨.created tentry parameter stackAddr texit,mem'⟩)} := by
    simp only [World.create,hinit,hmem']
  have hkept : ∀ S, Disjoint S (L.stack t) → Disjoint S (span (L.cell (.sp t)) 4) →
      Set.EqOn mem' w.machine.mem S := by
    intro S hS hcell
    rw [hmem']
    apply (store_eqOn hcell).trans
    exact hmem.mono (hS.mono_right hroom).subset_compl_right
  have harguments : span (stackAddr-8) 8 ⊆ L.stack t := (span_subset (by bv_omega)).trans hroom
  rw [hcreate]
  refine ⟨H.current,H.nest,?_,?_,?_⟩
  · have hflag : Set.EqOn mem' w.machine.mem (span (L.cell .flag) 4) :=
      hkept _ (L.stack_cell t _).symm (L.cells_apart _ _ (by simp))
    exact (load_congr hflag).trans H.flag
  · intro u hu
    by_cases hut : u = t
    · rw [hut]
      exact fun h => ht (Or.inr h)
    · simp only [Function.update_of_ne hut] at hu
      exact H.apart u hu
  · intro u v hv
    by_cases hut : u = t
    · subst hut
      simp only [Function.update_self,Option.some.injEq] at hv
      subst hv
      refine resting_stored hmem' ((span_mono (by decide)).trans hroom) hframe ?_
      intro _ _ _ _ e
      cases e
      refine ⟨hwords.congr (by simp) ?_,harguments⟩
      rw [hmem']
      exact (store_eqOn ((L.stack_cell u _).mono_left harguments)).symm
    · simp only [Function.update_of_ne hut] at hv
      apply (H.rest u v hv).congr
      · exact hkept _ (L.stacks_apart u t hut) (L.stack_cell u _)
      · exact hkept _ (L.stack_cell t _).symm (L.cells_apart _ _ (by simpa using hut))

end CosKernel.ContextSwitch

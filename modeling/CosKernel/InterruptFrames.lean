import CosKernel.ContextFrames

/-!
# The deferred switch of an interrupt

`arch_context_switch_interrupt` only notes in three variables which threads are
to be exchanged. The entry of an interrupt saves the registers in a frame of the
same form as a voluntary switch, and the code behind the handler reads the
variables.
-/
namespace CosKernel.ContextSwitch
open ByteMemory X86 X86.Machine

/-- Where the linker has put the variables and the tables of the handlers. -/
structure Globals where
  threadSwitchInterruptFlag : Dword
  interruptFromThread : Dword
  interruptToThread : Dword
  isrTable : Dword
  isrParam : Dword

variable (g : Globals)

/-- `arch_context_switch_interrupt(from, to)`. -/
def archContextSwitchInterrupt (m : Machine) : Machine :=
  let m := run [.pushl .ebp,.movl .esp .ebp,.movlLoad 0xc .ebp .eax,.movlLoad 8 .ebp .ebx,
    .movlImm g.threadSwitchInterruptFlag .ecx,.movlLoad 0 .ecx .edx,.cmp 1 .edx] m
  let m := if m.zf then m else
    run [.movlImm 1 .edx,.movlStore .edx .ecx,.movlImm g.interruptFromThread .edx,
      .movlStore .ebx .edx] m
  -- _reswitch
  run [.movlImm g.interruptToThread .edx,.movlStore .eax .edx,.leave,.ret] m

/-- What it notes: the first `from` and the last `to`. -/
def noted (mem : Memory) (from_ to_ : Dword) : Memory :=
  store (if load mem g.threadSwitchInterruptFlag = 1 then mem else
    store (store mem g.threadSwitchInterruptFlag 1) g.interruptFromThread from_)
    g.interruptToThread to_

/-- The processor enters the code of an interrupt through an interrupt gate. -/
def deliver (m : Machine) : Machine :=
  {[m.eflags,(m.seg .cs).setWidth 32,m.eip].foldl pushed m with
    eflags := m.eflags &&& ~~~0x200}

def interruptEntry (irqno : Dword) : List Instr :=
  [.pushlImm irqno,.push .ds,.push .es,.pushal,.movwImm 0x10,.movwSeg .ds,.movwSeg .es,
    .pushl .esp]

def dispatch : List Instr :=
  [.movl .esp .eax,.addlImm 0x2c .eax,.movlLoad 0 .eax .eax,.movl .eax .ecx,.shll 2 .ecx,
    .movlImm g.isrParam .ebx,.addl .ecx .ebx,.pushlLoad .ebx,.pushl .eax,.shll 2 .eax,
    .movlImm g.isrTable .ebx,.addl .eax .ebx]

def testFlag : List Instr :=
  [.movlImm g.threadSwitchInterruptFlag .eax,.movlLoad 0 .eax .ebx,.cmp 1 .ebx]

/-- `_interrupt_thread_switch`. -/
def interruptThreadSwitch : List Instr :=
  [.popl .esp,.movlImm 0 .ebx,.movlStore .ebx .eax,.movlImm g.interruptFromThread .eax,
    .movlLoad 0 .eax .ebx,.movlStore .esp .ebx,.movlImm g.interruptToThread .ecx,
    .movlLoad 0 .ecx .edx,.movlLoad 0 .edx .esp]++restore

/-- The end of `_hdinterrupts`, after `interrupt_leave` has returned. -/
def interruptReturn (m : Machine) : Machine :=
  let m := run (testFlag g) m
  if m.zf then run (interruptThreadSwitch g) m else run ([.popl .esp]++restore) m

variable {g}

/-- The addresses of the three variables. -/
def Globals.variables (g : Globals) : List Dword :=
  [g.threadSwitchInterruptFlag,g.interruptFromThread,g.interruptToThread]

theorem noted_eqOn {mem : Memory} {from_ to_ : Dword} {s : Set Dword}
    (hfree : ∀ a ∈ g.variables, Disjoint s (span a 4)) :
    Set.EqOn (noted g mem from_ to_) mem s := by
  have hflag : Disjoint s (span g.threadSwitchInterruptFlag 4) := hfree _ (by simp [Globals.variables])
  have hfrom : Disjoint s (span g.interruptFromThread 4) := hfree _ (by simp [Globals.variables])
  have hto : Disjoint s (span g.interruptToThread 4) := hfree _ (by simp [Globals.variables])
  unfold noted
  apply (store_eqOn hto).trans
  split_ifs
  · exact Set.eqOn_refl _ _
  · exact (store_eqOn hfrom).trans (store_eqOn hflag)

/-- The first request sets the flag and the first thread, every request sets the last one. -/
theorem load_noted (mem : Memory) (from_ to_ : Dword)
    (hflagFrom : Disjoint (span g.threadSwitchInterruptFlag 4) (span g.interruptFromThread 4))
    (hflagTo : Disjoint (span g.threadSwitchInterruptFlag 4) (span g.interruptToThread 4))
    (hfromTo : Disjoint (span g.interruptFromThread 4) (span g.interruptToThread 4)) :
    load (noted g mem from_ to_) g.threadSwitchInterruptFlag = 1 ∧
      load (noted g mem from_ to_) g.interruptToThread = to_ ∧
      load (noted g mem from_ to_) g.interruptFromThread =
        if load mem g.threadSwitchInterruptFlag = 1 then load mem g.interruptFromThread
        else from_ := by
  by_cases hflag : load mem g.threadSwitchInterruptFlag = 1
  · rw [noted,if_pos hflag,if_pos hflag,load_store_of_disjoint hflagTo,
      load_store_of_disjoint hfromTo]
    exact ⟨hflag,load_store _ _ _,rfl⟩
  · rw [noted,if_neg hflag,if_neg hflag,load_store_of_disjoint hflagTo,
      load_store_of_disjoint hfromTo,load_store_of_disjoint hflagFrom,load_store,load_store,load_store]
    exact ⟨rfl,rfl,rfl⟩

/-- The arguments in registers, and `ebp` saved on the stack. -/
theorem request_begin {m : Machine} {ret from_ to_ : Dword} (h : Stack m [ret,from_,to_]) :
    ∃ m', run [.pushl .ebp,.movl .esp .ebp,.movlLoad 0xc .ebp .eax,.movlLoad 8 .ebp .ebx,
        .movlImm g.threadSwitchInterruptFlag .ecx,.movlLoad 0 .ecx .edx] m = m' ∧
      m'.mem = store m.mem (m.reg .esp-4) (m.reg .ebp) ∧ m'.reg .ebp = m.reg .esp-4 ∧
      m'.reg .esi = m.reg .esi ∧ m'.reg .edi = m.reg .edi ∧ m'.reg .eax = to_ ∧
      m'.reg .ebx = from_ ∧ m'.reg .ecx = g.threadSwitchInterruptFlag ∧
      m'.reg .edx = load m'.mem g.threadSwitchInterruptFlag := by
  have hpush : Stack (m.pushed (m.reg .ebp)) [m.reg .ebp,ret,from_,to_] := h.pushed (by simp) _
  have hfrom : load (store m.mem (m.reg .esp-4) (m.reg .ebp)) (m.reg .esp-4+8) = from_ := by
    rw [show m.reg .esp-4+8 = m.reg .esp-4+4+4 by bv_omega]
    exact hpush.popped.popped.top
  have hto : load (store m.mem (m.reg .esp-4) (m.reg .ebp)) (m.reg .esp-4+0xc) = to_ := by
    rw [show m.reg .esp-4+0xc = m.reg .esp-4+4+4+4 by bv_omega]
    exact hpush.popped.popped.popped.top
  refine ⟨_,rfl,rfl,rfl,rfl,rfl,?_,?_,rfl,?_⟩
  · rw [← hto]
    simp [run,exec]
  · rw [← hfrom]
    simp [run,exec]
  · simp [run,exec]

/-- The variables as the two branches leave them. -/
theorem request_note {m : Machine} (hecx : m.reg .ecx = g.threadSwitchInterruptFlag)
    (hedx : m.reg .edx = load m.mem g.threadSwitchInterruptFlag) :
    ∃ m', (if (m.exec (.cmp 1 .edx)).zf then m.exec (.cmp 1 .edx) else
        run [.movlImm 1 .edx,.movlStore .edx .ecx,.movlImm g.interruptFromThread .edx,
          .movlStore .ebx .edx] (m.exec (.cmp 1 .edx))) = m' ∧
      (∀ r, r ≠ .edx → m'.reg r = m.reg r) ∧
      m'.mem = if load m.mem g.threadSwitchInterruptFlag = 1 then m.mem else
        store (store m.mem g.threadSwitchInterruptFlag 1) g.interruptFromThread (m.reg .ebx) := by
  refine ⟨_,rfl,?_,?_⟩
  · intro r hr
    split_ifs
    · rfl
    · simp [run,exec,hr]
  · simp only [zf_cmp,hedx,beq_iff_eq]
    split_ifs
    · rfl
    · simp [run,exec,hecx]

theorem archContextSwitchInterrupt_spec {m : Machine} {ret from_ to_ : Dword}
    (h : Stack m [ret,from_,to_])
    (hfree : ∀ a ∈ g.variables, Disjoint (span (m.reg .esp-4) 8) (span a 4)) :
    ∃ m', archContextSwitchInterrupt g m = m' ∧ m'.eip = ret ∧ m'.reg .esp = m.reg .esp+4 ∧
      m'.reg .ebp = m.reg .ebp ∧ m'.reg .esi = m.reg .esi ∧ m'.reg .edi = m.reg .edi ∧
      m'.reg .ebx = from_ ∧
      m'.mem = noted g (store m.mem (m.reg .esp-4) (m.reg .ebp)) from_ to_ := by
  obtain ⟨m₁,hrun₁,hmem₁,hebp₁,hesi₁,hedi₁,heax₁,hebx₁,hecx₁,hedx₁⟩ := request_begin (g := g) h
  obtain ⟨m₂,hrun₂,hreg₂,hmem₂⟩ := request_note hecx₁ hedx₁
  obtain ⟨m₃,hrun₃⟩ : ∃ m₃, run [.movlImm g.interruptToThread .edx,.movlStore .eax .edx,.leave,
    .ret] m₂ = m₃ := ⟨_,rfl⟩
  have hall : archContextSwitchInterrupt g m = m₃ := by
    rw [← hrun₃,← hrun₂,← hrun₁]
    rfl
  have hmem₃ : m₃.mem = noted g (store m.mem (m.reg .esp-4) (m.reg .ebp)) from_ to_ := by
    rw [noted,← hmem₁,← hebx₁,← heax₁,← hreg₂ .eax (by decide),← hmem₂,← hrun₃]
    simp [run,exec]
  -- the stores to the variables leave the saved `ebp` and the return address alone
  have hkept : Words m₃.mem (m.reg .esp-4) [m.reg .ebp,ret] := by
    have hret : Stack m [ret] := ⟨h.1,trivial⟩
    rw [hmem₃]
    apply (hret.pushed (by simp) (m.reg .ebp)).congr (by simp)
    exact (noted_eqOn hfree).symm
  have hebp₂ : m₂.reg .ebp = m.reg .esp-4 := (hreg₂ .ebp (by decide)).trans hebp₁
  have hebp₃ : m₃.reg .ebp = load m₃.mem (m₂.reg .ebp) := by
    rw [← hrun₃]
    simp [run,exec,Machine.top]
  have heip₃ : m₃.eip = load m₃.mem (m₂.reg .ebp+4) := by
    rw [← hrun₃]
    simp [run,exec,Machine.top]
  have hesp₃ : m₃.reg .esp = m₂.reg .ebp+4+4 := by
    rw [← hrun₃]
    simp [run,exec]
  have hother₃ : ∀ r ∈ [Reg.esi,.edi,.ebx], m₃.reg r = m₁.reg r := by
    intro r hr
    rw [← hrun₃]
    simp only [List.mem_cons,List.not_mem_nil,or_false] at hr
    rcases hr with rfl | rfl | rfl <;> exact hreg₂ _ (by decide)
  rw [hebp₂] at hebp₃ heip₃ hesp₃
  refine ⟨m₃,hall,heip₃.trans hkept.2.1,?_,hebp₃.trans hkept.1,?_,?_,?_,hmem₃⟩
  · rw [hesp₃]
    bv_omega
  · exact (hother₃ .esi (by simp)).trans hesi₁
  · exact (hother₃ .edi (by simp)).trans hedi₁
  · exact (hother₃ .ebx (by simp)).trans hebx₁

/-- An interrupt saves all registers, and above the frame nothing is changed. -/
theorem interruptEntry_spec (m : Machine) (irqno : Dword) :
    ∃ m', run (interruptEntry irqno) (deliver m) = m' ∧ m'.reg .esp = m.reg .esp-60 ∧
      load m'.mem (m.reg .esp-60) = m.reg .esp-56 ∧ FrameOf m'.mem (m.reg .esp-56) m.toCpu ∧
      Set.EqOn m'.mem m.mem (span (m.reg .esp-60) 60)ᶜ := by
  let ws : List Dword := [m.eflags,(m.seg .cs).setWidth 32,m.eip]
  have hempty : Stack m [] := trivial
  have hstack : Stack (deliver m) [m.eip,(m.seg .cs).setWidth 32,m.eflags] :=
    hempty.pushes ws (by simp [ws])
  have hesp : (deliver m).reg .esp = m.reg .esp-12 := esp_pushes m ws
  have hdeliver : Set.EqOn (deliver m).mem m.mem (span (m.reg .esp-12) 12)ᶜ :=
    pushes_eqOn m ws (by simp [ws])
  obtain ⟨m₁,hrun₁,hesp₁,-,-,hframe,hmem₁⟩ := saveCode_spec irqno hstack (by simp)
  rw [hesp,show m.reg .esp-12-44 = m.reg .esp-56 by bv_omega] at hesp₁ hframe hmem₁
  have hcpu : (⟨Function.update (deliver m).reg .esp (m.reg .esp-12+12),
      Function.update (deliver m).seg .cs (((m.seg .cs).setWidth 32).setWidth 16),m.eip,
      m.eflags⟩ : Cpu) = m.toCpu := by
    refine Cpu.ext ?_ ?_ rfl rfl
    · funext r
      change Function.update (deliver m).reg .esp (m.reg .esp-12+12) r = m.reg r
      by_cases hr : r = .esp
      · subst hr
        rw [Function.update_self]
        bv_omega
      · rw [Function.update_of_ne hr]
        exact reg_pushes m ws hr
    · rw [show (deliver m).seg = m.seg from rfl]
      simp
  rw [hcpu] at hframe
  obtain ⟨m₂,hrun₂⟩ : ∃ m₂, run [.movwImm 0x10,.movwSeg .ds,.movwSeg .es,.pushl .esp] m₁ = m₂ :=
    ⟨_,rfl⟩
  have hsub : m.reg .esp-56-4 = m.reg .esp-60 := by bv_omega
  have hmem₂ : m₂.mem = store m₁.mem (m.reg .esp-60) (m.reg .esp-56) := by
    rw [← hsub,← hesp₁,← hrun₂]
    simp [run,exec,setSeg]
  have hesp₂ : m₂.reg .esp = m.reg .esp-60 := by
    rw [← hsub,← hesp₁,← hrun₂]
    simp [run,exec,setSeg]
  have hrun : run (interruptEntry irqno) (deliver m) = m₂ := by
    rw [← hrun₂,← hrun₁,← run_append]
    rfl
  refine ⟨m₂,hrun,hesp₂,?_,?_,?_⟩
  · rw [hmem₂]
    exact load_store _ _ _
  · apply hframe.congr
    rw [hmem₂]
    apply (store_eqOn _).symm
    apply span_disjoint <;> bv_omega
  · intro x hx
    have hx' : ¬ (x-(m.reg .esp-60)).toNat < 60 := hx
    have hsave : x ∉ span (m.reg .esp-56) 44 := by
      rw [mem_span]
      bv_omega
    have hhard : x ∉ span (m.reg .esp-12) 12 := by
      rw [mem_span]
      bv_omega
    have htop : x ∉ span (m.reg .esp-60) 4 := by
      rw [mem_span]
      bv_omega
    rw [hmem₂]
    exact (if_neg htop).trans ((hmem₁ hsave).trans (hdeliver hhard))

/-- The handler's code is entered with two more words on the stack. -/
theorem dispatch_spec (m : Machine) :
    (run (dispatch g) m).reg .esp = m.reg .esp-8 ∧
      Set.EqOn (run (dispatch g) m).mem m.mem (span (m.reg .esp-8) 8)ᶜ := by
  obtain ⟨m₁,hrun⟩ : ∃ m₁, run [.movl .esp .eax,.addlImm 0x2c .eax,.movlLoad 0 .eax .eax,
    .movl .eax .ecx,.shll 2 .ecx,.movlImm g.isrParam .ebx,.addl .ecx .ebx] m = m₁ := ⟨_,rfl⟩
  have hesp : m₁.reg .esp = m.reg .esp := by rw [← hrun]; rfl
  have hmem : m₁.mem = m.mem := by rw [← hrun]; rfl
  have hall : run (dispatch g) m = run [.shll 2 .eax,.movlImm g.isrTable .ebx,.addl .eax .ebx]
      ([load m₁.mem (m₁.reg .ebx),m₁.reg .eax].foldl pushed m₁) := by
    rw [← hrun]
    rfl
  obtain ⟨m₂,hpush⟩ : ∃ m₂, [load m₁.mem (m₁.reg .ebx),m₁.reg .eax].foldl pushed m₁ = m₂ := ⟨_,rfl⟩
  have hesp₂ : m₂.reg .esp = m₁.reg .esp-8 := by
    rw [← hpush]
    exact esp_pushes m₁ _
  have hmem₂ : Set.EqOn m₂.mem m₁.mem (span (m₁.reg .esp-8) 8)ᶜ := by
    rw [← hpush]
    exact pushes_eqOn m₁ _ (by simp)
  rw [hesp] at hesp₂ hmem₂
  rw [hmem] at hmem₂
  rw [hall,hpush]
  exact ⟨hesp₂,hmem₂⟩

theorem testFlag_spec (m : Machine) :
    (run (testFlag g) m).zf = (load m.mem g.threadSwitchInterruptFlag == 1) ∧
      (run (testFlag g) m).mem = m.mem ∧
      (run (testFlag g) m).reg .esp = m.reg .esp ∧
      (run (testFlag g) m).reg .eax = g.threadSwitchInterruptFlag := by
  refine ⟨?_,rfl,rfl,rfl⟩
  have hcmp := zf_cmp (run [.movlImm g.threadSwitchInterruptFlag .eax,.movlLoad 0 .eax .ebx] m) 1 .ebx
  have hebx : (run [.movlImm g.threadSwitchInterruptFlag .eax,.movlLoad 0 .eax .ebx] m).reg .ebx =
      load m.mem g.threadSwitchInterruptFlag := by simp [run,exec]
  rw [hebx] at hcmp
  exact hcmp

/-- Without a request the interrupted registers come back. -/
theorem interruptReturn_same {m : Machine} {sp : Dword} {c : Cpu} (htop : m.top = sp)
    (hflag : load m.mem g.threadSwitchInterruptFlag ≠ 1) (hframe : FrameOf m.mem sp c) :
    interruptReturn g m = {c with mem := m.mem} := by
  obtain ⟨hzf,hmem,hesp,-⟩ := testFlag_spec (g := g) m
  have hzf' : (run (testFlag g) m).zf = false := by
    rw [hzf]
    simpa using hflag
  obtain ⟨m₁,hrun⟩ : ∃ m₁, run (testFlag g) m = m₁ := ⟨_,rfl⟩
  rw [hrun] at hzf' hmem hesp
  have hframe' : FrameOf (run [.popl .esp] m₁).mem ((run [.popl .esp] m₁).reg .esp) c := by
    have hsp : (run [.popl .esp] m₁).reg .esp = load m₁.mem (m₁.reg .esp) := rfl
    have hsame : (run [.popl .esp] m₁).mem = m₁.mem := rfl
    rw [hsp,hsame,hmem,hesp]
    rw [← htop] at hframe
    exact hframe
  rw [interruptReturn,hrun,hzf',run_append,restore_spec hframe']
  simp [run,exec,hmem]

/-- With a request the address of the frame is stored for the first thread, and the registers
come from the frame of the last one. -/
theorem interruptReturn_switch {m : Machine} {sp : Dword} {c : Cpu} {mem : Memory}
    (htop : m.top = sp) (hflag : load m.mem g.threadSwitchInterruptFlag = 1)
    (hmem : mem = store (store m.mem g.threadSwitchInterruptFlag 0)
      (load (store m.mem g.threadSwitchInterruptFlag 0) g.interruptFromThread) sp)
    (hframe : FrameOf mem (load mem (load mem g.interruptToThread)) c) :
    interruptReturn g m = {c with mem := mem} := by
  obtain ⟨hzf,hmem₁,hesp,heax⟩ := testFlag_spec (g := g) m
  have hzf' : (run (testFlag g) m).zf = true := by
    rw [hzf]
    simpa using hflag
  obtain ⟨m₁,hrun⟩ : ∃ m₁, run (testFlag g) m = m₁ := ⟨_,rfl⟩
  rw [hrun] at hzf' hmem₁ hesp heax
  have hsp : load m₁.mem (m₁.reg .esp) = sp := by
    rw [hmem₁,hesp]
    exact htop
  obtain ⟨m₂,hrun₂⟩ : ∃ m₂, run [.popl .esp,.movlImm 0 .ebx,.movlStore .ebx .eax,
    .movlImm g.interruptFromThread .eax,.movlLoad 0 .eax .ebx,.movlStore .esp .ebx,
    .movlImm g.interruptToThread .ecx,.movlLoad 0 .ecx .edx,.movlLoad 0 .edx .esp] m₁ = m₂ :=
    ⟨_,rfl⟩
  have hmem₂ : m₂.mem = mem := by
    rw [← hrun₂,hmem,← hmem₁,← heax,← hsp]
    simp [run,exec,Machine.top]
  have hesp₂ : m₂.reg .esp = load m₂.mem (load m₂.mem g.interruptToThread) := by
    rw [← hrun₂]
    simp [run,exec]
  rw [← hmem₂,← hesp₂] at hframe
  rw [interruptReturn,hrun,hzf',if_pos rfl,interruptThreadSwitch,run_append,hrun₂,
    restore_spec hframe,hmem₂]

end CosKernel.ContextSwitch

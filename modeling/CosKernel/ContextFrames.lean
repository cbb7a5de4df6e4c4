import CosKernel.X86Machine

/-!
# The stack frames of the context switches

A thread that does not run has a frame on its stack from which `popal`, three
pops and `iret` restore it. The frame is laid out by hand in three places: the
initial stack, the voluntary switch and the entry of an interrupt.
-/
namespace CosKernel.ContextSwitch
open ByteMemory X86 X86.Machine

/-- The last instructions of every switch. -/
def restore : List Instr := [.popal,.pop .es,.pop .ds,.addlImm 4 .esp,.iret]

/-- The frame at `sp` holds the registers `c`. The saved stack pointer and the interrupt
number are skipped. -/
structure FrameOf (mem : Memory) (sp : Dword) (c : Cpu) : Prop where
  esp : c.reg .esp = sp+56
  words : ∃ x y es ds cs, Words mem sp [c.reg .edi,c.reg .esi,c.reg .ebp,x,c.reg .ebx,c.reg .edx,
    c.reg .ecx,c.reg .eax,es,ds,y,c.eip,cs,c.eflags] ∧
    es.setWidth 16 = c.seg .es ∧ ds.setWidth 16 = c.seg .ds ∧ cs.setWidth 16 = c.seg .cs

theorem FrameOf.congr {mem mem' : Memory} {sp : Dword} {c : Cpu} (H : FrameOf mem sp c)
    (h : Set.EqOn mem mem' (span sp 56)) : FrameOf mem' sp c := by
  obtain ⟨x,y,es,ds,cs,hw,hseg⟩ := H.words
  exact ⟨H.esp,x,y,es,ds,cs,hw.congr (by simp) h,hseg⟩

theorem restore_spec {m : Machine} {c : Cpu} (H : FrameOf m.mem (m.reg .esp) c) :
    run restore m = {c with mem := m.mem} := by
  obtain ⟨hesp,x,y,es,ds,cs,hw,hes,hds,hcs⟩ := H
  obtain ⟨hedi,hesi,hebp,-,hebx,hedx,hecx,heax,hes',hds',-,heip,hcs',hflags,-⟩ := hw
  have hreg : (run restore m).reg = c.reg := by
    funext r
    cases r with
    | eax => exact heax
    | ecx => exact hecx
    | edx => exact hedx
    | ebx => exact hebx
    | esp =>
        rw [hesp]
        change m.reg .esp+4+4+4+4+4+4+4+4+4+4+4+4+4+4 = _
        bv_omega
    | ebp => exact hebp
    | esi => exact hesi
    | edi => exact hedi
  have hseg : (run restore m).seg = c.seg := by
    funext s
    cases s with
    | cs => exact (congrArg _ hcs').trans hcs
    | ds => exact (congrArg _ hds').trans hds
    | es => exact (congrArg _ hes').trans hes
  exact Machine.ext hreg hseg heip hflags rfl

/-- The part of a frame that is pushed by software in every case, with the interrupt number. -/
def saveCode (irqno : Dword) : List Instr := [.pushlImm irqno,.push .ds,.push .es,.pushal]

/-- The words that it pushes. -/
def saveWords (m : Machine) (irqno : Dword) : List Dword :=
  [irqno,(m.seg .ds).setWidth 32,(m.seg .es).setWidth 32,m.reg .eax,m.reg .ecx,m.reg .edx,
    m.reg .ebx,m.reg .esp-12,m.reg .ebp,m.reg .esi,m.reg .edi]

theorem run_saveCode (m : Machine) (irqno : Dword) :
    run (saveCode irqno) m = (saveWords m irqno).foldl pushed m := by
  have hesp : m.reg .esp-4-4-4 = m.reg .esp-12 := by bv_omega
  simp only [run,saveCode,saveWords,List.foldl_cons,List.foldl_nil,exec,seg_pushed,esp_pushed,
    reg_pushed _ _ (show Reg.eax ≠ .esp by decide),reg_pushed _ _ (show Reg.ecx ≠ .esp by decide),
    reg_pushed _ _ (show Reg.edx ≠ .esp by decide),reg_pushed _ _ (show Reg.ebx ≠ .esp by decide),
    reg_pushed _ _ (show Reg.ebp ≠ .esp by decide),reg_pushed _ _ (show Reg.esi ≠ .esp by decide),
    reg_pushed _ _ (show Reg.edi ≠ .esp by decide),hesp]

/-- On top of the three words that `iret` takes, the code completes a frame of the registers. -/
theorem saveCode_spec {m : Machine} {eip cs eflags : Dword} {ws : List Dword} (irqno : Dword)
    (h : Stack m (eip::cs::eflags::ws)) (hn : ws.length ≤ 2) :
    ∃ m', run (saveCode irqno) m = m' ∧ m'.reg .esp = m.reg .esp-44 ∧
      (∀ r, r ≠ .esp → m'.reg r = m.reg r) ∧ Words m'.mem (m.reg .esp+12) ws ∧
      FrameOf m'.mem (m.reg .esp-44) ⟨Function.update m.reg .esp (m.reg .esp+12),
        Function.update m.seg .cs (cs.setWidth 16),eip,eflags⟩ ∧
      Set.EqOn m'.mem m.mem (span (m.reg .esp-44) 44)ᶜ := by
  have hlen : (saveWords m irqno).length = 11 := rfl
  have hesp : ((saveWords m irqno).foldl pushed m).reg .esp = m.reg .esp-44 :=
    esp_pushes m (saveWords m irqno)
  have hstack := h.pushes (saveWords m irqno) (by simp only [hlen,List.length_cons]; omega)
  have hwords : Words ((saveWords m irqno).foldl pushed m).mem (m.reg .esp-44)
      (((saveWords m irqno).reverse++[eip,cs,eflags])++ws) := by
    rw [← hesp,List.append_assoc]
    exact hstack
  rw [words_append] at hwords
  refine ⟨_,run_saveCode m irqno,hesp,fun r hr => reg_pushes m _ hr,?_,⟨?_,?_⟩,?_⟩
  · have hadd : m.reg .esp-44+BitVec.ofNat 32 (4*14) = m.reg .esp+12 := by bv_omega
    rw [← hadd]
    exact hwords.2
  · change m.reg .esp+12 = _
    bv_omega
  · refine ⟨_,_,_,_,_,hwords.1,?_,?_,?_⟩
    · simp
    · simp
    · simp
  · exact pushes_eqOn m _ (by simp [hlen])

/-- What `arch_context_switch` saves: the stack pointer and the instruction pointer as after a
return, but also the flags in `eax` and the return address in `ebx`. -/
def returned (m : Machine) : Cpu where
  reg
    | .eax => m.eflags
    | .ebx => m.top
    | .esp => m.reg .esp+4
    | r => m.reg r
  seg := m.seg
  eip := m.top
  eflags := m.eflags

/-- The code of `arch_context_switch` before the stacks change. -/
def switchSave : List Instr :=
  [.pushfl,.popl .eax,.popl .ebx,.pushl .eax,.push .cs,.pushl .ebx,
    .pushlImm 0,.push .ds,.push .es,.pushal]

/-- The arguments are the addresses of the `sp_` of the two threads. -/
def switchStacks : List Instr :=
  [.movlLoad 0x3c .esp .eax,.movlLoad 0x38 .esp .ebx,.movlStore .esp .ebx,.movlLoad 0 .eax .esp]

/-- `arch_context_switch(from, to)`. -/
def archContextSwitch (m : Machine) : Machine := run (switchSave++switchStacks++restore) m

/-- `arch_context_switch_to(to)`. -/
def archContextSwitchTo (m : Machine) : Machine :=
  run ([.pushl .ebp,.movl .esp .ebp,.movlLoad 8 .ebp .eax,.movlLoad 0 .eax .esp]++restore) m

/-- The return address makes room for the flags. -/
theorem reorder_spec {m : Machine} {ret : Dword} {ws : List Dword} (h : Stack m (ret::ws))
    (hn : ws.length ≤ 2) :
    ∃ m', run [.pushfl,.popl .eax,.popl .ebx,.pushl .eax,.push .cs,.pushl .ebx] m = m' ∧
      Stack m' (ret::(m.seg .cs).setWidth 32::m.eflags::ws) ∧ m'.reg .esp = m.reg .esp-8 ∧
      Function.update m'.reg .esp (m.reg .esp+4) = (returned m).reg ∧ m'.seg = m.seg ∧
      Set.EqOn m'.mem m.mem (span (m.reg .esp-8) 12)ᶜ := by
  have hflags : Stack (m.pushed m.eflags) (m.eflags::ret::ws) :=
    h.pushed (by simp only [List.length_cons]; omega) _
  obtain ⟨m₂,hm₂⟩ : ∃ m₂, run [.pushfl,.popl .eax,.popl .ebx] m = m₂ := ⟨_,rfl⟩
  have heax : m₂.reg .eax = m.eflags := by
    rw [← hm₂]
    exact hflags.top
  have hebx : m₂.reg .ebx = ret := by
    rw [← hm₂]
    exact hflags.popped.top
  have hesp : m₂.reg .esp = m.reg .esp+4 := by
    rw [← hm₂]
    change m.reg .esp-4+4+4 = _
    bv_omega
  have hother : ∀ r, r ≠ .eax → r ≠ .ebx → r ≠ .esp → m₂.reg r = m.reg r := by
    rw [← hm₂]
    intro r h₁ h₂ h₃
    cases r <;> first | rfl | contradiction
  have hseg : m₂.seg = m.seg := by rw [← hm₂]; rfl
  have hmem : Set.EqOn m₂.mem m.mem (span (m.reg .esp-4) 4)ᶜ := by
    rw [← hm₂]
    exact store_eqOn disjoint_compl_left
  have hstack : Stack m₂ ws := by
    rw [← hm₂]
    exact hflags.popped.popped
  have hrun : run [.pushfl,.popl .eax,.popl .ebx,.pushl .eax,.push .cs,.pushl .ebx] m =
      [m.eflags,(m.seg .cs).setWidth 32,ret].foldl pushed m₂ := by
    change run [.pushl .eax,.push .cs,.pushl .ebx] (run [.pushfl,.popl .eax,.popl .ebx] m) = _
    rw [hm₂]
    simp only [run,List.foldl_cons,List.foldl_nil,exec,seg_pushed,hseg,heax,
      reg_pushed _ _ (show Reg.ebx ≠ .esp by decide),hebx]
  refine ⟨_,hrun,hstack.pushes _ (by simp only [List.length_cons,List.length_nil]; omega),?_,?_,?_,?_⟩
  · rw [esp_pushes,hesp]
    change m.reg .esp+4-12 = _
    bv_omega
  · funext r
    by_cases hr : r = .esp
    · subst hr
      rfl
    · rw [Function.update_of_ne hr,reg_pushes _ _ hr]
      cases r with
      | eax => exact heax
      | ebx => exact hebx.trans h.top.symm
      | esp => contradiction
      | ecx => exact hother _ (by decide) (by decide) (by decide)
      | edx => exact hother _ (by decide) (by decide) (by decide)
      | ebp => exact hother _ (by decide) (by decide) (by decide)
      | esi => exact hother _ (by decide) (by decide) (by decide)
      | edi => exact hother _ (by decide) (by decide) (by decide)
  · exact hseg
  · intro x hx
    have hpush := pushes_eqOn m₂ [m.eflags,(m.seg .cs).setWidth 32,ret] (by simp)
    rw [hesp] at hpush
    have hx' : ¬ (x-(m.reg .esp-8)).toNat < 12 := hx
    refine (hpush ?_).trans (hmem ?_)
    · change ¬ (x-(m.reg .esp+4-12)).toNat < 12
      bv_omega
    · change ¬ (x-(m.reg .esp-4)).toNat < 4
      bv_omega

/-- The frame that a voluntary switch leaves on the stack, below its arguments. -/
theorem switchSave_spec {m : Machine} {ret : Dword} {ws : List Dword} (h : Stack m (ret::ws))
    (hn : ws.length ≤ 2) :
    ∃ m', run switchSave m = m' ∧ m'.reg .esp = m.reg .esp-52 ∧
      Words m'.mem (m.reg .esp+4) ws ∧ FrameOf m'.mem (m.reg .esp-52) (returned m) ∧
      Set.EqOn m'.mem m.mem (span (m.reg .esp-52) 56)ᶜ := by
  obtain ⟨m₁,hrun₁,hstack,hesp₁,hreg,hseg,hmem₁⟩ := reorder_spec h hn
  obtain ⟨m₂,hrun₂,hesp₂,-,hargs,hframe,hmem₂⟩ := saveCode_spec 0 hstack hn
  have hrun : run switchSave m = m₂ := by
    rw [← hrun₂,← hrun₁,← run_append]
    rfl
  have hsub : m.reg .esp-8-44 = m.reg .esp-52 := by bv_omega
  have hadd : m.reg .esp-8+12 = m.reg .esp+4 := by bv_omega
  rw [hesp₁] at hargs hframe hesp₂ hmem₂
  rw [hadd] at hargs hframe
  rw [hsub] at hframe hesp₂ hmem₂
  refine ⟨m₂,hrun,hesp₂,hargs,?_,?_⟩
  · have hcpu : (⟨Function.update m₁.reg .esp (m.reg .esp+4),
        Function.update m₁.seg .cs (((m.seg .cs).setWidth 32).setWidth 16),ret,m.eflags⟩ : Cpu) =
        returned m := by
      refine Cpu.ext hreg ?_ h.top.symm rfl
      rw [hseg]
      simp [returned]
    rw [← hcpu]
    exact hframe
  · intro x hx
    have hx' : ¬ (x-(m.reg .esp-52)).toNat < 56 := hx
    refine (hmem₂ ?_).trans (hmem₁ ?_)
    · change ¬ (x-(m.reg .esp-52)).toNat < 44
      bv_omega
    · change ¬ (x-(m.reg .esp-8)).toNat < 12
      bv_omega

theorem switchStacks_spec (m : Machine) :
    (run switchStacks m).mem = store m.mem (load m.mem (m.reg .esp+0x38)) (m.reg .esp) ∧
      (run switchStacks m).reg .esp =
        load (run switchStacks m).mem (load m.mem (m.reg .esp+0x3c)) := by
  constructor <;> simp [run,switchStacks,exec]

/-- `arch_context_switch` stores the address of the frame it has made and restores the registers
from the frame of the other thread. -/
theorem archContextSwitch_spec {m : Machine} {ret from_ to_ : Dword}
    (h : Stack m [ret,from_,to_]) :
    ∃ mem, FrameOf mem (m.reg .esp-52) (returned m) ∧
      Set.EqOn mem m.mem (span (m.reg .esp-52) 56)ᶜ ∧
      ∀ mem' c, mem' = store mem from_ (m.reg .esp-52) → FrameOf mem' (load mem' to_) c →
        archContextSwitch m = {c with mem := mem'} := by
  obtain ⟨m₁,hrun,hesp,hargs,hframe,hmem⟩ := switchSave_spec h (by simp)
  refine ⟨m₁.mem,hframe,hmem,?_⟩
  rintro mem' c rfl hnext
  obtain ⟨hstore,hload⟩ := switchStacks_spec m₁
  have hfrom : load m₁.mem (m₁.reg .esp+0x38) = from_ := by
    rw [hesp,show m.reg .esp-52+0x38 = m.reg .esp+4 by bv_omega]
    exact hargs.1
  have hto : load m₁.mem (m₁.reg .esp+0x3c) = to_ := by
    rw [hesp,show m.reg .esp-52+0x3c = m.reg .esp+4+4 by bv_omega]
    exact hargs.2.1
  rw [hfrom,hesp] at hstore
  rw [hto] at hload
  rw [← hstore,← hload] at hnext
  rw [archContextSwitch,run_append,run_append,hrun,restore_spec hnext,hstore]

theorem archContextSwitchTo_spec {m : Machine} {ret to_ : Dword} {c : Cpu} {mem : Memory}
    (h : Stack m [ret,to_]) (hmem : mem = store m.mem (m.reg .esp-4) (m.reg .ebp))
    (hnext : FrameOf mem (load mem to_) c) : archContextSwitchTo m = {c with mem := mem} := by
  have hpush := h.pushed (by simp) (m.reg .ebp)
  have hto : load mem (m.reg .esp-4+8) = to_ := by
    rw [hmem,show m.reg .esp-4+8 = m.reg .esp-4+4+4 by bv_omega]
    exact hpush.popped.popped.top
  obtain ⟨m',hrun⟩ : ∃ m', run
    [.pushl .ebp,.movl .esp .ebp,.movlLoad 8 .ebp .eax,.movlLoad 0 .eax .esp] m = m' := ⟨_,rfl⟩
  have hmem' : m'.mem = mem := by
    rw [← hrun,hmem]
    rfl
  have hesp : m'.reg .esp = load mem to_ := by
    rw [← hrun,← hto,hmem]
    simp [run,exec]
  rw [← hesp,← hmem'] at hnext
  rw [archContextSwitchTo,run_append,hrun,restore_spec hnext,hmem']

/-- The frame that `arch_stack_init` writes, from the highest address, under the argument of
`tentry` and the address that it returns to. -/
def stackWords (tentry parameter texit : Dword) : List Dword :=
  [parameter,texit,0x200,0x08,tentry,0,0x10,0x10,0,0,0,0,0,0,0,0]

/-- `arch_stack_init`, which returns the address of the frame. -/
def archStackInit (mem : Memory) (tentry parameter stackAddr texit : Dword) : Memory × Dword :=
  pushes mem stackAddr (stackWords tentry parameter texit)

/-- The registers with which a thread starts. -/
def initial (tentry stackAddr : Dword) : Cpu where
  reg
    | .esp => stackAddr-8
    | _ => 0
  seg
    | .cs => 0x08
    | .ds => 0x10
    | .es => 0x10
  eip := tentry
  eflags := 0x200

theorem archStackInit_spec (mem : Memory) (tentry parameter stackAddr texit : Dword) :
    ∃ mem', archStackInit mem tentry parameter stackAddr texit = (mem',stackAddr-64) ∧
      FrameOf mem' (stackAddr-64) (initial tentry stackAddr) ∧
      Words mem' (stackAddr-8) [texit,parameter] ∧
      Set.EqOn mem' mem (span (stackAddr-64) 64)ᶜ := by
  let ws := stackWords tentry parameter texit
  have haddress : (pushes mem stackAddr ws).2 = stackAddr-64 := pushes_address mem stackAddr ws
  have hwords : Words (pushes mem stackAddr ws).1 (pushes mem stackAddr ws).2 (ws.reverse++[]) :=
    Words.pushes ws (by simp [ws,stackWords]) trivial
  rw [haddress,List.append_nil] at hwords
  have hsplit : ws.reverse = [0,0,0,0,0,0,0,0,0x10,0x10,0,tentry,0x08,0x200]++[texit,parameter] :=
    rfl
  rw [hsplit,words_append] at hwords
  refine ⟨(pushes mem stackAddr ws).1,?_,⟨?_,?_⟩,?_,?_⟩
  · rw [← haddress]
    rfl
  · change stackAddr-8 = stackAddr-64+56
    bv_omega
  · exact ⟨_,_,_,_,_,hwords.1,rfl,rfl,rfl⟩
  · have hadd : stackAddr-64+BitVec.ofNat 32 (4*14) = stackAddr-8 := by bv_omega
    rw [← hadd]
    exact hwords.2
  · exact ByteMemory.pushes_eqOn mem stackAddr ws (by simp [ws,stackWords])

end CosKernel.ContextSwitch

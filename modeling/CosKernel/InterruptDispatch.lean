import CosKernel.InterruptFrames
import CosKernel.InterruptRouting

/-!
# The call of an interrupt handler

The entry of an interrupt pushes its number and the registers. Behind `interrupt_enter` the code
reads the number back from above the registers and takes the handler and its parameter from the two
tables. Together with the routes this is the whole way from a line of a device to its handler.
-/
namespace CosKernel.InterruptRouting
open ByteMemory X86 X86.Machine ContextSwitch

variable {g : Globals} {s : State}

/-- The tables of the handlers stand in the memory. -/
structure Tables (g : Globals) (s : State) (mem : Memory) : Prop where
  table : ∀ i < MAX_HANDLERS, load mem (g.isrTable+BitVec.ofNat 32 i<<<2) = s.isr_table i
  param : ∀ i < MAX_HANDLERS, load mem (g.isrParam+BitVec.ofNat 32 i<<<2) = s.isr_param i

/-- The entry leaves its number above the saved registers. -/
theorem interruptEntry_number (m : Machine) (irqno : Dword) :
    load (run (interruptEntry irqno) (deliver m)).mem (m.reg .esp-16) = irqno := by
  obtain ⟨m₁,hm₁⟩ : ∃ m₁, (deliver m).pushed irqno = m₁ := ⟨_,rfl⟩
  have hesp : (deliver m).reg .esp = m.reg .esp-12 :=
    esp_pushes m [m.eflags,(m.seg .cs).setWidth 32,m.eip]
  have hesp₁ : m₁.reg .esp = m.reg .esp-16 := by
    rw [← hm₁,esp_pushed,hesp]
    bv_omega
  have hload₁ : load m₁.mem (m.reg .esp-16) = irqno := by
    rw [← hesp₁,← hm₁,esp_pushed,mem_pushed]
    exact load_store _ _ _
  -- ten words of registers, and the stack pointer itself
  have hpushal : ∀ x : Machine, ∃ vs : List Dword, vs.length = 8 ∧
      run [.pushal] x = vs.foldl pushed x :=
    fun x => ⟨[x.reg .eax,x.reg .ecx,x.reg .edx,x.reg .ebx,x.reg .esp,x.reg .ebp,x.reg .esi,
      x.reg .edi],rfl,by simp only [run,exec,List.foldl_cons,List.foldl_nil]⟩
  obtain ⟨vs,hlength,hrun₂⟩ : ∃ vs : List Dword, vs.length = 10 ∧
      run [.push .ds,.push .es,.pushal] m₁ = vs.foldl pushed m₁ := by
    obtain ⟨vs,hlength,hvs⟩ := hpushal (run [.push .ds,.push .es] m₁)
    refine ⟨[(m₁.seg .ds).setWidth 32,(m₁.seg .es).setWidth 32]++vs,by simp [hlength],?_⟩
    have hsegs : run [.push .ds,.push .es] m₁ =
        [(m₁.seg .ds).setWidth 32,(m₁.seg .es).setWidth 32].foldl pushed m₁ := rfl
    rw [show [Instr.push .ds,.push .es,.pushal] = [.push .ds,.push .es]++[.pushal] from rfl,
      run_append,hvs,hsegs,List.foldl_append]
  obtain ⟨m₂,hm₂⟩ : ∃ m₂, vs.foldl pushed m₁ = m₂ := ⟨_,rfl⟩
  have hesp₂ : m₂.reg .esp = m.reg .esp-56 := by
    rw [← hm₂,esp_pushes,hlength,hesp₁]
    bv_omega
  have hmem₂ := pushes_eqOn m₁ vs (by omega)
  rw [hm₂,hlength,hesp₁] at hmem₂
  have hall : run (interruptEntry irqno) (deliver m) =
      run [.movwImm 0x10,.movwSeg .ds,.movwSeg .es,.pushl .esp] m₂ := by
    have hlist : interruptEntry irqno = [.pushlImm irqno]++([.push .ds,.push .es,.pushal]++
        [.movwImm 0x10,.movwSeg .ds,.movwSeg .es,.pushl .esp]) := rfl
    have hfirst : run [.pushlImm irqno] (deliver m) = m₁ := hm₁
    rw [hlist,run_append,run_append,hfirst,hrun₂,hm₂]
  have hmem : (run (interruptEntry irqno) (deliver m)).mem =
      store m₂.mem (m₂.reg .esp-4) (m₂.reg .esp) := by
    rw [hall]
    simp [run,exec,setSeg]
  rw [hmem,hesp₂,load_store_of_disjoint (by apply span_disjoint <;> bv_omega),← hload₁]
  apply load_congr
  apply hmem₂.mono
  intro x hx hx'
  rw [mem_span] at hx hx'
  bv_omega

/-- The code behind `interrupt_enter` calls the handler of its number, with its two arguments. -/
theorem dispatch_calls {m : Machine} {i : ℕ} (hi : i < MAX_HANDLERS)
    (hnumber : load m.mem (m.reg .esp+0x2c) = BitVec.ofNat 32 i) (T : Tables g s m.mem)
    (hfree : Disjoint (span (g.isrTable+BitVec.ofNat 32 i<<<2) 4) (span (m.reg .esp-8) 8)) :
    load (run (dispatch g) m).mem ((run (dispatch g) m).reg .ebx) = s.isr_table i ∧
      Stack (run (dispatch g) m) [BitVec.ofNat 32 i,s.isr_param i] := by
  obtain ⟨m₁,hrun⟩ : ∃ m₁, run [.movl .esp .eax,.addlImm 0x2c .eax,.movlLoad 0 .eax .eax,
    .movl .eax .ecx,.shll 2 .ecx,.movlImm g.isrParam .ebx,.addl .ecx .ebx] m = m₁ := ⟨_,rfl⟩
  have hesp : m₁.reg .esp = m.reg .esp := by rw [← hrun]; rfl
  have hmem : m₁.mem = m.mem := by rw [← hrun]; rfl
  have heax : m₁.reg .eax = BitVec.ofNat 32 i := by
    rw [← hnumber,← hrun]
    simp [run,exec]
  have hebx : m₁.reg .ebx = g.isrParam+BitVec.ofNat 32 i<<<2 := by
    rw [← hnumber,← hrun]
    simp [run,exec]
  have hparam : load m₁.mem (m₁.reg .ebx) = s.isr_param i := by
    rw [hmem,hebx,T.param i hi]
  have hall : run (dispatch g) m = run [.shll 2 .eax,.movlImm g.isrTable .ebx,.addl .eax .ebx]
      ([load m₁.mem (m₁.reg .ebx),m₁.reg .eax].foldl pushed m₁) := by
    rw [← hrun]
    rfl
  rw [hparam,heax] at hall
  obtain ⟨m₂,hpush⟩ : ∃ m₂, [s.isr_param i,BitVec.ofNat 32 i].foldl pushed m₁ = m₂ := ⟨_,rfl⟩
  have hempty : Stack m₁ [] := trivial
  have hstack : Stack m₂ [BitVec.ofNat 32 i,s.isr_param i] := by
    rw [← hpush]
    exact hempty.pushes [s.isr_param i,BitVec.ofNat 32 i] (by simp)
  have heax₂ : m₂.reg .eax = BitVec.ofNat 32 i := by
    rw [← hpush,reg_pushes _ _ (by decide),heax]
  have hmem₂ : Set.EqOn m₂.mem m.mem (span (m.reg .esp-8) 8)ᶜ := by
    rw [← hpush,← hmem,← hesp]
    exact pushes_eqOn m₁ _ (by simp)
  rw [hall,hpush]
  refine ⟨?_,hstack⟩
  have hebx₂ : (run [.shll 2 .eax,.movlImm g.isrTable .ebx,.addl .eax .ebx] m₂).reg .ebx =
      g.isrTable+BitVec.ofNat 32 i<<<2 := by
    rw [← heax₂]
    simp [run,exec]
  rw [hebx₂,← T.table i hi]
  exact load_congr (hmem₂.mono hfree.subset_compl_right)

/-- The machine code calls `handler` with the arguments `i` and `param`: the interrupted machine is
any, and `interrupt_enter` keeps the stack above it and the tables. -/
def Dispatches (g : Globals) (s : State) (handler : Dword) (i : ℕ) (param : Dword) : Prop :=
  ∀ m m₁ : Machine, m₁.reg .esp = m.reg .esp-60 →
    Set.EqOn m₁.mem (run (interruptEntry (BitVec.ofNat 32 i)) (deliver m)).mem
      (span (m.reg .esp-60) 60) →
    Tables g s m₁.mem → Disjoint (span g.isrTable 64) (span (m.reg .esp-68) 8) →
    load (run (dispatch g) m₁).mem ((run (dispatch g) m₁).reg .ebx) = handler ∧
      Stack (run (dispatch g) m₁) [BitVec.ofNat 32 i,param]

/-- The entry of a line calls what the tables hold for it. -/
theorem dispatches_tables (g : Globals) (s : State) {i : ℕ} (hi : i < MAX_HANDLERS) :
    Dispatches g s (s.isr_table i) i (s.isr_param i) := by
  intro m m₁ hesp hframe T hfree
  have hnumber : load m₁.mem (m₁.reg .esp+0x2c) = BitVec.ofNat 32 i := by
    have haddress : m₁.reg .esp+0x2c = m.reg .esp-16 := by
      rw [hesp]
      bv_omega
    have hinside : span (m.reg .esp-16) 4 ⊆ span (m.reg .esp-60) 60 :=
      span_subset (by bv_omega)
    rw [haddress,load_congr (hframe.mono hinside)]
    exact interruptEntry_number m _
  have hentry : span (g.isrTable+BitVec.ofNat 32 i<<<2) 4 ⊆ span g.isrTable 64 := by
    apply span_subset
    have hoffset : (BitVec.ofNat 32 i<<<2).toNat = 4*i := by
      simp only [MAX_HANDLERS] at hi
      simp only [BitVec.toNat_shiftLeft,BitVec.toNat_ofNat,Nat.shiftLeft_eq]
      omega
    have hsub : g.isrTable+BitVec.ofNat 32 i<<<2-g.isrTable = BitVec.ofNat 32 i<<<2 := by
      rw [BitVec.add_comm,BitVec.add_sub_cancel]
    rw [hsub,hoffset]
    simp only [MAX_HANDLERS] at hi
    omega
  refine dispatch_calls hi hnumber T (hfree.mono_left hentry |>.mono_right (subset_of_eq ?_))
  rw [hesp]
  congr 1
  bv_omega

/-- After `arch_interrupt_init` and any calls of the drivers, a request on a line leads to the
handler that was installed last on it, with its number and its parameter, as long as the line is
enabled, and with a line of the second controller also line 2. The entry of the line then calls this
handler with these arguments. -/
theorem requests_run_the_installed_handler (e : Entries) (g : Globals)
    (hmask : s.irq_mask_8259A = 0xFFFF) (cs : List Call) :
    ∃ s₁, archInterruptInit e s = some s₁ ∧
      (cs.foldlM step s₁ = none ∧ cs.foldlM Routes.step (.initial e s) = none ∨
        ∃ s' r, cs.foldlM step s₁ = some s' ∧ cs.foldlM Routes.step (.initial e s) = some r ∧
          ∀ n < 16, request e s' n = r.request n ∧ ∀ handler i param,
            r.request n = some (handler,i,param) → Dispatches g s' handler i param) := by
  obtain ⟨s₁,hs₁,hnone | ⟨s',r,hs,hr,H⟩⟩ := run_realises e hmask cs
  · exact ⟨s₁,hs₁,.inl hnone⟩
  · refine ⟨s₁,hs₁,.inr ⟨s',r,hs,hr,fun n hn => ⟨H.request hn,fun handler i param h => ?_⟩⟩⟩
    unfold Routes.request at h
    split_ifs at h
    cases h
    rw [← H.handler n hn,← H.param n hn]
    exact dispatches_tables g s' hn

theorem requests_run_the_installed_handler_twoDrivers :
    (twoDrivers.foldlM Routes.step (.initial someEntries booted)).map
      (fun r => (r.request 1,r.request 12)) = some (none,some (0x6000,12,9)) ∧
    ∃ s₁, archInterruptInit someEntries booted = some s₁ ∧
      (twoDrivers.foldlM step s₁ = none ∧
          twoDrivers.foldlM Routes.step (.initial someEntries booted) = none ∨
        ∃ s' r, twoDrivers.foldlM step s₁ = some s' ∧
          twoDrivers.foldlM Routes.step (.initial someEntries booted) = some r ∧
          ∀ n < 16, request someEntries s' n = r.request n ∧ ∀ handler i param,
            r.request n = some (handler,i,param) →
              Dispatches ⟨0x100,0x104,0x108,0x200,0x300⟩ s' handler i param) :=
  ⟨by decide +kernel,requests_run_the_installed_handler someEntries _ rfl twoDrivers⟩

end CosKernel.InterruptRouting

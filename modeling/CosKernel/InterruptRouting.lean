import CosKernel.ByteMemory
import CosKernel.Pic8259
import CosKernel.TransitionRuns

/-!
# The way of an interrupt to its handler

`interrupt.cpp` programs the two controllers, keeps a copy of their masks, builds the descriptor
table of the processor and keeps the table of the handlers. A request on a line takes effect through
all of them: the controllers give a vector, the gate of the vector gives the entry, and the entry
calls the handler of its number.
-/
namespace CosKernel.InterruptRouting
open ByteMemory (Dword)
open Pic8259 TransitionRuns

section model

def MAX_HANDLERS : ℕ := 16

def IRQ_OFFSET : ℕ := 0x20

def IRQ_SLAVE : ℕ := 2

def INT2 : ℤ := 2

def IO_PIC1 : ℕ := 0x20

def IO_PIC2 : ℕ := 0xa0

/-- The selector of the kernel's text. -/
def GD_KT : BitVec 16 := 0x08

def STS_IG32 : BitVec 4 := 0xe

def STS_TG32 : BitVec 4 := 0xf

structure Gatedesc where
  gd_off_15_0 : BitVec 16
  gd_ss : BitVec 16
  gd_args : BitVec 5
  gd_rsv1 : BitVec 3
  gd_type : BitVec 4
  gd_s : BitVec 1
  gd_dpl : BitVec 2
  gd_p : BitVec 1
  gd_off_31_16 : BitVec 16

/-- `SETGATE`. -/
def setgate (istrap : Bool) (sel : BitVec 16) (off : Dword) (dpl : BitVec 2) : Gatedesc where
  gd_off_15_0 := (off &&& 0xffff).setWidth 16
  gd_ss := sel
  gd_args := 0
  gd_rsv1 := 0
  gd_type := if istrap then STS_TG32 else STS_IG32
  gd_s := 0
  gd_dpl := dpl
  gd_p := 1
  gd_off_31_16 := (off>>>16).setWidth 16

/-- Where the processor goes through a gate that is present. -/
def Gatedesc.target (g : Gatedesc) : Option (BitVec 16 × Dword) :=
  if g.gd_p = 1 ∧ g.gd_s = 0 ∧ (g.gd_type = STS_IG32 ∨ g.gd_type = STS_TG32) then
    some (g.gd_ss,g.gd_off_31_16++g.gd_off_15_0)
  else none

/-- Where the linker has put the entries. No two interrupts share one. -/
structure Entries where
  Xdefault : Dword
  trap_func : ℕ → Dword
  hdinterrupt_func : ℕ → Dword
  arch_interrupt_handle : Dword
  distinct : ∀ i j, i < MAX_HANDLERS → j < MAX_HANDLERS →
    hdinterrupt_func i = hdinterrupt_func j → i = j

structure State where
  isr_table : ℕ → Dword
  isr_param : ℕ → Dword
  irq_mask_8259A : BitVec 16
  idt : ℕ → Gatedesc
  interrupt_nest : BitVec 32
  pics : Pair

/-- The loop that sets the `n` entries from `offset` on. -/
def fill {α : Type} (offset n : ℕ) (f : ℕ → α) (table : ℕ → α) : ℕ → α :=
  (List.range n).foldl (fun table i => Function.update table (offset+i) (f i)) table

def outb (p : Pair) (port : ℕ) (v : BitVec 8) : Pair :=
  if port = IO_PIC1 then {p with master := p.master.command v}
  else if port = IO_PIC1+1 then {p with master := p.master.data v}
  else if port = IO_PIC2 then {p with slave := p.slave.command v}
  else if port = IO_PIC2+1 then {p with slave := p.slave.data v}
  else p

/-- The two bytes of the mask go to the two controllers. -/
def outMask (p : Pair) (mask : BitVec 16) : Pair :=
  outb (outb p (IO_PIC1+1) (mask.setWidth 8)) (IO_PIC2+1) ((mask>>>8).setWidth 8)

def archIdtInit (e : Entries) (s : State) : State :=
  let idt := fill 0 256 (fun _ => setgate false GD_KT e.Xdefault 0) s.idt
  let idt := fill 0 16 (fun i => setgate false GD_KT (e.trap_func i) 0) idt
  let idt := Function.update idt 3 (setgate false GD_KT (e.trap_func 3) 3)
  let idt := fill IRQ_OFFSET MAX_HANDLERS
    (fun i => setgate false GD_KT (e.hdinterrupt_func i) 0) idt
  {s with
    isr_table := fill 0 MAX_HANDLERS (fun _ => e.arch_interrupt_handle) s.isr_table
    idt := idt}

def archPicInit (s : State) : State :=
  let words : List (ℕ × BitVec 8) :=
    [(IO_PIC1,0x11),(IO_PIC1+1,BitVec.ofNat 8 IRQ_OFFSET),(IO_PIC1+1,1<<<IRQ_SLAVE),
      (IO_PIC1+1,0x3),(IO_PIC1+1,0xff),(IO_PIC1,0x68),(IO_PIC1,0x0a),
      (IO_PIC2,0x11),(IO_PIC2+1,BitVec.ofNat 8 (IRQ_OFFSET+8)),(IO_PIC2+1,BitVec.ofNat 8 IRQ_SLAVE),
      (IO_PIC2+1,0x3),(IO_PIC2+1,0xff),(IO_PIC2,0x68),(IO_PIC2,0x0a)]
  let pics := words.foldl (fun p w => outb p w.1 w.2) s.pics
  let pics := if s.irq_mask_8259A ≠ 0xFFFF then outMask pics s.irq_mask_8259A else pics
  {s with pics := pics, interrupt_nest := 0}

def setMask (s : State) (mask : BitVec 32) : State :=
  {s with irq_mask_8259A := mask.setWidth 16, pics := outMask s.pics (mask.setWidth 16)}

/-- A shift by a negative number or by the width of an `int` is undefined. -/
def archInterruptUmask (s : State) (vector : ℤ) : Option State :=
  if 0 ≤ vector ∧ vector < 32 then
    some (setMask s (s.irq_mask_8259A.setWidth 32 &&& ~~~(1#32<<<vector.toNat)))
  else none

def archInterruptMask (s : State) (vector : ℤ) : Option State :=
  if 0 ≤ vector ∧ vector < 32 then
    some (setMask s (s.irq_mask_8259A.setWidth 32 ||| 1#32<<<vector.toNat))
  else none

def archInterruptInit (e : Entries) (s : State) : Option State :=
  archInterruptUmask (archPicInit (archIdtInit e s)) INT2

/-- The result is the handler before the call. It is indeterminate for a vector behind the table,
and a negative vector is an access in front of it. -/
def archInterruptInstall (s : State) (vector : ℤ) (new_handler param : Dword) :
    Option (State × Option Dword) :=
  if vector < MAX_HANDLERS then
    if vector < 0 then none else
      let old_handler := s.isr_table vector.toNat
      let s := {s with isr_param := Function.update s.isr_param vector.toNat param}
      let s := if new_handler ≠ 0 then
        {s with isr_table := Function.update s.isr_table vector.toNat new_handler} else s
      some (s,some old_handler)
  else some (s,none)

inductive Call where
  | umask (vector : ℤ)
  | mask (vector : ℤ)
  | install (vector : ℤ) (new_handler param : Dword)
  | interrupt (n : ℕ)

/-- Calls of the drivers, and interrupts of the devices between them. -/
def step (s : State) : Call → Option State
  | .umask vector => archInterruptUmask s vector
  | .mask vector => archInterruptMask s vector
  | .install vector new_handler param =>
      (archInterruptInstall s vector new_handler param).map Prod.fst
  | .interrupt n => some {s with pics := s.pics.acknowledge n}

/-- The number that the code at an entry pushes. -/
def Entries.number (e : Entries) (off : Dword) : Option ℕ :=
  (List.range MAX_HANDLERS).find? fun i => e.hdinterrupt_func i = off

/-- A device requests an interrupt on the line `n`: the handler that `_hdinterrupts` calls, with its
two arguments. -/
def request (e : Entries) (s : State) (n : ℕ) : Option (Dword × ℕ × Dword) := do
  let vector ← s.pics.vector n
  let (sel,off) ← (s.idt vector).target
  if sel = GD_KT then
    let i ← e.number off
    some (s.isr_table i,i,s.isr_param i)
  else none

end model

/-- What the drivers see: which lines are enabled, and who handles them. -/
structure Routes where
  enabled : ℕ → Bool
  handler : ℕ → Dword
  param : ℕ → Dword

namespace Routes

def step (r : Routes) : Call → Option Routes
  | .umask vector =>
      if 0 ≤ vector ∧ vector < 32 then
        some {r with enabled := Function.update r.enabled vector.toNat true}
      else none
  | .mask vector =>
      if 0 ≤ vector ∧ vector < 32 then
        some {r with enabled := Function.update r.enabled vector.toNat false}
      else none
  | .install vector new_handler param =>
      if vector < 0 then none
      else if 16 ≤ vector then some r
      else some {r with
        handler := if new_handler = 0 then r.handler
          else Function.update r.handler vector.toNat new_handler
        param := Function.update r.param vector.toNat param}
  | .interrupt _ => some r

/-- A line of the slave needs line 2 as well, which is not a device's. -/
def request (r : Routes) (n : ℕ) : Option (Dword × ℕ × Dword) :=
  if n ≠ 2 ∧ r.enabled n = true ∧ (8 ≤ n → r.enabled 2 = true) then
    some (r.handler n,n,r.param n)
  else none

/-- All lines lead to the default handler, and only line 2 is enabled. -/
def initial (e : Entries) (s : State) : Routes :=
  ⟨fun n => decide (n = 2),fun _ => e.arch_interrupt_handle,s.isr_param⟩

end Routes

section bits

theorem fill_apply {α : Type} (offset n : ℕ) (f : ℕ → α) (table : ℕ → α) (k : ℕ) :
    fill offset n f table k = if offset ≤ k ∧ k < offset+n then f (k-offset) else table k := by
  induction n with
  | zero =>
      rw [if_neg (by omega)]
      rfl
  | succ n ih =>
      have hsucc : fill offset (n+1) f table =
          Function.update (fill offset n f table) (offset+n) (f n) := by
        simp [fill,List.range_succ]
      rw [hsucc]
      by_cases hk : k = offset+n
      · subst hk
        rw [Function.update_self,if_pos (by omega),Nat.add_sub_cancel_left]
      · rw [Function.update_of_ne hk,ih]
        simp only [show k < offset+(n+1) ↔ k < offset+n by omega]

/-- A gate leads to the offset that was put into it. -/
theorem target_setgate (istrap : Bool) (sel : BitVec 16) (off : Dword) (dpl : BitVec 2) :
    (setgate istrap sel off dpl).target = some (sel,off) := by
  have hlow : (off &&& 0xffff).setWidth 16 = off.setWidth 16 := by
    rw [BitVec.setWidth_and]
    exact BitVec.and_allOnes
  have hoff : (off>>>16).setWidth 16++off.setWidth 16 = off := by
    apply BitVec.eq_of_getLsbD_eq
    intro i hi
    rw [BitVec.getLsbD_append]
    by_cases h : i < 16
    · simp [h]
    · simp [h,show i-16 < 16 by omega,show 16+(i-16) = i by omega]
  unfold Gatedesc.target setgate
  rw [hlow,hoff]
  cases istrap <;> rfl

theorem number_entry (e : Entries) {i : ℕ} (hi : i < MAX_HANDLERS) :
    e.number (e.hdinterrupt_func i) = some i := by
  rw [Entries.number,List.find?_range_eq_some]
  refine ⟨by simp,by simpa using hi,fun j hj => ?_⟩
  have hne : e.hdinterrupt_func j ≠ e.hdinterrupt_func i := by
    intro h
    exact Nat.ne_of_lt hj (e.distinct j i (hj.trans hi) hi h)
  simp [hne]

theorem getLsbD_one_shiftLeft {n : ℕ} (hn : n < 16) (k : ℕ) :
    (1#32<<<k).getLsbD n = decide (n = k) := by
  rw [← BitVec.twoPow_eq,BitVec.getLsbD_twoPow]
  by_cases h : n = k
  · subst h
    simp [hn.trans (by decide : 16 < 32)]
  · simp [h,Ne.symm h]

/-- Of the 32 bits of a new mask the lower 16 are kept. -/
theorem getLsbD_umask (m : BitVec 16) {n : ℕ} (hn : n < 16) (k : ℕ) :
    ((m.setWidth 32 &&& ~~~(1#32<<<k)).setWidth 16).getLsbD n =
      if n = k then false else m.getLsbD n := by
  have hn' : n < 32 := hn.trans (by decide)
  simp only [BitVec.getLsbD_setWidth,BitVec.getLsbD_and,BitVec.getLsbD_not,hn,hn',
    getLsbD_one_shiftLeft hn,decide_true,Bool.true_and]
  by_cases h : n = k <;> simp [h]

theorem getLsbD_mask (m : BitVec 16) {n : ℕ} (hn : n < 16) (k : ℕ) :
    ((m.setWidth 32 ||| 1#32<<<k).setWidth 16).getLsbD n = if n = k then true else m.getLsbD n := by
  have hn' : n < 32 := hn.trans (by decide)
  simp only [BitVec.getLsbD_setWidth,BitVec.getLsbD_or,hn,hn',getLsbD_one_shiftLeft hn,
    decide_true,Bool.true_and]
  by_cases h : n = k <;> simp [h]

end bits

section controllers

/-- The controllers behind `arch_pic_init`, with a mask. -/
def programmed (mask : BitVec 16) : Pair where
  master := .operating 0x20 4 (mask.setWidth 8) true
  slave := .operating 0x28 2 ((mask>>>8).setWidth 8) true

theorem outMask_programmed (m mask : BitVec 16) :
    outMask (programmed m) mask = programmed mask := rfl

/-- The words for one controller, whatever state it is in. -/
theorem initialised (c : Pic) (base cascade : BitVec 8) :
    ((((((c.command 0x11).data base).data cascade).data 0x3).data 0xff).command 0x68).command 0x0a =
      .operating (base &&& 0xf8) cascade 0xff true := by
  rw [c.data_command rfl rfl rfl rfl rfl rfl,Pic.operating_data,Pic.operating_special rfl rfl rfl,
    Pic.operating_select rfl rfl rfl]
  rfl

theorem archPicInit_pics {s : State} (h : s.irq_mask_8259A = 0xFFFF) :
    (archPicInit s).pics = programmed 0xFFFF := by
  have hpics : (archPicInit s).pics =
      ⟨.operating (0x20 &&& 0xf8) 4 0xff true,.operating (0x28 &&& 0xf8) 2 0xff true⟩ := by
    rw [archPicInit,h,← initialised s.pics.master,← initialised s.pics.slave]
    rfl
  rw [hpics]
  rfl

theorem acknowledge_programmed (mask : BitVec 16) (n : ℕ) :
    (programmed mask).acknowledge n = programmed mask := by
  unfold Pair.acknowledge
  split_ifs
  · rfl
  · exact congrArg (Pair.mk · _) (Pic.operating_serve n)
  · exact congrArg₂ Pair.mk (Pic.operating_serve _) (Pic.operating_serve (n-8))

/-- The vectors of the lines that are not masked. -/
theorem vector_programmed (mask : BitVec 16) {n : ℕ} (hn : n < 16) :
    (programmed mask).vector n =
      if n ≠ 2 ∧ mask.getLsbD n = false ∧ (8 ≤ n → mask.getLsbD 2 = false) then some (IRQ_OFFSET+n)
      else none := by
  have hready : (programmed mask).Ready := ⟨rfl,rfl,rfl,rfl,rfl,rfl⟩
  have hcascade : ∀ k < 8, (4 : BitVec 8).getLsbD k = decide (k = 2) := by decide
  have hmaster : ∀ k < 8, ∀ b, (programmed mask).master.Accepts k b ↔ mask.getLsbD k = false := by
    intro k hk b
    refine Pic.operating_accepts.trans ?_
    simp only [BitVec.getLsbD_setWidth,hk,decide_true,Bool.true_and]
  unfold Pair.vector
  rw [if_neg (not_not.mpr hready)]
  by_cases hn8 : n < 8
  · have hiff : (programmed mask).master.cascade.getLsbD n = false ∧
        (programmed mask).master.Accepts n false ↔
          n ≠ 2 ∧ mask.getLsbD n = false ∧ (8 ≤ n → mask.getLsbD 2 = false) := by
      rw [hmaster n hn8,show (programmed mask).master.cascade.getLsbD n = decide (n = 2) from
        hcascade n hn8]
      simp [Nat.not_le.mpr hn8]
    rw [if_pos hn8]
    simp only [hiff]
    rfl
  · have hslave : (programmed mask).slave.Accepts (n-8) false ↔ mask.getLsbD n = false := by
      refine Pic.operating_accepts.trans ?_
      simp only [BitVec.getLsbD_setWidth,BitVec.getLsbD_ushiftRight,show n-8 < 8 by omega,
        show 8+(n-8) = n by omega,decide_true,Bool.true_and]
    have hiff : (programmed mask).master.cascade.getLsbD (programmed mask).line = true ∧
        (programmed mask).master.Accepts (programmed mask).line true ∧
          (programmed mask).slave.Accepts (n-8) false ↔
            n ≠ 2 ∧ mask.getLsbD n = false ∧ (8 ≤ n → mask.getLsbD 2 = false) := by
      have hline : (programmed mask).line = 2 := by
        change ((2 : BitVec 8) &&& 7).toNat = 2
        rfl
      rw [hline,hmaster 2 (by decide),hslave]
      have hwired : (programmed mask).master.cascade.getLsbD 2 = true := by
        change (4 : BitVec 8).getLsbD 2 = true
        rfl
      simp only [hwired,show n ≠ 2 by omega,Nat.not_lt.mp hn8,true_and,forall_const,and_comm,
        ne_eq,not_false_eq_true]
    have hsum : (programmed mask).slave.base.toNat+(n-8) = IRQ_OFFSET+n := by
      change 40+(n-8) = 32+n
      omega
    rw [if_neg hn8]
    simp only [hiff,hsum]

end controllers

section routes

variable {e : Entries} {s : State} {r : Routes}

/-- The state of the kernel and of the hardware realises the routes. -/
structure Realises (e : Entries) (s : State) (r : Routes) : Prop where
  pics : s.pics = programmed s.irq_mask_8259A
  gates : ∀ i < MAX_HANDLERS, s.idt (IRQ_OFFSET+i) = setgate false GD_KT (e.hdinterrupt_func i) 0
  enabled : ∀ n < 16, r.enabled n = !s.irq_mask_8259A.getLsbD n
  handler : ∀ n < 16, s.isr_table n = r.handler n
  param : ∀ n < 16, s.isr_param n = r.param n

/-- A request ends where its route leads. -/
theorem Realises.request (H : Realises e s r) {n : ℕ} (hn : n < 16) :
    request e s n = r.request n := by
  have hvector := vector_programmed s.irq_mask_8259A hn
  rw [← H.pics] at hvector
  simp only [InterruptRouting.request,Routes.request,hvector,H.enabled n hn,
    H.enabled 2 (by decide),Bool.not_eq_true']
  split_ifs with h
  · simp [H.gates n hn,target_setgate,number_entry e hn,H.handler n hn,H.param n hn]
  · rfl

/-- One line is enabled or disabled, and the controllers hear of it. -/
theorem Realises.setMask (H : Realises e s r) {mask : BitVec 32} (k : ℕ) (b : Bool)
    (hmask : ∀ n < 16, (mask.setWidth 16).getLsbD n =
      if n = k then !b else s.irq_mask_8259A.getLsbD n) :
    Realises e (setMask s mask) {r with enabled := Function.update r.enabled k b} where
  pics := by
    simp only [InterruptRouting.setMask,H.pics,outMask_programmed]
  gates := H.gates
  enabled n hn := by
    simp only [InterruptRouting.setMask,hmask n hn]
    by_cases h : n = k
    · simp [h]
    · simp [h,H.enabled n hn]
  handler := H.handler
  param := H.param

theorem update_of_forall {f g : ℕ → Dword} (h : ∀ n < 16, f n = g n) (k : ℕ) (x : Dword) :
    ∀ n < 16, Function.update f k x n = Function.update g k x n := by
  intro n hn
  by_cases hnk : n = k
  · simp [hnk]
  · simp [hnk,h n hn]

theorem Realises.install (H : Realises e s r) (vector : ℤ) (new_handler param : Dword) :
    archInterruptInstall s vector new_handler param = none ∧
        r.step (.install vector new_handler param) = none ∨
      ∃ s' old r', archInterruptInstall s vector new_handler param = some (s',old) ∧
        r.step (.install vector new_handler param) = some r' ∧ Realises e s' r' := by
  simp only [archInterruptInstall,Routes.step,MAX_HANDLERS]
  by_cases hneg : vector < 0
  · rw [if_pos (show vector < (16 : ℕ) by omega),if_pos hneg,if_pos hneg]
    exact .inl ⟨rfl,rfl⟩
  · by_cases hbig : vector < (16 : ℕ)
    · rw [if_pos hbig,if_neg hneg,if_neg hneg,if_neg (show ¬ 16 ≤ vector by omega)]
      refine .inr ⟨_,_,_,rfl,rfl,?_⟩
      have hparam := update_of_forall H.param vector.toNat param
      by_cases hnull : new_handler = 0
      · simp only [hnull,ne_eq,not_true_eq_false,↓reduceIte]
        exact ⟨H.pics,H.gates,H.enabled,H.handler,hparam⟩
      · simp only [hnull,ne_eq,not_false_eq_true,↓reduceIte]
        have hhandler := update_of_forall H.handler vector.toNat new_handler
        exact ⟨H.pics,H.gates,H.enabled,hhandler,hparam⟩
    · rw [if_neg hbig,if_neg hneg,if_pos (show 16 ≤ vector by omega)]
      exact .inr ⟨_,_,_,rfl,rfl,H⟩

/-- Each call changes the routes, or is undefined in both. -/
theorem Realises.step (H : Realises e s r) (c : Call) :
    step s c = none ∧ r.step c = none ∨
      ∃ s' r', step s c = some s' ∧ r.step c = some r' ∧ Realises e s' r' := by
  cases c with
  | umask vector =>
      simp only [InterruptRouting.step,archInterruptUmask,Routes.step]
      split_ifs with h
      · refine .inr ⟨_,_,rfl,rfl,H.setMask vector.toNat true fun n hn => ?_⟩
        exact getLsbD_umask _ hn _
      · exact .inl ⟨rfl,rfl⟩
  | mask vector =>
      simp only [InterruptRouting.step,archInterruptMask,Routes.step]
      split_ifs with h
      · refine .inr ⟨_,_,rfl,rfl,H.setMask vector.toNat false fun n hn => ?_⟩
        exact getLsbD_mask _ hn _
      · exact .inl ⟨rfl,rfl⟩
  | install vector new_handler param =>
      rcases H.install vector new_handler param with ⟨hs,hr⟩ | ⟨s',old,r',hs,hr,H'⟩
      · exact .inl ⟨by rw [InterruptRouting.step,hs]; rfl,hr⟩
      · exact .inr ⟨s',r',by rw [InterruptRouting.step,hs]; rfl,hr,H'⟩
  | interrupt n =>
      refine .inr ⟨_,_,rfl,rfl,?_,H.gates,H.enabled,H.handler,H.param⟩
      simp only [H.pics,acknowledge_programmed]

/-- After `arch_interrupt_init` the gates of the devices lead to their entries. -/
theorem archIdtInit_gate (e : Entries) (s : State) {i : ℕ} (hi : i < MAX_HANDLERS) :
    (archIdtInit e s).idt (IRQ_OFFSET+i) = setgate false GD_KT (e.hdinterrupt_func i) 0 := by
  simp only [archIdtInit]
  rw [fill_apply,if_pos (by omega),Nat.add_sub_cancel_left]

@[simp] theorem archPicInit_idt (s : State) : (archPicInit s).idt = s.idt := rfl

@[simp] theorem archPicInit_isr_table (s : State) : (archPicInit s).isr_table = s.isr_table := rfl

@[simp] theorem archPicInit_isr_param (s : State) : (archPicInit s).isr_param = s.isr_param := rfl

@[simp] theorem archPicInit_mask (s : State) :
    (archPicInit s).irq_mask_8259A = s.irq_mask_8259A := rfl

theorem archIdtInit_isr_table (e : Entries) (s : State) {n : ℕ} (hn : n < MAX_HANDLERS) :
    (archIdtInit e s).isr_table n = e.arch_interrupt_handle := by
  simp only [archIdtInit]
  rw [fill_apply,if_pos (by omega)]

theorem archIdtInit_isr_param (e : Entries) (s : State) :
    (archIdtInit e s).isr_param = s.isr_param := rfl

theorem archIdtInit_mask (e : Entries) (s : State) :
    (archIdtInit e s).irq_mask_8259A = s.irq_mask_8259A := rfl

theorem archInterruptInit_realises (e : Entries) (hmask : s.irq_mask_8259A = 0xFFFF) :
    ∃ s', archInterruptInit e s = some s' ∧ Realises e s' (.initial e s) := by
  have hmasked : ∀ n < 16, (0xFFFF : BitVec 16).getLsbD n = true := by decide
  have hmask' : (archIdtInit e s).irq_mask_8259A = 0xFFFF := (archIdtInit_mask e s).trans hmask
  -- before line 2 is enabled
  have H : Realises e (archPicInit (archIdtInit e s)) {Routes.initial e s with
      enabled := fun _ => false} := by
    refine ⟨?_,fun i hi => ?_,fun n hn => ?_,fun n hn => ?_,fun n _ => ?_⟩
    · rw [archPicInit_pics hmask',archPicInit_mask,hmask']
    · rw [archPicInit_idt,archIdtInit_gate e s hi]
    · rw [archPicInit_mask,hmask',hmasked n hn]
      rfl
    · rw [archPicInit_isr_table,archIdtInit_isr_table e s hn]
      rfl
    · rw [archPicInit_isr_param,archIdtInit_isr_param]
      rfl
  unfold archInterruptInit
  generalize archPicInit (archIdtInit e s) = s₀ at H ⊢
  rcases H.step (.umask INT2) with ⟨h,-⟩ | ⟨s',r',hs,hr,H'⟩
  · cases h
  · refine ⟨s',hs,?_⟩
    obtain rfl := Option.some.inj hr
    refine ⟨H'.pics,H'.gates,fun n hn => ?_,H'.handler,H'.param⟩
    rw [← H'.enabled n hn]
    by_cases h : n = 2 <;> simp [Routes.initial,INT2,Function.update_apply,h]

/-- The kernel realises the routes in every state that the calls of the drivers lead to. -/
theorem run_realises (e : Entries) (hmask : s.irq_mask_8259A = 0xFFFF) (cs : List Call) :
    ∃ s₁, archInterruptInit e s = some s₁ ∧
      (cs.foldlM InterruptRouting.step s₁ = none ∧
          cs.foldlM Routes.step (.initial e s) = none ∨
        ∃ s' r, cs.foldlM InterruptRouting.step s₁ = some s' ∧
          cs.foldlM Routes.step (.initial e s) = some r ∧ Realises e s' r) := by
  obtain ⟨s₁,hs₁,H⟩ := archInterruptInit_realises e hmask
  exact ⟨s₁,hs₁,lockstep_run (fun _ _ c H => H.step c) H cs⟩

end routes

theorem entries_apart (i j : ℕ) (hi : i < MAX_HANDLERS) (hj : j < MAX_HANDLERS)
    (h : BitVec.ofNat 32 (0x1000+16*i) = BitVec.ofNat 32 (0x1000+16*j)) : i = j := by
  have h' := congrArg BitVec.toNat h
  simp only [MAX_HANDLERS,BitVec.toNat_ofNat] at hi hj h'
  omega

/-- The entries of the devices lie 16 bytes apart. -/
def someEntries : Entries where
  Xdefault := 0x900
  trap_func i := BitVec.ofNat 32 (0x800+16*i)
  hdinterrupt_func i := BitVec.ofNat 32 (0x1000+16*i)
  arch_interrupt_handle := 0x700
  distinct := entries_apart

def booted : State where
  isr_table _ := 0
  isr_param _ := 0
  irq_mask_8259A := 0xFFFF
  idt _ := ⟨0,0,0,0,0,0,0,0,0⟩
  interrupt_nest := 0
  pics := ⟨⟨.icw3,true,false,0,0,false,false,true,0,0x24,false,3,true⟩,
    ⟨.ocw1,false,false,0,0,true,false,false,0,0xff,true,7,false⟩⟩

/-- The keyboard and the mouse get handlers and interrupt, and the keyboard is masked again. -/
def twoDrivers : List Call :=
  [.install 1 0x5000 7,.umask 1,.interrupt 1,.install 12 0x6000 9,.umask 12,.interrupt 12,.mask 1]

end CosKernel.InterruptRouting

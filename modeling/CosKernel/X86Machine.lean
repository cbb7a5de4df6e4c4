import CosKernel.ByteMemory

/-!
# Some instructions of the x86

Registers, flags and memory in 32-bit mode without a change of privilege, as far
as hand-written entry and switch code uses them. Straight-line code is a list of
instructions; `eip` only matters where control leaves it, by `ret` and `iret`.
Flags that an instruction leaves undefined keep their values. The upper half of
a pushed segment register is zero, and it is not read back.
-/
namespace CosKernel.X86
open ByteMemory

inductive Reg where
  | eax
  | ecx
  | edx
  | ebx
  | esp
  | ebp
  | esi
  | edi
  deriving DecidableEq, Repr

inductive Seg where
  | cs
  | ds
  | es
  deriving DecidableEq, Repr

@[ext] structure Cpu where
  reg : Reg → Dword
  seg : Seg → BitVec 16
  eip : Dword
  eflags : Dword

@[ext] structure Machine extends Cpu where
  mem : Memory

/-- Operands stand in the order of the assembler, the destination last. `movlLoad d b r` is
`movl d(%b), %r` and `movlStore r b` is `movl %r, (%b)`; the word moves go through `%ax`. -/
inductive Instr where
  | pushfl
  | pushl (r : Reg)
  | pushlImm (v : Dword)
  | pushlLoad (r : Reg)
  | push (s : Seg)
  | pushal
  | popl (r : Reg)
  | pop (s : Seg)
  | popal
  | movl (src dst : Reg)
  | movlImm (v : Dword) (dst : Reg)
  | movlLoad (disp : Dword) (base dst : Reg)
  | movlStore (src base : Reg)
  | movwImm (v : BitVec 16)
  | movwSeg (s : Seg)
  | addlImm (v : Dword) (dst : Reg)
  | addl (src dst : Reg)
  | shll (n : ℕ) (dst : Reg)
  | cmp (v : Dword) (r : Reg)
  | leave
  | ret
  | iret

def flagBit (i : ℕ) (b : Bool) : Dword := if b then 1#32 <<< i else 0

/-- Carry and overflow are given, the other flags of an addition or a subtraction follow from
the operands and the result. -/
def arithmeticFlags (eflags a b r : Dword) (carry overflow : Bool) : Dword :=
  eflags &&& 0xfffff72a ||| flagBit 0 carry |||
    flagBit 2 ((List.range 8).countP r.getLsbD % 2 == 0) |||
    flagBit 4 ((a ^^^ b ^^^ r).getLsbD 4) ||| flagBit 6 (r == 0) ||| flagBit 7 r.msb |||
    flagBit 11 overflow

def addFlags (eflags a b : Dword) : Dword :=
  arithmeticFlags eflags a b (a+b) ((a+b).ult a) (a.msb == b.msb && (a+b).msb != a.msb)

def subFlags (eflags a b : Dword) : Dword :=
  arithmeticFlags eflags a b (a-b) (a.ult b) (a.msb != b.msb && (a-b).msb != a.msb)

def shlFlags (eflags a : Dword) (n : ℕ) : Dword :=
  let r := a <<< n
  eflags &&& 0xffffff3a ||| flagBit 0 (a.getLsbD (32-n)) |||
    flagBit 2 ((List.range 8).countP r.getLsbD % 2 == 0) ||| flagBit 6 (r == 0) |||
    flagBit 7 r.msb

def Cpu.zf (c : Cpu) : Bool := c.eflags.getLsbD 6

namespace Machine

def set (m : Machine) (r : Reg) (v : Dword) : Machine :=
  {m with reg := Function.update m.reg r v}

def setSeg (m : Machine) (s : Seg) (v : BitVec 16) : Machine :=
  {m with seg := Function.update m.seg s v}

def pushed (m : Machine) (v : Dword) : Machine :=
  {m.set .esp (m.reg .esp-4) with mem := store m.mem (m.reg .esp-4) v}

def top (m : Machine) : Dword := load m.mem (m.reg .esp)

def popped (m : Machine) : Machine := m.set .esp (m.reg .esp+4)

def exec (m : Machine) : Instr → Machine
  | .pushfl => m.pushed m.eflags
  | .pushl r => m.pushed (m.reg r)
  | .pushlImm v => m.pushed v
  | .pushlLoad r => m.pushed (load m.mem (m.reg r))
  | .push s => m.pushed ((m.seg s).setWidth 32)
  | .pushal => [m.reg .eax,m.reg .ecx,m.reg .edx,m.reg .ebx,m.reg .esp,m.reg .ebp,m.reg .esi,
      m.reg .edi].foldl pushed m
  | .popl r => m.popped.set r m.top
  | .pop s => m.popped.setSeg s (m.top.setWidth 16)
  | .popal =>
      let pop (m : Machine) (r : Reg) := m.popped.set r m.top
      [Reg.ebx,.edx,.ecx,.eax].foldl pop ([Reg.edi,.esi,.ebp].foldl pop m).popped
  | .movl src dst => m.set dst (m.reg src)
  | .movlImm v dst => m.set dst v
  | .movlLoad disp base dst => m.set dst (load m.mem (m.reg base+disp))
  | .movlStore src base => {m with mem := store m.mem (m.reg base) (m.reg src)}
  | .movwImm v => m.set .eax (((m.reg .eax).extractLsb' 16 16)++v)
  | .movwSeg s => m.setSeg s ((m.reg .eax).setWidth 16)
  | .addlImm v dst =>
      {m.set dst (m.reg dst+v) with eflags := addFlags m.eflags (m.reg dst) v}
  | .addl src dst =>
      {m.set dst (m.reg dst+m.reg src) with eflags := addFlags m.eflags (m.reg dst) (m.reg src)}
  | .shll n dst => {m.set dst (m.reg dst <<< n) with eflags := shlFlags m.eflags (m.reg dst) n}
  | .cmp v r => {m with eflags := subFlags m.eflags (m.reg r) v}
  | .leave =>
      let m := m.set .esp (m.reg .ebp)
      m.popped.set .ebp m.top
  | .ret => {m.popped with eip := m.top}
  | .iret =>
      let m₁ := {m.popped with eip := m.top}
      let m₂ := m₁.popped.setSeg .cs (m₁.top.setWidth 16)
      {m₂.popped with eflags := m₂.top}

def run (is : List Instr) (m : Machine) : Machine := is.foldl exec m

theorem run_append (is js : List Instr) (m : Machine) : run (is++js) m = run js (run is m) :=
  List.foldl_append

variable {m : Machine} {ws : List Dword} {v w : Dword}

/-- The zero flag after a comparison. -/
theorem zf_cmp (m : Machine) (v : Dword) (r : Reg) :
    (m.exec (.cmp v r)).zf = (m.reg r == v) := by
  have hother : ∀ i ∈ [0,2,4,7,11], ∀ b, (flagBit i b).getLsbD 6 = false := by decide
  have hzero : ∀ b, (flagBit 6 b).getLsbD 6 = b := by decide
  have hsub : (m.reg r-v == 0) = (m.reg r == v) := by
    rw [Bool.eq_iff_iff,beq_iff_eq,beq_iff_eq]
    exact sub_eq_zero
  simp only [exec,Cpu.zf,subFlags,arithmeticFlags,BitVec.getLsbD_or,BitVec.getLsbD_and]
  simp only [hother 0 (by decide),hother 2 (by decide),hother 4 (by decide),
    hother 7 (by decide),hother 11 (by decide),hzero,hsub]
  simp

/-- The double words at the top of the stack. -/
def Stack (m : Machine) (ws : List Dword) : Prop := Words m.mem (m.reg .esp) ws

theorem Stack.pushed (hn : 4*ws.length+4 ≤ 2^32) (h : Stack m ws) (v : Dword) :
    Stack (m.pushed v) (v::ws) := Words.push hn h v

theorem Stack.top (h : Stack m (w::ws)) : m.top = w := h.1

theorem Stack.popped (h : Stack m (w::ws)) : Stack m.popped ws := h.2

@[simp] theorem reg_set (m : Machine) (r r' : Reg) (v : Dword) :
    (m.set r v).reg r' = if r' = r then v else m.reg r' := by
  simp [set,Function.update_apply]

@[simp] theorem mem_set (m : Machine) (r : Reg) (v : Dword) : (m.set r v).mem = m.mem := rfl

@[simp] theorem reg_popped (m : Machine) (r : Reg) :
    m.popped.reg r = if r = .esp then m.reg .esp+4 else m.reg r := reg_set m .esp r _

@[simp] theorem mem_popped (m : Machine) : m.popped.mem = m.mem := rfl

theorem reg_pushed (m : Machine) (v : Dword) {r : Reg} (hr : r ≠ .esp) :
    (m.pushed v).reg r = m.reg r := Function.update_of_ne hr _ _

@[simp] theorem esp_pushed (m : Machine) (v : Dword) :
    (m.pushed v).reg .esp = m.reg .esp-4 := rfl

@[simp] theorem mem_pushed (m : Machine) (v : Dword) :
    (m.pushed v).mem = store m.mem (m.reg .esp-4) v := rfl

@[simp] theorem seg_pushed (m : Machine) (v : Dword) : (m.pushed v).seg = m.seg := rfl

@[simp] theorem eflags_pushed (m : Machine) (v : Dword) : (m.pushed v).eflags = m.eflags := rfl

theorem reg_pushes (m : Machine) (vs : List Dword) {r : Reg} (hr : r ≠ .esp) :
    (vs.foldl Machine.pushed m).reg r = m.reg r := by
  induction vs generalizing m with
  | nil => rfl
  | cons v vs ih =>
      rw [List.foldl_cons,ih,reg_pushed m v hr]

theorem mem_pushes (m : Machine) (vs : List Dword) :
    ((vs.foldl Machine.pushed m).mem,(vs.foldl Machine.pushed m).reg .esp) =
      ByteMemory.pushes m.mem (m.reg .esp) vs := by
  induction vs generalizing m with
  | nil => rfl
  | cons v vs ih => rw [List.foldl_cons,ih,pushes_cons,esp_pushed,mem_pushed]

theorem esp_pushes (m : Machine) (vs : List Dword) :
    (vs.foldl Machine.pushed m).reg .esp = m.reg .esp-BitVec.ofNat 32 (4*vs.length) :=
  (congrArg Prod.snd (mem_pushes m vs)).trans (pushes_address m.mem (m.reg .esp) vs)

theorem Stack.pushes (vs : List Dword) (hn : 4*(vs.length+ws.length) ≤ 2^32) (h : Stack m ws) :
    Stack (vs.foldl Machine.pushed m) (vs.reverse++ws) := by
  have hwords := Words.pushes vs hn h
  rw [← mem_pushes m vs] at hwords
  exact hwords

theorem pushes_eqOn (m : Machine) (vs : List Dword) (hn : 4*vs.length ≤ 2^32) :
    Set.EqOn (vs.foldl Machine.pushed m).mem m.mem
      (span (m.reg .esp-BitVec.ofNat 32 (4*vs.length)) (4*vs.length))ᶜ := by
  have h := ByteMemory.pushes_eqOn m.mem (m.reg .esp) vs hn
  rw [← mem_pushes m vs] at h
  exact h

end Machine

end CosKernel.X86

import Mathlib

/-!
# Two cascaded 8259A interrupt controllers

A controller has two ports. A word with bit 4 on the command port starts the initialisation: it
resets the controller, and the data port then takes two or three more words, the base of the
vectors, the wiring of the cascade and the mode. After that the data port is the mask, and the
command port takes the operation words: the end of an interrupt, the order of the lines and the
special mask.

A line that the processor has acknowledged is in service and holds back the lines that are not more
urgent, until a command ends it. In the mode of automatic end of interrupt the acknowledgement ends
it at once. A line of the slave reaches the processor through the line of the master to which the
slave is wired. What a read of the ports returns is left out.
-/
namespace CosKernel.Pic8259

/-- What the next word on the data port is. -/
inductive Expects where
  | icw2
  | icw3
  | icw4
  | ocw1
  deriving DecidableEq, Repr

structure Pic where
  expects : Expects
  single : Bool
  needsIcw4 : Bool
  base : BitVec 8
  cascade : BitVec 8
  mode8086 : Bool
  autoEoi : Bool
  specialNested : Bool
  imr : BitVec 8
  isr : BitVec 8
  specialMask : Bool
  lowest : BitVec 3
  rotates : Bool

namespace Pic

/-- The place of a line in the order of urgency, which begins behind the lowest line. -/
def rank (c : Pic) (n : ℕ) : ℕ := (n+7-c.lowest.toNat)%8

/-- The lines in service that hold others back: with the special mask, those that are not masked. -/
def holding (c : Pic) : BitVec 8 := if c.specialMask then c.isr &&& ~~~c.imr else c.isr

/-- The most urgent one of them. -/
def served (c : Pic) : Option (BitVec 3) :=
  ((List.range 8).map fun k => c.lowest+1+BitVec.ofNat 3 k).find? fun n => c.holding.getLsbD n.toNat

def endService (c : Pic) (n : BitVec 3) : Pic := {c with isr := c.isr &&& ~~~(1#8<<<n.toNat)}

/-- End of interrupt and rotation: bit 5 ends the service of a line, which bit 6 says is named in
the word, and bit 7 makes it the lowest one. -/
def ocw2 (c : Pic) (v : BitVec 8) : Pic :=
  let named := v.setWidth 3
  let line := if v.getLsbD 6 then some named else c.served
  if v.getLsbD 5 then
    match line with
    | some n => {c.endService n with lowest := if v.getLsbD 7 then n else c.lowest}
    | none => c
  else if v.getLsbD 6 then {c with lowest := if v.getLsbD 7 then named else c.lowest}
  else {c with rotates := v.getLsbD 7}

def ocw3 (c : Pic) (v : BitVec 8) : Pic :=
  if v.getLsbD 6 then {c with specialMask := v.getLsbD 5} else c

/-- A word on the command port. -/
def command (c : Pic) (v : BitVec 8) : Pic :=
  if v.getLsbD 4 then
    {c with
      expects := .icw2, single := v.getLsbD 1, needsIcw4 := v.getLsbD 0
      mode8086 := false, autoEoi := false, specialNested := false
      imr := 0, isr := 0, specialMask := false, lowest := 7, rotates := false}
  else if v.getLsbD 3 then c.ocw3 v
  else c.ocw2 v

def lastWord (c : Pic) : Expects := if c.needsIcw4 then .icw4 else .ocw1

/-- A word on the data port. -/
def data (c : Pic) (v : BitVec 8) : Pic :=
  match c.expects with
  | .icw2 => {c with base := v &&& 0xf8, expects := if c.single then c.lastWord else .icw3}
  | .icw3 => {c with cascade := v, expects := c.lastWord}
  | .icw4 => {c with
      mode8086 := v.getLsbD 0, autoEoi := v.getLsbD 1, specialNested := v.getLsbD 4
      expects := .ocw1}
  | .ocw1 => {c with imr := v}

/-- A request on the line is passed on. In the special nested mode the line of a slave does not
hold back itself. -/
def Accepts (c : Pic) (n : ℕ) (cascaded : Bool) : Prop :=
  c.imr.getLsbD n = false ∧ ∀ i < 8, c.holding.getLsbD i = true →
    c.rank n < c.rank i ∨ cascaded = true ∧ c.specialNested = true ∧ i = n

instance (c : Pic) (n : ℕ) (cascaded : Bool) : Decidable (c.Accepts n cascaded) :=
  inferInstanceAs (Decidable (_ ∧ ∀ i < 8, _ → _))

/-- The processor acknowledges the line. -/
def serve (c : Pic) (n : ℕ) : Pic :=
  if c.autoEoi then
    if c.rotates then {c with lowest := BitVec.ofNat 3 n} else c
  else {c with isr := c.isr ||| 1#8<<<n}

/-- The state of a controller whose initialisation is complete, for an 8086 and with automatic end
of interrupt. -/
def operating (base cascade imr : BitVec 8) (specialMask : Bool) : Pic :=
  ⟨.ocw1,false,true,base,cascade,true,true,false,imr,0,specialMask,7,false⟩

/-- Four words initialise a controller from any state. -/
theorem data_command (c : Pic) {v mode : BitVec 8} (h₄ : v.getLsbD 4 = true)
    (h₁ : v.getLsbD 1 = false) (h₀ : v.getLsbD 0 = true) (hmode : mode.getLsbD 0 = true)
    (heoi : mode.getLsbD 1 = true) (hnested : mode.getLsbD 4 = false) (base cascade : BitVec 8) :
    (((c.command v).data base).data cascade).data mode =
      operating (base &&& 0xf8) cascade 0 false := by
  simp only [command,h₄,h₁,h₀,data,lastWord,hmode,heoi,hnested,↓reduceIte,Bool.false_eq_true]
  rfl

variable {base cascade imr v : BitVec 8} {specialMask : Bool}

theorem operating_data :
    (operating base cascade imr specialMask).data v = operating base cascade v specialMask := rfl

theorem operating_special (h₄ : v.getLsbD 4 = false) (h₃ : v.getLsbD 3 = true)
    (h₆ : v.getLsbD 6 = true) :
    (operating base cascade imr specialMask).command v =
      operating base cascade imr (v.getLsbD 5) := by
  simp only [command,ocw3,h₄,h₃,h₆,Bool.false_eq_true,↓reduceIte]
  rfl

theorem operating_select (h₄ : v.getLsbD 4 = false) (h₃ : v.getLsbD 3 = true)
    (h₆ : v.getLsbD 6 = false) :
    (operating base cascade imr specialMask).command v =
      operating base cascade imr specialMask := by
  simp only [command,ocw3,h₄,h₃,h₆,Bool.false_eq_true,↓reduceIte]

/-- Nothing is in service, so only the mask counts. -/
theorem operating_accepts {n : ℕ} {cascaded : Bool} :
    (operating base cascade imr specialMask).Accepts n cascaded ↔ imr.getLsbD n = false := by
  refine and_iff_left_of_imp fun _ i _ hi => ?_
  cases specialMask <;> simp [holding,operating] at hi

/-- Automatic end of interrupt leaves nothing in service. -/
theorem operating_serve (n : ℕ) :
    (operating base cascade imr specialMask).serve n =
      operating base cascade imr specialMask := rfl

end Pic

structure Pair where
  master : Pic
  slave : Pic

namespace Pair

/-- The line of the master to which the slave is wired. -/
def line (p : Pair) : ℕ := (p.slave.cascade &&& 7).toNat

/-- Both controllers are initialised, and give vectors to the processor. -/
def Ready (p : Pair) : Prop :=
  p.master.expects = .ocw1 ∧ p.master.mode8086 = true ∧ p.master.single = false ∧
    p.slave.expects = .ocw1 ∧ p.slave.mode8086 = true ∧ p.slave.single = false

instance (p : Pair) : Decidable p.Ready := inferInstanceAs (Decidable (_ ∧ _ ∧ _ ∧ _ ∧ _ ∧ _))

/-- The vector with which a request on the line `n` reaches the processor. -/
def vector (p : Pair) (n : ℕ) : Option ℕ :=
  if ¬p.Ready then none
  else if n < 8 then
    if p.master.cascade.getLsbD n = false ∧ p.master.Accepts n false then
      some (p.master.base.toNat+n)
    else none
  else if p.master.cascade.getLsbD p.line = true ∧ p.master.Accepts p.line true ∧
      p.slave.Accepts (n-8) false then some (p.slave.base.toNat+(n-8))
  else none

/-- The controllers behind a request on the line `n`, which the processor acknowledges if it
reaches it. -/
def acknowledge (p : Pair) (n : ℕ) : Pair :=
  if p.vector n = none then p
  else if n < 8 then {p with master := p.master.serve n}
  else ⟨p.master.serve p.line,p.slave.serve (n-8)⟩

end Pair

end CosKernel.Pic8259

import CosKernel.KernelThreads
import CosKernel.OrderedBag

/-!
# Software timers

The timers of the kernel with their tree, which is used through a few methods: the
red-black tree of coslib, or a bag for statements that take the tree as the ideal
multiset ordered by its keys. Ticks are 32-bit words and keys are signed.

`Timer::check` runs with interrupts disabled but calls the timeout functions, which
may use timers. It is therefore cut into steps: a test of the loop, after which a
timeout function may be running, and the rest of the loop body after that function
has returned.
-/
namespace CosKernel

/-- The tree of the timers `τ`. A `none` is a fault, an inner `none` of `min` the
null result. -/
class TimerTree (σ : Type) (τ : outParam Type) where
  setKey : σ → τ → ℤ → σ
  insert : σ → τ → Option σ
  remove : σ → τ → Option σ
  min : σ → Option (Option τ)

instance {τ : Type} [DecidableEq τ] [Fintype τ] : TimerTree (RedBlackHeap.Heap τ τ) τ where
  setKey h t k := h.setKey (.node t) k
  insert h t := (h.insert (RedBlackHeap.enough τ) t).map Prod.fst
  remove h t := (h.remove (RedBlackHeap.enough τ) t).map Prod.fst
  min h := h.min (RedBlackHeap.enough τ)

instance {τ : Type} [DecidableEq τ] : TimerTree (OrderedBag τ) τ where
  setKey s t k := s.setKey t k
  insert s t := some (s.insert t)
  remove s t := some (s.remove t)
  min s := some s.items.head?

structure Timer where
  flag : BitVec 8
  initTick : BitVec 32
  timeoutTick : BitVec 32
  deriving DecidableEq, Repr

namespace Timer

def FLAG_ACTIVATED : BitVec 8 := 0x1
def FLAG_PERIODIC : BitVec 8 := 0x2

def new (time : BitVec 32) (flag : BitVec 8) : Timer where
  flag := flag &&& ~~~FLAG_ACTIVATED
  initTick := time
  timeoutTick := 0

def activated (x : Timer) : Bool := x.flag &&& FLAG_ACTIVATED ≠ 0

def periodic (x : Timer) : Bool := x.flag &&& FLAG_PERIODIC ≠ 0

def activate (x : Timer) : Timer := {x with flag := x.flag ||| FLAG_ACTIVATED}

def deactivate (x : Timer) : Timer := {x with flag := x.flag &&& ~~~FLAG_ACTIVATED}

inductive Control where
  | getTime
  | setTime (time : BitVec 32)
  | setOneshot
  | setPeriodic
  deriving DecidableEq, Repr

/-- `getTime` writes to its argument only. -/
def control (x : Timer) : Control → Timer
  | .getTime => x
  | .setTime time => {x with initTick := time}
  | .setOneshot => {x with flag := x.flag &&& ~~~FLAG_PERIODIC}
  | .setPeriodic => {x with flag := x.flag ||| FLAG_PERIODIC}

/-- A tick as the key of a node. -/
def key (tick : BitVec 32) : ℤ := tick.toInt

theorem key_injective {a b : BitVec 32} (h : key a = key b) : a = b := BitVec.eq_of_toInt_eq h

theorem bits_activated : ∀ f : BitVec 8, (f ||| FLAG_ACTIVATED) &&& FLAG_ACTIVATED ≠ 0 ∧
    (f &&& ~~~FLAG_ACTIVATED) &&& FLAG_ACTIVATED = 0 := by decide +kernel

theorem bits_periodic : ∀ f : BitVec 8,
    (f ||| FLAG_ACTIVATED) &&& FLAG_PERIODIC = f &&& FLAG_PERIODIC ∧
    (f &&& ~~~FLAG_ACTIVATED) &&& FLAG_PERIODIC = f &&& FLAG_PERIODIC ∧
    (f ||| FLAG_PERIODIC) &&& FLAG_ACTIVATED = f &&& FLAG_ACTIVATED ∧
    (f &&& ~~~FLAG_PERIODIC) &&& FLAG_ACTIVATED = f &&& FLAG_ACTIVATED := by decide +kernel

@[simp] theorem activated_new (time : BitVec 32) (flag : BitVec 8) :
    (new time flag).activated = false := by simp [new,activated,(bits_activated flag).2]

@[simp] theorem activated_activate (x : Timer) : x.activate.activated = true :=
  decide_eq_true (bits_activated x.flag).1

@[simp] theorem activated_deactivate (x : Timer) : x.deactivate.activated = false := by
  simp [deactivate,activated,(bits_activated x.flag).2]

@[simp] theorem periodic_activate (x : Timer) : x.activate.periodic = x.periodic := by
  simp [activate,periodic,(bits_periodic x.flag).1]

@[simp] theorem periodic_deactivate (x : Timer) : x.deactivate.periodic = x.periodic := by
  simp [deactivate,periodic,(bits_periodic x.flag).2.1]

@[simp] theorem activated_control (x : Timer) (c : Control) :
    (x.control c).activated = x.activated := by
  cases c with
  | getTime | setTime => rfl
  | setOneshot => simp [control,activated,(bits_periodic x.flag).2.2.2]
  | setPeriodic => simp [control,activated,(bits_periodic x.flag).2.2.1]

@[simp] theorem timeoutTick_control (x : Timer) (c : Control) :
    (x.control c).timeoutTick = x.timeoutTick := by cases c <;> rfl

end Timer

/-- Where `Timer::check` stands. -/
inductive Phase (τ : Type) where
  | outside
  | checking
  | callback (t : τ)
  deriving DecidableEq, Repr

structure Clock (σ τ : Type) where
  timer : τ → Timer
  tree : σ
  tick : BitVec 32
  phase : Phase τ

namespace Clock

variable {σ τ : Type} [DecidableEq τ] [TimerTree σ τ]

def modify (s : Clock σ τ) (t : τ) (g : Timer → Timer) : Clock σ τ :=
  {s with timer := Function.update s.timer t (g (s.timer t))}

def construct (s : Clock σ τ) (t : τ) (time : BitVec 32) (flag : BitVec 8) : Clock σ τ :=
  {s with
    timer := Function.update s.timer t (.new time flag)
    tree := TimerTree.setKey s.tree t (Timer.key 0)}

def detach (s : Clock σ τ) (t : τ) : Option (Clock σ τ) := do
  let tree ← TimerTree.remove s.tree t
  some {s with tree := tree}

/-- A failed assertion is a fault. -/
def start (s : Clock σ τ) (t : τ) : Option (Clock σ τ) := do
  let tree ← TimerTree.remove s.tree t
  let s := ({s with tree := tree} : Clock σ τ).modify t Timer.deactivate
  if (s.timer t).initTick.toNat < TICK_MAX/2 then do
    let s := s.modify t fun x => ({x with timeoutTick := s.tick+x.initTick} : Timer).activate
    let tree ← TimerTree.insert
      (TimerTree.setKey s.tree t (Timer.key (s.timer t).timeoutTick)) t
    some {s with tree := tree}
  else none

def stop (s : Clock σ τ) (t : τ) : Option (Clock σ τ × ℤ) :=
  if (s.timer t).activated then do
    let tree ← TimerTree.remove s.tree t
    some (({s with tree := tree} : Clock σ τ).modify t Timer.deactivate,ERR_OK)
  else some (s,-ERR_ERROR)

def control (s : Clock σ τ) (t : τ) (c : Timer.Control) : Clock σ τ :=
  s.modify t fun x => x.control c

/-- The test by which `check` recognises an expired timer. -/
def due (s : Clock σ τ) (t : τ) : Bool :=
  (s.tick-(s.timer t).timeoutTick).toNat < TICK_MAX/2

/-- `tick_increase` up to the call of `Timer::check`. -/
def tickIncrease (s : Clock σ τ) : Clock σ τ := {s with tick := s.tick+1, phase := .checking}

/-- One test of the loop of `check`: a due timer is removed and its timeout function
called, or the loop ends. -/
def round (s : Clock σ τ) : Option (Clock σ τ) := do
  match ← TimerTree.min s.tree with
  | none => some {s with phase := .outside}
  | some t =>
      if s.due t then do
        let tree ← TimerTree.remove s.tree t
        some {s with tree := tree, phase := .callback t}
      else some {s with phase := .outside}

/-- The rest of the loop body, when the timeout function of `t` has returned. -/
def callbackReturn (s : Clock σ τ) (t : τ) : Option (Clock σ τ) :=
  let s := {s with phase := .checking}
  if (s.timer t).periodic && (s.timer t).activated then
    (s.modify t Timer.deactivate).start t
  else some (s.modify t Timer.deactivate)

/-- The loop of `check` with timeout functions that do not use timers. -/
def checkLoop : ℕ → Clock σ τ → Option (Clock σ τ)
  | 0,_ => none
  | fuel+1,s => do
      let s ← s.round
      match s.phase with
      | .callback t => (s.callbackReturn t).bind (checkLoop fuel)
      | _ => some s

def check (fuel : ℕ) (s : Clock σ τ) : Option (Clock σ τ) :=
  checkLoop fuel {s with phase := .checking}

inductive Call (τ : Type) where
  | construct (t : τ) (time : BitVec 32) (flag : BitVec 8)
  | detach (t : τ)
  | start (t : τ)
  | stop (t : τ)
  | control (t : τ) (c : Timer.Control)
  | tickIncrease
  | round
  | callbackReturn
  deriving DecidableEq, Repr

def call (s : Clock σ τ) : Call τ → Option (Clock σ τ)
  | .construct t time flag => some (s.construct t time flag)
  | .detach t => s.detach t
  | .start t => s.start t
  | .stop t => (s.stop t).map Prod.fst
  | .control t c => some (s.control t c)
  | .tickIncrease => some s.tickIncrease
  | .round => s.round
  | .callbackReturn =>
      match s.phase with
      | .callback t => s.callbackReturn t
      | _ => none

end Clock

end CosKernel

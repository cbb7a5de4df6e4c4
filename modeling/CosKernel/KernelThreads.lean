import CosKernel.ListFamily
import CosKernel.RedBlackLifetime

/-!
# Threads and the scheduler

The ready state of the kernel is spread over one list per priority, the
red-black tree of the non-empty priorities and the fields of each thread. All
lists share the threads' list nodes, so one family holds the ready lists, the
defunct list and the suspend lists of the IPC objects `ο`. Interrupts are
disabled around every access, so a method is one step up to the point where it
calls `process`; failed assertions and null dereferences are faults.

Which armed timer expires next is left open: `timerActive` tells that the
thread's timer is in the timer tree.
-/
namespace CosKernel
open RedBlackHeap

def THREAD_PRIORITY_MAX : ℕ := 255

instance : NeZero THREAD_PRIORITY_MAX := ⟨by decide⟩

abbrev Priority := Fin THREAD_PRIORITY_MAX

def ERR_OK : ℤ := 0
def ERR_ERROR : ℤ := 1
/-- The kernel takes this one from the header of lwip. -/
def ERR_TIMEOUT : ℤ := -3
def TICK_MAX : ℕ := 2^32-1

inductive Stat where
  | init
  | ready
  | suspend
  | close
  deriving DecidableEq, Repr

/-- `ready p` is the list object of the node `ready_table_[p]`, which gets it when
it is constructed and keeps it. -/
inductive ListId (ο : Type) where
  | ready (p : Priority)
  | defunct
  | suspend (o : ο)
  | sender (o : ο)
  deriving DecidableEq, Repr

structure Thread where
  stat : Stat
  currentPriority : Priority
  initPriority : Priority
  initTick : BitVec 32
  remainingTick : BitVec 32
  error : ℤ
  timerActive : Bool
  timerInitTick : ℕ
  eventSet : BitVec 32
  eventInfo : BitVec 8
  deriving DecidableEq, Repr

structure Kernel (σ θ : Type) where
  lists : σ
  priorityTree : Heap Priority Priority
  thread : θ → Thread
  currentThread : Option θ
  lockNest : ℤ

namespace Kernel

variable {σ ο θ : Type} [DecidableEq θ] [ListFamily σ (ListId ο) θ]

def modify (k : Kernel σ θ) (t : θ) (g : Thread → Thread) : Kernel σ θ :=
  {k with thread := Function.update k.thread t (g (k.thread t))}

omit [ListFamily σ (ListId ο) θ] in
@[simp] theorem modify_thread_self (k : Kernel σ θ) (t : θ) (g : Thread → Thread) :
    (k.modify t g).thread t = g (k.thread t) := by simp [modify]

omit [ListFamily σ (ListId ο) θ] in
@[simp] theorem modify_currentThread (k : Kernel σ θ) (t : θ) (g : Thread → Thread) :
    (k.modify t g).currentThread = k.currentThread := rfl

omit [ListFamily σ (ListId ο) θ] in
@[simp] theorem modify_modify (k : Kernel σ θ) (t : θ) (g g' : Thread → Thread) :
    (k.modify t g).modify t g' = k.modify t fun x => g' (g x) := by simp [modify]

def insertThread (k : Kernel σ θ) (t : θ) : Option (Kernel σ θ) := do
  let k := k.modify t fun x => {x with stat := .ready}
  let p := (k.thread t).currentPriority
  let tree ←
    if ListFamily.empty k.lists (ListId.ready p) then
      (k.priorityTree.insert (enough Priority) p).map Prod.fst
    else some k.priorityTree
  let lists ← ListFamily.pushBack k.lists (ListId.ready p) t
  some {k with priorityTree := tree, lists := lists}

def removeThread (k : Kernel σ θ) (t : θ) : Option (Kernel σ θ) := do
  let p := (k.thread t).currentPriority
  let lists ← ListFamily.erase k.lists (ListId.ready p) t
  let tree ←
    if ListFamily.empty lists (ListId.ready p) then
      (k.priorityTree.remove (enough Priority) p).map Prod.fst
    else some k.priorityTree
  some {k with priorityTree := tree, lists := lists}

variable (ο) in
/-- The list behind the minimum of an empty tree is null, and `front` of it a
fault; the inner `none` is the null thread of an empty list. -/
def firstReady (lists : σ) (priorityTree : Heap Priority Priority) : Option (Option θ) := do
  match ← priorityTree.min (enough Priority) with
  | none => none
  | some p => some (ListFamily.front lists (ListId.ready (ο := ο) p))

def nextThread (k : Kernel σ θ) : Option (Option θ) := firstReady ο k.lists k.priorityTree

/-- Switching to or from a null thread is a fault. -/
def process (k : Kernel σ θ) : Option (Kernel σ θ) :=
  if k.lockNest = 0 then do
    let toThread ← k.nextThread
    if toThread = k.currentThread then some k else
      match toThread,k.currentThread with
      | some t,some _ => some {k with currentThread := some t}
      | _,_ => none
  else some k

/-- `Scheduler::start`. -/
def start (k : Kernel σ θ) : Option (Kernel σ θ) := do
  let toThread ← k.nextThread
  toThread.map fun t => {k with currentThread := some t}

def timerStop (k : Kernel σ θ) (t : θ) : Kernel σ θ :=
  k.modify t fun x => {x with timerActive := false}

/-- `Timer::control(CTRL_SET_TIME)` and `Timer::start` of the thread's timer. -/
def timerStart (k : Kernel σ θ) (t : θ) (tick : ℕ) : Option (Kernel σ θ) :=
  if tick < TICK_MAX/2 then
    some (k.modify t fun x => {x with timerActive := true, timerInitTick := tick})
  else none

def suspend (k : Kernel σ θ) (t : θ) : Option (Kernel σ θ × ℤ) :=
  if (k.thread t).stat ≠ .ready then some (k,-ERR_ERROR) else do
    let k ← (k.modify t fun x => {x with stat := .suspend}).removeThread t
    some (k.timerStop t,ERR_OK)

def resume (k : Kernel σ θ) (t : θ) : Option (Kernel σ θ × ℤ) :=
  if (k.thread t).stat ≠ .suspend then some (k,-ERR_ERROR) else do
    let k ← (k.timerStop t).insertThread t
    some (k,ERR_OK)

def timeout (k : Kernel σ θ) (t : θ) : Option (Kernel σ θ) :=
  if (k.thread t).stat ≠ .suspend then none else do
    let k ← (k.modify t fun x => {x with error := -ERR_TIMEOUT}).insertThread t
    k.process

/-- One round of `Timer::check` for the one-shot timer of `t`. -/
def expire (k : Kernel σ θ) (t : θ) : Option (Kernel σ θ) := do
  let k ← k.timeout t
  some (k.timerStop t)

def startup (k : Kernel σ θ) (t : θ) : Option (Kernel σ θ) :=
  if (k.thread t).stat ≠ .init then none else do
    let k := k.modify t fun x => {x with currentPriority := x.initPriority, stat := .suspend}
    let (k,_) ← k.resume t
    if k.currentThread ≠ none then k.process else some k

/-- `Thread::sleep` up to and including `process`. -/
def sleep (k : Kernel σ θ) (tick : ℕ) : Option (Kernel σ θ) := do
  let t ← k.currentThread
  let (k,_) ← k.suspend t
  let k ← k.timerStart t tick
  k.process

/-- The rest of `Thread::sleep`, when the thread runs again. -/
def sleepReturn (k : Kernel σ θ) (t : θ) : Kernel σ θ :=
  k.modify t fun x => {x with error := if x.error = -ERR_TIMEOUT then ERR_OK else x.error}

/-- `Thread::control(CTRL_CHANGE_PRIORITY)`. -/
def changePriority (k : Kernel σ θ) (t : θ) (p : Priority) : Option (Kernel σ θ) :=
  if (k.thread t).stat = .ready then do
    let k ← k.removeThread t
    (k.modify t fun x => {x with currentPriority := p}).insertThread t
  else some (k.modify t fun x => {x with currentPriority := p})

def inclock (k : Kernel σ θ) : Option (Kernel σ θ) :=
  match k.currentThread with
  | none => some k
  | some t =>
      let k := k.modify t fun x => {x with remainingTick := x.remainingTick-1}
      if (k.thread t).remainingTick ≠ 0 then some k else
        let k := k.modify t fun x => {x with remainingTick := x.initTick}
        if (k.thread t).stat ≠ .ready then some k else do
          let l := ListId.ready (k.thread t).currentPriority
          let lists ← ListFamily.erase k.lists l t
          let lists ← ListFamily.pushBack lists l t
          Kernel.process {k with lists := lists}

def detach (k : Kernel σ θ) (t : θ) (deleteLater : Bool) : Option (Kernel σ θ) := do
  let k ← k.removeThread t
  let k := k.modify t fun x => {x with timerActive := false, stat := .close}
  if deleteLater then do
    let lists ← ListFamily.pushBack k.lists ListId.defunct t
    some {k with lists := lists}
  else some k

def exit (k : Kernel σ θ) : Option (Kernel σ θ) := do
  let t ← k.currentThread
  let k ← k.removeThread t
  let k ← k.detach t true
  k.process

/-- One round of the loop of `Idle::excute`, with the thread it deletes; other
threads may run between two rounds. Without defunct threads the loop ends. The
destructor of the thread detaches it once more. -/
def excute (fuel : ℕ) (k : Kernel σ θ) : Option (Kernel σ θ × Option θ) := do
  let n ← ListFamily.size fuel k.lists ListId.defunct
  if n = 0 then some (k,none) else
    let t ← ListFamily.front k.lists ListId.defunct
    let lists ← ListFamily.erase k.lists ListId.defunct t
    let k ← Kernel.detach {k with lists := lists} t false
    some (k,some t)

end Kernel

end CosKernel

import CosKernel.IpcObjects

/-!
# The calls of inter-process communication

Any number of threads and of semaphores, mutexes, events, mailboxes and message queues, over any
family of lists. A call is cut where its thread blocks and between the critical sections of a
message queue, and the clock and the timers are calls as well.
-/
namespace CosKernel

namespace Ipc

inductive Object (θ : Type) where
  | semaphore (value : BitVec 16)
  | mutex (m : Mutex θ)
  | event (set : BitVec 32)
  | mailbox (m : MailBox)
  | queue (q : MessageQueue)

/-- Where a thread is: outside of all calls, in a wait behind `process`, or between two
critical sections of a message queue. -/
inductive Place (ο : Type) where
  | idle
  | taking (o : ο)
  | locking (o : ο)
  | watching (o : ο)
  | posting (o : ο) (value timeout tickDelta : BitVec 32)
  | fetching (o : ο) (timeout tickDelta : BitVec 32)
  | receiving (o : ο) (size : ℕ) (timeout tickDelta : BitVec 32)
  | sending (o : ο) (urgent : Bool) (msg : ℕ) (buffer : List (BitVec 8))
  | copying (o : ο) (msg size : ℕ)
  deriving DecidableEq, Repr

/-- The list of the wait in which a thread is. -/
def Place.list {ο : Type} : Place ο → Option (ListId ο)
  | taking o | locking o | watching o | fetching o _ _ | receiving o _ _ _ => some (.suspend o)
  | posting o _ _ _ => some (.sender o)
  | idle | sending _ _ _ _ | copying _ _ _ => none

inductive Call (ο θ : Type) where
  | take (t : θ) (o : ο) (time : BitVec 32)
  | release (t : θ) (o : ο)
  | recvEvent (t : θ) (o : ο) (set : BitVec 32) (option : BitVec 8) (timeout : BitVec 32)
  | sendEvent (o : ο) (set : BitVec 32)
  | sendWait (t : θ) (o : ο) (value timeout : BitVec 32)
  | recvMail (t : θ) (o : ο) (timeout : BitVec 32)
  | sendMessage (t : θ) (o : ο) (urgent : Bool) (buffer : List (BitVec 8))
  | recvMessage (t : θ) (o : ο) (size : ℕ) (timeout : BitVec 32)
  | proceed (t : θ)
  | expire (t : θ)
  | tick
  deriving DecidableEq, Repr

end Ipc

open Ipc

structure System (σ ο θ : Type) where
  kernel : Kernel σ θ
  tick : BitVec 32
  object : ο → Object θ
  place : θ → Place ο

abbrev IdealSystem (ο θ : Type) := System (Sequences (ListId ο) θ) ο θ

namespace System

variable {σ ο θ : Type} [DecidableEq ο] [DecidableEq θ] [ListFamily σ (ListId ο) θ]

/-- A part of a call of `t` on the object `o` has ended. -/
def finish (w : System σ ο θ) (o : ο) (t : θ) (k : Kernel σ θ) (x : Object θ) (p : Place ο) :
    System σ ο θ :=
  {w with
    kernel := k
    object := Function.update w.object o x
    place := Function.update w.place t p}

def change (w : System σ ο θ) (o : ο) (k : Kernel σ θ) (x : Object θ) : System σ ο θ :=
  {w with kernel := k, object := Function.update w.object o x}

def posted (w : System σ ο θ) (o : ο) (t : θ) (value : BitVec 32) :
    Kernel σ θ × MailBox × Progress ℤ → System σ ο θ
  | (k,m,.returned _) => w.finish o t k (.mailbox m) .idle
  | (k,m,.waiting timeout tickDelta) =>
      w.finish o t k (.mailbox m) (.posting o value timeout tickDelta)

def fetched (w : System σ ο θ) (o : ο) (t : θ) :
    Kernel σ θ × MailBox × Progress (ℤ × Option (BitVec 32)) → System σ ο θ
  | (k,m,.returned _) => w.finish o t k (.mailbox m) .idle
  | (k,m,.waiting timeout tickDelta) =>
      w.finish o t k (.mailbox m) (.fetching o timeout tickDelta)

def received (w : System σ ο θ) (o : ο) (t : θ) (size : ℕ) :
    Kernel σ θ × MessageQueue × Progress (ℤ ⊕ ℕ) → System σ ο θ
  | (k,q,.returned (.inl _)) => w.finish o t k (.queue q) .idle
  | (k,q,.returned (.inr msg)) => w.finish o t k (.queue q) (.copying o msg size)
  | (k,q,.waiting timeout tickDelta) =>
      w.finish o t k (.queue q) (.receiving o size timeout tickDelta)

/-- A blocked thread runs again, or a thread enters the next critical section. -/
def proceed (w : System σ ο θ) (t : θ) : Option (System σ ο θ) :=
  match w.place t with
  | .idle => none
  | .taking o | .locking o | .watching o =>
      some (w.finish o t w.kernel (w.object o) .idle)
  | .posting o value timeout tickDelta =>
      match w.object o with
      | .mailbox m =>
          (MailBox.sendProceed w.kernel o m w.tick t value timeout tickDelta).map
            (w.posted o t value)
      | _ => none
  | .fetching o timeout tickDelta =>
      match w.object o with
      | .mailbox m =>
          (MailBox.recvProceed w.kernel o m w.tick t timeout tickDelta).map (w.fetched o t)
      | _ => none
  | .receiving o size timeout tickDelta =>
      match w.object o with
      | .queue q =>
          (MessageQueue.recvProceed w.kernel o q w.tick t timeout tickDelta).map
            (w.received o t size)
      | _ => none
  | .sending o urgent msg buffer =>
      match w.object o with
      | .queue q =>
          (MessageQueue.notify w.kernel o).map fun r =>
            w.finish o t r.1
              (.queue (if urgent then q.linkFirst msg buffer else q.linkLast msg buffer)) .idle
      | _ => none
  | .copying o msg size =>
      match w.object o with
      | .queue q => some (w.finish o t w.kernel (.queue (q.recycle msg size).1) .idle)
      | _ => none

/-- The calls of inter-process communication, and the clock. -/
def ipc (fuel : ℕ) (w : System σ ο θ) : Ipc.Call ο θ → Option (System σ ο θ)
  | .take t o time =>
      match w.object o with
      | .semaphore value =>
          (Semaphore.take w.kernel o value t time).map fun r =>
            w.finish o t r.1 (.semaphore r.2.1) (if r.2.2.isNone then .taking o else .idle)
      | .mutex m =>
          (Mutex.take w.kernel o m t time).map fun r =>
            w.finish o t r.1 (.mutex r.2.1) (if r.2.2.isNone then .locking o else .idle)
      | _ => none
  | .release t o =>
      match w.object o with
      | .semaphore value =>
          (Semaphore.release w.kernel o value).map fun r => w.change o r.1 (.semaphore r.2.1)
      | .mutex m => (Mutex.release w.kernel o m t).map fun r => w.change o r.1 (.mutex r.2.1)
      | _ => none
  | .recvEvent t o set option timeout =>
      match w.object o with
      | .event set_ =>
          (Event.recv w.kernel o set_ t set option timeout).map fun r =>
            w.finish o t r.1 (.event r.2.1) (if r.2.2.isNone then .watching o else .idle)
      | _ => none
  | .sendEvent o set =>
      match w.object o with
      | .event set_ =>
          (Event.send fuel w.kernel o set_ set).map fun r => w.change o r.1 (.event r.2.1)
      | _ => none
  | .sendWait t o value timeout =>
      match w.object o with
      | .mailbox m =>
          (MailBox.sendWait w.kernel o m w.tick t value timeout).map (w.posted o t value)
      | _ => none
  | .recvMail t o timeout =>
      match w.object o with
      | .mailbox m => (MailBox.recv w.kernel o m w.tick t timeout).map (w.fetched o t)
      | _ => none
  | .sendMessage t o urgent buffer =>
      match w.object o with
      | .queue q =>
          (q.reserve buffer).map fun r =>
            match r.2 with
            | .inl _ => w.change o w.kernel (.queue r.1)
            | .inr msg => w.finish o t w.kernel (.queue r.1) (.sending o urgent msg buffer)
      | _ => none
  | .recvMessage t o size timeout =>
      match w.object o with
      | .queue q =>
          (MessageQueue.recv w.kernel o q w.tick t size timeout).map (w.received o t size)
      | _ => none
  | .proceed t => w.proceed t
  | .expire t => (w.kernel.expire t).map fun k => {w with kernel := k}
  | .tick => w.kernel.inclock.map fun k => {w with kernel := k, tick := w.tick+1}

end System

end CosKernel

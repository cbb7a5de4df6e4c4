import CosKernel.KernelThreads

/-!
# The objects of inter-process communication

Semaphores, mutexes, events, mailboxes and message queues. A call that blocks is
cut at the point where it calls `process` with its thread suspended: the first
part ends there without a result, and a second part says what the thread does
when it runs again. A call that leaves its critical section in the middle is cut
there too. The thread that makes the call is passed as `t`. Times are `int32_t`
and negative ones mean to wait for ever.

The `switch` of `list_suspend` reads the flag of the thread, which is never set;
both of its cases append to the list.
-/
namespace CosKernel

def ERR_FULL : ℤ := 3

variable {σ ο θ : Type} [DecidableEq θ] [ListFamily σ (ListId ο) θ]

namespace Kernel

def listSuspend (k : Kernel σ θ) (o : ο) (t : θ) : Option (Kernel σ θ) := do
  let (k,_) ← k.suspend t
  let lists ← ListFamily.pushBack k.lists (ListId.suspend o) t
  some {k with lists := lists}

/-- The result of `resume` is ignored. -/
def listResume (k : Kernel σ θ) (o : ο) : Option (Kernel σ θ × ℤ) :=
  match ListFamily.front k.lists (ListId.suspend o) with
  | none => some (k,-ERR_ERROR)
  | some t => do
      let lists ← ListFamily.erase k.lists (ListId.suspend o) t
      let (k,_) ← Kernel.resume {k with lists := lists} t
      some (k,ERR_OK)

/-- The thread timer is started for positive times only. -/
def startTimer (k : Kernel σ θ) (t : θ) (time : BitVec 32) : Option (Kernel σ θ) :=
  if 0 < time.toInt then k.timerStart t time.toNat else some k

def setError (k : Kernel σ θ) (t : θ) (e : ℤ) : Kernel σ θ :=
  k.modify t fun x => {x with error := e}

/-- Every thread of the suspend list is resumed with an error. -/
def listResumeAll (o : ο) : ℕ → Kernel σ θ → Option (Kernel σ θ)
  | 0,_ => none
  | fuel+1,k =>
      if ListFamily.empty k.lists (ListId.suspend o) then some k else do
        let t ← ListFamily.front k.lists (ListId.suspend o)
        let lists ← ListFamily.erase k.lists (ListId.suspend o) t
        let (k,_) ← (Kernel.setError {k with lists := lists} t (-ERR_ERROR)).resume t
        listResumeAll o fuel k

end Kernel

/-- The command of `control` that resets an object. -/
def CMD_RESET : BitVec 8 := 0x01

namespace Semaphore

/-- `value` is `value_`. Without a result the thread is blocked. -/
def take (k : Kernel σ θ) (o : ο) (value : BitVec 16) (t : θ) (time : BitVec 32) :
    Option (Kernel σ θ × BitVec 16 × Option ℤ) :=
  if 0 < value then some (k,value-1,some ERR_OK)
  else if time = 0 then some (k,value,some (-ERR_TIMEOUT))
  else do
    let k ← (k.setError t ERR_OK).listSuspend o t
    let k ← k.startTimer t time
    let k ← k.process
    some (k,value,none)

/-- The end of `take` after `process`. -/
def takeReturn (k : Kernel σ θ) (t : θ) : ℤ :=
  if (k.thread t).error ≠ ERR_OK then (k.thread t).error else ERR_OK

def trytake (k : Kernel σ θ) (o : ο) (value : BitVec 16) (t : θ) :
    Option (Kernel σ θ × BitVec 16 × Option ℤ) := take k o value t 0

def release (k : Kernel σ θ) (o : ο) (value : BitVec 16) :
    Option (Kernel σ θ × BitVec 16 × ℤ) := do
  let (k,e) ← k.listResume o
  if e = ERR_OK then do
    let k ← k.process
    some (k,value,ERR_OK)
  else some (k,value+1,ERR_OK)

end Semaphore

/-- A null `originalPriority` stands for 0xFF, which is no priority. -/
structure Mutex (θ : Type) where
  value : BitVec 16
  originalPriority : Option Priority
  hold : BitVec 8
  owner : Option θ
  deriving DecidableEq, Repr

namespace Mutex

def new : Mutex θ where
  value := 1
  originalPriority := none
  hold := 0
  owner := none

/-- The owner `u` inherits the priority of the waiting thread `t`, if that is higher. -/
def inherit (k : Kernel σ θ) (u t : θ) : Option (Kernel σ θ) :=
  if (k.thread t).currentPriority < (k.thread u).currentPriority then
    k.changePriority u (k.thread t).currentPriority
  else some k

/-- The priority that `t` had when it took the mutex is restored. -/
def restore (k : Kernel σ θ) (m : Mutex θ) (t : θ) : Option (Kernel σ θ) :=
  if m.originalPriority ≠ some (k.thread t).currentPriority then do
    let p ← m.originalPriority
    k.changePriority t p
  else some k

def take (k : Kernel σ θ) (o : ο) (m : Mutex θ) (t : θ) (time : BitVec 32) :
    Option (Kernel σ θ × Mutex θ × Option ℤ) :=
  let k := k.setError t ERR_OK
  if m.owner = some t then some (k,{m with hold := m.hold+1},some ERR_OK)
  else if 0 < m.value then
    some (k,{m with
      value := m.value-1, owner := some t,
      originalPriority := some (k.thread t).currentPriority, hold := m.hold+1},some ERR_OK)
  else if time = 0 then some (k.setError t (-ERR_TIMEOUT),m,some (-ERR_TIMEOUT))
  else do
    let u ← m.owner
    let k ← inherit k u t
    let k ← k.listSuspend o t
    let k ← k.startTimer t time
    let k ← k.process
    some (k,m,none)

/-- The end of `take` after `process`. -/
def takeReturn (k : Kernel σ θ) (t : θ) : ℤ :=
  if (k.thread t).error ≠ ERR_OK then (k.thread t).error else ERR_OK

/-- The last release of the owner. -/
def handOver (k : Kernel σ θ) (o : ο) (m : Mutex θ) (t : θ) : Option (Kernel σ θ × Mutex θ) := do
  let k ← restore k m t
  if ListFamily.empty k.lists (ListId.suspend o) then
    some (k,{m with value := m.value+1, owner := none, originalPriority := none})
  else do
    let u ← ListFamily.front k.lists (ListId.suspend o)
    let m := {m with
      owner := some u, originalPriority := some (k.thread u).currentPriority, hold := m.hold+1}
    let (k,_) ← k.listResume o
    let k ← k.process
    some (k,m)

def release (k : Kernel σ θ) (o : ο) (m : Mutex θ) (t : θ) :
    Option (Kernel σ θ × Mutex θ × ℤ) :=
  if m.owner ≠ some t then some (k.setError t (-ERR_ERROR),m,-ERR_ERROR) else
    let m := {m with hold := m.hold-1}
    if m.hold = 0 then do
      let (k,m) ← handOver k o m t
      some (k,m,ERR_OK)
    else some (k,m,ERR_OK)

end Mutex

namespace Event

def FLAG_AND : BitVec 8 := 0x01
def FLAG_OR : BitVec 8 := 0x02
def FLAG_CLEAR : BitVec 8 := 0x04

/-- Whether the events in `set_` satisfy the interest `set`; without one of the two
flags nothing does. -/
def satisfied (set_ set : BitVec 32) (option : BitVec 8) : Bool :=
  if option &&& FLAG_AND ≠ 0 then set_ &&& set = set
  else if option &&& FLAG_OR ≠ 0 then set_ &&& set ≠ 0
  else false

/-- `set_` is the event set of the object. The second component of a result is
what is written through `recved`. -/
def recv (k : Kernel σ θ) (o : ο) (set_ : BitVec 32) (t : θ) (set : BitVec 32)
    (option : BitVec 8) (timeout : BitVec 32) :
    Option (Kernel σ θ × BitVec 32 × Option (ℤ × Option (BitVec 32))) :=
  if set = 0 then some (k,set_,some (-ERR_ERROR,none))
  else
    let k := k.setError t ERR_OK
    if option &&& FLAG_AND = 0 ∧ option &&& FLAG_OR = 0 then none
    else if satisfied set_ set option then
      some (k,if option &&& FLAG_CLEAR ≠ 0 then set_ &&& ~~~set else set_,
        some (ERR_OK,some (set_ &&& set)))
    else if timeout = 0 then
      some (k.setError t (-ERR_TIMEOUT),set_,some (-ERR_TIMEOUT,none))
    else do
      let k := k.modify t fun x => {x with eventSet := set, eventInfo := option}
      let k ← k.listSuspend o t
      let k ← k.startTimer t timeout
      let k ← k.process
      some (k,set_,none)

/-- The end of `recv` after `process`. -/
def recvReturn (k : Kernel σ θ) (t : θ) : ℤ × Option (BitVec 32) :=
  if (k.thread t).error ≠ ERR_OK then ((k.thread t).error,none)
  else ((k.thread t).error,some (k.thread t).eventSet)

/-- The loop of `send`. The next node is read before the thread is taken out; a
thread that waits for any of its events keeps those that arrived. -/
def sendLoop (o : ο) : ℕ → Kernel σ θ → BitVec 32 → Option θ → Bool →
    Option (Kernel σ θ × BitVec 32 × Bool)
  | _,k,set_,none,need => some (k,set_,need)
  | 0,_,_,some _,_ => none
  | fuel+1,k,set_,some t,need =>
      let x := k.thread t
      let next := ListFamily.next k.lists (ListId.suspend o) t
      if satisfied set_ x.eventSet x.eventInfo then do
        let k :=
          if x.eventInfo &&& FLAG_AND = 0 then
            k.modify t fun x => {x with eventSet := x.eventSet &&& set_}
          else k
        let set_ :=
          if x.eventInfo &&& FLAG_CLEAR ≠ 0 then set_ &&& ~~~(k.thread t).eventSet else set_
        let lists ← ListFamily.erase k.lists (ListId.suspend o) t
        let (k,_) ← Kernel.resume {k with lists := lists} t
        sendLoop o fuel k set_ next true
      else sendLoop o fuel k set_ next need

def send (fuel : ℕ) (k : Kernel σ θ) (o : ο) (set_ set : BitVec 32) :
    Option (Kernel σ θ × BitVec 32 × ℤ) :=
  if set = 0 then some (k,set_,-ERR_ERROR) else do
    let (k,set_,need) ← sendLoop o fuel k (set_ ||| set)
      (ListFamily.begin k.lists (ListId.suspend o)) false
    let k ← if need then k.process else some k
    some (k,set_,ERR_OK)

end Event

/-- How a part of a call ends: with a result, or with its thread suspended and the
values of its local variables. -/
inductive Progress (α : Type) where
  | returned (a : α)
  | waiting (timeout tickDelta : BitVec 32)
  deriving DecidableEq, Repr

/-- The timeout that is left when a waiting thread runs again at `tick`. -/
def remaining (timeout tickDelta tick : BitVec 32) : BitVec 32 :=
  if 0 < timeout.toInt then
    let rest := timeout-(tick-tickDelta)
    if rest.toInt < 0 then 0 else rest
  else timeout

/-- The local `tick_delta` at the same point. -/
def elapsed (timeout tickDelta tick : BitVec 32) : BitVec 32 :=
  if 0 < timeout.toInt then tick-tickDelta else tickDelta

/-- The local `tick_delta` when the thread timer is started. -/
def startTick (timeout tickDelta tick : BitVec 32) : BitVec 32 :=
  if 0 < timeout.toInt then tick else tickDelta

structure MailBox where
  msgPool : ℕ → BitVec 32
  size : BitVec 16
  entry : BitVec 16
  inOffset : BitVec 16
  outOffset : BitVec 16

namespace MailBox

/-- The next position in the pool of `size` messages. -/
def advance (size offset : BitVec 16) : BitVec 16 := if size ≤ offset+1 then 0 else offset+1

def store (m : MailBox) (value : BitVec 32) : MailBox :=
  {m with
    msgPool := Function.update m.msgPool m.inOffset.toNat value
    inOffset := advance m.size m.inOffset
    entry := m.entry+1}

/-- From the test of the loop on: block once more, or store the value. -/
def sendLoop (k : Kernel σ θ) (o : ο) (m : MailBox) (tick : BitVec 32) (t : θ)
    (value timeout tickDelta : BitVec 32) : Option (Kernel σ θ × MailBox × Progress ℤ) :=
  if m.entry = m.size then
    let k := k.setError t ERR_OK
    if timeout = 0 then some (k,m,.returned (-ERR_FULL)) else do
      let (k,_) ← k.suspend t
      let lists ← ListFamily.pushBack k.lists (ListId.sender o) t
      let k ← Kernel.startTimer {k with lists := lists} t timeout
      let k ← k.process
      some (k,m,.waiting timeout (startTick timeout tickDelta tick))
  else do
    let m := m.store value
    let (k,e) ← k.listResume o
    let k ← if e = ERR_OK then k.process else some k
    some (k,m,.returned ERR_OK)

def sendWait (k : Kernel σ θ) (o : ο) (m : MailBox) (tick : BitVec 32) (t : θ)
    (value timeout : BitVec 32) : Option (Kernel σ θ × MailBox × Progress ℤ) :=
  if m.entry = m.size ∧ timeout = 0 then some (k,m,.returned (-ERR_FULL))
  else sendLoop k o m tick t value timeout 0

def send (k : Kernel σ θ) (o : ο) (m : MailBox) (tick : BitVec 32) (t : θ) (value : BitVec 32) :
    Option (Kernel σ θ × MailBox × Progress ℤ) := sendWait k o m tick t value 0

/-- The rest of a round of the loop after `process`. -/
def sendProceed (k : Kernel σ θ) (o : ο) (m : MailBox) (tick : BitVec 32) (t : θ)
    (value timeout tickDelta : BitVec 32) : Option (Kernel σ θ × MailBox × Progress ℤ) :=
  if (k.thread t).error ≠ ERR_OK then some (k,m,.returned (k.thread t).error)
  else sendLoop k o m tick t value (remaining timeout tickDelta tick)
    (elapsed timeout tickDelta tick)

/-- From the test of the loop on: block once more, or fetch a value and wake a
sender. -/
def recvLoop (k : Kernel σ θ) (o : ο) (m : MailBox) (tick : BitVec 32) (t : θ)
    (timeout tickDelta : BitVec 32) :
    Option (Kernel σ θ × MailBox × Progress (ℤ × Option (BitVec 32))) :=
  if m.entry = 0 then
    let k := k.setError t ERR_OK
    if timeout = 0 then
      some (k.setError t (-ERR_TIMEOUT),m,.returned (-ERR_TIMEOUT,none))
    else do
      let k ← k.listSuspend o t
      let k ← k.startTimer t timeout
      let k ← k.process
      some (k,m,.waiting timeout (startTick timeout tickDelta tick))
  else
    let value := m.msgPool m.outOffset.toNat
    let m := {m with outOffset := advance m.size m.outOffset, entry := m.entry-1}
    if ListFamily.empty k.lists (ListId.sender o) then
      some (k,m,.returned (ERR_OK,some value))
    else do
      let u ← ListFamily.front k.lists (ListId.sender o)
      let lists ← ListFamily.erase k.lists (ListId.sender o) u
      let (k,_) ← Kernel.resume {k with lists := lists} u
      let k ← k.process
      some (k,m,.returned (ERR_OK,some value))

def recv (k : Kernel σ θ) (o : ο) (m : MailBox) (tick : BitVec 32) (t : θ) (timeout : BitVec 32) :
    Option (Kernel σ θ × MailBox × Progress (ℤ × Option (BitVec 32))) :=
  if m.entry = 0 ∧ timeout = 0 then some (k,m,.returned (-ERR_TIMEOUT,none))
  else recvLoop k o m tick t timeout 0

/-- The rest of a round of the loop after `process`. -/
def recvProceed (k : Kernel σ θ) (o : ο) (m : MailBox) (tick : BitVec 32) (t : θ)
    (timeout tickDelta : BitVec 32) :
    Option (Kernel σ θ × MailBox × Progress (ℤ × Option (BitVec 32))) :=
  if (k.thread t).error ≠ ERR_OK then some (k,m,.returned ((k.thread t).error,none))
  else recvLoop k o m tick t (remaining timeout tickDelta tick) (elapsed timeout tickDelta tick)

end MailBox

/-- The slots of the pool are numbered; `next` is the link in the header of a slot
and `payload` the bytes behind it. -/
structure MessageQueue where
  next : ℕ → Option ℕ
  payload : ℕ → List (BitVec 8)
  msgSize : BitVec 16
  entry : BitVec 16
  head : Option ℕ
  tail : Option ℕ
  free : Option ℕ

namespace MessageQueue

/-- The first critical section of `send` and of `urgent`: a free slot is taken. An
empty buffer fails an assertion. -/
def reserve (q : MessageQueue) (buffer : List (BitVec 8)) : Option (MessageQueue × (ℤ ⊕ ℕ)) :=
  if buffer = [] then none
  else if q.msgSize.toNat < buffer.length then some (q,.inl (-ERR_ERROR))
  else
    match q.free with
    | none => some (q,.inl (-ERR_FULL))
    | some msg => some ({q with free := q.next msg},.inr msg)

def copyIn (q : MessageQueue) (msg : ℕ) (buffer : List (BitVec 8)) : MessageQueue :=
  let bytes := buffer++(q.payload msg).drop buffer.length
  {q with payload := Function.update q.payload msg bytes}

def setNext (q : MessageQueue) (msg : ℕ) (n : Option ℕ) : MessageQueue :=
  {q with next := Function.update q.next msg n}

/-- The message becomes the new tail. -/
def linkLast (q : MessageQueue) (msg : ℕ) (buffer : List (BitVec 8)) : MessageQueue :=
  let q := (q.setNext msg none).copyIn msg buffer
  let q := match q.tail with
    | some l => q.setNext l (some msg)
    | none => q
  {q with tail := some msg, head := if q.head = none then some msg else q.head, entry := q.entry+1}

/-- The message becomes the new head. -/
def linkFirst (q : MessageQueue) (msg : ℕ) (buffer : List (BitVec 8)) : MessageQueue :=
  let q := (q.copyIn msg buffer).setNext msg q.head
  {q with head := some msg, tail := if q.tail = none then some msg else q.tail, entry := q.entry+1}

/-- The end of `send` and of `urgent`: wake a receiver. -/
def notify (k : Kernel σ θ) (o : ο) : Option (Kernel σ θ × ℤ) :=
  if ListFamily.empty k.lists (ListId.suspend o) then some (k,ERR_OK) else do
    let (k,_) ← k.listResume o
    let k ← k.process
    some (k,ERR_OK)

/-- The first critical section of `recv` from the test of the loop on: block once
more, or unlink the first message, whose slot is then the result. -/
def recvLoop (k : Kernel σ θ) (o : ο) (q : MessageQueue) (tick : BitVec 32) (t : θ)
    (timeout tickDelta : BitVec 32) :
    Option (Kernel σ θ × MessageQueue × Progress (ℤ ⊕ ℕ)) :=
  if q.entry = 0 then
    let k := k.setError t ERR_OK
    if timeout = 0 then
      some (k.setError t (-ERR_TIMEOUT),q,.returned (.inl (-ERR_TIMEOUT)))
    else do
      let k ← k.listSuspend o t
      let k ← k.startTimer t timeout
      let k ← k.process
      some (k,q,.waiting timeout (startTick timeout tickDelta tick))
  else do
    let msg ← q.head
    some (k,{q with
      head := q.next msg, tail := if q.tail = some msg then none else q.tail,
      entry := q.entry-1},.returned (.inr msg))

/-- A zero size fails an assertion. -/
def recv (k : Kernel σ θ) (o : ο) (q : MessageQueue) (tick : BitVec 32) (t : θ) (size : ℕ)
    (timeout : BitVec 32) : Option (Kernel σ θ × MessageQueue × Progress (ℤ ⊕ ℕ)) :=
  if size = 0 then none
  else if q.entry = 0 ∧ timeout = 0 then some (k,q,.returned (.inl (-ERR_TIMEOUT)))
  else recvLoop k o q tick t timeout 0

/-- The rest of a round of the loop after `process`. -/
def recvProceed (k : Kernel σ θ) (o : ο) (q : MessageQueue) (tick : BitVec 32) (t : θ)
    (timeout tickDelta : BitVec 32) :
    Option (Kernel σ θ × MessageQueue × Progress (ℤ ⊕ ℕ)) :=
  if (k.thread t).error ≠ ERR_OK then some (k,q,.returned (.inl (k.thread t).error))
  else recvLoop k o q tick t (remaining timeout tickDelta tick) (elapsed timeout tickDelta tick)

/-- The end of `recv`: the payload is copied out and the slot is free again. -/
def recycle (q : MessageQueue) (msg size : ℕ) : MessageQueue × List (BitVec 8) :=
  ({q.setNext msg q.free with free := some msg},
    (q.payload msg).take (if q.msgSize.toNat < size then q.msgSize.toNat else size))

/-- The loop of `control` that makes the slots of all messages free. -/
def drain : ℕ → MessageQueue → Option MessageQueue
  | 0,_ => none
  | fuel+1,q =>
      match q.head with
      | none => some q
      | some msg =>
          let q := {q with
            head := q.next msg, tail := if q.tail = some msg then none else q.tail}
          drain fuel {q.setNext msg q.free with free := some msg}

def control (fuel : ℕ) (k : Kernel σ θ) (o : ο) (q : MessageQueue) (cmd : BitVec 8) :
    Option (Kernel σ θ × MessageQueue × ℤ) :=
  if cmd = CMD_RESET then do
    let k ← Kernel.listResumeAll o fuel k
    let q ← q.drain fuel
    let k ← k.process
    some (k,{q with entry := 0},ERR_OK)
  else some (k,q,-ERR_ERROR)

end MessageQueue

end CosKernel

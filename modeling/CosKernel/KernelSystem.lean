import CosKernel.KernelMorphisms
import CosKernel.WaitMembership

/-!
# The kernel as one system

Any number of threads and of objects of all five kinds, over any family of lists. A step is a call
of the interface of the kernel up to the point where it calls `process` or leaves its critical
section: the calls of inter-process communication, resets of objects, the life of the threads from
`startup` to the deletion by the idle thread, sleeping, changes of priorities, the clock, expiring
timers and the critical sections of the scheduler.

Over checked lists the system runs on linked nodes and on sequences at the same time, so whatever
it does over the one it does over the other.
-/
namespace CosKernel
open PartialMorphisms TransitionRuns Kernel Ipc

namespace System

inductive Call (ο θ : Type) where
  | ipc (c : Ipc.Call ο θ)
  | control (o : ο) (cmd : BitVec 8) (arg : BitVec 32)
  | startup (t : θ)
  | start
  | suspend (t : θ)
  | resume (t : θ)
  | sleep (tick : ℕ)
  | sleepReturn (t : θ)
  | changePriority (t : θ) (p : Priority)
  | exit
  | excute
  | enterCritical
  | exitCritical
  deriving DecidableEq, Repr

section model

variable {σ ο θ : Type} [DecidableEq ο] [DecidableEq θ] [ListFamily σ (ListId ο) θ]

def control (fuel : ℕ) (w : System σ ο θ) (o : ο) (cmd : BitVec 8) (arg : BitVec 32) :
    Option (System σ ο θ) :=
  match w.object o with
  | .semaphore value =>
      (Semaphore.control fuel w.kernel o value cmd arg).map fun r =>
        w.change o r.1 (.semaphore r.2.1)
  | .mutex m => some (w.change o w.kernel (.mutex (m.control cmd).1))
  | .event set_ =>
      (Event.control fuel w.kernel o set_ cmd).map fun r => w.change o r.1 (.event r.2.1)
  | .mailbox m =>
      (MailBox.control fuel w.kernel o m cmd).map fun r => w.change o r.1 (.mailbox r.2.1)
  | .queue q =>
      (MessageQueue.control fuel w.kernel o q cmd).map fun r => w.change o r.1 (.queue r.2.1)

/-- A call that changes the kernel only. -/
def within (w : System σ ο θ) (k : Kernel σ θ) : System σ ο θ := {w with kernel := k}

def step (fuel : ℕ) (w : System σ ο θ) : Call ο θ → Option (System σ ο θ)
  | .ipc c => w.ipc fuel c
  | .control o cmd arg => w.control fuel o cmd arg
  | .startup t => (w.kernel.startup t).map w.within
  | .start => w.kernel.start.map w.within
  | .suspend t => (w.kernel.suspend t).map fun r => w.within r.1
  | .resume t => (w.kernel.resume t).map fun r => w.within r.1
  | .sleep tick => (w.kernel.sleep tick).map w.within
  | .sleepReturn t => some (w.within (w.kernel.sleepReturn t))
  | .changePriority t p => (w.kernel.changePriority t p).map w.within
  | .exit => w.kernel.exit.map w.within
  | .excute => (w.kernel.excute fuel).map fun r => w.within r.1
  | .enterCritical => some (w.within (CriticalSections.enterCritical w.kernel))
  | .exitCritical => (CriticalSections.exitCritical ο w.kernel).map w.within

end model

section morphism

/-- The same system over other lists. -/
def map {σ σ' ο θ : Type} (f : σ → σ') (w : System σ ο θ) : System σ' ο θ where
  kernel := w.kernel.map f
  tick := w.tick
  object := w.object
  place := w.place

variable {σ σ' ο θ : Type} [DecidableEq ο] [DecidableEq θ] [ListFamily σ (ListId ο) θ]
variable [ListFamily σ' (ListId ο) θ] (φ : ListMorphism (ι := ListId ο) (ν := θ) σ σ')
variable (w : System σ ο θ)

theorem posted_map (o : ο) (t : θ) (value : BitVec 32) (r : Kernel σ θ × MailBox × Progress ℤ) :
    (w.map φ.toFun).posted o t value (mapped φ.toFun r) = (w.posted o t value r).map φ.toFun := by
  obtain ⟨k,m,e | ⟨d,n⟩⟩ := r <;> rfl

theorem fetched_map (o : ο) (t : θ)
    (r : Kernel σ θ × MailBox × Progress (ℤ × Option (BitVec 32))) :
    (w.map φ.toFun).fetched o t (mapped φ.toFun r) = (w.fetched o t r).map φ.toFun := by
  obtain ⟨k,m,e | ⟨d,n⟩⟩ := r <;> rfl

theorem received_map (o : ο) (t : θ) (size : ℕ)
    (r : Kernel σ θ × MessageQueue × Progress (ℤ ⊕ ℕ)) :
    (w.map φ.toFun).received o t size (mapped φ.toFun r) =
      (w.received o t size r).map φ.toFun := by
  obtain ⟨k,q,(e | e) | ⟨d,n⟩⟩ := r <;> rfl

theorem proceed_carried (t : θ) :
    Carries (map φ.toFun) (w.proceed t) ((w.map φ.toFun).proceed t) := by
  unfold proceed
  dsimp only [map]
  cases w.place t with
  | idle => exact carries_none
  | taking o | locking o | watching o => exact carries_some (f := map φ.toFun) (w.finish o t _ _ _)
  | posting o value timeout tickDelta =>
      dsimp only
      cases w.object o with
      | mailbox m =>
          exact (MailBox.sendProceed_carried φ _ o t _ _ _ m value).map (posted_map φ w o t value)
      | _ => exact carries_none
  | fetching o timeout tickDelta =>
      dsimp only
      cases w.object o with
      | mailbox m =>
          exact (MailBox.recvProceed_carried φ _ o t _ _ _ m).map (fetched_map φ w o t)
      | _ => exact carries_none
  | receiving o size timeout tickDelta =>
      dsimp only
      cases w.object o with
      | queue q =>
          exact (MessageQueue.recvProceed_carried φ _ o t _ _ _ q).map (received_map φ w o t size)
      | _ => exact carries_none
  | sending o urgent msg buffer =>
      dsimp only
      cases w.object o with
      | queue q => exact (MessageQueue.notify_carried φ _ o).map fun _ => rfl
      | _ => exact carries_none
  | copying o msg size =>
      dsimp only
      cases w.object o with
      | queue q => exact carries_some (f := map φ.toFun) (w.finish o t _ _ _)
      | _ => exact carries_none

theorem ipc_carried (fuel : ℕ) (c : Ipc.Call ο θ) :
    Carries (map φ.toFun) (w.ipc fuel c) ((w.map φ.toFun).ipc fuel c) := by
  unfold ipc
  dsimp only [map]
  cases c with
  | take t o time =>
      dsimp only
      cases w.object o with
      | semaphore value => exact (Semaphore.take_carried φ _ o t value time).map fun _ => rfl
      | mutex m => exact (Mutex.take_carried φ _ o t m time).map fun _ => rfl
      | _ => exact carries_none
  | release t o =>
      dsimp only
      cases w.object o with
      | semaphore value => exact (Semaphore.release_carried φ _ o value).map fun _ => rfl
      | mutex m => exact (Mutex.release_carried φ _ o t m).map fun _ => rfl
      | _ => exact carries_none
  | recvEvent t o set option timeout =>
      dsimp only
      cases w.object o with
      | event set_ => exact (Event.recv_carried φ _ o t timeout set_ set option).map fun _ => rfl
      | _ => exact carries_none
  | sendEvent o set =>
      dsimp only
      cases w.object o with
      | event set_ => exact (Event.send_carried φ _ o set_ fuel set).map fun _ => rfl
      | _ => exact carries_none
  | sendWait t o value timeout =>
      dsimp only
      cases w.object o with
      | mailbox m =>
          exact (MailBox.sendWait_carried φ _ o t _ _ m value).map (posted_map φ w o t value)
      | _ => exact carries_none
  | recvMail t o timeout =>
      dsimp only
      cases w.object o with
      | mailbox m => exact (MailBox.recv_carried φ _ o t _ _ m).map (fetched_map φ w o t)
      | _ => exact carries_none
  | sendMessage t o urgent buffer =>
      dsimp only
      cases w.object o with
      | queue q =>
          refine Carries.map carries_self fun r => ?_
          obtain ⟨q,e | msg⟩ := r <;> rfl
      | _ => exact carries_none
  | recvMessage t o size timeout =>
      dsimp only
      cases w.object o with
      | queue q =>
          exact (MessageQueue.recv_carried φ _ o t _ _ q size).map (received_map φ w o t size)
      | _ => exact carries_none
  | proceed t => exact proceed_carried φ w t
  | expire t => exact (expire_carried φ _ t).map fun _ => rfl
  | tick => exact (inclock_carried φ _).map fun _ => rfl

theorem control_carried (fuel : ℕ) (o : ο) (cmd : BitVec 8) (arg : BitVec 32) :
    Carries (map φ.toFun) (w.control fuel o cmd arg) ((w.map φ.toFun).control fuel o cmd arg) := by
  unfold control
  dsimp only [map]
  cases w.object o with
  | semaphore value => exact (Semaphore.control_carried φ _ o fuel value cmd arg).map fun _ => rfl
  | mutex m => exact carries_some (f := map φ.toFun) (w.change o _ _)
  | event set_ => exact (Event.control_carried φ _ o set_ fuel cmd).map fun _ => rfl
  | mailbox m => exact (MailBox.control_carried φ _ o m fuel cmd).map fun _ => rfl
  | queue q => exact (MessageQueue.control_carried φ _ o q fuel cmd).map fun _ => rfl

/-- Every step of the system is carried over. -/
theorem step_carried (fuel : ℕ) (c : Call ο θ) :
    Carries (map φ.toFun) (step fuel w c) (step fuel (w.map φ.toFun) c) := by
  cases c with
  | ipc c => exact ipc_carried φ w fuel c
  | control o cmd arg => exact control_carried φ w fuel o cmd arg
  | startup t => exact (startup_carried φ w.kernel t).map fun _ => rfl
  | start => exact (start_carried φ w.kernel).map fun _ => rfl
  | suspend t => exact (suspend_carried φ w.kernel t).map fun _ => rfl
  | resume t => exact (resume_carried φ w.kernel t).map fun _ => rfl
  | sleep tick => exact (sleep_carried φ w.kernel tick).map fun _ => rfl
  | sleepReturn t => exact carries_some (f := map φ.toFun) (w.within _)
  | changePriority t p => exact (changePriority_carried φ w.kernel t p).map fun _ => rfl
  | exit => exact (exit_carried φ w.kernel).map fun _ => rfl
  | excute => exact (excute_carried φ w.kernel fuel).map fun _ => rfl
  | enterCritical => exact carries_some (f := map φ.toFun) (w.within _)
  | exitCritical => exact (exitCritical_carried φ w.kernel).map fun _ => rfl

end morphism

section refinement

variable {ο θ : Type}

/-- The systems differ in their lists only, and the linked nodes stand for the sequences: the walk
along the links visits each sequence, and the methods answer alike. -/
structure Agree [DecidableEq ο] [DecidableEq θ] (v : System (IntrusiveList.Store (ListId ο) θ θ) ο θ)
    (u : System (Sequences (ListId ο) θ) ο θ) : Prop where
  thread : v.kernel.thread = u.kernel.thread
  tree : v.kernel.priorityTree = u.kernel.priorityTree
  current : v.kernel.currentThread = u.kernel.currentThread
  lockNest : v.kernel.lockNest = u.kernel.lockNest
  tick : v.tick = u.tick
  object : v.object = u.object
  place : v.place = u.place
  walk : ∀ l, ∀ fuel ≥ (u.kernel.lists.get l).length,
    v.kernel.lists.walk fuel (v.kernel.lists.begin l) = some (u.kernel.lists.get l)
  empty : ∀ l, v.kernel.lists.empty l = ListFamily.empty u.kernel.lists l
  front : ∀ l, v.kernel.lists.front l = ListFamily.front u.kernel.lists l

variable [DecidableEq ο] [DecidableEq θ]

theorem agree (w : System (CheckedLists (ListId ο) θ) ο θ) :
    Agree (w.map CheckedLists.store) (w.map CheckedLists.lists) where
  thread := rfl
  tree := rfl
  current := rfl
  lockNest := rfl
  tick := rfl
  object := rfl
  place := rfl
  walk l fuel hf := by
    have hl := w.kernel.lists.represents.chained l
    change w.kernel.lists.store.walk fuel (w.kernel.lists.store.list l).pHead = _
    rw [hl.head]
    exact hl.path.walk hf
  empty l := (CheckedLists.toStore (ι := ListId ο) (ν := θ)).empty w.kernel.lists l
  front l := w.kernel.lists.front_eq l

/-- Whatever calls are made, as long as each `push_back` and each `erase` passes its check the
kernel over linked nodes does what the kernel over sequences does. -/
theorem nodes_refine_sequences {fuel : ℕ} {w w' : System (CheckedLists (ListId ο) θ) ο θ}
    {cs : List (Call ο θ)} (h : cs.foldlM (step fuel) w = some w') :
    ∃ v u, cs.foldlM (step fuel) (w.map CheckedLists.store) = some v ∧
      cs.foldlM (step fuel) (w.map CheckedLists.lists) = some u ∧ Agree v u :=
  ⟨_,_,Carries.run (step_carried CheckedLists.toStore · fuel) w cs w' h,
    Carries.run (step_carried CheckedLists.toSequences · fuel) w cs w' h,agree w'⟩

/-- An idle thread, three others and one object of each kind, before the first thread is
started. -/
def fresh : System (CheckedLists (ListId (Fin 5)) (Fin 4)) (Fin 5) (Fin 4) where
  kernel := {
    lists := .constructed ⟨fun t => ⟨t,none,none⟩,fun _ => ⟨none,none⟩⟩ (fun _ => rfl) fun _ => rfl
    priorityTree := RedBlackHeap.freshHeap (fun p => p.val) id
    thread := fun t => Scheduler.freshThread (![254,20,21,22] t)
    currentThread := none
    lockNest := 0}
  tick := 0
  object := WaitMembership.oneOfEach.object
  place _ := .idle

/-- Thread 1 waits on each kind of object and is woken, and it sleeps. -/
def everyObject : List (Call (Fin 5) (Fin 4)) :=
  [.startup 0,.startup 2,.startup 3,.startup 1,.start,.ipc (.take 1 0 7),.ipc (.release 2 0),
    .ipc (.proceed 1),.ipc (.recvMail 1 3 (-1)),.control 3 CMD_RESET 0,.ipc (.proceed 1),
    .ipc (.recvEvent 1 2 1 Event.FLAG_AND (-1)),.ipc (.sendEvent 2 1),.ipc (.proceed 1),
    .ipc (.recvMessage 1 4 4 (-1)),.ipc (.sendMessage 2 4 false [5]),.ipc (.proceed 2),
    .ipc (.proceed 1),.ipc (.proceed 1),.ipc (.take 1 1 0),.ipc (.release 1 1),.sleep 5,
    .enterCritical,.ipc .tick,.ipc (.expire 1),.exitCritical,.sleepReturn 1]

theorem nodes_refine_sequences_everyObject :
    ∃ v u, everyObject.foldlM (step 4) (fresh.map CheckedLists.store) = some v ∧
      everyObject.foldlM (step 4) (fresh.map CheckedLists.lists) = some u ∧ Agree v u := by
  have hrun : (everyObject.foldlM (step 4) fresh).isSome = true := by decide +kernel
  exact nodes_refine_sequences (Option.eq_some_of_isSome hrun)

end refinement

end System

end CosKernel

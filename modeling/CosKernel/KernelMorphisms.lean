import CosKernel.CheckedLists
import CosKernel.CriticalSections
import CosKernel.IpcControl

/-!
# The kernel over two families of lists

The threads, the scheduler and the objects of inter-process communication use their lists through
the methods of a family only. A morphism of families therefore carries each of their operations
from one kernel to the other: with a result over the first lists, the operation has the same result
over the second ones.
-/
namespace CosKernel
open PartialMorphisms

namespace Kernel

/-- The same kernel over other lists. -/
def map {σ σ' θ : Type} (f : σ → σ') (k : Kernel σ θ) : Kernel σ' θ where
  lists := f k.lists
  priorityTree := k.priorityTree
  thread := k.thread
  currentThread := k.currentThread
  lockNest := k.lockNest

theorem map_currentThread {σ σ' θ : Type} (f : σ → σ') (k : Kernel σ θ) :
    (k.map f).currentThread = k.currentThread := rfl

/-- A result of an operation, with its kernel over other lists. -/
def mapped {σ σ' θ α : Type} (f : σ → σ') (r : Kernel σ θ × α) : Kernel σ' θ × α := (r.1.map f,r.2)

end Kernel

section

variable {σ σ' ο θ : Type} [ListFamily σ (ListId ο) θ] [ListFamily σ' (ListId ο) θ]
variable (φ : ListMorphism (ι := ListId ο) (ν := θ) σ σ') (k : Kernel σ θ) (o : ο) (t : θ)

namespace Kernel

theorem empty_carried (s : σ) (l : ListId ο) :
    ListFamily.empty (φ.toFun s) l = true ↔ ListFamily.empty s l = true := by rw [φ.empty]

theorem removeThread_carried :
    Carries (map φ.toFun) (k.removeThread t) ((k.map φ.toFun).removeThread t) := by
  refine (φ.erase _ _ _).bind fun s _ => Carries.ite (empty_carried φ _ _) (fun _ => ?_) fun _ => ?_
  all_goals
    refine carries_self.bind fun tree _ => ?_
    exact carries_some (f := map φ.toFun) {k with lists := s, priorityTree := tree}

theorem nextThread_carried : (k.map φ.toFun).nextThread = k.nextThread := by
  unfold nextThread firstReady
  simp only [map,φ.front]

variable [DecidableEq θ]

theorem insertThread_carried :
    Carries (map φ.toFun) (k.insertThread t) ((k.map φ.toFun).insertThread t) := by
  refine Carries.ite (empty_carried φ _ _) (fun _ => ?_) fun _ => ?_
  all_goals
    refine carries_self.bind fun tree _ => (φ.pushBack _ _ _).bind fun s _ => ?_
    exact carries_some (f := map φ.toFun) {k.modify t _ with lists := s, priorityTree := tree}

theorem process_carried : Carries (map φ.toFun) k.process (k.map φ.toFun).process := by
  refine Carries.ite Iff.rfl (fun _ => ?_) fun _ => carries_some k
  refine Carries.bind (f := id) (fun c hc => ?_) fun c _ => ?_
  · rw [nextThread_carried,hc]
    rfl
  · refine Carries.ite Iff.rfl (fun _ => carries_some k) fun _ => ?_
    cases c with
    | none => exact carries_none
    | some c =>
        rw [map_currentThread]
        cases k.currentThread with
        | none => exact carries_none
        | some d => exact carries_some (f := map φ.toFun) {k with currentThread := some c}

omit [DecidableEq θ] in
theorem start_carried : Carries (map φ.toFun) k.start (k.map φ.toFun).start := by
  refine Carries.bind (f := id) (fun c hc => ?_) fun c _ => Carries.map carries_self fun _ => rfl
  rw [nextThread_carried,hc]
  rfl

theorem timerStart_carried (tick : ℕ) :
    Carries (map φ.toFun) (k.timerStart t tick) ((k.map φ.toFun).timerStart t tick) :=
  Carries.ite Iff.rfl (fun _ => carries_some _) fun _ => carries_none

theorem suspend_carried :
    Carries (mapped φ.toFun) (k.suspend t) ((k.map φ.toFun).suspend t) := by
  refine Carries.ite Iff.rfl (fun _ => carries_some (k,-ERR_ERROR)) fun _ => ?_
  exact (removeThread_carried φ _ t).bind fun k₁ _ =>
    carries_some (f := mapped φ.toFun) (k₁.timerStop t,ERR_OK)

theorem resume_carried : Carries (mapped φ.toFun) (k.resume t) ((k.map φ.toFun).resume t) := by
  refine Carries.ite Iff.rfl (fun _ => carries_some (k,-ERR_ERROR)) fun _ => ?_
  exact (insertThread_carried φ (k.timerStop t) t).bind fun k₁ _ =>
    carries_some (f := mapped φ.toFun) (k₁,ERR_OK)

theorem timeout_carried : Carries (map φ.toFun) (k.timeout t) ((k.map φ.toFun).timeout t) :=
  Carries.ite Iff.rfl (fun _ => carries_none) fun _ =>
    (insertThread_carried φ _ t).bind fun k₁ _ => process_carried φ k₁

theorem expire_carried : Carries (map φ.toFun) (k.expire t) ((k.map φ.toFun).expire t) :=
  (timeout_carried φ k t).bind fun k₁ _ => carries_some (k₁.timerStop t)

theorem startup_carried : Carries (map φ.toFun) (k.startup t) ((k.map φ.toFun).startup t) := by
  refine Carries.ite Iff.rfl (fun _ => carries_none) fun _ => (resume_carried φ _ t).bind fun r _ => ?_
  exact Carries.ite Iff.rfl (fun _ => process_carried φ r.1) fun _ => carries_some r.1

theorem sleep_carried (tick : ℕ) :
    Carries (map φ.toFun) (k.sleep tick) ((k.map φ.toFun).sleep tick) := by
  refine Carries.bind (f := id) (fun _ h => h) fun t _ => (suspend_carried φ k t).bind fun r _ => ?_
  exact (timerStart_carried φ r.1 t tick).bind fun k₁ _ => process_carried φ k₁

theorem changePriority_carried (p : Priority) :
    Carries (map φ.toFun) (k.changePriority t p) ((k.map φ.toFun).changePriority t p) := by
  refine Carries.ite Iff.rfl (fun _ => ?_) fun _ => carries_some (k.modify t _)
  exact (removeThread_carried φ k t).bind fun k₁ _ => insertThread_carried φ (k₁.modify t _) t

theorem inclock_carried : Carries (map φ.toFun) k.inclock (k.map φ.toFun).inclock := by
  unfold inclock
  rw [map_currentThread]
  cases k.currentThread with
  | none => exact carries_some k
  | some t =>
      refine Carries.ite Iff.rfl (fun _ => carries_some (k.modify t _)) fun _ => ?_
      refine Carries.ite Iff.rfl (fun _ => carries_some ((k.modify t _).modify t _)) fun _ => ?_
      refine (φ.erase _ _ _).bind fun s₁ _ => (φ.pushBack _ _ _).bind fun s₂ _ => ?_
      exact process_carried φ {(k.modify t _).modify t _ with lists := s₂}

theorem detach_carried (deleteLater : Bool) :
    Carries (map φ.toFun) (k.detach t deleteLater) ((k.map φ.toFun).detach t deleteLater) := by
  refine (removeThread_carried φ k t).bind fun k₁ _ => Carries.ite Iff.rfl (fun _ => ?_) fun _ =>
    carries_some (k₁.modify t _)
  exact (φ.pushBack _ _ _).bind fun s _ =>
    carries_some (f := map φ.toFun) {k₁.modify t _ with lists := s}

theorem exit_carried : Carries (map φ.toFun) k.exit (k.map φ.toFun).exit := by
  refine Carries.bind (f := id) (fun _ h => h) fun t _ =>
    (removeThread_carried φ k t).bind fun k₁ _ => (detach_carried φ k₁ t true).bind fun k₂ _ => ?_
  exact process_carried φ k₂

theorem excute_carried (fuel : ℕ) :
    Carries (mapped φ.toFun) (excute fuel k) (excute fuel (k.map φ.toFun)) := by
  refine (φ.size fuel _ _).bind fun n _ => Carries.ite Iff.rfl
    (fun _ => carries_some (f := mapped φ.toFun) (k,none)) fun _ => ?_
  refine Carries.bind (f := id) (fun t h => ?_) fun t _ => (φ.erase _ _ _).bind fun s _ => ?_
  · exact (φ.front _ _).trans h
  · exact (detach_carried φ {k with lists := s} t false).bind fun k₁ _ =>
      carries_some (f := mapped φ.toFun) (k₁,some t)

theorem listSuspend_carried :
    Carries (map φ.toFun) (k.listSuspend o t) ((k.map φ.toFun).listSuspend o t) :=
  (suspend_carried φ k t).bind fun r _ => (φ.pushBack _ _ _).bind fun s _ =>
    carries_some (f := map φ.toFun) {r.1 with lists := s}

theorem listResume_carried :
    Carries (mapped φ.toFun) (k.listResume o) ((k.map φ.toFun).listResume o) := by
  unfold listResume
  have hf : ListFamily.front (k.map φ.toFun).lists (ListId.suspend o) =
      ListFamily.front k.lists (ListId.suspend o) := φ.front _ _
  rw [hf]
  cases ListFamily.front k.lists (ListId.suspend o) with
  | none => exact carries_some (f := mapped φ.toFun) (k,-ERR_ERROR)
  | some t =>
      refine (φ.erase _ _ _).bind fun s _ => (resume_carried φ {k with lists := s} t).bind fun r _ => ?_
      exact carries_some (f := mapped φ.toFun) (r.1,ERR_OK)

theorem startTimer_carried (time : BitVec 32) :
    Carries (map φ.toFun) (k.startTimer t time) ((k.map φ.toFun).startTimer t time) :=
  Carries.ite Iff.rfl (fun _ => timerStart_carried φ k t _) fun _ => carries_some k

/-- The blocking part of every wait in a suspend list. -/
theorem block_carried {α : Type} (time : BitVec 32) (r : α) :
    Carries (mapped φ.toFun)
      (do let k ← k.listSuspend o t
          let k ← k.startTimer t time
          let k ← k.process
          some (k,r))
      (do let k ← (k.map φ.toFun).listSuspend o t
          let k ← k.startTimer t time
          let k ← k.process
          some (k,r)) :=
  (listSuspend_carried φ k o t).bind fun k₁ _ => (startTimer_carried φ k₁ t time).bind fun k₂ _ =>
    (process_carried φ k₂).bind fun k₃ _ => carries_some (f := mapped φ.toFun) (k₃,r)

theorem listResumeAll_carried (fuel : ℕ) :
    Carries (map φ.toFun) (listResumeAll o fuel k) (listResumeAll o fuel (k.map φ.toFun)) := by
  induction fuel generalizing k with
  | zero => exact carries_none
  | succ fuel ih =>
      refine Carries.ite (empty_carried φ _ _) (fun _ => carries_some k) fun _ => ?_
      refine Carries.bind (f := id) (fun t h => (φ.front _ _).trans h) fun t _ =>
        (φ.erase _ _ _).bind fun s _ => ?_
      exact (resume_carried φ (Kernel.setError {k with lists := s} t _) t).bind fun r _ => ih r.1

theorem exitCritical_carried :
    Carries (map φ.toFun) (CriticalSections.exitCritical ο k)
      (CriticalSections.exitCritical ο (k.map φ.toFun)) :=
  Carries.ite Iff.rfl (fun _ => process_carried φ {k with lockNest := 0}) fun _ =>
    carries_some (f := map φ.toFun) {k with lockNest := _}

end Kernel

open Kernel

variable [DecidableEq θ] (tick timeout tickDelta : BitVec 32)

theorem Semaphore.take_carried (value : BitVec 16) (time : BitVec 32) :
    Carries (mapped φ.toFun) (take k o value t time) (take (k.map φ.toFun) o value t time) := by
  refine Carries.ite Iff.rfl (fun _ => carries_some (k,_)) fun _ => ?_
  refine Carries.ite Iff.rfl (fun _ => carries_some (k,_)) fun _ => ?_
  exact block_carried φ (k.setError t ERR_OK) o t time (value,none)

theorem Semaphore.release_carried (value : BitVec 16) :
    Carries (mapped φ.toFun) (release k o value) (release (k.map φ.toFun) o value) := by
  refine (listResume_carried φ k o).bind fun r _ => Carries.ite Iff.rfl (fun _ => ?_) fun _ =>
    carries_some (f := mapped φ.toFun) (r.1,value+1,ERR_OK)
  exact (process_carried φ r.1).bind fun k₁ _ =>
    carries_some (f := mapped φ.toFun) (k₁,value,ERR_OK)

theorem Semaphore.control_carried (fuel : ℕ) (value : BitVec 16) (cmd : BitVec 8) (arg : BitVec 32) :
    Carries (mapped φ.toFun) (control fuel k o value cmd arg)
      (control fuel (k.map φ.toFun) o value cmd arg) := by
  refine Carries.ite Iff.rfl (fun _ => ?_) fun _ => carries_some (k,_)
  exact (listResumeAll_carried φ k o fuel).bind fun k₁ _ => (process_carried φ k₁).bind fun k₂ _ =>
    carries_some (f := mapped φ.toFun) (k₂,_)

namespace Mutex

variable (m : Mutex θ)

theorem inherit_carried (u : θ) :
    Carries (map φ.toFun) (inherit k u t) (inherit (k.map φ.toFun) u t) :=
  Carries.ite Iff.rfl (fun _ => changePriority_carried φ k u _) fun _ => carries_some k

theorem restore_carried : Carries (map φ.toFun) (restore k m t) (restore (k.map φ.toFun) m t) :=
  Carries.ite Iff.rfl (fun _ => carries_self.bind fun p _ => changePriority_carried φ k t p) fun _ =>
    carries_some k

theorem take_carried (time : BitVec 32) :
    Carries (mapped φ.toFun) (take k o m t time) (take (k.map φ.toFun) o m t time) := by
  refine Carries.ite Iff.rfl (fun _ => carries_some (k.setError t ERR_OK,_)) fun _ => ?_
  refine Carries.ite Iff.rfl (fun _ => carries_some (k.setError t ERR_OK,_)) fun _ => ?_
  refine Carries.ite Iff.rfl (fun _ => carries_some ((k.setError t ERR_OK).setError t _,_)) fun _ => ?_
  exact carries_self.bind fun u _ => (inherit_carried φ (k.setError t ERR_OK) t u).bind fun k₁ _ =>
    block_carried φ k₁ o t time (m,none)

theorem handOver_carried :
    Carries (mapped φ.toFun) (handOver k o m t) (handOver (k.map φ.toFun) o m t) := by
  refine (restore_carried φ k t m).bind fun k₁ _ => Carries.ite (empty_carried φ _ _)
    (fun _ => carries_some (f := mapped φ.toFun) (k₁,_)) fun _ => ?_
  refine Carries.bind (f := id) (fun u h => (φ.front _ _).trans h) fun u _ => ?_
  refine (listResume_carried φ k₁ o).bind fun r _ => (process_carried φ r.1).bind fun k₂ _ => ?_
  exact carries_some (f := mapped φ.toFun) (k₂,_)

theorem release_carried :
    Carries (mapped φ.toFun) (release k o m t) (release (k.map φ.toFun) o m t) := by
  refine Carries.ite Iff.rfl (fun _ => carries_some (k.setError t _,_)) fun _ => ?_
  refine Carries.ite Iff.rfl (fun _ => ?_) fun _ => carries_some (k,_)
  exact (handOver_carried φ k o t _).bind fun r _ => carries_some (f := mapped φ.toFun) (r.1,r.2,ERR_OK)

end Mutex

namespace Event

variable (set_ : BitVec 32)

theorem recv_carried (set : BitVec 32) (option : BitVec 8) :
    Carries (mapped φ.toFun) (recv k o set_ t set option timeout)
      (recv (k.map φ.toFun) o set_ t set option timeout) := by
  refine Carries.ite Iff.rfl (fun _ => carries_some (k,_)) fun _ => ?_
  refine Carries.ite Iff.rfl (fun _ => carries_none) fun _ => ?_
  refine Carries.ite Iff.rfl (fun _ => carries_some (k.setError t ERR_OK,_)) fun _ => ?_
  refine Carries.ite Iff.rfl (fun _ => carries_some ((k.setError t ERR_OK).setError t _,_)) fun _ => ?_
  exact block_carried φ ((k.setError t ERR_OK).modify t _) o t timeout (set_,none)

/-- What `resume` leaves in a list. -/
theorem mem_resume {k k' : Kernel σ θ} {l : ListId ο} {t a : θ} {e : ℤ} (ha : φ.Mem k.lists l a)
    (h : k.resume t = some (k',e)) : φ.Mem k'.lists l a := by
  unfold resume at h
  split_ifs at h
  · cases h
    exact ha
  · obtain ⟨k₁,h₁,h⟩ := Option.bind_eq_some_iff.mp h
    cases h
    unfold insertThread at h₁
    dsimp only at h₁
    split_ifs at h₁
    all_goals
      obtain ⟨tree,-,h₁⟩ := Option.bind_eq_some_iff.mp h₁
      obtain ⟨s,hs,h₁⟩ := Option.bind_eq_some_iff.mp h₁
      cases h₁
      exact φ.mem_pushBack ha hs

/-- The walk stays in the list: the next node is read before the thread leaves it. -/
theorem sendLoop_carried (fuel : ℕ) (next : Option θ) (need : Bool)
    (hnext : ∀ a, next = some a → φ.Mem k.lists (ListId.suspend o) a) :
    Carries (mapped φ.toFun) (sendLoop o fuel k set_ next need)
      (sendLoop o fuel (k.map φ.toFun) set_ next need) := by
  induction fuel generalizing k set_ next need with
  | zero =>
      cases next with
      | none => exact carries_some (f := mapped φ.toFun) (k,_)
      | some t => exact carries_none
  | succ fuel ih =>
      cases next with
      | none => exact carries_some (f := mapped φ.toFun) (k,_)
      | some t =>
          have ht := hnext t rfl
          have hn : ListFamily.next (k.map φ.toFun).lists (ListId.suspend o) t =
              ListFamily.next k.lists (ListId.suspend o) t := φ.next ht
          unfold sendLoop
          rw [hn]
          refine Carries.ite Iff.rfl (fun _ => ?_) fun _ => ih k set_ _ need fun a ha =>
            (φ.mem_next ht ha).1
          -- the events that arrived are stored in the thread, the lists are as before
          have hstored : ∀ (c : Prop) [Decidable c] (g : Thread → Thread),
              (if c then (k.map φ.toFun).modify t g else k.map φ.toFun) =
                (if c then k.modify t g else k).map φ.toFun := by
            intro c _ g
            split_ifs <;> rfl
          dsimp only
          rw [hstored]
          have hlists : (if (k.thread t).eventInfo &&& FLAG_AND = 0 then
              k.modify t fun x => {x with eventSet := x.eventSet &&& set_} else k).lists = k.lists := by
            split_ifs <;> rfl
          refine (φ.erase _ _ _).bind fun s hs => (resume_carried φ _ t).bind fun r hr => ?_
          refine ih r.1 _ _ true fun a ha => ?_
          obtain ⟨ha,hne⟩ := φ.mem_next ht ha
          exact mem_resume φ (φ.mem_erase (by rwa [hlists]) hne hs) hr

theorem send_carried (fuel : ℕ) (set : BitVec 32) :
    Carries (mapped φ.toFun) (send fuel k o set_ set) (send fuel (k.map φ.toFun) o set_ set) := by
  refine Carries.ite Iff.rfl (fun _ => carries_some (k,_)) fun _ => ?_
  have hb : ListFamily.begin (k.map φ.toFun).lists (ListId.suspend o) =
      ListFamily.begin k.lists (ListId.suspend o) := φ.begin _ _
  rw [hb]
  refine (sendLoop_carried φ k o _ fuel _ false fun a ha => φ.mem_begin ha).bind fun r _ => ?_
  refine Carries.ite Iff.rfl (fun _ => ?_) fun _ => ?_
  · exact (process_carried φ r.1).bind fun k₁ _ => carries_some (f := mapped φ.toFun) (k₁,_)
  · exact (carries_some r.1).bind fun k₁ _ => carries_some (f := mapped φ.toFun) (k₁,_)

theorem control_carried (fuel : ℕ) (cmd : BitVec 8) :
    Carries (mapped φ.toFun) (control fuel k o set_ cmd) (control fuel (k.map φ.toFun) o set_ cmd) := by
  refine Carries.ite Iff.rfl (fun _ => ?_) fun _ => carries_some (k,_)
  exact (listResumeAll_carried φ k o fuel).bind fun k₁ _ => (process_carried φ k₁).bind fun k₂ _ =>
    carries_some (f := mapped φ.toFun) (k₂,_)

end Event

namespace MailBox

variable (m : MailBox)

theorem sendLoop_carried (value : BitVec 32) :
    Carries (mapped φ.toFun) (sendLoop k o m tick t value timeout tickDelta)
      (sendLoop (k.map φ.toFun) o m tick t value timeout tickDelta) := by
  refine Carries.ite Iff.rfl (fun _ => ?_) fun _ => ?_
  · refine Carries.ite Iff.rfl (fun _ => carries_some (k.setError t ERR_OK,_)) fun _ => ?_
    refine (suspend_carried φ (k.setError t ERR_OK) t).bind fun r _ => (φ.pushBack _ _ _).bind fun s _ => ?_
    exact (startTimer_carried φ {r.1 with lists := s} t timeout).bind fun k₁ _ =>
      (process_carried φ k₁).bind fun k₂ _ => carries_some (f := mapped φ.toFun) (k₂,_)
  · refine (listResume_carried φ k o).bind fun r _ => Carries.ite Iff.rfl (fun _ => ?_) fun _ => ?_
    · exact (process_carried φ r.1).bind fun k₁ _ => carries_some (f := mapped φ.toFun) (k₁,_)
    · exact (carries_some r.1).bind fun k₁ _ => carries_some (f := mapped φ.toFun) (k₁,_)

theorem sendWait_carried (value : BitVec 32) :
    Carries (mapped φ.toFun) (sendWait k o m tick t value timeout)
      (sendWait (k.map φ.toFun) o m tick t value timeout) :=
  Carries.ite Iff.rfl (fun _ => carries_some (k,_)) fun _ => sendLoop_carried φ k o t tick timeout 0 m value

theorem sendProceed_carried (value : BitVec 32) :
    Carries (mapped φ.toFun) (sendProceed k o m tick t value timeout tickDelta)
      (sendProceed (k.map φ.toFun) o m tick t value timeout tickDelta) :=
  Carries.ite Iff.rfl (fun _ => carries_some (k,_)) fun _ => sendLoop_carried φ k o t tick _ _ m value

theorem recvLoop_carried :
    Carries (mapped φ.toFun) (recvLoop k o m tick t timeout tickDelta)
      (recvLoop (k.map φ.toFun) o m tick t timeout tickDelta) := by
  refine Carries.ite Iff.rfl (fun _ => ?_) fun _ => ?_
  · refine Carries.ite Iff.rfl (fun _ => carries_some ((k.setError t ERR_OK).setError t _,_)) fun _ => ?_
    exact block_carried φ (k.setError t ERR_OK) o t timeout _
  · refine Carries.ite (empty_carried φ _ _) (fun _ => carries_some (k,_)) fun _ => ?_
    refine Carries.bind (f := id) (fun u h => (φ.front _ _).trans h) fun u _ =>
      (φ.erase _ _ _).bind fun s _ => ?_
    exact (resume_carried φ {k with lists := s} u).bind fun r _ => (process_carried φ r.1).bind fun k₁ _ =>
      carries_some (f := mapped φ.toFun) (k₁,_)

theorem recv_carried :
    Carries (mapped φ.toFun) (recv k o m tick t timeout) (recv (k.map φ.toFun) o m tick t timeout) :=
  Carries.ite Iff.rfl (fun _ => carries_some (k,_)) fun _ => recvLoop_carried φ k o t tick timeout 0 m

theorem recvProceed_carried :
    Carries (mapped φ.toFun) (recvProceed k o m tick t timeout tickDelta)
      (recvProceed (k.map φ.toFun) o m tick t timeout tickDelta) :=
  Carries.ite Iff.rfl (fun _ => carries_some (k,_)) fun _ => recvLoop_carried φ k o t tick _ _ m

theorem resumeAll_carried (fuel : ℕ) :
    Carries (map φ.toFun) (resumeAll o fuel k) (resumeAll o fuel (k.map φ.toFun)) := by
  induction fuel generalizing k with
  | zero => exact carries_none
  | succ fuel ih =>
      refine Carries.ite (empty_carried φ _ _) (fun _ => carries_some k) fun _ => ?_
      refine Carries.bind (f := id) (fun t h => (φ.front _ _).trans h) fun t _ =>
        (φ.erase _ _ _).bind fun s _ => ?_
      exact (resume_carried φ {k.setError t _ with lists := s} t).bind fun r _ => ih r.1

theorem control_carried (fuel : ℕ) (cmd : BitVec 8) :
    Carries (mapped φ.toFun) (control fuel k o m cmd) (control fuel (k.map φ.toFun) o m cmd) := by
  refine Carries.ite Iff.rfl (fun _ => ?_) fun _ => carries_some (k,_)
  exact (listResumeAll_carried φ k o fuel).bind fun k₁ _ => (resumeAll_carried φ k₁ o fuel).bind fun k₂ _ =>
    (process_carried φ k₂).bind fun k₃ _ => carries_some (f := mapped φ.toFun) (k₃,_)

end MailBox

namespace MessageQueue

variable (q : MessageQueue)

theorem notify_carried : Carries (mapped φ.toFun) (notify k o) (notify (k.map φ.toFun) o) :=
  Carries.ite (empty_carried φ _ _) (fun _ => carries_some (k,_)) fun _ =>
    (listResume_carried φ k o).bind fun r _ => (process_carried φ r.1).bind fun k₁ _ =>
      carries_some (f := mapped φ.toFun) (k₁,_)

theorem recvLoop_carried :
    Carries (mapped φ.toFun) (recvLoop k o q tick t timeout tickDelta)
      (recvLoop (k.map φ.toFun) o q tick t timeout tickDelta) := by
  refine Carries.ite Iff.rfl (fun _ => ?_) fun _ => ?_
  · refine Carries.ite Iff.rfl (fun _ => carries_some ((k.setError t ERR_OK).setError t _,_)) fun _ => ?_
    exact block_carried φ (k.setError t ERR_OK) o t timeout _
  · exact carries_self.bind fun msg _ => carries_some (f := mapped φ.toFun) (k,_)

theorem recv_carried (size : ℕ) :
    Carries (mapped φ.toFun) (recv k o q tick t size timeout)
      (recv (k.map φ.toFun) o q tick t size timeout) := by
  refine Carries.ite Iff.rfl (fun _ => carries_none) fun _ => ?_
  exact Carries.ite Iff.rfl (fun _ => carries_some (k,_)) fun _ =>
    recvLoop_carried φ k o t tick timeout 0 q

theorem recvProceed_carried :
    Carries (mapped φ.toFun) (recvProceed k o q tick t timeout tickDelta)
      (recvProceed (k.map φ.toFun) o q tick t timeout tickDelta) :=
  Carries.ite Iff.rfl (fun _ => carries_some (k,_)) fun _ => recvLoop_carried φ k o t tick _ _ q

theorem control_carried (fuel : ℕ) (cmd : BitVec 8) :
    Carries (mapped φ.toFun) (control fuel k o q cmd) (control fuel (k.map φ.toFun) o q cmd) := by
  refine Carries.ite Iff.rfl (fun _ => ?_) fun _ => carries_some (k,_)
  exact (listResumeAll_carried φ k o fuel).bind fun k₁ _ => carries_self.bind fun q' _ =>
    (process_carried φ k₁).bind fun k₂ _ => carries_some (f := mapped φ.toFun) (k₂,_)

end MessageQueue

end

end CosKernel

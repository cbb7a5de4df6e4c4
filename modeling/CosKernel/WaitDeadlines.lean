import CosKernel.KernelEffects
import CosKernel.SchedulerInvariant

/-!
# The deadlines of bounded waits

`MailBox::send_wait`, `MailBox::recv` and `MessageQueue::recv` wait in a loop. A thread
that is woken and finds its condition false again computes what is left of its timeout
from the tick at which it fell asleep, in 32-bit arithmetic. Time is a natural number
here, and the tick counter shows it modulo 2^32. What happens between two runs of the
waiting thread is left open: at a wake-up the kernel and the object are arbitrary.
-/
namespace CosKernel.WaitDeadlines
open TransitionRuns

variable {σ ο θ ξ ρ : Type}

/-- The tick counter at a time. -/
def tickAt (time : ℕ) : BitVec 32 := BitVec.ofNat 32 time

/-- A call that waits while an object `ξ` is blocked: up to its first suspension, and from one
wake-up to the next suspension or its result. -/
structure Operation (σ θ ξ ρ : Type) where
  enter : Kernel σ θ → ξ → BitVec 32 → BitVec 32 → Option (Kernel σ θ × ξ × Progress ρ)
  proceed : Kernel σ θ → ξ → BitVec 32 → BitVec 32 → BitVec 32 →
    Option (Kernel σ θ × ξ × Progress ρ)
  blocked : ξ → Prop
  failed : ρ → Prop

section operations

variable [DecidableEq θ] [ListFamily σ (ListId ο) θ]

def sendWait (o : ο) (t : θ) (value : BitVec 32) : Operation σ θ MailBox ℤ where
  enter k m tick timeout := MailBox.sendWait k o m tick t value timeout
  proceed k m tick timeout tickDelta := MailBox.sendProceed k o m tick t value timeout tickDelta
  blocked m := m.entry = m.size
  failed e := e ≠ ERR_OK

def mailRecv (o : ο) (t : θ) : Operation σ θ MailBox (ℤ × Option (BitVec 32)) where
  enter k m tick timeout := MailBox.recv k o m tick t timeout
  proceed k m tick timeout tickDelta := MailBox.recvProceed k o m tick t timeout tickDelta
  blocked m := m.entry = 0
  failed r := r.1 ≠ ERR_OK

def queueRecv (o : ο) (t : θ) (size : ℕ) : Operation σ θ MessageQueue (ℤ ⊕ ℕ) where
  enter k q tick timeout := MessageQueue.recv k o q tick t size timeout
  proceed k q tick timeout tickDelta := MessageQueue.recvProceed k o q tick t timeout tickDelta
  blocked q := q.entry = 0
  failed r := ∃ e, r = .inl e ∧ e ≠ ERR_OK

end operations

/-- The call has suspended its thread at `time`, or it has returned. -/
structure Visit (σ θ ρ : Type) where
  kernel : Kernel σ θ
  progress : Progress ρ
  time : ℕ

/-- The thread runs again at `time`. -/
structure Wake (σ θ ξ : Type) where
  kernel : Kernel σ θ
  object : ξ
  time : ℕ

def step (op : Operation σ θ ξ ρ) (v : Visit σ θ ρ) (w : Wake σ θ ξ) : Option (Visit σ θ ρ) :=
  match v.progress with
  | .returned _ => none
  | .waiting timeout tickDelta =>
      (op.proceed w.kernel w.object (tickAt w.time) timeout tickDelta).map fun (k,_,p) =>
        ⟨k,p,w.time⟩

/-- The kernel that a call left behind is not the one its thread comes back to. -/
theorem step_kernel {op : Operation σ θ ξ ρ} (k k' : Kernel σ θ) (p : Progress ρ) (time : ℕ)
    (w : Wake σ θ ξ) : step op ⟨k,p,time⟩ w = step op ⟨k',p,time⟩ w := rfl

/-- The thread still waits, and finds its object blocked again. -/
def Legal (op : Operation σ θ ξ ρ) (v : Visit σ θ ρ) (w : Wake σ θ ξ) : Prop :=
  (∃ timeout tickDelta, v.progress = .waiting timeout tickDelta) ∧ op.blocked w.object ∧
    v.time ≤ w.time

/-- A waiting thread has armed its timer for the tick `deadline`. -/
def ArmedFor (t : θ) (deadline : BitVec 32) (v : Visit σ θ ρ) : Prop :=
  ∀ timeout tickDelta, v.progress = .waiting timeout tickDelta →
    (v.kernel.thread t).timerActive = true ∧ 0 < (v.kernel.thread t).timerInitTick ∧
      tickAt v.time+BitVec.ofNat 32 (v.kernel.thread t).timerInitTick = deadline

/-- A wake-up at or after the time `deadline` ends the call with an error, unless it is later by
more than half of the range of the counter. -/
def EndsAfter (op : Operation σ θ ξ ρ) (deadline : ℕ) (v : Visit σ θ ρ) (w : Wake σ θ ξ) : Prop :=
  deadline ≤ w.time → (w.time-deadline)%2^32 ≤ 2^31 →
    ∃ k r, step op v w = some ⟨k,.returned r,w.time⟩ ∧ op.failed r

/-- In every call with a positive timeout that finds its object blocked, whatever wakes it up. -/
def KeepsDeadline (op : Operation σ θ ξ ρ) (t : θ) : Prop :=
  ∀ k x start timeout k' x' p, 0 < timeout.toInt → timeout.toNat < TICK_MAX/2 → op.blocked x →
    op.enter k x (tickAt start) timeout = some (k',x',p) → ∀ wakes,
      AllSteps (step op) (Legal op) ⟨k',p,start⟩ wakes →
      Throughout (step op) (ArmedFor t (tickAt start+timeout)) ⟨k',p,start⟩ wakes ∧
      AllSteps (step op) (EndsAfter op (start+timeout.toNat)) ⟨k',p,start⟩ wakes

section arithmetic

variable {timeout tickDelta tick : BitVec 32}

theorem remaining_eq (ht : 0 < timeout.toInt) (hne : remaining timeout tickDelta tick ≠ 0) :
    remaining timeout tickDelta tick = timeout-(tick-tickDelta) ∧
      0 < (remaining timeout tickDelta tick).toInt := by
  simp only [remaining,ht,↓reduceIte] at hne ⊢
  split_ifs at hne ⊢ with hneg
  · exact absurd rfl hne
  · refine ⟨rfl,lt_of_le_of_ne (not_lt.mp hneg) fun h => hne ?_⟩
    exact BitVec.eq_of_toInt_eq (by simpa using h.symm)

theorem toInt_nonpos_iff (x : BitVec 32) : x.toInt < 0 ∨ x = 0 ↔ (-x).toNat ≤ 2^31 := by
  have hx := x.isLt
  have hzero : x = 0 ↔ x.toNat = 0 := BitVec.toNat_inj.symm
  rw [BitVec.toInt_eq_toNat_cond,BitVec.toNat_neg,hzero]
  omega

/-- Nothing is left just when the deadline is at most half of the range back. -/
theorem remaining_eq_zero_iff (ht : 0 < timeout.toInt) :
    remaining timeout tickDelta tick = 0 ↔ (tick-(tickDelta+timeout)).toNat ≤ 2^31 := by
  have hrest : -(timeout-(tick-tickDelta)) = tick-(tickDelta+timeout) := by ring
  rw [← hrest,← toInt_nonpos_iff]
  simp only [remaining,ht,↓reduceIte]
  split_ifs with hneg
  · exact iff_of_true rfl (.inl hneg)
  · exact (or_iff_right hneg).symm

theorem tickAt_sub {deadline time : ℕ} (h : deadline ≤ time) :
    (tickAt time-tickAt deadline).toNat = (time-deadline)%2^32 := by
  simp only [tickAt,BitVec.toNat_sub,BitVec.toNat_ofNat]
  omega

theorem tickAt_add (start : ℕ) (timeout : BitVec 32) :
    tickAt start+timeout = tickAt (start+timeout.toNat) := by
  simp [tickAt,BitVec.ofNat_add]

end arithmetic

section rounds

variable [DecidableEq θ] [ListFamily σ (ListId ο) θ] {k k' : Kernel σ θ} {t : θ}

/-- The thread sleeps since `tick`, with its timer armed for `timeout` ticks. -/
def Suspended (t : θ) (k : Kernel σ θ) (p : Progress ρ) (timeout tick : BitVec 32) : Prop :=
  p = .waiting timeout tick ∧ (k.thread t).timerActive = true ∧
    (k.thread t).timerInitTick = timeout.toNat

/-- The rounds of an operation go through one loop, which suspends the thread while the object
is blocked and time is left. -/
structure Rounds (op : Operation σ θ ξ ρ) (t : θ)
    (loop : Kernel σ θ → ξ → BitVec 32 → BitVec 32 → BitVec 32 →
      Option (Kernel σ θ × ξ × Progress ρ)) : Prop where
  enter {k x tick timeout r} : 0 < timeout.toInt → op.enter k x tick timeout = some r →
    loop k x tick timeout 0 = some r
  error {k x tick timeout tickDelta} : (k.thread t).error ≠ ERR_OK →
    ∃ r, op.proceed k x tick timeout tickDelta = some (k,x,.returned r) ∧ op.failed r
  again {k x tick timeout tickDelta} : (k.thread t).error = ERR_OK →
    op.proceed k x tick timeout tickDelta =
      loop k x tick (remaining timeout tickDelta tick) (elapsed timeout tickDelta tick)
  expired {k x tick tickDelta} : op.blocked x →
    ∃ k' r, loop k x tick 0 tickDelta = some (k',x,.returned r) ∧ op.failed r
  sleep {k x tick timeout tickDelta k' x' p} : op.blocked x → 0 < timeout.toInt →
    loop k x tick timeout tickDelta = some (k',x',p) → Suspended t k' p timeout tick

theorem suspended_of_start {k₁ k₂ : Kernel σ θ} {timeout tickDelta tick : BitVec 32}
    (ht : 0 < timeout.toInt) (h₁ : k.startTimer t timeout = some k₁) (h₂ : k₁.process = some k₂) :
    Suspended (ρ := ρ) t k₂ (.waiting timeout (startTick timeout tickDelta tick)) timeout tick := by
  obtain ⟨c,rfl⟩ := Kernel.process_some h₂
  simp only [Kernel.startTimer,ht,↓reduceIte,Kernel.timerStart] at h₁
  split_ifs at h₁ with hlt
  obtain rfl := Option.some.inj h₁
  refine ⟨by simp [startTick,ht],?_,?_⟩
  · simp
  · simp

theorem ne_zero_of_toInt_pos {timeout : BitVec 32} (ht : 0 < timeout.toInt) : timeout ≠ 0 := by
  rintro rfl
  exact absurd ht (by decide)

theorem rounds_sendWait (o : ο) (t : θ) (value : BitVec 32) :
    Rounds (sendWait (σ := σ) o t value) t fun k m tick timeout tickDelta =>
      MailBox.sendLoop k o m tick t value timeout tickDelta where
  enter ht h := by
    simpa only [sendWait,MailBox.sendWait,ne_zero_of_toInt_pos ht,and_false,↓reduceIte] using h
  error he := ⟨_,if_pos he,he⟩
  again he := if_neg (not_not.mpr he)
  expired {k m tick tickDelta} hb := by
    have hfull : m.entry = m.size := hb
    simp only [MailBox.sendLoop,hfull,↓reduceIte]
    exact ⟨_,_,rfl,show -ERR_FULL ≠ ERR_OK by decide⟩
  sleep {k m tick timeout tickDelta k' m' p} hb ht h := by
    have hfull : m.entry = m.size := hb
    simp only [MailBox.sendLoop,hfull,↓reduceIte,ne_zero_of_toInt_pos ht,
      Option.bind_eq_bind,Option.bind_eq_some_iff,Option.some.injEq,Prod.mk.injEq] at h
    obtain ⟨_,-,_,-,k₁,h₁,k₂,h₂,rfl,-,rfl⟩ := h
    exact suspended_of_start ht h₁ h₂

theorem rounds_mailRecv (o : ο) (t : θ) :
    Rounds (mailRecv (σ := σ) o t) t fun k m tick timeout tickDelta =>
      MailBox.recvLoop k o m tick t timeout tickDelta where
  enter ht h := by
    simpa only [mailRecv,MailBox.recv,ne_zero_of_toInt_pos ht,and_false,↓reduceIte] using h
  error he := ⟨_,if_pos he,he⟩
  again he := if_neg (not_not.mpr he)
  expired {k m tick tickDelta} hb := by
    have hempty : m.entry = 0 := hb
    simp only [MailBox.recvLoop,hempty,↓reduceIte]
    exact ⟨_,_,rfl,show -ERR_TIMEOUT ≠ ERR_OK by decide⟩
  sleep {k m tick timeout tickDelta k' m' p} hb ht h := by
    have hempty : m.entry = 0 := hb
    simp only [MailBox.recvLoop,hempty,↓reduceIte,ne_zero_of_toInt_pos ht,
      Option.bind_eq_bind,Option.bind_eq_some_iff,Option.some.injEq,Prod.mk.injEq] at h
    obtain ⟨_,-,k₁,h₁,k₂,h₂,rfl,-,rfl⟩ := h
    exact suspended_of_start ht h₁ h₂

theorem rounds_queueRecv (o : ο) (t : θ) (size : ℕ) :
    Rounds (queueRecv (σ := σ) o t size) t fun k q tick timeout tickDelta =>
      MessageQueue.recvLoop k o q tick t timeout tickDelta where
  enter ht h := by
    simp only [queueRecv,MessageQueue.recv,ne_zero_of_toInt_pos ht,and_false,↓reduceIte] at h
    split_ifs at h
    exact h
  error he := ⟨_,if_pos he,_,rfl,he⟩
  again he := if_neg (not_not.mpr he)
  expired {k q tick tickDelta} hb := by
    have hempty : q.entry = 0 := hb
    simp only [MessageQueue.recvLoop,hempty,↓reduceIte]
    exact ⟨_,_,rfl,_,rfl,show -ERR_TIMEOUT ≠ ERR_OK by decide⟩
  sleep {k q tick timeout tickDelta k' q' p} hb ht h := by
    have hempty : q.entry = 0 := hb
    simp only [MessageQueue.recvLoop,hempty,↓reduceIte,ne_zero_of_toInt_pos ht,
      Option.bind_eq_bind,Option.bind_eq_some_iff,Option.some.injEq,Prod.mk.injEq] at h
    obtain ⟨_,-,k₁,h₁,k₂,h₂,rfl,-,rfl⟩ := h
    exact suspended_of_start ht h₁ h₂

end rounds

/-- A call that waits does so until the tick `deadline`. -/
def WaitsUntil (t : θ) (deadline : BitVec 32) (v : Visit σ θ ρ) : Prop :=
  ∀ timeout tickDelta, v.progress = .waiting timeout tickDelta →
    0 < timeout.toInt ∧ Suspended t v.kernel v.progress timeout (tickAt v.time) ∧
      tickAt v.time+timeout = deadline

section runs

variable {op : Operation σ θ ξ ρ} {t : θ} {deadline : BitVec 32} {v v' : Visit σ θ ρ}
  {w : Wake σ θ ξ}
  {loop : Kernel σ θ → ξ → BitVec 32 → BitVec 32 → BitVec 32 →
    Option (Kernel σ θ × ξ × Progress ρ)}

theorem Suspended.waitsUntil {k : Kernel σ θ} {p : Progress ρ} {timeout : BitVec 32} {time : ℕ}
    (ht : 0 < timeout.toInt) (hs : Suspended t k p timeout (tickAt time))
    (hd : tickAt time+timeout = deadline) : WaitsUntil t deadline ⟨k,p,time⟩ := by
  intro timeout' tickDelta hp
  obtain ⟨rfl,-⟩ := Progress.waiting.inj (hs.1.symm.trans hp)
  exact ⟨ht,hs,hd⟩

theorem WaitsUntil.armedFor (h : WaitsUntil t deadline v) : ArmedFor t deadline v := by
  intro timeout tickDelta hp
  obtain ⟨ht,⟨-,hactive,hinit⟩,hd⟩ := h timeout tickDelta hp
  have hpos : timeout.toNat ≠ 0 := fun h0 => ne_zero_of_toInt_pos ht (BitVec.eq_of_toNat_eq h0)
  refine ⟨hactive,?_,?_⟩
  · rw [hinit]
    exact Nat.pos_of_ne_zero hpos
  · rw [hinit,BitVec.ofNat_toNat,BitVec.setWidth_eq]
    exact hd

/-- What a wake-up does to a waiting call whose object is blocked. -/
theorem Rounds.step_cases (R : Rounds op t loop) (h : WaitsUntil t deadline v)
    (hl : Legal op v w) :
    ((tickAt w.time-deadline).toNat ≤ 2^31 →
      ∃ k r, step op v w = some ⟨k,.returned r,w.time⟩ ∧ op.failed r) ∧
    (∀ v', step op v w = some v' → WaitsUntil t deadline v') := by
  obtain ⟨⟨timeout,tickDelta,hp⟩,hb,-⟩ := hl
  obtain ⟨ht,hs,rfl⟩ := h timeout tickDelta hp
  obtain ⟨-,rfl⟩ := Progress.waiting.inj (hs.1.symm.trans hp)
  have hstep : step op v w = (op.proceed w.kernel w.object (tickAt w.time) timeout
      (tickAt v.time)).map fun (k,_,p) => ⟨k,p,w.time⟩ := by
    simp only [step,hp]
  rw [hstep]
  by_cases he : (w.kernel.thread t).error = ERR_OK
  · rw [R.again he]
    by_cases hrest : remaining timeout (tickAt v.time) (tickAt w.time) = 0
    · obtain ⟨k,r,hloop,hr⟩ := R.expired hb
      rw [hrest,hloop]
      refine ⟨fun _ => ⟨k,r,rfl,hr⟩,fun v' hv' => ?_⟩
      obtain rfl := Option.some.inj hv'
      exact nofun
    · refine ⟨fun hlate => absurd ((remaining_eq_zero_iff ht).mpr hlate) hrest,fun v' hv' => ?_⟩
      obtain ⟨heq,hpos⟩ := remaining_eq ht hrest
      obtain ⟨⟨k,x,p⟩,hloop,rfl⟩ := Option.map_eq_some_iff.mp hv'
      refine (R.sleep hb hpos hloop).waitsUntil hpos ?_
      rw [heq]
      ring
  · obtain ⟨r,hproceed,hr⟩ : ∃ r, op.proceed w.kernel w.object (tickAt w.time) timeout
        (tickAt v.time) = some (w.kernel,w.object,.returned r) ∧ op.failed r := R.error he
    rw [hproceed]
    refine ⟨fun _ => ⟨w.kernel,r,rfl,hr⟩,fun v' hv' => ?_⟩
    obtain rfl := Option.some.inj hv'
    exact nofun

theorem Rounds.keepsDeadline (R : Rounds op t loop) : KeepsDeadline op t := by
  intro k x start timeout k' x' p ht _ hb henter wakes hlegal
  have hs : WaitsUntil t (tickAt start+timeout) ⟨k',p,start⟩ :=
    (R.sleep hb ht (R.enter ht henter)).waitsUntil ht rfl
  have hrun : Throughout (step op) (WaitsUntil t (tickAt start+timeout)) ⟨k',p,start⟩ wakes :=
    throughout_of_invariant (fun _ hv => hv) (fun v w v' hv hl => (R.step_cases hv hl).2 v')
      hs hlegal
  refine ⟨throughout_of_invariant (fun _ hv => hv.armedFor)
    (fun v w v' hv hl => (R.step_cases hv hl).2 v') hs hlegal,?_⟩
  refine (hrun.allSteps.and hlegal).mono fun v w h hlate hhalf => ?_
  apply (R.step_cases h.1.1 h.2).1
  rw [tickAt_add,tickAt_sub hlate]
  exact hhalf

end runs

/-- Every wake-up of a bounded wait keeps the deadline of the call. -/
theorem bounded_waits_keep_deadline [DecidableEq θ] [ListFamily σ (ListId ο) θ] (o : ο) (t : θ)
    (value : BitVec 32) (size : ℕ) :
    KeepsDeadline (sendWait (σ := σ) o t value) t ∧ KeepsDeadline (mailRecv (σ := σ) o t) t ∧
      KeepsDeadline (queueRecv (σ := σ) o t size) t :=
  ⟨(rounds_sendWait o t value).keepsDeadline,(rounds_mailRecv o t).keepsDeadline,
    (rounds_queueRecv o t size).keepsDeadline⟩

/-- The second of two threads sends to a mailbox for one value. -/
def sending : Operation (Sequences (ListId (Fin 1)) (Fin 2)) (Fin 2) MailBox ℤ := sendWait 0 1 7

def twoThreads : Kernel (Sequences (ListId (Fin 1)) (Fin 2)) (Fin 2) :=
  Scheduler.startedKernel ![254,20]

def fullBox : MailBox := ⟨fun _ => 0,1,1,0,0⟩

/-- The mailbox is full again each time. -/
def woken (time : ℕ) : Wake (Sequences (ListId (Fin 1)) (Fin 2)) (Fin 2) MailBox :=
  ⟨twoThreads,fullBox,time⟩

theorem sending_enter (start : ℕ) (hs : start = 0 ∨ start = 2^32-5) :
    ∃ k' m', sending.enter twoThreads fullBox (tickAt start) 10 =
      some (k',m',.waiting 10 (tickAt start)) := by
  have hp : (sending.enter twoThreads fullBox (tickAt start) 10).map (fun r => r.2.2) =
      some (.waiting 10 (tickAt start)) := by
    rcases hs with rfl | rfl
    · decide +kernel
    · decide +kernel
  obtain ⟨⟨k',m',p⟩,h,rfl⟩ := Option.map_eq_some_iff.mp hp
  exact ⟨k',m',h⟩

theorem legal_woken {v : Visit (Sequences (ListId (Fin 1)) (Fin 2)) (Fin 2) ℤ}
    {timeout tickDelta : BitVec 32} {time : ℕ} (hp : v.progress = .waiting timeout tickDelta)
    (ht : v.time ≤ time) : Legal sending v (woken time) := ⟨⟨_,_,hp⟩,rfl,ht⟩

/-- A call at the tick `2^32-5` is woken two ticks before the counter wraps around, and again at
its deadline. -/
theorem bounded_waits_keep_deadline_acrossWrap :
    ∃ k' m', sending.enter twoThreads fullBox (tickAt (2^32-5)) 10 =
        some (k',m',.waiting 10 (tickAt (2^32-5))) ∧
      Throughout (step sending) (ArmedFor 1 (tickAt (2^32-5)+10))
        ⟨k',.waiting 10 (tickAt (2^32-5)),2^32-5⟩ [woken (2^32-2),woken (2^32+5)] := by
  obtain ⟨k',m',h⟩ := sending_enter (2^32-5) (.inr rfl)
  have hkeep : KeepsDeadline sending 1 := (bounded_waits_keep_deadline 0 1 7 0).1
  have hfull : sending.blocked fullBox := rfl
  refine ⟨k',m',h,(hkeep _ _ _ _ _ _ _ (by decide) (by decide) hfull h _ ?_).1⟩
  have hagain : (step sending ⟨twoThreads,.waiting 10 (tickAt (2^32-5)),2^32-5⟩
      (woken (2^32-2))).map (fun v => (v.progress,v.time)) =
        some (.waiting 7 (tickAt (2^32-2)),2^32-2) := by
    decide +kernel
  refine ⟨legal_woken rfl (by norm_num),fun v hv => ⟨?_,fun _ _ => trivial⟩⟩
  rw [step_kernel twoThreads k',hv] at hagain
  obtain ⟨hp,ht⟩ := Prod.mk.inj (Option.some.inj hagain)
  exact legal_woken hp (ht.le.trans (by norm_num))

/-- Woken more than half of the range after its deadline, the call waits for almost another
half. -/
theorem late_wakeup_waits_again :
    ∃ k' m' v', sending.enter twoThreads fullBox (tickAt 0) 10 =
        some (k',m',.waiting 10 (tickAt 0)) ∧
      Legal sending ⟨k',.waiting 10 (tickAt 0),0⟩ (woken (2^31+12)) ∧
      step sending ⟨k',.waiting 10 (tickAt 0),0⟩ (woken (2^31+12)) = some v' ∧
      v'.progress = .waiting 0x7ffffffe (tickAt (2^31+12)) := by
  obtain ⟨k',m',h⟩ := sending_enter 0 (.inl rfl)
  have hagain : (step sending ⟨twoThreads,.waiting 10 (tickAt 0),0⟩ (woken (2^31+12))).map
      Visit.progress = some (.waiting 0x7ffffffe (tickAt (2^31+12))) := by
    decide +kernel
  obtain ⟨v',hv',hp⟩ := Option.map_eq_some_iff.mp hagain
  rw [step_kernel twoThreads k'] at hv'
  exact ⟨k',m',v',h,legal_woken rfl (Nat.zero_le _),hv',hp⟩

end CosKernel.WaitDeadlines

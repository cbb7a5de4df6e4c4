import CosKernel.SchedulerInvariant
import Mathlib

/-!
# Delays in milliseconds

`Thread::delay` and `tick_from_millisecond` turn milliseconds into ticks. Both multiply in 32
bits before they divide, so that a long time loses its upper bits. At the configured rate a
millisecond is a tick; the first time that goes wrong is a little above 71 minutes.
-/
namespace CosKernel.MillisecondDelays

def CONFIG_TICK_PER_SECOND : ℕ := 1000

/-- The argument of `sleep` in `Thread::delay`. -/
def delayTick (ms : BitVec 32) : BitVec 32 := ms*BitVec.ofNat 32 CONFIG_TICK_PER_SECOND/1000

def tickFromMillisecond (ms : BitVec 32) : BitVec 32 :=
  (BitVec.ofNat 32 CONFIG_TICK_PER_SECOND*ms+999)/1000

/-- The ticks of a time without the remainder, over the numbers. -/
def exactFloor (ms : ℕ) : ℕ := ms*CONFIG_TICK_PER_SECOND/1000

def exactCeil (ms : ℕ) : ℕ := (ms*CONFIG_TICK_PER_SECOND+999)/1000

section conversions

variable {ms : BitVec 32}

theorem delayTick_toNat : (delayTick ms).toNat = ms.toNat*1000%2^32/1000 := by
  rw [delayTick,BitVec.toNat_udiv,BitVec.toNat_mul]
  rfl

theorem tickFromMillisecond_toNat :
    (tickFromMillisecond ms).toNat = (ms.toNat*1000+999)%2^32/1000 := by
  rw [tickFromMillisecond,BitVec.toNat_udiv,BitVec.toNat_add,BitVec.toNat_mul]
  change (1000*ms.toNat%2^32+999)%2^32/1000 = _
  omega

/-- The bound is where the product first needs more than 32 bits. -/
theorem delayTick_exact (h : ms.toNat ≤ 4294967) : (delayTick ms).toNat = ms.toNat := by
  rw [delayTick_toNat]
  omega

theorem tickFromMillisecond_exact_iff :
    (tickFromMillisecond ms).toNat = ms.toNat ↔ ms.toNat ≤ 4294966 := by
  rw [tickFromMillisecond_toNat]
  omega

theorem exactFloor_eq (n : ℕ) : exactFloor n = n := Nat.mul_div_cancel n (by decide)

theorem exactCeil_eq (n : ℕ) : exactCeil n = n := by
  unfold exactCeil CONFIG_TICK_PER_SECOND
  omega

end conversions

variable {σ ο θ : Type} [DecidableEq θ] [ListFamily σ (ListId ο) θ]

/-- `Thread::delay` up to and including `process`. -/
def delay (k : Kernel σ θ) (ms : BitVec 32) : Option (Kernel σ θ) :=
  k.sleep (ο := ο) (delayTick ms).toNat

/-- Once the calling thread is suspended, its timer is armed for the time at least, or the
assertion of `Timer::start` fails. -/
def DelaysFor (ο : Type) [ListFamily σ (ListId ο) θ] (k : Kernel σ θ) (ms : BitVec 32) : Prop :=
  ∀ t k₁ r, k.currentThread = some t → k.suspend (ο := ο) t = some (k₁,r) →
    (TICK_MAX/2 ≤ (delayTick ms).toNat ∧ delay (ο := ο) k ms = none) ∨
    ∃ k₂, k₁.timerStart t (delayTick ms).toNat = some k₂ ∧ delay (ο := ο) k ms = k₂.process (ο := ο) ∧
      (k₂.thread t).timerActive ∧ exactFloor ms.toNat ≤ (k₂.thread t).timerInitTick

/-- Later times are no fewer ticks. -/
def MonotoneUpTo (ms : BitVec 32) : Prop :=
  ∀ m ≤ ms, delayTick m ≤ delayTick ms ∧ tickFromMillisecond m ≤ tickFromMillisecond ms

theorem delay_eq {k k₁ k₂ : Kernel σ θ} {t : θ} {r : ℤ} {ms : BitVec 32}
    (hcurrent : k.currentThread = some t) (hsuspend : k.suspend (ο := ο) t = some (k₁,r))
    (hstart : k₁.timerStart t (delayTick ms).toNat = some k₂) :
    delay (ο := ο) k ms = k₂.process (ο := ο) := by
  simp only [delay,Kernel.sleep,hcurrent,hsuspend,hstart,Option.bind_eq_bind,Option.bind_some]

theorem delaysFor_of_le {k : Kernel σ θ} {ms : BitVec 32} (hms : ms.toNat ≤ 4294967) :
    DelaysFor ο k ms := by
  intro t k₁ r hcurrent hsuspend
  have hexact := delayTick_exact hms
  have hrange : (delayTick ms).toNat < TICK_MAX/2 := by
    unfold TICK_MAX
    omega
  have hstart : k₁.timerStart t (delayTick ms).toNat = some _ := if_pos hrange
  refine .inr ⟨_,hstart,delay_eq hcurrent hsuspend hstart,?_⟩
  simp [hexact,exactFloor_eq]

/-- A thread that can be suspended is delayed for less than a longer time. -/
theorem delaysFor_iff {k k₁ : Kernel σ θ} {t : θ} {r : ℤ} {ms : BitVec 32}
    (hcurrent : k.currentThread = some t) (hsuspend : k.suspend (ο := ο) t = some (k₁,r)) :
    DelaysFor ο k ms ↔ ms.toNat ≤ 4294967 := by
  refine ⟨fun h => ?_,delaysFor_of_le⟩
  have htick : (delayTick ms).toNat = ms.toNat*1000%2^32/1000 := delayTick_toNat
  rcases h t k₁ r hcurrent hsuspend with ⟨hassert,-⟩ | ⟨k₂,hstart,-,-,hle⟩
  · unfold TICK_MAX at hassert
    omega
  · unfold Kernel.timerStart at hstart
    split_ifs at hstart
    rw [← Option.some.inj hstart,Kernel.modify_thread_self,exactFloor_eq] at hle
    dsimp only at hle
    omega

theorem monotoneUpTo_of_le {ms : BitVec 32} (hms : ms.toNat ≤ 4294966) : MonotoneUpTo ms := by
  intro m hm
  rw [BitVec.le_def] at hm ⊢
  rw [BitVec.le_def,delayTick_exact (by omega),delayTick_exact (by omega),
    tickFromMillisecond_exact_iff.mpr hms,tickFromMillisecond_exact_iff.mpr (by omega)]
  exact ⟨hm,hm⟩

/-- For every kernel and time: the delay is not cut short, the conversion rounds up and the
conversions are monotone, iff the time is at most `4294966` milliseconds. -/
theorem delay_not_cut_short_iff (k : Kernel σ θ) (ms : BitVec 32) :
    (DelaysFor ο k ms ∧
      (exactCeil ms.toNat < 2^32 → (tickFromMillisecond ms).toNat = exactCeil ms.toNat) ∧
      MonotoneUpTo ms) ↔ ms.toNat ≤ 4294966 := by
  rw [exactCeil_eq]
  constructor
  · rintro ⟨-,hceil,-⟩
    exact tickFromMillisecond_exact_iff.mp (hceil ms.isLt)
  · intro hms
    exact ⟨delaysFor_of_le (by omega),fun _ => tickFromMillisecond_exact_iff.mpr hms,
      monotoneUpTo_of_le hms⟩

/-- An idle thread and the thread that calls `delay`. -/
def delaying : Kernel (Sequences (ListId Empty) (Fin 2)) (Fin 2) := Scheduler.startedKernel ![254,20]

/-- After 4294968 milliseconds the thread has slept for no tick at all. -/
theorem long_delay_cut_short :
    ¬DelaysFor Empty delaying 4294968 ∧ delayTick 4294968 = 0 ∧
      tickFromMillisecond 4294967 = 0 ∧ tickFromMillisecond 4294966 = 4294966 := by
  have hcurrent : delaying.currentThread = some 1 := by decide +kernel
  have hsuspend : (delaying.suspend (ο := Empty) 1).isSome := by decide +kernel
  obtain ⟨⟨k₁,r⟩,hsuspend⟩ := Option.isSome_iff_exists.mp hsuspend
  refine ⟨?_,by decide,by decide,by decide⟩
  rw [delaysFor_iff hcurrent hsuspend]
  decide

end CosKernel.MillisecondDelays

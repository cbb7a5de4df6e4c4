import CosKernel.ObjectRegistry
import CosKernel.TransitionRuns

/-!
# Devices

A device counts its opens in `ref_count_` and keeps the flags of the last one in
`open_flag_`; the driver below it is initialised by the first `init` or `open`
and closed by the last `close`. Every function of the driver may return anything
at every call, so a call comes with the results that the driver has for it. What
the driver was asked, and what was printed or left in `errno`, is kept in order.
-/
namespace CosKernel.DeviceStates
open TransitionRuns ObjectRegistry

def ERR_NOSYS : ℤ := 6
def ERR_BUSY : ℤ := 7

def FLAG_STANDALONE : BitVec 16 := 0x008
def FLAG_ACTIVATED : BitVec 16 := 0x010
def OFLAG_CLOSE : BitVec 16 := 0x000
def OFLAG_OPEN : BitVec 16 := 0x008

structure Device where
  name : Name
  flag : BitVec 16
  openFlag : BitVec 16
  refCount : BitVec 8
  deriving DecidableEq

/-- `Device::Device` leaves `open_flag_` as it finds it in memory. -/
def Device.new (memory : Device) (name : Name) (flags : BitVec 16) : Device :=
  {memory with name := name, flag := flags, refCount := 0}

/-- What the functions of the driver return during one call. -/
structure Driver where
  driverInit : ℤ
  driverOpen : ℤ
  driverClose : ℤ
  driverRead : BitVec 32
  driverWrite : BitVec 32
  deriving DecidableEq

inductive Event where
  | driverInit (result : ℤ)
  | driverOpen (oflag : BitVec 16) (result : ℤ)
  | driverClose (result : ℤ)
  | driverRead (pos buffer size result : BitVec 32)
  | driverWrite (pos buffer size result : BitVec 32)
  | printk (text : String)
  | setErrno (e : ℤ)
  deriving DecidableEq

structure World extends Device where
  events : List Event
  deriving DecidableEq

/-- `open` and `close` take both results for a success. -/
def Succeeds (result : ℤ) : Prop := result = ERR_OK ∨ result = -ERR_NOSYS

instance (result : ℤ) : Decidable (Succeeds result) :=
  inferInstanceAs (Decidable (_ ∨ _))

namespace World

def start (memory : Device) (name : Name) (flags : BitVec 16) : World :=
  ⟨Device.new memory name flags,[]⟩

def emit (s : World) (e : Event) : World := {s with events := s.events++[e]}

def Activated (s : World) : Prop := s.flag &&& FLAG_ACTIVATED ≠ 0
def Standalone (s : World) : Prop := s.flag &&& FLAG_STANDALONE ≠ 0
def Opened (s : World) : Prop := s.openFlag &&& OFLAG_OPEN ≠ 0

instance (s : World) : Decidable s.Activated := inferInstanceAs (Decidable (_ ≠ _))
instance (s : World) : Decidable s.Standalone := inferInstanceAs (Decidable (_ ≠ _))
instance (s : World) : Decidable s.Opened := inferInstanceAs (Decidable (_ ≠ _))

def initFailure (name : Name) (result : ℤ) : String :=
  "ERROR : To initialize device:" ++ name.text ++ " failed. The error code is " ++
    toString result ++ "\n"

/-- `Device::init`. -/
def deviceInit (s : World) (r : Driver) : World × ℤ :=
  if ¬s.Activated then
    let s := s.emit (.driverInit r.driverInit)
    if r.driverInit ≠ ERR_OK then
      (s.emit (.printk (initFailure s.name r.driverInit)),r.driverInit)
    else ({s with flag := s.flag ||| FLAG_ACTIVATED},r.driverInit)
  else (s,ERR_OK)

/-- `Device::open` begins as `init` does and goes on whatever that returns. -/
def deviceOpen (s : World) (r : Driver) (oflag : BitVec 16) : Option (World × ℤ) :=
  let s := (s.deviceInit r).1
  if s.Standalone ∧ s.Opened then some (s,-ERR_BUSY)
  else
    let s := s.emit (.driverOpen oflag r.driverOpen)
    if Succeeds r.driverOpen then
      if s.refCount+1 = 0 then none
      else some ({s with openFlag := oflag ||| OFLAG_OPEN, refCount := s.refCount+1},r.driverOpen)
    else some (s,r.driverOpen)

/-- `Device::close`. -/
def deviceClose (s : World) (r : Driver) : World × ℤ :=
  if s.refCount = 0 then (s,-ERR_ERROR)
  else
    let s := {s with refCount := s.refCount-1}
    if s.refCount ≠ 0 then (s,ERR_OK)
    else
      let s := s.emit (.driverClose r.driverClose)
      if Succeeds r.driverClose then ({s with openFlag := OFLAG_CLOSE},r.driverClose)
      else (s,r.driverClose)

/-- `Device::read`. -/
def deviceRead (s : World) (r : Driver) (pos buffer size : BitVec 32) : World × BitVec 32 :=
  if s.refCount = 0 then (s.emit (.setErrno (-ERR_ERROR)),0)
  else (s.emit (.driverRead pos buffer size r.driverRead),r.driverRead)

/-- `Device::write`. -/
def deviceWrite (s : World) (r : Driver) (pos buffer size : BitVec 32) : World × BitVec 32 :=
  if s.refCount = 0 then (s.emit (.setErrno (-ERR_ERROR)),0)
  else (s.emit (.driverWrite pos buffer size r.driverWrite),r.driverWrite)

end World

inductive Call where
  | deviceInit (r : Driver)
  | deviceOpen (r : Driver) (oflag : BitVec 16)
  | deviceClose (r : Driver)
  | deviceRead (r : Driver) (pos buffer size : BitVec 32)
  | deviceWrite (r : Driver) (pos buffer size : BitVec 32)
  deriving DecidableEq

/-- Reading and writing return a size and no error. -/
def perform (s : World) : Call → Option (World × Option ℤ)
  | .deviceInit r => let (s,e) := s.deviceInit r; some (s,some e)
  | .deviceOpen r oflag => (s.deviceOpen r oflag).map fun (s,e) => (s,some e)
  | .deviceClose r => let (s,e) := s.deviceClose r; some (s,some e)
  | .deviceRead r pos buffer size => some ((s.deviceRead r pos buffer size).1,none)
  | .deviceWrite r pos buffer size => some ((s.deviceWrite r pos buffer size).1,none)

def step (s : World) (a : Call) : Option World := (perform s a).map Prod.fst

theorem step_eq_some {s s' : World} {a : Call} :
    step s a = some s' ↔ ∃ e, perform s a = some (s',e) := by
  simp [step]

namespace World

theorem flag_or_standalone (f : BitVec 16) :
    (f ||| FLAG_ACTIVATED) &&& FLAG_STANDALONE = f &&& FLAG_STANDALONE := by
  rw [BitVec.and_or_distrib_right,show FLAG_ACTIVATED &&& FLAG_STANDALONE = 0#16 by decide,
    BitVec.or_zero]

theorem flag_or_activated (f : BitVec 16) : (f ||| FLAG_ACTIVATED) &&& FLAG_ACTIVATED ≠ 0 := by
  intro h
  have hbit := congrArg (fun b : BitVec 16 => b.getLsbD 4) h
  simp [FLAG_ACTIVATED] at hbit

theorem oflag_or_open (f : BitVec 16) : (f ||| OFLAG_OPEN) &&& OFLAG_OPEN ≠ 0 := by
  intro h
  have hbit := congrArg (fun b : BitVec 16 => b.getLsbD 3) h
  simp [OFLAG_OPEN] at hbit

variable (s : World) (r : Driver)

@[simp] theorem emit_device (e : Event) : (s.emit e).toDevice = s.toDevice := rfl

@[simp] theorem emit_events (e : Event) : (s.emit e).events = s.events++[e] := rfl

@[simp] theorem deviceInit_openFlag : (s.deviceInit r).1.openFlag = s.openFlag := by
  unfold deviceInit
  split_ifs <;> rfl

@[simp] theorem deviceInit_refCount : (s.deviceInit r).1.refCount = s.refCount := by
  unfold deviceInit
  split_ifs <;> rfl

@[simp] theorem deviceInit_opened : (s.deviceInit r).1.Opened ↔ s.Opened := by
  simp [Opened]

@[simp] theorem deviceInit_standalone : (s.deviceInit r).1.Standalone ↔ s.Standalone := by
  unfold deviceInit
  split_ifs
  · rfl
  · rfl
  · simp [Standalone,flag_or_standalone]

theorem deviceInit_activated :
    (s.deviceInit r).1.Activated ↔ s.Activated ∨ r.driverInit = ERR_OK := by
  unfold deviceInit
  split_ifs with h hr
  · simp [h]
  · simp only [hr,or_false]
    exact Iff.rfl
  · exact iff_of_true (flag_or_activated s.flag) (.inr (not_not.mp hr))

theorem deviceClose_succeeds {s : World} {r : Driver} (h : s.refCount ≠ 0)
    (hr : Succeeds r.driverClose) : Succeeds (s.deviceClose r).2 := by
  simp only [deviceClose,h,↓reduceIte]
  split_ifs
  · exact .inl rfl
  · exact hr

theorem deviceClose_last {s : World} (h : s.refCount = 1) (r : Driver) :
    (s.deviceClose r).1.refCount = 0 ∧ (s.deviceClose r).2 = r.driverClose := by
  simp only [deviceClose,h]
  split_ifs with hzero hmore
  · exact absurd hzero (by decide)
  · exact absurd rfl hmore
  · exact ⟨rfl,rfl⟩
  · exact ⟨rfl,rfl⟩

end World

/-- All that a call does to the count and the open flag. -/
theorem perform_cases {s s' : World} {a : Call} {e : Option ℤ} (h : perform s a = some (s',e)) :
    (s'.Standalone ↔ s.Standalone) ∧
    ((s'.openFlag = s.openFlag ∧ s'.refCount = s.refCount) ∨
     (∃ r oflag, a = .deviceOpen r oflag ∧ e = some r.driverOpen ∧ Succeeds r.driverOpen ∧
       ¬(s.Standalone ∧ s.Opened) ∧ s.refCount+1 ≠ 0 ∧
       s'.openFlag = oflag ||| OFLAG_OPEN ∧ s'.refCount = s.refCount+1) ∨
     (∃ r, a = .deviceClose r ∧ s.refCount ≠ 0 ∧ s.refCount-1 ≠ 0 ∧ e = some ERR_OK ∧
       s'.openFlag = s.openFlag ∧ s'.refCount = s.refCount-1) ∨
     (∃ r, a = .deviceClose r ∧ s.refCount = 1 ∧ e = some r.driverClose ∧ s'.refCount = 0 ∧
       s'.openFlag = if Succeeds r.driverClose then OFLAG_CLOSE else s.openFlag)) := by
  cases a with
  | deviceInit r =>
      simp only [perform,Option.some.injEq,Prod.mk.injEq] at h
      obtain ⟨rfl,-⟩ := h
      simp
  | deviceOpen r oflag =>
      simp only [perform,World.deviceOpen,Option.map_eq_some_iff,Prod.mk.injEq] at h
      obtain ⟨⟨u,v⟩,hu,rfl,rfl⟩ := h
      split_ifs at hu with hbusy hok hwrap
      · obtain ⟨rfl,rfl⟩ := Prod.mk.inj (Option.some.inj hu)
        simp
      · obtain ⟨rfl,rfl⟩ := Prod.mk.inj (Option.some.inj hu)
        refine ⟨?_,.inr (.inl ⟨r,oflag,rfl,rfl,hok,?_,?_,rfl,?_⟩)⟩
        · exact World.deviceInit_standalone s r
        · simpa using hbusy
        · simpa using hwrap
        · simp
      · obtain ⟨rfl,rfl⟩ := Prod.mk.inj (Option.some.inj hu)
        exact ⟨World.deviceInit_standalone s r,.inl (by simp)⟩
  | deviceClose r =>
      simp only [perform,World.deviceClose,Option.some.injEq,Prod.mk.injEq] at h
      obtain ⟨rfl,rfl⟩ := h
      split_ifs with hzero hmore hok
      · exact ⟨Iff.rfl,.inl ⟨rfl,rfl⟩⟩
      · exact ⟨Iff.rfl,.inr (.inr (.inl ⟨r,rfl,hzero,hmore,rfl,rfl,rfl⟩))⟩
      all_goals
        have hone : s.refCount-1 = 0 := not_not.mp hmore
        refine ⟨Iff.rfl,.inr (.inr (.inr ⟨r,rfl,?_,rfl,hone,?_⟩))⟩
      · exact sub_eq_zero.mp hone
      · rw [if_pos hok]
      · exact sub_eq_zero.mp hone
      · rw [if_neg hok]
        rfl
  | deviceRead r pos buffer size =>
      simp only [perform,World.deviceRead,Option.some.injEq,Prod.mk.injEq] at h
      obtain ⟨rfl,-⟩ := h
      split_ifs <;> exact ⟨Iff.rfl,.inl ⟨rfl,rfl⟩⟩
  | deviceWrite r pos buffer size =>
      simp only [perform,World.deviceWrite,Option.some.injEq,Prod.mk.injEq] at h
      obtain ⟨rfl,-⟩ := h
      split_ifs <;> exact ⟨Iff.rfl,.inl ⟨rfl,rfl⟩⟩

/-- Below the last value of the count no assertion fails. -/
theorem perform_returns {s : World} (h : s.refCount < 255) (a : Call) :
    ∃ s' e, perform s a = some (s',e) := by
  cases a with
  | deviceOpen r oflag =>
      have hwrap : s.refCount+1 ≠ 0 := by bv_omega
      simp only [perform,World.deviceOpen]
      split_ifs with hbusy hok hzero
      · exact ⟨_,_,rfl⟩
      · exact absurd (by simpa using hzero) hwrap
      · exact ⟨_,_,rfl⟩
      · exact ⟨_,_,rfl⟩
  | _ => exact ⟨_,_,rfl⟩

/-- The open flag agrees with the count, and a standalone device is opened once. -/
structure Standing (s : World) : Prop where
  opened : s.Opened ↔ s.refCount ≠ 0
  alone : s.Standalone → s.refCount ≤ 1

/-- In particular a closed device is opened again as soon as its driver agrees. -/
structure Sound (s : World) : Prop extends Standing s where
  reopens : s.refCount = 0 → ∀ r oflag, ∃ s', s.deviceOpen r oflag = some (s',r.driverOpen)

/-- A call that fails leaves the count and the open flag alone, so that an open device whose
`close` failed is closed as soon as its driver agrees. -/
structure Careful (s : World) (a : Call) (s' : World) : Prop where
  keeps : ∀ e, perform s a = some (s',some e) → ¬Succeeds e →
    s'.refCount = s.refCount ∧ s'.openFlag = s.openFlag
  recloses : ∀ r, a = .deviceClose r → s.refCount ≠ 0 → ¬Succeeds (s.deviceClose r).2 →
    ∀ r', Succeeds r'.driverClose → Succeeds (s'.deviceClose r').2

/-- The driver does not refuse the close that leaves no open behind. -/
def LastCloseSucceeds (s : World) : Call → Prop
  | .deviceClose r => s.refCount = 1 → Succeeds r.driverClose
  | _ => True

instance (s : World) : ∀ a, Decidable (LastCloseSucceeds s a)
  | .deviceClose _ => inferInstanceAs (Decidable (_ → _))
  | .deviceInit _ => .isTrue trivial
  | .deviceOpen _ _ => .isTrue trivial
  | .deviceRead .. => .isTrue trivial
  | .deviceWrite .. => .isTrue trivial

theorem Standing.sound {s : World} (h : Standing s) : Sound s := by
  refine ⟨h,fun hzero r oflag => ?_⟩
  have hclosed : ¬s.Opened := fun ho => h.opened.mp ho hzero
  have hone : (0 : BitVec 8)+1 ≠ 0 := by decide
  simp only [World.deviceOpen,World.deviceInit_opened,hclosed,and_false,↓reduceIte,
    World.emit_device,World.deviceInit_refCount,hzero,hone]
  split_ifs <;> exact ⟨_,rfl⟩

theorem closed_not_opened {s : World} (h : s.openFlag = OFLAG_CLOSE) : ¬s.Opened := by
  simp [World.Opened,h,OFLAG_CLOSE]

theorem opened_of_open {s : World} {oflag : BitVec 16} (h : s.openFlag = oflag ||| OFLAG_OPEN) :
    s.Opened := by
  rw [World.Opened,h]
  exact World.oflag_or_open oflag

theorem Standing.perform {s s' : World} {a : Call} {e : Option ℤ} (h : Standing s)
    (hclose : LastCloseSucceeds s a) (hp : perform s a = some (s',e)) : Standing s' := by
  obtain ⟨halone,heffect⟩ := perform_cases hp
  obtain ⟨hopen,hcount⟩ | ⟨r,oflag,-,-,-,hbusy,hwrap,hopen,hcount⟩ |
    ⟨r,-,hzero,hmore,-,hopen,hcount⟩ | ⟨r,rfl,hone,-,hcount,hopen⟩ := heffect
  · refine ⟨?_,?_⟩
    · rw [World.Opened,hopen,hcount]
      exact h.opened
    · rw [hcount,halone]
      exact h.alone
  · have hopened := opened_of_open hopen
    refine ⟨iff_of_true hopened (hcount ▸ hwrap),fun ha => ?_⟩
    -- a standalone device was not open, so this is its only open
    have hzero : s.refCount = 0 := by
      by_contra hne
      exact hbusy ⟨halone.mp ha,h.opened.mpr hne⟩
    rw [hcount,hzero]
    decide
  · refine ⟨?_,fun ha => ?_⟩
    · rw [World.Opened,hopen,hcount]
      exact iff_of_true (h.opened.mpr hzero) hmore
    · have hle := h.alone (halone.mp ha)
      bv_omega
  · rw [if_pos (hclose hone)] at hopen
    exact ⟨iff_of_false (closed_not_opened hopen) (not_not.mpr hcount),fun _ => hcount ▸ by decide⟩

theorem careful_of_lastCloseSucceeds {s s' : World} {a : Call}
    (hclose : LastCloseSucceeds s a) (hs : step s a = some s') : Careful s a s' := by
  have hkeeps : ∀ e, perform s a = some (s',some e) → ¬Succeeds e →
      s'.refCount = s.refCount ∧ s'.openFlag = s.openFlag := by
    intro e hp hfail
    obtain ⟨-,⟨hopen,hcount⟩ | ⟨r,oflag,-,he,hok,-⟩ | ⟨r,-,-,-,he,-⟩ | ⟨r,rfl,hone,he,-⟩⟩ :=
      perform_cases hp
    · exact ⟨hcount,hopen⟩
    · exact absurd (Option.some.inj he ▸ hok) hfail
    · exact absurd (.inl (Option.some.inj he)) hfail
    · exact absurd (Option.some.inj he ▸ hclose hone) hfail
  refine ⟨hkeeps,?_⟩
  rintro r rfl hopen hfail r' hr'
  have hsame := hkeeps (s.deviceClose r).2 (by simpa [step,perform] using hs) hfail
  exact World.deviceClose_succeeds (hsame.1.trans_ne hopen) hr'

/-- The state of a device is right in every run of fewer than 255 opens at a time just when the
memory that it is constructed in does not say that it is open and no last close fails. -/
theorem device_state_right_iff (memory : Device) (name : Name) (flags : BitVec 16)
    (calls : List Call)
    (hfew : Throughout step (fun s => s.refCount < 255) (.start memory name flags) calls) :
    Always step Sound (.start memory name flags) calls ∧
        Follows step Careful (.start memory name flags) calls ↔
      memory.openFlag &&& OFLAG_OPEN = 0 ∧
        AllSteps step LastCloseSucceeds (.start memory name flags) calls := by
  constructor
  · rintro ⟨hsound,hcareful⟩
    refine ⟨?_,hcareful.allSteps ?_⟩
    · have hstart : Standing (.start memory name flags) := by
        cases calls with
        | nil => exact hsound.toStanding
        | cons a as => exact hsound.1.toStanding
      by_contra hopen
      exact hstart.opened.mp hopen rfl
    · intro s a s' hs hc
      cases a with
      | deviceClose r =>
          intro hone
          by_contra hfail
          obtain ⟨hcount,hresult⟩ := World.deviceClose_last hone r
          have hs' : (s.deviceClose r).1 = s' := Option.some.inj hs
          have hkeep := hc.keeps (s.deviceClose r).2 (by rw [← hs']; rfl) (hresult ▸ hfail)
          rw [← hs',hcount,hone] at hkeep
          exact absurd hkeep.1 (by decide)
      | _ => trivial
  · rintro ⟨hclosed,hclose⟩
    have hstart : Standing (.start memory name flags) := by
      refine ⟨iff_of_false (not_not.mpr hclosed) (not_not.mpr rfl),fun _ => ?_⟩
      exact Nat.zero_le _
    have hrun := (hfew.allSteps.mono fun s a h => h.1).and hclose
    have hstep : ∀ s a, Standing s → s.refCount < 255 ∧ LastCloseSucceeds s a →
        ∃ s', step s a = some s' ∧ Careful s a s' ∧ Standing s' := by
      intro s a hs hc
      obtain ⟨s',e,hp⟩ := perform_returns hc.1 a
      have hs' : step s a = some s' := step_eq_some.mpr ⟨e,hp⟩
      exact ⟨s',hs',careful_of_lastCloseSucceeds hc.2 hs',hs.perform hc.2 hp⟩
    refine ⟨always_of_invariant (fun s => Standing.sound) ?_ hstart hrun,
      follows_of_invariant hstep hstart hrun⟩
    intro s a hs hc
    obtain ⟨s',hs',-,hkept⟩ := hstep s a hs hc
    exact ⟨s',hs',hkept⟩

/-- A driver whose functions succeed, apart from its `driver_close`. -/
def closing (result : ℤ) : Driver := ⟨ERR_OK,ERR_OK,result,0,0⟩

def zeroMemory : Device := ⟨⟨"",by decide⟩,0,0,0⟩

def standalone : World := .start zeroMemory ⟨"uart",by decide⟩ FLAG_STANDALONE

def openTwice : List Call :=
  [.deviceInit (closing ERR_OK),.deviceOpen (closing ERR_OK) 3,.deviceOpen (closing ERR_OK) 3,
    .deviceClose (closing (-ERR_NOSYS)),.deviceClose (closing ERR_OK),
    .deviceOpen (closing ERR_OK) 1]

theorem device_state_right_openTwice :
    Always step Sound standalone openTwice ∧ Follows step Careful standalone openTwice :=
  (device_state_right_iff zeroMemory ⟨"uart",by decide⟩ FLAG_STANDALONE openTwice
    (by decide)).mpr (by decide)

/-- The driver refuses the only close: the count is zero but the flag says open, so the device
can neither be closed nor, being standalone, be opened again. -/
theorem failed_close_blocks : ∃ s, [.deviceOpen (closing ERR_OK) 3,
      .deviceClose (closing (-ERR_ERROR))].foldlM step standalone = some s ∧
    s.refCount = 0 ∧ s.Opened ∧
    (∀ r, s.deviceClose r = (s,-ERR_ERROR)) ∧
    ∀ r oflag, (s.deviceOpen r oflag).map Prod.snd = some (-ERR_BUSY) := by
  refine ⟨_,rfl,rfl,by decide,fun r => rfl,fun r oflag => ?_⟩
  simp only [World.deviceOpen,World.deviceInit_standalone,World.deviceInit_opened]
  rw [if_pos (by decide)]
  rfl

end CosKernel.DeviceStates

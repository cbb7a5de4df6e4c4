import CosKernel.CellBuffers
import CosKernel.DeviceStates
import CosKernel.TransitionRuns

/-!
# The log of the console

`printk` keeps what it prints before there is a console device, and writes it to the device
in front of the first message that finds one. The texts are what the format strings stand
for, and `vsnprintf` is the function of C99: it stores no more than fits in front of the null
byte, but returns the length of the whole text.

A device takes bytes only while it is open. `console_set_device` closes the old device and opens
the new one after it has become the console, so what `open` prints goes to the new device already.
The drivers may return anything. A copy that runs past the end of `_log_buf` is a fault.
-/
namespace CosKernel.ConsoleLog
open CellBuffers TransitionRuns DeviceStates

abbrev Byte := BitVec 8

def CONFIG_CONSOLEBUF_SIZE : ℕ := 256

def OFLAG_RDWR : BitVec 16 := 0x003
def FLAG_STREAM : BitVec 16 := 0x040

/-- The static variables of `printk`, the devices, the bytes that were written to console devices
so far, and the texts of all calls. -/
structure Log (δ : Type) where
  consoleDevice : Option δ
  logBuf : ℕ → Byte
  length : ℕ
  cosLogBuf : ℕ → Byte
  device : δ → DeviceStates.World
  writes : List (δ × List Byte)
  texts : List (List Byte)

/-- The bytes that `vsnprintf` stores into a buffer of `size` bytes, and its result. A length
that is no `int` is an error. -/
def vsnprintf (size : ℕ) (text : List Byte) : List Byte × BitVec 32 :=
  (text.take (size-1)++[0],if text.length < 2^31 then BitVec.ofNat 32 text.length else -1)

/-- The length of the output, adjusted if the text is larger than the buffer. -/
def outputLength (result : BitVec 32) : ℕ :=
  if CONFIG_CONSOLEBUF_SIZE-1 < result.toNat then CONFIG_CONSOLEBUF_SIZE-1 else result.toNat

/-- What is left of a text in `cos_log_buf`, without the null byte. -/
def stored (text : List Byte) : List Byte := text.take (CONFIG_CONSOLEBUF_SIZE-2)

variable {δ : Type}

/-- `Device::write` hands the bytes to the driver of an open device. On a device that is not open
it only sets `errno`. -/
def Log.write (s : Log δ) (d : δ) (bytes : List Byte) : Log δ :=
  if (s.device d).refCount = 0 then s else {s with writes := s.writes++[(d,bytes)]}

def printk (s : Log δ) (text : List Byte) : Option (Log δ) :=
  let (bytes,result) := vsnprintf (CONFIG_CONSOLEBUF_SIZE-1) text
  let s := {s with cosLogBuf := CellBuffers.write s.cosLogBuf 0 bytes, texts := s.texts++[text]}
  let length := outputLength result
  match s.consoleDevice with
  | some d =>
      let s := if s.length ≠ 0 then {s.write d (read s.logBuf 0 s.length) with length := 0} else s
      some (s.write d (read s.cosLogBuf 0 length))
  | none =>
      if CONFIG_CONSOLEBUF_SIZE < s.length+length then none
      else some {s with
        logBuf := CellBuffers.write s.logBuf s.length (read s.cosLogBuf 0 length)
        length := s.length+length}

/-- The driver of the device cannot be initialised. -/
def InitFails (w : DeviceStates.World) (r : Driver) : Prop := ¬w.Activated ∧ r.driverInit ≠ ERR_OK
deriving Decidable

def bytesOf (text : String) : List Byte := text.toUTF8.toList.map UInt8.toBitVec

section model

variable [DecidableEq δ]

def Log.setDevice (s : Log δ) (d : δ) (w : DeviceStates.World) : Log δ :=
  {s with device := Function.update s.device d w}

/-- `Device::open`, which prints before the device has changed. -/
def Log.openDevice (s : Log δ) (d : δ) (r : Driver) : Option (Log δ) := do
  let w := s.device d
  let s ← if InitFails w r then printk s (bytesOf (World.initFailure w.name r.driverInit)) else some s
  let (w,_) ← w.deviceOpen r (OFLAG_RDWR ||| FLAG_STREAM)
  some (s.setDevice d w)

/-- The old console device is closed, and `d` is the new one. -/
def Log.redirect (s : Log δ) (d : δ) (r : Driver) : Log δ :=
  match s.consoleDevice with
  | some old => {s.setDevice old ((s.device old).deviceClose r).1 with consoleDevice := some d}
  | none => {s with consoleDevice := some d}

/-- `found` is the result of `Device::find`, and `r` is what the drivers return. The result is the
old console device. -/
def consoleSetDevice (s : Log δ) (found : Option δ) (r : Driver) : Option (Log δ × Option δ) :=
  match found with
  | some d => do
      let s' ← (s.redirect d r).openDevice d r
      some (s',s.consoleDevice)
  | none => some (s,s.consoleDevice)

end model

inductive Call (δ : Type) where
  | printk (text : List Byte)
  | consoleSetDevice (found : Option δ) (r : Driver)
  deriving DecidableEq

def step [DecidableEq δ] (s : Log δ) : Call δ → Option (Log δ)
  | .printk text => ConsoleLog.printk s text
  | .consoleSetDevice found r => (ConsoleLog.consoleSetDevice s found r).map Prod.fst

/-- All bytes that were written to console devices. -/
def Log.output (s : Log δ) : List Byte := s.writes.flatMap Prod.snd

/-- What the calls have printed. -/
def Log.messages (s : Log δ) : List Byte := s.texts.flatMap stored

/-- Every message was written to a device or is in the buffer, which is large enough. -/
structure Complete (s : Log δ) : Prop where
  bounded : s.length ≤ CONFIG_CONSOLEBUF_SIZE
  kept : s.output++read s.logBuf 0 s.length = s.messages

/-- A call that finds a device writes all that is missing. -/
def HandsOver [DecidableEq δ] (s : Log δ) (a : Call δ) : Prop :=
  ∀ text, a = .printk text → s.consoleDevice ≠ none → ∀ s', step s a = some s' →
    s'.output = s'.messages

/-- The text and the null byte fit into what `printk` offers to `vsnprintf`. The message fits into
the rest of the buffer as long as there is no device, and a device is open, unless there is nothing
to write. -/
def FitsText (s : Log δ) (text : List Byte) : Prop :=
  text.length ≤ CONFIG_CONSOLEBUF_SIZE-2 ∧
    (s.consoleDevice = none → s.length+text.length ≤ CONFIG_CONSOLEBUF_SIZE) ∧
    ∀ d ∈ s.consoleDevice, (s.device d).refCount ≠ 0 ∨ text = [] ∧ s.length = 0

instance (s : Log δ) (text : List Byte) : Decidable (FitsText s text) :=
  inferInstanceAs (Decidable (_ ∧ _ ∧ _))

/-- What a call prints fits; if a new device becomes the console, this is what its `open` prints
when the driver cannot be initialised, and the count of its opens does not overflow. -/
def Fits [DecidableEq δ] (s : Log δ) : Call δ → Prop
  | .printk text => FitsText s text
  | .consoleSetDevice found r => ∀ d ∈ found,
      (InitFails ((s.redirect d r).device d) r → FitsText (s.redirect d r)
        (bytesOf (World.initFailure ((s.redirect d r).device d).name r.driverInit))) ∧
      (((s.redirect d r).device d).deviceOpen r (OFLAG_RDWR ||| FLAG_STREAM)).isSome = true

instance [DecidableEq δ] (s : Log δ) : (a : Call δ) → Decidable (Fits s a)
  | .printk text => inferInstanceAs (Decidable (FitsText s text))
  | .consoleSetDevice found r => inferInstanceAs (Decidable (∀ d ∈ found,
      (InitFails ((s.redirect d r).device d) r → FitsText (s.redirect d r)
        (bytesOf (World.initFailure ((s.redirect d r).device d).name r.driverInit))) ∧
      (((s.redirect d r).device d).deviceOpen r (OFLAG_RDWR ||| FLAG_STREAM)).isSome = true))

/-- Before the first call. -/
structure Start (s : Log δ) : Prop where
  device : s.consoleDevice = none
  length : s.length = 0
  writes : s.writes = []
  texts : s.texts = []

/-- The bytes of a call: the length that `printk` computes is 255 for a text that does not fit,
and counts the null byte then. -/
def emitted (text : List Byte) : List Byte :=
  if text.length ≤ CONFIG_CONSOLEBUF_SIZE-2 then text else stored text++[0]

section printk

variable {s s' : Log δ} {text : List Byte}

theorem length_stored (h : ¬text.length ≤ CONFIG_CONSOLEBUF_SIZE-2) : (stored text).length = 254 := by
  rw [stored,List.length_take]
  exact Nat.min_eq_left (Nat.le_of_not_le h)

theorem stored_eq (h : text.length ≤ CONFIG_CONSOLEBUF_SIZE-2) : stored text = text :=
  List.take_of_length_le h

theorem length_emitted (h : ¬text.length ≤ CONFIG_CONSOLEBUF_SIZE-2) :
    (emitted text).length = (stored text).length+1 := by
  rw [emitted,if_neg h,List.length_append,List.length_singleton]

/-- The length that `printk` computes is that of the bytes. -/
theorem outputLength_eq (size : ℕ) (text : List Byte) :
    outputLength (vsnprintf size text).2 = (emitted text).length := by
  have hresult : (vsnprintf size text).2.toNat = if text.length < 2^31 then text.length else 2^32-1 := by
    simp only [vsnprintf]
    split_ifs with hint
    · rw [BitVec.toNat_ofNat,Nat.mod_eq_of_lt (by omega)]
    · rfl
  rw [outputLength,hresult]
  by_cases h : text.length ≤ CONFIG_CONSOLEBUF_SIZE-2
  · rw [emitted,if_pos h]
    unfold CONFIG_CONSOLEBUF_SIZE at *
    split_ifs <;> omega
  · rw [length_emitted h,length_stored h]
    unfold CONFIG_CONSOLEBUF_SIZE at *
    split_ifs <;> omega

theorem read_vsnprintf (buf : ℕ → Byte) (text : List Byte) :
    read (CellBuffers.write buf 0 (vsnprintf (CONFIG_CONSOLEBUF_SIZE-1) text).1) 0
      (emitted text).length = emitted text := by
  have hbytes : (vsnprintf (CONFIG_CONSOLEBUF_SIZE-1) text).1 = stored text++[0] := rfl
  rw [hbytes]
  by_cases h : text.length ≤ CONFIG_CONSOLEBUF_SIZE-2
  · rw [emitted,if_pos h,stored_eq h,write_append,read_write_apart (by omega)]
    exact read_write
  · rw [emitted,if_neg h]
    exact read_write

/-- What a call does that finds no device. -/
theorem printk_none (hd : s.consoleDevice = none)
    (hle : s.length+(emitted text).length ≤ CONFIG_CONSOLEBUF_SIZE) : ∃ s', printk s text = some s' ∧
      s'.length = s.length+(emitted text).length ∧ s'.output = s.output ∧
      s'.texts = s.texts++[text] ∧
      s'.logBuf = CellBuffers.write s.logBuf s.length (emitted text) := by
  simp only [printk,hd,outputLength_eq,read_vsnprintf,if_neg (Nat.not_lt.mpr hle)]
  exact ⟨_,rfl,rfl,rfl,rfl,rfl⟩

theorem printk_overrun (hd : s.consoleDevice = none)
    (hlt : CONFIG_CONSOLEBUF_SIZE < s.length+(emitted text).length) : printk s text = none := by
  simp only [printk,hd,outputLength_eq,if_pos hlt]

/-- What a device gets of the bytes that are written to it. -/
def Log.accepted (s : Log δ) (d : δ) (bytes : List Byte) : List Byte :=
  if (s.device d).refCount = 0 then [] else bytes

/-- What a call does that finds one. -/
theorem printk_some {d : δ} (hd : s.consoleDevice = some d) (text : List Byte) :
    ∃ s', printk s text = some s' ∧ s'.length = 0 ∧
      s'.output = s.output++s.accepted d (read s.logBuf 0 s.length++emitted text) ∧
      s'.texts = s.texts++[text] := by
  simp only [printk,hd,outputLength_eq]
  refine ⟨_,rfl,?_⟩
  unfold Log.write Log.accepted
  split_ifs <;> simp_all [Log.output,read_vsnprintf]

theorem messages_append (h : s'.texts = s.texts++[text]) :
    s'.messages = s.messages++stored text := by
  simp [Log.messages,h]

theorem emitted_eq_stored : emitted text = stored text ↔ text.length ≤ CONFIG_CONSOLEBUF_SIZE-2 := by
  by_cases h : text.length ≤ CONFIG_CONSOLEBUF_SIZE-2
  · rw [emitted,if_pos h,stored_eq h]
    exact iff_of_true rfl h
  · refine iff_of_false (fun heq => ?_) h
    have := length_emitted h
    rw [heq] at this
    omega

theorem stored_eq_nil : stored text = [] ↔ text = [] := by
  rw [stored,List.take_eq_nil_iff]
  exact or_iff_right (by decide)

/-- In a complete log one call is complete again just if its text fits. -/
theorem Complete.printk_iff (H : Complete s) (text : List Byte) :
    (∃ s', printk s text = some s' ∧ Complete s') ↔ FitsText s text := by
  unfold FitsText
  cases hd : s.consoleDevice with
  | none =>
      simp only [true_implies,Option.not_mem_none,false_implies,implies_true,and_true]
      by_cases hle : s.length+(emitted text).length ≤ CONFIG_CONSOLEBUF_SIZE
      · obtain ⟨s',hs',hlength,houtput,htexts,hbuf⟩ := printk_none hd hle
        have hkept : s'.output++read s'.logBuf 0 s'.length = s.messages++emitted text := by
          rw [houtput,hbuf,hlength,read_add,read_write_apart (.inl (by omega)),Nat.zero_add,
            read_write,← List.append_assoc,H.kept]
        have hcomplete : Complete s' ↔ text.length ≤ CONFIG_CONSOLEBUF_SIZE-2 := by
          rw [← emitted_eq_stored,← List.append_cancel_left_eq s.messages,← hkept,
            ← messages_append htexts]
          exact ⟨fun C => C.kept,fun C => ⟨hlength.trans_le hle,C⟩⟩
        simp only [hs',Option.some.injEq,exists_eq_left',hcomplete]
        refine (and_iff_left_of_imp fun h => ?_).symm
        rwa [emitted,if_pos h] at hle
      · rw [printk_overrun hd (Nat.not_le.mp hle)]
        refine iff_of_false (fun ⟨_,hs',_⟩ => by cases hs') fun ⟨h,hfits⟩ => hle ?_
        rwa [emitted,if_pos h]
  | some d =>
      obtain ⟨s',hs',hlength,houtput,htexts⟩ := printk_some hd text
      simp only [hs',Option.some.injEq,exists_eq_left',reduceCtorEq,false_implies,true_and,
        Option.mem_some_iff,forall_eq']
      have hcomplete : Complete s' ↔
          s.accepted d (read s.logBuf 0 s.length++emitted text) =
            read s.logBuf 0 s.length++stored text := by
        rw [← List.append_cancel_left_eq s.output,← houtput,← List.append_assoc,H.kept,
          ← messages_append htexts]
        constructor
        · intro C
          simpa only [hlength,read_zero,List.append_nil] using C.kept
        · intro C
          exact ⟨by rw [hlength]; exact Nat.zero_le _,by rw [hlength,read_zero,List.append_nil,C]⟩
      rw [hcomplete,Log.accepted]
      split_ifs with hclosed
      · -- a device that is closed takes nothing, so there must be nothing to write
        rw [eq_comm,List.append_eq_nil_iff,stored_eq_nil,← List.length_eq_zero_iff,length_read]
        simp only [hclosed,ne_eq,not_true_eq_false,false_or]
        constructor
        · rintro ⟨hlength,rfl⟩
          exact ⟨by decide,rfl,hlength⟩
        · rintro ⟨-,htext,hlength⟩
          exact ⟨hlength,htext⟩
      · rw [List.append_cancel_left_eq,emitted_eq_stored]
        simp only [ne_eq,hclosed,not_false_eq_true,true_or,and_true]

end printk

section run

variable [DecidableEq δ] {s s' : Log δ}

omit [DecidableEq δ] in
theorem Start.complete (H : Start s) : Complete s := by
  constructor
  · rw [H.length]
    exact Nat.zero_le _
  · simp [Log.output,Log.messages,H.length,H.writes,H.texts]

omit [DecidableEq δ] in
/-- Only the devices and the choice of the console have changed. -/
theorem complete_congr (hlength : s'.length = s.length) (hbuf : s'.logBuf = s.logBuf)
    (hwrites : s'.writes = s.writes) (htexts : s'.texts = s.texts) : Complete s' ↔ Complete s := by
  have hkept : (s'.output++read s'.logBuf 0 s'.length = s'.messages) =
      (s.output++read s.logBuf 0 s.length = s.messages) := by
    simp only [Log.output,Log.messages,hlength,hbuf,hwrites,htexts]
  constructor
  · exact fun C => ⟨hlength ▸ C.bounded,hkept ▸ C.kept⟩
  · exact fun C => ⟨hlength.symm ▸ C.bounded,hkept ▸ C.kept⟩

theorem Complete.redirect (H : Complete s) (d : δ) (r : Driver) : Complete (s.redirect d r) := by
  refine (complete_congr ?_ ?_ ?_ ?_).mpr H
  all_goals
    unfold Log.redirect
    split <;> rfl

/-- What `open` does to the log is what it prints. -/
theorem Complete.openDevice_iff (H : Complete s) (d : δ) (r : Driver) :
    (∃ s', s.openDevice d r = some s' ∧ Complete s') ↔
      (InitFails (s.device d) r →
        FitsText s (bytesOf (World.initFailure (s.device d).name r.driverInit))) ∧
      ((s.device d).deviceOpen r (OFLAG_RDWR ||| FLAG_STREAM)).isSome = true := by
  have hset : ∀ (u : Log δ) w, Complete (u.setDevice d w) ↔ Complete u :=
    fun u w => complete_congr rfl rfl rfl rfl
  cases hopen : (s.device d).deviceOpen r (OFLAG_RDWR ||| FLAG_STREAM) with
  | none =>
      refine iff_of_false (fun ⟨s',hs',_⟩ => ?_) fun h => absurd h.2 (by simp)
      simp only [Log.openDevice,hopen,Option.bind_eq_bind,Option.bind_none,Option.bind_fun_none,
        ite_self] at hs'
      cases hs'
  | some w =>
      simp only [Log.openDevice,hopen,Option.bind_eq_bind,Option.bind_some]
      by_cases hinit : InitFails (s.device d) r
      · rw [if_pos hinit]
        simp only [hinit,true_implies,Option.isSome_some,and_true,← H.printk_iff]
        constructor
        · rintro ⟨s',hs',C⟩
          obtain ⟨u,hu,hs'⟩ := Option.bind_eq_some_iff.mp hs'
          obtain rfl := Option.some.inj hs'
          exact ⟨u,hu,(hset u _).mp C⟩
        · rintro ⟨u,hu,C⟩
          rw [hu]
          exact ⟨_,rfl,(hset u _).mpr C⟩
      · rw [if_neg hinit]
        refine iff_of_true ⟨_,rfl,(hset s _).mpr H⟩ ⟨fun h => absurd h hinit,rfl⟩

theorem Complete.step_iff (H : Complete s) (a : Call δ) :
    (∃ s', step s a = some s' ∧ Complete s') ↔ Fits s a := by
  cases a with
  | printk text => exact H.printk_iff text
  | consoleSetDevice found r =>
      cases found with
      | none =>
          refine iff_of_true ⟨s,rfl,H⟩ fun d hd => ?_
          cases hd
      | some d =>
          simp only [Fits,Option.mem_some_iff,forall_eq',← (H.redirect d r).openDevice_iff]
          constructor
          · rintro ⟨s',hs',C⟩
            obtain ⟨⟨u,old⟩,hu,rfl⟩ := Option.map_eq_some_iff.mp hs'
            obtain ⟨v,hv,heq⟩ := Option.bind_eq_some_iff.mp hu
            cases heq
            exact ⟨u,hv,C⟩
          · rintro ⟨u,hu,C⟩
            refine ⟨u,?_,C⟩
            simp [step,consoleSetDevice,hu]

/-- A call that is complete and has found a device has emptied the buffer. -/
theorem Complete.handsOver {a : Call δ} (h : ∀ s', step s a = some s' → Complete s') :
    HandsOver s a := by
  rintro text rfl hd s' hs'
  obtain ⟨d,hd⟩ := Option.ne_none_iff_exists'.mp hd
  have hkept := (h s' hs').kept
  obtain ⟨u,hu,hlength,-⟩ := printk_some hd text
  obtain rfl := Option.some.inj (hu.symm.trans hs')
  rw [hlength,read_zero,List.append_nil] at hkept
  exact hkept

/-- The log is complete and handed over in order, and no step faults, exactly when everything that
is printed is at most 254 bytes long, fits into the buffer together with what is in it as long as
there is no device, and finds the device open as soon as there is one. -/
theorem log_complete_iff (H : Start s) (as : List (Call δ)) :
    Always step Complete s as ∧ AllSteps step HandsOver s as ↔ AllSteps step Fits s as := by
  have hiff : Always step Complete s as ↔ AllSteps step Fits s as :=
    always_iff (G := fun _ _ => True) (fun _ h => h)
      (fun s a hs _ hfits => (hs.step_iff a).mpr hfits)
      (fun s a s' hs _ hfits hs' C => hfits ((hs.step_iff a).mp ⟨s',hs',C⟩)) H.complete
      (allSteps_of_forall (fun _ _ => trivial) s as)
  rw [hiff]
  refine and_iff_left_of_imp fun h => ?_
  have hrun : Throughout step Complete s as :=
    throughout_of_invariant (fun _ h => h) (fun s a s' hs hfits hs' => by
      obtain ⟨u,hu,C⟩ := (hs.step_iff a).mpr hfits
      exact Option.some.inj (hu.symm.trans hs') ▸ C) H.complete h
  exact hrun.allSteps.mono fun s a h => Complete.handsOver h.2

end run

/-- The static variables before the first call, and a serial line that nobody has opened. -/
def emptyLog : Log (Fin 1) where
  consoleDevice := none
  logBuf _ := 0
  length := 0
  cosLogBuf _ := 0
  device _ := .start zeroMemory ⟨"COM1",by decide⟩ 0
  writes := []
  texts := []

theorem emptyLog_start : Start emptyLog := ⟨rfl,rfl,rfl,rfl⟩

/-- Two messages, then a device is found, and two more. -/
def earlyMessages : List (Call (Fin 1)) :=
  [.printk [65,66],.printk [67],.consoleSetDevice none (closing ERR_OK),
    .consoleSetDevice (some 0) (closing ERR_OK),.printk [68],.printk [69]]

theorem log_complete_iff_earlyMessages :
    (earlyMessages.foldlM step emptyLog).map Log.output = some [65,66,67,68,69] ∧
      Always step Complete emptyLog earlyMessages ∧ AllSteps step HandsOver emptyLog earlyMessages :=
  ⟨by decide +kernel,(log_complete_iff emptyLog_start earlyMessages).mpr (by decide +kernel)⟩

/-- A driver that refuses to be opened. -/
def refusing : Driver := ⟨ERR_OK,-ERR_ERROR,ERR_OK,0,0⟩

/-- Two messages of 200 bytes do not fit into the buffer. Of a message of 255 bytes the null byte is
written to the device in place of the last one. And if the driver cannot be opened, all messages are
lost, those in the buffer as well. -/
theorem long_messages_fail : Start emptyLog ∧
    [.printk (List.replicate 200 65),.printk (List.replicate 200 66)].foldlM step emptyLog = none ∧
    ([.consoleSetDevice (some 0) (closing ERR_OK),.printk (List.replicate 255 65)].foldlM step
      emptyLog).map (fun s => (s.output,s.messages)) =
        some (List.replicate 254 65++[0],List.replicate 254 65) ∧
    ([.printk [65],.consoleSetDevice (some 0) refusing,.printk [66]].foldlM step emptyLog).map
      (fun s => (s.output,s.length,s.messages)) = some ([],0,[65,66]) := by
  refine ⟨emptyLog_start,by decide +kernel,?_,by decide +kernel⟩
  obtain ⟨s,hs,hd,hlength,hwrites,htexts,hopen⟩ : ∃ s, step emptyLog
      (.consoleSetDevice (some 0) (closing ERR_OK)) = some s ∧ s.consoleDevice = some 0 ∧
      s.length = 0 ∧ s.writes = [] ∧ s.texts = [] ∧ (s.device 0).refCount ≠ 0 :=
    ⟨_,rfl,rfl,rfl,rfl,rfl,by decide⟩
  obtain ⟨s',hs',-,houtput,htexts'⟩ := printk_some hd (List.replicate 255 65)
  have hrun : [.consoleSetDevice (some 0) (closing ERR_OK),
      .printk (List.replicate 255 65)].foldlM step emptyLog = some s' := by
    rw [List.foldlM_cons,hs,Option.bind_eq_bind,Option.bind_some,List.foldlM_cons,step,hs']
    rfl
  rw [hrun,Option.map_some,houtput,Log.messages,htexts',htexts,Log.output,hwrites,Log.accepted,
    if_neg hopen,hlength,read_zero]
  decide +kernel

end CosKernel.ConsoleLog

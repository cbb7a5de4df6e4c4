import CosKernel.KernelThreads
import CosKernel.RingBuffer
import CosKernel.TransitionRuns

/-!
# The receive buffers of the serial line and of the console

The interrupt handlers save what they receive in a ring, and `driver_read` takes it out of
there. The handler may come between two bytes of a read, and several reads may be going on,
so a read is cut into the rounds of its loop. The same rounds over a plain list say what the
ring is for: a queue of 255 bytes that discards the oldest one.
-/
namespace CosKernel

def ERR_EMPTY : ℤ := 4

namespace ReceiveRings
open RingBuffer TransitionRuns

abbrev Byte := BitVec 8

/-- `SERIAL_RX_BUFFER_SIZE` and `CONSOLE_RX_BUFFER_SIZE`. -/
def RX_BUFFER_SIZE : ℕ := 256

structure Receiver where
  rxBuffer : ℕ → Byte
  readIndex : ℕ
  saveIndex : ℕ

/-- The index after `i`. -/
def advance (i : ℕ) : ℕ := if RX_BUFFER_SIZE ≤ i+1 then 0 else i+1

/-- How the drivers use a buffer. -/
class ByteQueue (ρ : Type) where
  save : ρ → Byte → ρ
  take : ρ → Option (Byte × ρ)
  rxLength : ρ → ℕ

namespace Receiver

/-- The character is saved. If the next position is the read index, that one is discarded. -/
def save (r : Receiver) (c : Byte) : Receiver :=
  let r := {r with
    rxBuffer := Function.update r.rxBuffer r.saveIndex c, saveIndex := advance r.saveIndex}
  if r.saveIndex = r.readIndex then {r with readIndex := advance r.readIndex} else r

/-- The next character, if there is one. -/
def take (r : Receiver) : Option (Byte × Receiver) :=
  if r.readIndex ≠ r.saveIndex then
    some (r.rxBuffer r.readIndex,{r with readIndex := advance r.readIndex})
  else none

def rxLength (r : Receiver) : ℕ :=
  if r.saveIndex < r.readIndex then RX_BUFFER_SIZE-r.readIndex+r.saveIndex
  else r.saveIndex-r.readIndex

instance : ByteQueue Receiver := ⟨save,take,rxLength⟩

/-- The bytes from the read index up to the save index. -/
def unread (r : Receiver) : List Byte :=
  (List.range r.rxLength).map fun i => r.rxBuffer ((r.readIndex+i)%RX_BUFFER_SIZE)

end Receiver

/-- The ideal buffer: a full one loses its oldest byte. -/
structure Fifo where
  bytes : List Byte
  deriving DecidableEq, Repr

namespace Fifo

def save (q : Fifo) (c : Byte) : Fifo :=
  if q.bytes.length < RX_BUFFER_SIZE-1 then ⟨q.bytes++[c]⟩ else ⟨q.bytes.tail++[c]⟩

def take : Fifo → Option (Byte × Fifo)
  | ⟨[]⟩ => none
  | ⟨c::cs⟩ => some (c,⟨cs⟩)

instance : ByteQueue Fifo := ⟨save,take,fun q => q.bytes.length⟩

end Fifo

section model

variable {ρ κ : Type} [ByteQueue ρ]

/-- The loop of `driver_read`: the buffer, the bytes that were stored, and the error code. -/
def driverRead (q : ρ) : ℕ → ρ × List Byte × ℤ
  | 0 => (q,[],ERR_OK)
  | size+1 =>
      match ByteQueue.take q with
      | some (c,q) =>
          let (q,cs,e) := driverRead q size
          (q,c::cs,e)
      | none => (q,[],-ERR_EMPTY)

/-- `Serial::isr` with the character that was received. -/
def serialIsr (q : ρ) (c : Byte) : ρ := ByteQueue.save q c

/-- The loop of `Console::isr` with the results of `keyboard_getc`, which must not end before a
0 or a -1. -/
def consoleIsr (q : ρ) : List Byte → Option ρ
  | [] => none
  | c::cs =>
      if c = 0 ∨ c = -1 then some q
      else if 0 < c.toInt then consoleIsr (ByteQueue.save q c) cs
      else consoleIsr q cs

/-- A call of `driver_read` that is going on: the rest of the size, and what was stored. -/
structure Reading where
  size : ℕ
  stored : List Byte
  deriving DecidableEq, Repr

/-- A call that has returned: its result, what was stored, and the error code. -/
structure Result where
  count : ℕ
  stored : List Byte
  error : ℤ
  deriving DecidableEq, Repr

/-- A device with the calls `κ`, whether `rx_indicate_` is set, and the values with which it was
called. -/
structure World (ρ κ : Type) where
  queue : ρ
  rxIndicate : Bool
  reading : κ → Option Reading
  results : List Result
  indicated : List ℕ

inductive Step (κ : Type) where
  | serialIsr (c : Byte)
  | consoleIsr (cs : List Byte)
  | read (k : κ) (size : ℕ)
  | round (k : κ)
  | setRxIndicate (isSet : Bool)
  deriving DecidableEq, Repr

variable [DecidableEq κ]

def World.finish (w : World ρ κ) (k : κ) (cs : List Byte) (e : ℤ) : World ρ κ :=
  {w with
    reading := Function.update w.reading k none
    results := ⟨cs.length,cs,e⟩::w.results}

/-- One round of the loop of `driver_read`, or its end. -/
def World.round (w : World ρ κ) (k : κ) (x : Reading) : World ρ κ :=
  if x.size = 0 then w.finish k x.stored ERR_OK
  else
    match ByteQueue.take w.queue with
    | some (c,q) =>
        {w with
          queue := q
          reading := Function.update w.reading k (some ⟨x.size-1,x.stored++[c]⟩)}
    | none => w.finish k x.stored (-ERR_EMPTY)

/-- The end of `Console::isr`, which calls the callback if there is one. -/
def World.indicate (w : World ρ κ) (q : ρ) : World ρ κ :=
  let w := {w with queue := q}
  let rxLength := ByteQueue.rxLength q
  if w.rxIndicate = true ∧ 0 < rxLength then {w with indicated := rxLength::w.indicated} else w

def step (w : World ρ κ) : Step κ → Option (World ρ κ)
  | .serialIsr c => some {w with queue := ReceiveRings.serialIsr w.queue c}
  | .consoleIsr cs => (ReceiveRings.consoleIsr w.queue cs).map w.indicate
  | .read k size =>
      match w.reading k with
      | none => some {w with reading := Function.update w.reading k (some ⟨size,[]⟩)}
      | some _ => none
  | .round k => (w.reading k).map (w.round k)
  | .setRxIndicate isSet => some {w with rxIndicate := isSet}

end model

/-- The ring stands for the bytes of the ideal buffer. -/
structure Holds (r : Receiver) (q : Fifo) : Prop where
  ring : Ring RX_BUFFER_SIZE r.rxBuffer r.readIndex q.bytes
  length : q.bytes.length ≤ RX_BUFFER_SIZE-1
  saveIndex : r.saveIndex = (r.readIndex+q.bytes.length)%RX_BUFFER_SIZE

theorem advance_eq {i : ℕ} (h : i < RX_BUFFER_SIZE) : advance i = (i+1)%RX_BUFFER_SIZE := by
  unfold advance RX_BUFFER_SIZE at *
  split_ifs <;> omega

section holds

variable {r : Receiver} {q : Fifo}

theorem Holds.saveIndex_lt (H : Holds r q) : r.saveIndex < RX_BUFFER_SIZE := by
  rw [H.saveIndex]
  exact Nat.mod_lt _ (by decide)

theorem Holds.rxLength (H : Holds r q) : r.rxLength = q.bytes.length := by
  have hout := H.ring.out_lt
  have hlength := H.length
  have hsave := H.saveIndex
  unfold Receiver.rxLength RX_BUFFER_SIZE at *
  split_ifs <;> omega

theorem Holds.unread (H : Holds r q) : r.unread = q.bytes := by
  apply List.ext_getElem?
  intro i
  rw [Receiver.unread,H.rxLength]
  by_cases hi : i < q.bytes.length
  · have hcell := H.ring.cells i _ (List.getElem?_eq_getElem hi)
    simp [hi,hcell]
  · simp [hi]

/-- Without unread bytes the indices are equal, and only then. -/
theorem Holds.indices_eq_iff (H : Holds r q) : r.readIndex = r.saveIndex ↔ q.bytes = [] := by
  have hout := H.ring.out_lt
  have hlength := H.length
  have hsave := H.saveIndex
  rw [← List.length_eq_zero_iff]
  unfold RX_BUFFER_SIZE at *
  omega

theorem Holds.save (H : Holds r q) (c : Byte) : Holds (r.save c) (q.save c) := by
  have hout := H.ring.out_lt
  have hlength := H.length
  have hsave := H.saveIndex
  have hlt : q.bytes.length < RX_BUFFER_SIZE := by
    unfold RX_BUFFER_SIZE at *
    omega
  have hpush := H.ring.push hlt c
  rw [← hsave] at hpush
  have hnext : advance r.saveIndex = (r.readIndex+(q.bytes.length+1))%RX_BUFFER_SIZE := by
    rw [advance_eq H.saveIndex_lt,hsave,Nat.mod_add_mod,Nat.add_assoc]
  unfold Receiver.save Fifo.save
  simp only
  by_cases hroom : q.bytes.length < RX_BUFFER_SIZE-1
  · have hne : advance r.saveIndex ≠ r.readIndex := by
      rw [hnext]
      unfold RX_BUFFER_SIZE at *
      omega
    rw [if_neg hne,if_pos hroom]
    refine ⟨hpush,?_,?_⟩
    · rw [List.length_append,List.length_singleton]
      exact hroom
    · rw [List.length_append,List.length_singleton]
      exact hnext
  · -- The buffer is full: the oldest byte makes room for the new one.
    have heq : advance r.saveIndex = r.readIndex := by
      rw [hnext]
      unfold RX_BUFFER_SIZE at *
      omega
    rw [if_pos heq,if_neg hroom]
    cases hq : q.bytes with
    | nil =>
        rw [hq] at hroom
        exact absurd (by decide) hroom
    | cons x xs =>
        rw [hq] at hpush hlength hroom
        simp only [List.length_cons] at hlength hroom
        refine ⟨?_,?_,?_⟩
        · rw [advance_eq hout]
          exact Ring.pop (x := x) hpush
        · simp only [List.tail_cons,List.length_append,List.length_singleton]
          exact hlength
        · simp only [List.tail_cons,List.length_append,List.length_singleton]
          rw [heq,advance_eq hout]
          unfold RX_BUFFER_SIZE at *
          omega

/-- Both buffers give the same byte, or none. -/
theorem Holds.take (H : Holds r q) :
    ByteQueue.take r = none ∧ ByteQueue.take q = none ∨ ∃ c r' q', ByteQueue.take r = some (c,r') ∧
      ByteQueue.take q = some (c,q') ∧ Holds r' q' := by
  have htake : ByteQueue.take r = r.take := rfl
  rw [htake]
  obtain ⟨bytes⟩ := q
  cases bytes with
  | nil =>
      have heq := H.indices_eq_iff.mpr rfl
      rw [Receiver.take,if_neg (not_not.mpr heq)]
      exact .inl ⟨rfl,rfl⟩
  | cons x xs =>
      have hne : r.readIndex ≠ r.saveIndex := fun h => List.cons_ne_nil x xs (H.indices_eq_iff.mp h)
      have hlength := H.length
      have hsave := H.saveIndex
      rw [Receiver.take,if_pos hne]
      rw [H.ring.first]
      refine .inr ⟨x,_,⟨xs⟩,rfl,rfl,?_,?_,?_⟩
      · simp only
        rw [advance_eq H.ring.out_lt]
        exact H.ring.pop
      · simp only [List.length_cons] at hlength ⊢
        omega
      · simp only [List.length_cons] at hsave ⊢
        rw [hsave,advance_eq H.ring.out_lt,Nat.mod_add_mod,Nat.add_assoc,Nat.add_comm 1]

end holds

section ideal

variable {q : Fifo}

/-- The ideal buffer keeps the most recent bytes. -/
theorem Fifo.bytes_foldl (h : q.bytes.length ≤ RX_BUFFER_SIZE-1) (cs : List Byte) :
    (cs.foldl serialIsr q).bytes =
      (q.bytes++cs).drop ((q.bytes++cs).length-(RX_BUFFER_SIZE-1)) := by
  induction cs generalizing q with
  | nil => simp [Nat.sub_eq_zero_of_le h]
  | cons c cs ih =>
      have hsave : serialIsr q c = q.save c := rfl
      rw [List.foldl_cons,hsave]
      by_cases hroom : q.bytes.length < RX_BUFFER_SIZE-1
      · rw [Fifo.save,if_pos hroom,ih (by simpa using hroom)]
        simp
      · cases hq : q.bytes with
        | nil =>
            rw [hq] at hroom
            exact absurd (by decide) hroom
        | cons x xs =>
            rw [Fifo.save,if_neg hroom,hq,List.tail_cons]
            rw [hq,List.length_cons] at h hroom
            rw [ih (by simp only [List.length_append,List.length_singleton]; omega)]
            have hdrop : (x::xs++c::cs).length-(RX_BUFFER_SIZE-1) =
                (xs++[c]++cs).length-(RX_BUFFER_SIZE-1)+1 := by
              simp only [List.length_append,List.length_cons,List.length_nil]
              omega
            rw [hdrop]
            simp

theorem Fifo.driverRead_eq (q : Fifo) (size : ℕ) :
    (driverRead q size).1 = ⟨q.bytes.drop size⟩ ∧
      (driverRead q size).2.1 = q.bytes.take size := by
  induction size generalizing q with
  | zero => exact ⟨rfl,rfl⟩
  | succ size ih =>
      obtain ⟨bytes⟩ := q
      cases bytes with
      | nil => exact ⟨rfl,rfl⟩
      | cons c cs =>
          obtain ⟨h₁,h₂⟩ := ih ⟨cs⟩
          exact ⟨h₁,congrArg (c :: ·) h₂⟩

end ideal

section simulation

variable {r : Receiver} {q : Fifo} {κ : Type}

theorem Holds.foldl (H : Holds r q) (cs : List Byte) :
    Holds (cs.foldl serialIsr r) (cs.foldl serialIsr q) := by
  induction cs generalizing r q with
  | nil => exact H
  | cons c cs ih => exact ih (H.save c)

theorem Holds.driverRead (H : Holds r q) (size : ℕ) :
    Holds (driverRead r size).1 (driverRead q size).1 ∧
      (ReceiveRings.driverRead r size).2 = (ReceiveRings.driverRead q size).2 := by
  induction size generalizing r q with
  | zero => exact ⟨H,rfl⟩
  | succ size ih =>
      unfold ReceiveRings.driverRead
      obtain ⟨hr,hq⟩ | ⟨c,r',q',hr,hq,H'⟩ := H.take
      · rw [hr,hq]
        exact ⟨H,rfl⟩
      · rw [hr,hq]
        obtain ⟨h₁,h₂⟩ := ih H'
        exact ⟨h₁,by simp only [h₂]⟩

theorem Holds.consoleIsr (H : Holds r q) (cs : List Byte) :
    consoleIsr r cs = none ∧ ReceiveRings.consoleIsr q cs = none ∨
      ∃ r' q', ReceiveRings.consoleIsr r cs = some r' ∧ ReceiveRings.consoleIsr q cs = some q' ∧
        Holds r' q' := by
  induction cs generalizing r q with
  | nil => exact .inl ⟨rfl,rfl⟩
  | cons c cs ih =>
      unfold ReceiveRings.consoleIsr
      split_ifs
      · exact .inr ⟨r,q,rfl,rfl,H⟩
      · exact ih (H.save c)
      · exact ih H

/-- The two devices look the same from outside. -/
structure Simulates (w : World Receiver κ) (v : World Fifo κ) : Prop where
  queue : Holds w.queue v.queue
  rxIndicate : w.rxIndicate = v.rxIndicate
  reading : w.reading = v.reading
  results : w.results = v.results
  indicated : w.indicated = v.indicated

variable {w : World Receiver κ} {v : World Fifo κ}

theorem Simulates.indicate (H : Simulates w v) (hq : Holds r q) :
    Simulates (w.indicate r) (v.indicate q) := by
  have hlength : ByteQueue.rxLength r = ByteQueue.rxLength q := hq.rxLength
  unfold World.indicate
  simp only [hlength,H.rxIndicate]
  split_ifs
  · exact ⟨hq,rfl,H.reading,H.results,by simp only [H.indicated]⟩
  · exact ⟨hq,rfl,H.reading,H.results,H.indicated⟩

variable [DecidableEq κ]

theorem Simulates.finish (H : Simulates w v) (k : κ) (cs : List Byte) (e : ℤ) :
    Simulates (w.finish k cs e) (v.finish k cs e) := by
  refine ⟨H.queue,H.rxIndicate,?_,?_,H.indicated⟩
  · simp only [World.finish,H.reading]
  · simp only [World.finish,H.results]

theorem Simulates.round (H : Simulates w v) (k : κ) (x : Reading) :
    Simulates (w.round k x) (v.round k x) := by
  unfold World.round
  split_ifs
  · exact H.finish k x.stored ERR_OK
  · obtain ⟨hr,hq⟩ | ⟨c,r',q',hr,hq,H'⟩ := H.queue.take
    · rw [hr,hq]
      exact H.finish k x.stored (-ERR_EMPTY)
    · rw [hr,hq]
      exact ⟨H',H.rxIndicate,by simp only [H.reading],H.results,H.indicated⟩

theorem Simulates.step (H : Simulates w v) (a : Step κ) :
    step w a = none ∧ ReceiveRings.step v a = none ∨
      ∃ w' v', ReceiveRings.step w a = some w' ∧ ReceiveRings.step v a = some v' ∧
        Simulates w' v' := by
  cases a with
  | serialIsr c =>
      exact .inr ⟨_,_,rfl,rfl,H.queue.save c,H.rxIndicate,H.reading,H.results,H.indicated⟩
  | consoleIsr cs =>
      simp only [ReceiveRings.step]
      obtain ⟨hr,hq⟩ | ⟨r',q',hr,hq,H'⟩ := H.queue.consoleIsr cs
      · rw [hr,hq]
        exact .inl ⟨rfl,rfl⟩
      · rw [hr,hq]
        exact .inr ⟨_,_,rfl,rfl,H.indicate H'⟩
  | read k size =>
      simp only [ReceiveRings.step,H.reading]
      cases hk : v.reading k with
      | none => exact .inr ⟨_,_,rfl,rfl,H.queue,H.rxIndicate,rfl,H.results,H.indicated⟩
      | some x => exact .inl ⟨rfl,rfl⟩
  | round k =>
      simp only [ReceiveRings.step,H.reading]
      cases hk : v.reading k with
      | none => exact .inl ⟨rfl,rfl⟩
      | some x => exact .inr ⟨_,_,rfl,rfl,H.round k x⟩
  | setRxIndicate isSet => exact .inr ⟨_,_,rfl,rfl,H.queue,rfl,H.reading,H.results,H.indicated⟩

end simulation

/-- In every state the indices are inside the buffer. The unread bytes are the most recent ones,
as far as there is room for them, `driver_read` takes the first of them, and `rx_length` is their
number. -/
structure Sound {κ : Type} (w : World Receiver κ) : Prop where
  readIndex : w.queue.readIndex < RX_BUFFER_SIZE
  saveIndex : w.queue.saveIndex < RX_BUFFER_SIZE
  recent : ∀ cs : List Byte, (cs.foldl serialIsr w.queue).unread =
    (w.queue.unread++cs).drop ((w.queue.unread++cs).length-(RX_BUFFER_SIZE-1))
  read : ∀ size, (driverRead w.queue size).1.unread = w.queue.unread.drop size ∧
    (driverRead w.queue size).2.1 = w.queue.unread.take size
  rxLength : w.queue.rxLength = w.queue.unread.length

/-- The same device with an ideal buffer, which is empty. -/
def World.ideal {κ : Type} (w : World Receiver κ) : World Fifo κ :=
  ⟨⟨[]⟩,w.rxIndicate,w.reading,w.results,w.indicated⟩

section run

variable {κ : Type} {w : World Receiver κ} {v : World Fifo κ}

theorem Simulates.sound (H : Simulates w v) : Sound w where
  readIndex := H.queue.ring.out_lt
  saveIndex := H.queue.saveIndex_lt
  recent cs := by
    rw [(H.queue.foldl cs).unread,H.queue.unread]
    exact Fifo.bytes_foldl H.queue.length cs
  read size := by
    obtain ⟨hqueue,hresult⟩ := H.queue.driverRead size
    obtain ⟨hdrop,htake⟩ := v.queue.driverRead_eq size
    rw [hqueue.unread,hresult,hdrop,htake,H.queue.unread]
    exact ⟨rfl,rfl⟩
  rxLength := by
    rw [H.queue.unread]
    exact H.queue.rxLength

theorem simulates_ideal (hindex : w.queue.readIndex = w.queue.saveIndex)
    (hlt : w.queue.readIndex < RX_BUFFER_SIZE) : Simulates w w.ideal := by
  refine ⟨⟨.empty hlt,Nat.zero_le _,?_⟩,rfl,rfl,rfl,rfl⟩
  rw [← hindex]
  exact (Nat.mod_eq_of_lt hlt).symm

variable [DecidableEq κ]

/-- However interrupts and reads interleave, the receive buffer is a queue of 255 bytes that
discards the oldest one when it is full. -/
theorem receive_buffer_is_fifo (hindex : w.queue.readIndex = w.queue.saveIndex)
    (hlt : w.queue.readIndex < RX_BUFFER_SIZE) (as : List (Step κ)) :
    Throughout step Sound w as ∧
      (as.foldlM step w).map (fun w => (w.queue.unread,w.reading,w.results,w.indicated)) =
        (as.foldlM step w.ideal).map fun v => (v.queue.bytes,v.reading,v.results,v.indicated) := by
  have hsim := simulates_ideal hindex hlt
  constructor
  · refine throughout_of_step (I := fun w => ∃ v, Simulates w v) (fun w ⟨v,H⟩ => H.sound) ?_ as
      ⟨_,hsim⟩
    rintro w a w' ⟨v,H⟩ hs
    obtain ⟨hnone,-⟩ | ⟨u,v',hu,-,H'⟩ := H.step a
    · rw [hnone] at hs
      cases hs
    · exact ⟨v',Option.some.inj (hu.symm.trans hs) ▸ H'⟩
  · obtain ⟨hw,hv⟩ | ⟨w',v',hw,hv,H⟩ := lockstep_run (fun w v a H => Simulates.step H a) hsim as
    · rw [hw,hv]
      rfl
    · rw [hw,hv,Option.map_some,Option.map_some,H.queue.unread,H.reading,H.results,H.indicated]

end run

/-- An empty buffer whose indices are at the end. -/
def quiet : World Receiver (Fin 2) := ⟨⟨fun _ => 0,254,254⟩,false,fun _ => none,[],[]⟩

/-- The keyboard delivers three characters and the line two, and a byte arrives while two reads
are going on. -/
def interleaved : List (Step (Fin 2)) :=
  [.setRxIndicate true,.consoleIsr [1,2,3,0],.serialIsr 4,.serialIsr 5,.read 0 2,.round 0,
    .read 1 4,.round 1,.serialIsr 6,.round 0,.round 0,.round 1,.round 1,.round 1,.round 1]

theorem receive_buffer_is_fifo_interleaved :
    ((interleaved.foldlM step quiet).map fun w => (w.results,w.indicated)) =
        some ([⟨4,[2,4,5,6],ERR_OK⟩,⟨2,[1,3],ERR_OK⟩],[3]) ∧
      Throughout step Sound quiet interleaved :=
  ⟨by decide +kernel,(receive_buffer_is_fifo rfl (by decide) interleaved).1⟩

end ReceiveRings

end CosKernel

import CosKernel.TransitionRuns
import Mathlib

/-!
# The modifiers of the keyboard

`keyboard_getc` keeps the modifiers in the bits of one word. A key that goes down sets its bit
or toggles it, a key that comes up clears its bit. Both shift keys have the same bit. A table
lookup out of range is a fault.
-/
namespace CosKernel.KeyboardModifiers
open TransitionRuns

def SHIFT : BitVec 8 := 1 <<< 0
def CTL : BitVec 8 := 1 <<< 1
def ALT : BitVec 8 := 1 <<< 2
def CAPSLOCK : BitVec 8 := 1 <<< 3
def NUMLOCK : BitVec 8 := 1 <<< 4
def SCROLLOCK : BitVec 8 := 1 <<< 5

def shiftcode : List (BitVec 8) :=
  ((((List.replicate 256 0).set 29 CTL).set 42 SHIFT).set 54 SHIFT).set 56 ALT

def togglecode : List (BitVec 8) :=
  (((List.replicate 256 0).set 58 CAPSLOCK).set 69 NUMLOCK).set 70 SCROLLOCK

/-- The characters that a table starts with; the others are `NO`. -/
def table (cs : List Char) : List (BitVec 8) :=
  cs.map (fun c => BitVec.ofNat 8 c.toNat)++List.replicate (256-cs.length) 0

def NO : Char := '\x00'

def normalmap : List (BitVec 8) := table
  [NO,'\x1b','1','2','3','4','5','6',
    '7','8','9','0','-','=','\x08','\x09',
    'q','w','e','r','t','y','u','i',
    'o','p','[',']','\x0a',NO,'a','s',
    'd','f','g','h','j','k','l',';',
    '\x27','\x60',NO,'\x5c','z','x','c','v',
    'b','n','m',',','.','/',NO,'*',
    NO,' ',NO,NO,NO,NO,NO,NO,
    NO,NO,NO,NO,NO,NO,NO,'7',
    '8','9','-','4','5','6','+','1',
    '2','3','0','.']

def shiftmap : List (BitVec 8) := table
  [NO,'\x1b','!','@','#','$','%','^',
    '&','*','(',')','_','+','\x08','\x09',
    'Q','W','E','R','T','Y','U','I',
    'O','P','\x7b','\x7d','\x0a',NO,'A','S',
    'D','F','G','H','J','K','L',';',
    '\x22','~',NO,'|','Z','X','C','V',
    'B','N','M','<','>','?',NO,'*',
    NO,' ',NO,NO,NO,NO,NO,NO,
    NO,NO,NO,NO,NO,NO,NO,'7',
    '8','9','-','4','5','6','+','1',
    '2','3','0','.']

/-- The key together with control; below `@` the difference is negative. -/
def C (c : Char) : Char := Char.ofNat ((256+c.toNat-64)%256)

def ctlmap : List (BitVec 8) := table
  [NO,NO,NO,NO,NO,NO,NO,NO,
    NO,NO,NO,NO,NO,NO,NO,NO,
    C 'Q',C 'W',C 'E',C 'R',C 'T',C 'Y',C 'U',C 'I',
    C 'O',C 'P',NO,NO,'\x0d',NO,C 'A',C 'S',
    C 'D',C 'F',C 'G',C 'H',C 'J',C 'K',C 'L',NO,
    NO,NO,NO,C '\x5c',C 'Z',C 'X',C 'C',C 'V',
    C 'B',C 'N',C 'M',NO,NO,C '/',NO,NO]

def charcode : List (List (BitVec 8)) := [normalmap,shiftmap,ctlmap,ctlmap]

/-- With caps lock the case of a letter is changed. -/
def cased (shift : BitVec 32) (c : ℤ) : ℤ :=
  if shift &&& CAPSLOCK.setWidth 32 ≠ 0 then
    if 97 ≤ c ∧ c ≤ 122 then c+(65-97)
    else if 65 ≤ c ∧ c ≤ 90 then c+(97-65)
    else c
  else c

/-- The byte is the one in the buffer of the controller, if it has one. The next value of the
static variable `shift` comes with the character. -/
def keyboardGetc (shift : BitVec 32) : Option (BitVec 8) → Option (BitVec 32 × BitVec 8)
  | none => some (shift,-1)
  | some data =>
      if data &&& 0x80 ≠ 0 then do
        let code ← shiftcode[(data &&& ~~~0x80).toNat]?
        some (shift &&& ~~~(code.setWidth 32),0)
      else do
        let code ← shiftcode[data.toNat]?
        let toggle ← togglecode[data.toNat]?
        let shift := (shift ||| code.setWidth 32) ^^^ toggle.setWidth 32
        let map ← charcode[(shift &&& (CTL ||| SHIFT).setWidth 32).toNat]?
        let c ← map[data.toNat]?
        some (shift,BitVec.ofInt 8 (cased shift c.toInt))

/-- The keys as they are: which are held down, and how often caps lock went down. -/
structure Keys where
  held : ℕ → Bool
  capsPresses : ℕ

def Keys.next (q : Keys) (data : BitVec 8) : Keys :=
  if data.toNat < 128 then
    ⟨Function.update q.held data.toNat true,if data = 58 then q.capsPresses+1 else q.capsPresses⟩
  else ⟨Function.update q.held (data.toNat-128) false,q.capsPresses⟩

structure State where
  shift : BitVec 32
  keys : Keys

def step (s : State) (inb : Option (BitVec 8)) : Option State := do
  let (shift,_) ← keyboardGetc s.shift inb
  some ⟨shift,inb.elim s.keys s.keys.next⟩

def initial : State := ⟨0,⟨fun _ => false,0⟩⟩

def State.active (s : State) (m : BitVec 8) : Prop := s.shift &&& m.setWidth 32 ≠ 0
deriving Decidable

/-- The word agrees with the keys. -/
structure Tracks (s : State) : Prop where
  shift : s.active SHIFT ↔ s.keys.held 42 ∨ s.keys.held 54
  ctl : s.active CTL ↔ s.keys.held 29
  alt : s.active ALT ↔ s.keys.held 56
  capslock : s.active CAPSLOCK ↔ Odd s.keys.capsPresses

/-- A shift key comes up only when the other one is not held. -/
def Alone (s : State) (inb : Option (BitVec 8)) : Prop :=
  (inb = some (42 ||| 0x80) → ¬s.keys.held 54) ∧ (inb = some (54 ||| 0x80) → ¬s.keys.held 42)
deriving Decidable

/-- The bits that a key sets as long as it is held. -/
def sets (key i : ℕ) : Bool :=
  (i = 0 ∧ (key = 42 ∨ key = 54)) ∨ (i = 1 ∧ key = 29) ∨ (i = 2 ∧ key = 56)

def toggles (key i : ℕ) : Bool := i = 3 ∧ key = 58

section codes

variable {data : BitVec 8} {key : ℕ}

theorem shiftcode_bits : ∀ key < 128, ∀ i < 4,
    shiftcode[key]?.map (·.getLsbD i) = some (sets key i) := by
  decide +kernel

theorem togglecode_bits : ∀ key < 128, ∀ i < 4,
    togglecode[key]?.map (·.getLsbD i) = some (toggles key i) := by
  decide +kernel

theorem charcode_length : ∀ map ∈ charcode, map.length = 256 := by
  decide +kernel

/-- An entry of a table of codes, from what is known of its bits. -/
theorem entry_of_bits {codes : List (BitVec 8)} {f : ℕ → ℕ → Bool}
    (h : ∀ key < 128, ∀ i < 4, codes[key]?.map (·.getLsbD i) = some (f key i)) (hkey : key < 128) :
    ∃ c, codes[key]? = some c ∧ ∀ i < 4, (c.setWidth 32).getLsbD i = f key i := by
  obtain ⟨c,hc,-⟩ := Option.map_eq_some_iff.mp (h key hkey 0 (by decide))
  refine ⟨c,hc,fun i hi => ?_⟩
  have hbit := h key hkey i hi
  rw [hc,Option.map_some,Option.some.injEq] at hbit
  rw [BitVec.getLsbD_setWidth,hbit,decide_eq_true (by omega),Bool.true_and]

/-- Both bits of the index are bits of a table of four maps. -/
theorem charcode_entry (shift : BitVec 32) (hkey : key < 128) :
    ∃ map c, charcode[(shift &&& (CTL ||| SHIFT).setWidth 32).toNat]? = some map ∧
      map[key]? = some c := by
  have hindex : (shift &&& (CTL ||| SHIFT).setWidth 32).toNat < charcode.length := by
    rw [BitVec.toNat_and]
    exact Nat.lt_succ_of_le Nat.and_le_right
  have hlength := charcode_length _ (List.getElem_mem hindex)
  exact ⟨_,_,List.getElem?_eq_getElem hindex,List.getElem?_eq_getElem (by omega)⟩

theorem keyboardGetc_make (shift : BitVec 32) (hdata : data.toNat < 128) :
    ∃ shift' c, keyboardGetc shift (some data) = some (shift',c) ∧ ∀ i < 4,
      shift'.getLsbD i = ((shift.getLsbD i || sets data.toNat i) ^^ toggles data.toNat i) := by
  have hmake : ∀ data : BitVec 8, data.toNat < 128 → ¬(data &&& 0x80 ≠ 0) := by decide +kernel
  obtain ⟨code,hcode,hsets⟩ := entry_of_bits shiftcode_bits hdata
  obtain ⟨toggle,htoggle,htoggles⟩ := entry_of_bits togglecode_bits hdata
  obtain ⟨map,c,hmap,hc⟩ := charcode_entry
    ((shift ||| code.setWidth 32) ^^^ toggle.setWidth 32) hdata
  rw [keyboardGetc,if_neg (hmake data hdata)]
  simp only [Option.bind_eq_bind,Option.bind_some,hcode,htoggle,hmap,hc]
  refine ⟨_,_,rfl,fun i hi => ?_⟩
  rw [BitVec.getLsbD_xor,BitVec.getLsbD_or,hsets i hi,htoggles i hi]

theorem keyboardGetc_break (shift : BitVec 32) (hdata : 128 ≤ data.toNat) :
    ∃ shift' c, keyboardGetc shift (some data) = some (shift',c) ∧ ∀ i < 4,
      shift'.getLsbD i = (shift.getLsbD i && !sets (data.toNat-128) i) := by
  have hbreak : ∀ data : BitVec 8, 128 ≤ data.toNat →
      data &&& 0x80 ≠ 0 ∧ (data &&& ~~~0x80).toNat = data.toNat-128 := by decide +kernel
  obtain ⟨hbit,hkey⟩ := hbreak data hdata
  obtain ⟨code,hcode,hsets⟩ := entry_of_bits shiftcode_bits
    (show data.toNat-128 < 128 by omega)
  rw [keyboardGetc,if_pos hbit,hkey,hcode]
  refine ⟨_,_,rfl,fun i hi => ?_⟩
  rw [BitVec.getLsbD_and,BitVec.getLsbD_not,hsets i hi,decide_eq_true (by omega),Bool.true_and]

end codes

theorem active_iff {s : State} {m : BitVec 8} {i : ℕ} (hi : i < 32)
    (hm : m.setWidth 32 = BitVec.twoPow 32 i) : s.active m ↔ s.shift.getLsbD i = true := by
  have hne : BitVec.twoPow 32 i ≠ 0#32 := by
    intro h
    have hbit := congrArg (·.getLsbD i) h
    simp [hi] at hbit
  rw [State.active,hm,BitVec.and_twoPow]
  split_ifs with h
  · exact iff_of_true hne h
  · exact iff_of_false (not_not.mpr rfl) h

theorem tracks_iff {s : State} : Tracks s ↔
    s.shift.getLsbD 0 = (s.keys.held 42 || s.keys.held 54) ∧ s.shift.getLsbD 1 = s.keys.held 29 ∧
      s.shift.getLsbD 2 = s.keys.held 56 ∧ s.shift.getLsbD 3 = decide (Odd s.keys.capsPresses) := by
  have hshift : s.active SHIFT ↔ s.shift.getLsbD 0 = true := active_iff (by decide) (by decide)
  have hctl : s.active CTL ↔ s.shift.getLsbD 1 = true := active_iff (by decide) (by decide)
  have halt : s.active ALT ↔ s.shift.getLsbD 2 = true := active_iff (by decide) (by decide)
  have hcaps : s.active CAPSLOCK ↔ s.shift.getLsbD 3 = true := active_iff (by decide) (by decide)
  rw [Bool.eq_iff_iff (a := s.shift.getLsbD 0),Bool.eq_iff_iff (a := s.shift.getLsbD 1),
    Bool.eq_iff_iff (a := s.shift.getLsbD 2),Bool.eq_iff_iff (a := s.shift.getLsbD 3),
    Bool.or_eq_true,decide_eq_true_eq,← hshift,← hctl,← halt,← hcaps]
  exact ⟨fun h => ⟨h.shift,h.ctl,h.alt,h.capslock⟩,fun h => ⟨h.1,h.2.1,h.2.2.1,h.2.2.2⟩⟩

section runs

variable {s s' : State} {data : BitVec 8}

/-- A key that goes down. -/
theorem step_make (hdata : data.toNat < 128) (hs : Tracks s) :
    ∃ s', step s (some data) = some s' ∧ Tracks s' := by
  obtain ⟨shift',c,hgetc,hbits⟩ := keyboardGetc_make s.shift hdata
  refine ⟨⟨shift',s.keys.next data⟩,by simp [step,hgetc],?_⟩
  obtain ⟨hshift,hctl,halt,hcaps⟩ := tracks_iff.mp hs
  have hcode : data = 58 ↔ data.toNat = 58 := BitVec.toNat_inj.symm
  rw [tracks_iff]
  simp only [Keys.next,if_pos hdata,hbits 0 (by decide),hbits 1 (by decide),hbits 2 (by decide),
    hbits 3 (by decide),hshift,hctl,halt,hcaps,sets,toggles,Function.update_apply,hcode]
  refine ⟨?_,?_,?_,?_⟩
  · grind
  · grind
  · grind
  · by_cases h58 : data.toNat = 58
    · have hparity : decide (Odd (s.keys.capsPresses+1)) = !decide (Odd s.keys.capsPresses) := by
        rw [← decide_not,decide_eq_decide,Nat.odd_add_one]
      rw [if_pos h58,hparity]
      simp [h58]
    · simp [h58]

/-- A key that comes up, other than one shift key while the other is held. -/
theorem step_break (hdata : 128 ≤ data.toNat) (hs : Tracks s) :
    ∃ s', step s (some data) = some s' ∧ (Tracks s' ↔ Alone s (some data)) := by
  obtain ⟨shift',c,hgetc,hbits⟩ := keyboardGetc_break s.shift hdata
  refine ⟨⟨shift',s.keys.next data⟩,by simp [step,hgetc],?_⟩
  obtain ⟨hshift,hctl,halt,hcaps⟩ := tracks_iff.mp hs
  have hleft : data = 42 ||| 0x80 ↔ data.toNat-128 = 42 := by
    rw [← BitVec.toNat_inj]
    change data.toNat = 170 ↔ _
    omega
  have hright : data = 54 ||| 0x80 ↔ data.toNat-128 = 54 := by
    rw [← BitVec.toNat_inj]
    change data.toNat = 182 ↔ _
    omega
  rw [tracks_iff]
  simp only [Keys.next,if_neg (not_lt.mpr hdata),hbits 0 (by decide),hbits 1 (by decide),
    hbits 2 (by decide),hbits 3 (by decide),hshift,hctl,halt,hcaps,sets,Function.update_apply,
    Alone,Option.some.injEq,hleft,hright]
  generalize data.toNat-128 = key
  grind

theorem step_spec (hs : Tracks s) (inb : Option (BitVec 8)) :
    ∃ s', step s inb = some s' ∧ (Tracks s' ↔ Alone s inb) := by
  cases inb with
  | none => exact ⟨s,rfl,iff_of_true hs ⟨nofun,nofun⟩⟩
  | some data =>
      rcases Nat.lt_or_ge data.toNat 128 with hdata | hdata
      · obtain ⟨s',hs',htracks⟩ := step_make hdata hs
        refine ⟨s',hs',iff_of_true htracks ⟨?_,?_⟩⟩
        all_goals
          intro h
          rw [Option.some.inj h] at hdata
          exact absurd hdata (by decide)
      · exact step_break hdata hs

theorem step_isSome (s : State) (inb : Option (BitVec 8)) : ∃ s', step s inb = some s' := by
  cases inb with
  | none => exact ⟨s,rfl⟩
  | some data =>
      rcases Nat.lt_or_ge data.toNat 128 with hdata | hdata
      · obtain ⟨_,_,hgetc,-⟩ := keyboardGetc_make s.shift hdata
        exact ⟨_,by rw [step,hgetc]; rfl⟩
      · obtain ⟨_,_,hgetc,-⟩ := keyboardGetc_break s.shift hdata
        exact ⟨_,by rw [step,hgetc]; rfl⟩

/-- For every sequence of bytes: no lookup is out of range, and the modifiers agree with the keys
after every byte iff a shift key comes up only when the other one is not held. -/
theorem modifiers_track_keys_iff (inputs : List (Option (BitVec 8))) :
    (∃ s', inputs.foldlM step initial = some s') ∧
      (Always step Tracks initial inputs ↔ AllSteps step Alone initial inputs) := by
  have hinitial : Tracks initial := tracks_iff.mpr (by decide)
  have hany : AllSteps step (fun _ _ => True) initial inputs :=
    allSteps_of_forall (fun _ _ => trivial) initial inputs
  constructor
  · have halways : Always step (fun _ => True) initial inputs :=
      always_of_invariant (fun _ _ => trivial)
        (fun s inb _ _ => (step_isSome s inb).imp fun _ h => ⟨h,trivial⟩) trivial hany
    exact halways.last.imp fun _ h => h.1
  · refine always_iff (fun _ h => h) ?_ ?_ hinitial hany
    · intro s inb hs _ halone
      obtain ⟨s',hs',hiff⟩ := step_spec hs inb
      exact ⟨s',hs',hiff.mpr halone⟩
    · intro s inb s' hs _ halone hs' htracks
      obtain ⟨u,hu,hiff⟩ := step_spec hs inb
      obtain rfl := Option.some.inj (hs'.symm.trans hu)
      exact halone (hiff.mp htracks)

/-- Both shift keys go down and the left one comes up: the right one is held, but the bit is
clear. -/
theorem one_shift_key_released :
    (([some 42,some 54,some 0xaa].foldlM step initial).map fun s =>
      (decide (s.active SHIFT),s.keys.held 42,s.keys.held 54)) = some (false,false,true) ∧
    ¬Always step Tracks initial [some 42,some 54,some 0xaa] := by
  have hfacts : (([some 42,some 54,some 0xaa].foldlM step initial).map fun s =>
      (decide (s.active SHIFT),s.keys.held 42,s.keys.held 54)) = some (false,false,true) := by
    decide +kernel
  refine ⟨hfacts,fun h => ?_⟩
  obtain ⟨s',hs',htracks⟩ := h.last
  rw [hs',Option.map_some,Option.some.injEq,Prod.mk.injEq,Prod.mk.injEq] at hfacts
  obtain ⟨hshift,-,hright⟩ := hfacts
  exact of_decide_eq_false hshift (htracks.shift.mpr (.inr hright))

end runs

end CosKernel.KeyboardModifiers

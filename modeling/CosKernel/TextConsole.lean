import CosKernel.TransitionRuns
import Mathlib

/-!
# The text screen of the console

`driver_write` prints characters to the text buffer of the video adapter, and every character
may move the cursor, and the whole screen by a row. The cursor has 16 bits with a sign. An
access to a cell outside of the screen is a fault, and `memcpy` copies in ascending order.
-/
namespace CosKernel.TextConsole
open TransitionRuns

def CRT_ROWS : ℕ := 25
def CRT_COLS : ℕ := 80
def CRT_SIZE : ℕ := CRT_ROWS*CRT_COLS

/-- A value that is stored to an `int16_t`. -/
def int16 (x : ℤ) : ℤ := (BitVec.ofInt 16 x).toInt

structure Screen where
  crtBuf : ℕ → BitVec 16
  crtPos : ℤ

namespace Screen

def load (s : Screen) (i : ℤ) : Option (BitVec 16) :=
  if 0 ≤ i ∧ i < CRT_SIZE then some (s.crtBuf i.toNat) else none

def store (s : Screen) (i : ℤ) (c : BitVec 32) : Option Screen :=
  if 0 ≤ i ∧ i < CRT_SIZE then
    some {s with crtBuf := Function.update s.crtBuf i.toNat (c.setWidth 16)}
  else none

/-- The first `n` rounds of `memcpy` from the second row to the first. -/
def moveUp (s : Screen) : ℕ → Option Screen
  | 0 => some s
  | n+1 => do
      let s ← s.moveUp n
      let c ← s.load (n+CRT_COLS)
      s.store n (c.setWidth 32)

/-- The first `n` cells of the last row. -/
def blank (s : Screen) : ℕ → Option Screen
  | 0 => some s
  | n+1 => do
      let s ← s.blank n
      s.store (CRT_SIZE-CRT_COLS+n : ℕ) (0x0700 ||| 0x20)

def scroll (s : Screen) : Option Screen :=
  if CRT_SIZE ≤ s.crtPos then do
    let s ← s.moveUp (CRT_SIZE-CRT_COLS)
    let s ← s.blank CRT_COLS
    some {s with crtPos := int16 (s.crtPos-CRT_COLS)}
  else some s

/-- Without an attribute the character is white on black. -/
def attributed (c : BitVec 32) : BitVec 32 := if c &&& ~~~0xff = 0 then c ||| 0x0700 else c

def carriageReturn (s : Screen) : Screen :=
  {s with crtPos := int16 (s.crtPos-s.crtPos.tmod CRT_COLS)}

/-- `cga_putc` up to the calls of `printc` for a tab. -/
def cgaPutcWith (printc : Screen → BitVec 32 → Option Screen) (s : Screen) (c : BitVec 32) :
    Option Screen := do
  let c := attributed c
  let s ←
    if c &&& 0xff = 0x08 then
      if 0 < s.crtPos then
        Screen.store {s with crtPos := int16 (s.crtPos-1)} (int16 (s.crtPos-1))
          ((c &&& ~~~0xff) ||| 0x20)
      else some s
    else if c &&& 0xff = 0x0a then
      some (carriageReturn {s with crtPos := int16 (s.crtPos+CRT_COLS)})
    else if c &&& 0xff = 0x0d then some (carriageReturn s)
    else if c &&& 0xff = 0x09 then do
      let s ← printc s 0x20
      let s ← printc s 0x20
      let s ← printc s 0x20
      let s ← printc s 0x20
      printc s 0x20
    else do
      let s ← s.store s.crtPos c
      some {s with crtPos := int16 (s.crtPos+1)}
  s.scroll

/-- The characters that a tab prints are no tabs, so `cga_putc` does not call itself twice. -/
def cgaPutc : Screen → BitVec 32 → Option Screen := cgaPutcWith (cgaPutcWith fun _ _ => none)

def printc (s : Screen) (c : BitVec 32) : Option Screen := s.cgaPutc c

end Screen

/-- The characters of a string are signed. -/
def step (s : Screen) (b : BitVec 8) : Option Screen := s.printc (b.signExtend 32)

def driverWrite (s : Screen) (buffer : List (BitVec 8)) : Option Screen := buffer.foldlM step s

/-- The cursor is on the screen. -/
def OnScreen (s : Screen) : Prop := 0 ≤ s.crtPos ∧ s.crtPos < CRT_SIZE
deriving Decidable

/-- A character that is no tab, before the screen moves: a backspace erases the cell before the
cursor, a newline and a carriage return move the cursor, others are printed. -/
def struck (s : Screen) (b : BitVec 8) : Screen :=
  if b = 0x08 then
    if 0 < s.crtPos then
      ⟨Function.update s.crtBuf (s.crtPos-1).toNat 0x0720,s.crtPos-1⟩
    else s
  else if b = 0x0a then {s with crtPos := s.crtPos/CRT_COLS*CRT_COLS+CRT_COLS}
  else if b = 0x0d then {s with crtPos := s.crtPos/CRT_COLS*CRT_COLS}
  else ⟨Function.update s.crtBuf s.crtPos.toNat ((Screen.attributed (b.signExtend 32)).setWidth 16),
    s.crtPos+1⟩

/-- Every row has moved up by one, the last row is blank and has the cursor. -/
structure MovedUp (s s' : Screen) : Prop where
  rows : ∀ i < CRT_SIZE-CRT_COLS, s'.crtBuf i = s.crtBuf (i+CRT_COLS)
  last : ∀ i, CRT_SIZE-CRT_COLS ≤ i → i < CRT_SIZE → s'.crtBuf i = 0x0720
  outside : ∀ i, CRT_SIZE ≤ i → s'.crtBuf i = s.crtBuf i
  cursor : ((CRT_SIZE-CRT_COLS : ℕ) : ℤ) ≤ s'.crtPos ∧ s'.crtPos < CRT_SIZE

/-- A character that is no tab. -/
structure Prints (s : Screen) (b : BitVec 8) (s' : Screen) : Prop where
  cell : ∃ i < CRT_SIZE, ∀ j, j ≠ i → (struck s b).crtBuf j = s.crtBuf j
  still : (struck s b).crtPos < CRT_SIZE → s' = struck s b
  moved : CRT_SIZE ≤ (struck s b).crtPos → MovedUp (struck s b) s'

/-- A tab is five spaces. -/
def Writes (s : Screen) (b : BitVec 8) (s' : Screen) : Prop :=
  if b = 0x09 then LeadsTo step Prints s (List.replicate 5 0x20) s' else Prints s b s'

theorem int16_eq {x : ℤ} (h₁ : -32768 ≤ x) (h₂ : x < 32768) : int16 x = x := by
  rw [int16,BitVec.toInt_ofInt]
  exact Int.bmod_eq_of_le (by omega) (by omega)

namespace Screen

variable {s : Screen} {n : ℕ}

theorem load_eq {i : ℕ} (hi : i < CRT_SIZE) : s.load i = some (s.crtBuf i) := by
  rw [load,if_pos ⟨Int.natCast_nonneg i,Int.ofNat_lt.mpr hi⟩,Int.toNat_natCast]

theorem store_eq {i : ℕ} (hi : i < CRT_SIZE) (c : BitVec 32) :
    s.store i c = some {s with crtBuf := Function.update s.crtBuf i (c.setWidth 16)} := by
  rw [store,if_pos ⟨Int.natCast_nonneg i,Int.ofNat_lt.mpr hi⟩,Int.toNat_natCast]

/-- A cell is read before `memcpy` has reached it. -/
theorem moveUp_eq (hn : n ≤ CRT_SIZE-CRT_COLS) : s.moveUp n =
    some {s with crtBuf := fun i => if i < n then s.crtBuf (i+CRT_COLS) else s.crtBuf i} := by
  induction n with
  | zero => simp [moveUp]
  | succ n ih =>
      have hload : n+CRT_COLS < CRT_SIZE := by
        unfold CRT_SIZE CRT_ROWS CRT_COLS at *
        omega
      have hstore : n < CRT_SIZE := by omega
      have hcols : ¬n+CRT_COLS < n := by omega
      rw [moveUp,ih (by omega)]
      simp only [Option.bind_eq_bind,Option.bind_some]
      rw [← Int.natCast_add,load_eq hload]
      simp only [Option.bind_some,store_eq hstore,hcols,↓reduceIte]
      refine congrArg some (congrArg (Screen.mk · s.crtPos) (funext fun i => ?_))
      by_cases hi : i = n
      · subst hi
        simp
      · rw [Function.update_of_ne hi]
        have hlt : i < n+1 ↔ i < n := by omega
        simp only [hlt]

theorem blank_eq (hn : n ≤ CRT_COLS) : s.blank n = some {s with crtBuf := fun i =>
    if CRT_SIZE-CRT_COLS ≤ i ∧ i < CRT_SIZE-CRT_COLS+n then 0x0720 else s.crtBuf i} := by
  induction n with
  | zero =>
      have hno : ∀ i, ¬(CRT_SIZE-CRT_COLS ≤ i ∧ i < CRT_SIZE-CRT_COLS+0) := by omega
      simp only [blank,hno,↓reduceIte]
  | succ n ih =>
      have hstore : CRT_SIZE-CRT_COLS+n < CRT_SIZE := by
        unfold CRT_SIZE CRT_ROWS CRT_COLS at *
        omega
      rw [blank,ih (by omega)]
      simp only [Option.bind_eq_bind,Option.bind_some,store_eq hstore]
      refine congrArg some (congrArg (Screen.mk · s.crtPos) (funext fun i => ?_))
      by_cases hi : i = CRT_SIZE-CRT_COLS+n
      · have hlast : CRT_SIZE-CRT_COLS ≤ i ∧ i < CRT_SIZE-CRT_COLS+(n+1) := by omega
        rw [if_pos hlast,hi,Function.update_self]
        rfl
      · rw [Function.update_of_ne hi]
        have hlt : i < CRT_SIZE-CRT_COLS+(n+1) ↔ i < CRT_SIZE-CRT_COLS+n := by omega
        simp only [hlt]

theorem scroll_of_lt (h : s.crtPos < CRT_SIZE) : s.scroll = some s := if_neg (not_le.mpr h)

/-- The cursor is at most one row below the screen. -/
theorem scroll_of_le (h₁ : CRT_SIZE ≤ s.crtPos) (h₂ : s.crtPos < CRT_SIZE+CRT_COLS) :
    ∃ s', s.scroll = some s' ∧ MovedUp s s' := by
  rw [scroll,if_pos h₁,moveUp_eq le_rfl]
  simp only [Option.bind_eq_bind,Option.bind_some,blank_eq le_rfl]
  refine ⟨_,rfl,?_,?_,?_,?_⟩
  · intro i hi
    have hrow : ¬(CRT_SIZE-CRT_COLS ≤ i ∧ i < CRT_SIZE-CRT_COLS+CRT_COLS) := by omega
    simp only [hrow,hi,↓reduceIte]
  · intro i hi hi'
    have hrow : CRT_SIZE-CRT_COLS ≤ i ∧ i < CRT_SIZE-CRT_COLS+CRT_COLS := by omega
    simp only [hrow,and_self,↓reduceIte]
  · intro i hi
    have hrow : ¬(CRT_SIZE-CRT_COLS ≤ i ∧ i < CRT_SIZE-CRT_COLS+CRT_COLS) := by
      unfold CRT_SIZE CRT_ROWS CRT_COLS at *
      omega
    have hrow' : ¬i < CRT_SIZE-CRT_COLS := by omega
    simp only [hrow,hrow',↓reduceIte]
  · unfold CRT_SIZE CRT_ROWS CRT_COLS at *
    simp only
    rw [int16_eq (by omega) (by omega)]
    omega

end Screen

section character

variable {s : Screen} {b : BitVec 8}

theorem low_byte : ∀ b : BitVec 8,
    Screen.attributed (b.signExtend 32) &&& 0xff = b.setWidth 32 := by
  decide +kernel

theorem setWidth_eq_iff : ∀ b c : BitVec 8, b.setWidth 32 = c.setWidth 32 ↔ b = c := by
  intro b c
  constructor
  · intro h
    have hnat := congrArg BitVec.toNat h
    simp only [BitVec.toNat_setWidth] at hnat
    exact BitVec.eq_of_toNat_eq (by omega)
  · exact congrArg _

theorem carriageReturn_eq {x : ℤ} (h₁ : 0 ≤ x) (h₂ : x < 32768) :
    Screen.carriageReturn {s with crtPos := x} = {s with crtPos := x/CRT_COLS*CRT_COLS} := by
  simp only [Screen.carriageReturn,Int.tmod_eq_emod_of_nonneg h₁]
  unfold CRT_COLS
  rw [int16_eq (by omega) (by omega)]
  congr 1
  omega

/-- A character that is no tab does what it should before the screen moves. -/
theorem cgaPutcWith_eq (hs : OnScreen s) (hb : b ≠ 0x09)
    (printc : Screen → BitVec 32 → Option Screen) :
    s.cgaPutcWith printc (b.signExtend 32) = (struck s b).scroll := by
  obtain ⟨h₁,h₂⟩ := hs
  have hsize : (CRT_SIZE : ℤ) = 2000 := rfl
  have hcase : ∀ c : BitVec 8, b.setWidth 32 = c.setWidth 32 ↔ b = c := setWidth_eq_iff b
  have h8 : b.setWidth 32 = 0x08 ↔ b = 0x08 := hcase 0x08
  have ha : b.setWidth 32 = 0x0a ↔ b = 0x0a := hcase 0x0a
  have hd : b.setWidth 32 = 0x0d ↔ b = 0x0d := hcase 0x0d
  have h9 : b.setWidth 32 = 0x09 ↔ b = 0x09 := hcase 0x09
  simp only [Screen.cgaPutcWith,low_byte,struck,Option.bind_eq_bind,h8,ha,hd,h9,if_neg hb]
  split_ifs with hback hpos hline hreturn
  · obtain ⟨n,hn⟩ := Int.eq_ofNat_of_zero_le (show 0 ≤ s.crtPos-1 by omega)
    have hlt : n < CRT_SIZE := by omega
    rw [int16_eq (by omega) (by omega),hn,Screen.store_eq hlt,hback]
    rfl
  · rfl
  · rw [int16_eq (by unfold CRT_COLS; omega) (by unfold CRT_COLS; omega),
      carriageReturn_eq (by unfold CRT_COLS; omega) (by unfold CRT_COLS; omega),Option.bind_some]
    congr 2
    unfold CRT_COLS
    omega
  · rw [carriageReturn_eq h₁ (by omega),Option.bind_some]
  · obtain ⟨n,hn⟩ := Int.eq_ofNat_of_zero_le h₁
    have hlt : n < CRT_SIZE := by omega
    simp only [hn,Screen.store_eq hlt,Option.bind_some,Int.toNat_natCast]
    rw [int16_eq (by omega) (by omega)]

theorem struck_range (hs : OnScreen s) :
    0 ≤ (struck s b).crtPos ∧ (struck s b).crtPos < CRT_SIZE+CRT_COLS := by
  obtain ⟨h₁,h₂⟩ := hs
  unfold struck
  split_ifs with hback hpos hline hreturn
  all_goals
    unfold CRT_SIZE CRT_ROWS CRT_COLS at *
    constructor <;> grind

theorem struck_cell (hs : OnScreen s) :
    ∃ i < CRT_SIZE, ∀ j, j ≠ i → (struck s b).crtBuf j = s.crtBuf j := by
  obtain ⟨h₁,h₂⟩ := hs
  unfold struck
  split_ifs with hback hpos
  · exact ⟨(s.crtPos-1).toNat,by omega,fun _ hj => Function.update_of_ne hj _ _⟩
  · exact ⟨0,by decide,fun _ _ => rfl⟩
  · exact ⟨0,by decide,fun _ _ => rfl⟩
  · exact ⟨0,by decide,fun _ _ => rfl⟩
  · exact ⟨s.crtPos.toNat,by omega,fun _ hj => Function.update_of_ne hj _ _⟩

theorem cgaPutcWith_spec (hs : OnScreen s) (hb : b ≠ 0x09) :
    ∃ s', (∀ printc, s.cgaPutcWith printc (b.signExtend 32) = some s') ∧ OnScreen s' ∧
      Prints s b s' := by
  obtain ⟨h₁,h₂⟩ := struck_range hs (b := b)
  by_cases hmove : CRT_SIZE ≤ (struck s b).crtPos
  · obtain ⟨s',hscroll,hmoved⟩ := Screen.scroll_of_le hmove h₂
    refine ⟨s',fun printc => (cgaPutcWith_eq hs hb printc).trans hscroll,?_,struck_cell hs,
      fun hlt => absurd hmove (not_le.mpr hlt),fun _ => hmoved⟩
    exact ⟨(Int.natCast_nonneg _).trans hmoved.cursor.1,hmoved.cursor.2⟩
  · have hlt := not_le.mp hmove
    exact ⟨struck s b,
      fun printc => (cgaPutcWith_eq hs hb printc).trans (Screen.scroll_of_lt hlt),⟨h₁,hlt⟩,
      struck_cell hs,fun _ => rfl,fun hle => absurd hle hmove⟩

end character

theorem step_of_ne {s : Screen} {b : BitVec 8} (hs : OnScreen s) (hb : b ≠ 0x09) :
    ∃ s', step s b = some s' ∧ OnScreen s' ∧ Prints s b s' := by
  obtain ⟨s',hstep,hrest⟩ := cgaPutcWith_spec hs hb
  exact ⟨s',hstep _,hrest⟩

theorem cgaPutcWith_tab (printc : Screen → BitVec 32 → Option Screen) (s : Screen) :
    s.cgaPutcWith printc ((0x09 : BitVec 8).signExtend 32) = (do
      let s ← printc s 0x20
      let s ← printc s 0x20
      let s ← printc s 0x20
      let s ← printc s 0x20
      let s ← printc s 0x20
      s.scroll) := by
  rfl

/-- The screen does not move once more after the spaces of a tab. -/
theorem step_tab {s : Screen} (hs : OnScreen s) :
    step s 0x09 = (List.replicate 5 0x20).foldlM step s := by
  have hspace : ∀ s, OnScreen s → ∃ s', (∀ printc, s.cgaPutcWith printc 0x20 = some s') ∧
      OnScreen s' := by
    intro s hs
    obtain ⟨s',hstep,hs',_⟩ := cgaPutcWith_spec hs (b := 0x20) (by decide)
    exact ⟨s',hstep,hs'⟩
  obtain ⟨s₁,hstep₁,hs₁⟩ := hspace s hs
  obtain ⟨s₂,hstep₂,hs₂⟩ := hspace s₁ hs₁
  obtain ⟨s₃,hstep₃,hs₃⟩ := hspace s₂ hs₂
  obtain ⟨s₄,hstep₄,hs₄⟩ := hspace s₃ hs₃
  obtain ⟨s₅,hstep₅,hs₅⟩ := hspace s₄ hs₄
  have hstep : ∀ s, step s 0x20 = s.cgaPutc 0x20 := fun _ => rfl
  rw [step,Screen.printc,Screen.cgaPutc,cgaPutcWith_tab]
  simp only [Screen.scroll_of_lt hs₅.2,List.replicate,List.foldlM_cons,List.foldlM_nil,hstep,
    Screen.cgaPutc,hstep₁,hstep₂,hstep₃,hstep₄,hstep₅,Option.bind_eq_bind,Option.bind_some,
    Option.pure_def]

theorem spaces {s : Screen} (hs : OnScreen s) (n : ℕ) :
    ∃ s', (List.replicate n 0x20).foldlM step s = some s' ∧
      LeadsTo step Prints s (List.replicate n 0x20) s' ∧ OnScreen s' := by
  induction n generalizing s with
  | zero => exact ⟨s,rfl,rfl,hs⟩
  | succ n ih =>
      obtain ⟨s₁,hstep,hon,hprints⟩ := step_of_ne hs (b := 0x20) (by decide)
      obtain ⟨s',hrun,hleads,hon'⟩ := ih hon
      refine ⟨s',?_,⟨s₁,hstep,hprints,hleads⟩,hon'⟩
      rw [List.replicate_succ,List.foldlM_cons,hstep]
      exact hrun

theorem step_spec {s : Screen} (hs : OnScreen s) (b : BitVec 8) :
    ∃ s', step s b = some s' ∧ Writes s b s' ∧ OnScreen s' := by
  by_cases hb : b = 0x09
  · subst hb
    obtain ⟨s',hrun,hleads,hon⟩ := spaces hs 5
    refine ⟨s',(step_tab hs).trans hrun,?_,hon⟩
    rw [Writes,if_pos rfl]
    exact hleads
  · obtain ⟨s',hs',hon,hprints⟩ := step_of_ne hs hb
    refine ⟨s',hs',?_,hon⟩
    rw [Writes,if_neg hb]
    exact hprints

/-- `driver_write` of any string returns a screen, and the steps that lead to it are those of
the characters: no access is outside of the screen, the cursor stays on it, and every character
changes its own cell and moves the screen by a row if the cursor has left it. -/
theorem driverWrite_stays_on_screen {s : Screen} (hs : OnScreen s) (buffer : List (BitVec 8)) :
    ∃ s', driverWrite s buffer = some s' ∧ LeadsTo step Writes s buffer s' ∧
      Always step OnScreen s buffer ∧ OnScreen s' := by
  have hany : AllSteps step (fun _ _ => True) s buffer :=
    allSteps_of_forall (fun _ _ => trivial) s buffer
  have halways : Always step OnScreen s buffer :=
    always_of_invariant (fun _ h => h)
      (fun _ b h _ => (step_spec h b).imp fun _ h' => ⟨h'.1,h'.2.2⟩) hs hany
  obtain ⟨s',hrun,hleads,hon⟩ := leadsTo_of_invariant (fun _ b h _ => step_spec h b) hs hany
  exact ⟨s',hrun,hleads,halways,hon⟩

/-- A tab, a newline and a letter from the last cell of the screen, which moves twice. -/
theorem driverWrite_stays_on_screen_lastCell :
    OnScreen ⟨fun _ => 0x0720,1999⟩ ∧
    (driverWrite ⟨fun _ => 0x0720,1999⟩ [0x09,0x0a,0x61]).map Screen.crtPos = some 1921 ∧
    ∃ s', driverWrite ⟨fun _ => 0x0720,1999⟩ [0x09,0x0a,0x61] = some s' ∧
      LeadsTo step Writes ⟨fun _ => 0x0720,1999⟩ [0x09,0x0a,0x61] s' ∧
      Always step OnScreen ⟨fun _ => 0x0720,1999⟩ [0x09,0x0a,0x61] ∧ OnScreen s' :=
  ⟨by decide,by decide +kernel,driverWrite_stays_on_screen (by decide) _⟩

end CosKernel.TextConsole

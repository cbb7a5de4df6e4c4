import CosKernel.CellBuffers
import Mathlib

/-!
# Pixels in the frame buffer of a video mode

A pixel takes a number of bytes, and the rows follow each other without a gap. The coordinates
are of type `int`, and an offset into the frame buffer has 32 bits. An access outside of the
`width*height` pixels of the frame is a fault.
-/
namespace CosKernel.VideoFrames
open CellBuffers

structure Video where
  bitsPerPixel : BitVec 8
  width : BitVec 16
  height : BitVec 16
deriving DecidableEq

/-- The bytes from `framebuffer_` on. -/
abbrev Frame := ℕ → BitVec 8

namespace Video

/-- The bytes of a pixel. -/
def bt (v : Video) : ℕ := v.bitsPerPixel.toNat/8

def size (v : Video) : ℕ := v.width.toNat*v.height.toNat*v.bt

/-- The variable `where` of `set_pixel`, `get_pixel` and `blit_line`. -/
def location (v : Video) (x y : ℤ) : BitVec 32 := BitVec.ofInt 32 (x*v.bt+y*v.width.toNat*v.bt)

def load (v : Video) (f : Frame) (i : BitVec 32) : Option (BitVec 8) :=
  if i.toNat < v.size then some (f i.toNat) else none

def store (v : Video) (f : Frame) (i : BitVec 32) (b : BitVec 8) : Option Frame :=
  if i.toNat < v.size then some (Function.update f i.toNat b) else none

/-- The loop of `set_pixel` with a number of bytes still to go. -/
def setBytes (v : Video) : Frame → (ℕ → BitVec 8) → BitVec 32 → ℕ → Option Frame
  | f,_,_,0 => some f
  | f,pixel,i,n+1 => do
      let f ← v.store f i (pixel 0)
      setBytes v f (fun j => pixel (j+1)) (i+1) n

def setPixel (v : Video) (f : Frame) (pixel : ℕ → BitVec 8) (x y : ℤ) : Option Frame :=
  v.setBytes f pixel (v.location x y) v.bt

/-- The loop of `get_pixel`, with what it stores from `pixel` on. -/
def getBytes (v : Video) (f : Frame) : BitVec 32 → ℕ → Option (List (BitVec 8))
  | _,0 => some []
  | i,n+1 => do
      let b ← v.load f i
      let bs ← getBytes v f (i+1) n
      some (b::bs)

def getPixel (v : Video) (f : Frame) (x y : ℤ) : Option (List (BitVec 8)) :=
  v.getBytes f (v.location x y) v.bt

def drawHline (v : Video) (f : Frame) (pixel : ℕ → BitVec 8) (x₁ x₂ y : ℤ) : Option Frame :=
  if x₁ < x₂ then do
    let f ← v.setPixel f pixel x₁ y
    drawHline v f pixel (x₁+1) x₂ y
  else some f
termination_by (x₂-x₁).toNat

def drawVline (v : Video) (f : Frame) (pixel : ℕ → BitVec 8) (x y₁ y₂ : ℤ) : Option Frame :=
  if y₁ < y₂ then do
    let f ← v.setPixel f pixel x y₁
    drawVline v f pixel x (y₁+1) y₂
  else some f
termination_by (y₂-y₁).toNat

/-- The first `n` rounds of the inner loop of `blit_line`. -/
def blitBytes (v : Video) (f : Frame) (pixel : ℕ → BitVec 8) (i : BitVec 32) :
    ℕ → Option (Frame × BitVec 32)
  | 0 => some (f,i)
  | n+1 => do
      let (f,i) ← v.blitBytes f pixel i n
      let f ← v.store f i (pixel n)
      some (f,i+1)

/-- The outer loop of `blit_line` with a number of pixels still to go. -/
def blitPixels (v : Video) (pixel : ℕ → BitVec 8) : Frame → BitVec 32 → ℕ → Option Frame
  | f,_,0 => some f
  | f,i,size+1 => do
      let (f,i) ← v.blitBytes f pixel i v.bt
      v.blitPixels pixel f i size

def blitLine (v : Video) (f : Frame) (pixel : ℕ → BitVec 8) (x y : ℤ) (size : BitVec 32) :
    Option Frame :=
  v.blitPixels pixel f (v.location x y) size.toNat

/-- The coordinates of a pixel of the frame. -/
def InRange (v : Video) (x y : ℤ) : Prop :=
  0 ≤ x ∧ x < v.width.toNat ∧ 0 ≤ y ∧ y < v.height.toNat
deriving Decidable

/-- Exactly the pixels of `S` have become `pixel`. -/
structure Paints (v : Video) (pixel : ℕ → BitVec 8) (S : ℤ → ℤ → Prop) (f f' : Frame) :
    Prop where
  inside : ∀ x y, v.InRange x y → S x y → v.getPixel f' x y = some (read pixel 0 v.bt)
  outside : ∀ x y, v.InRange x y → ¬S x y → v.getPixel f' x y = v.getPixel f x y

namespace Paints

variable {v : Video} {pixel : ℕ → BitVec 8} {S T : ℤ → ℤ → Prop} {f f' f'' : Frame}

theorem refl (h : ∀ x y, ¬S x y) : v.Paints pixel S f f :=
  ⟨fun x y _ hS => absurd hS (h x y),fun _ _ _ _ => rfl⟩

theorem trans (h : v.Paints pixel S f f') (h' : v.Paints pixel T f' f'') :
    v.Paints pixel (fun x y => S x y ∨ T x y) f f'' := by
  constructor
  · intro x y hr hST
    by_cases hT : T x y
    · exact h'.inside x y hr hT
    · rw [h'.outside x y hr hT]
      exact h.inside x y hr (hST.resolve_right hT)
  · intro x y hr hST
    obtain ⟨hS,hT⟩ := not_or.mp hST
    rw [h'.outside x y hr hT,h.outside x y hr hS]

theorem congr (h : v.Paints pixel S f f') (hST : ∀ x y, S x y ↔ T x y) :
    v.Paints pixel T f f' :=
  ⟨fun x y hr hT => h.inside x y hr ((hST x y).mpr hT),
    fun x y hr hT => h.outside x y hr (mt (hST x y).mp hT)⟩

end Paints

section bytes

variable {v : Video} {f : Frame} {pixel : ℕ → BitVec 8} {a n : ℕ}

theorem ofNat_toNat (h : a < 2^32) : (BitVec.ofNat 32 a).toNat = a := by
  rw [BitVec.toNat_ofNat,Nat.mod_eq_of_lt h]

theorem ofNat_succ : BitVec.ofNat 32 a+1 = BitVec.ofNat 32 (a+1) := (BitVec.ofNat_add a 1).symm

theorem setBytes_eq (hsize : v.size < 2^31) (h : a+n ≤ v.size) :
    v.setBytes f pixel (BitVec.ofNat 32 a) n = some (write f a (read pixel 0 n)) := by
  induction n generalizing f pixel a with
  | zero => rfl
  | succ n ih =>
      rw [setBytes,store,ofNat_toNat (by omega),if_pos (by omega),ofNat_succ]
      simp only [Option.bind_eq_bind,Option.bind_some]
      rw [ih (by omega),read_shift,Nat.add_comm n,read_add]
      rfl

theorem getBytes_eq (hsize : v.size < 2^31) (h : a+n ≤ v.size) :
    v.getBytes f (BitVec.ofNat 32 a) n = some (read f a n) := by
  induction n generalizing a with
  | zero => rfl
  | succ n ih =>
      rw [getBytes,load,ofNat_toNat (by omega),if_pos (by omega),ofNat_succ]
      simp only [Option.bind_eq_bind,Option.bind_some]
      rw [ih (by omega),Nat.add_comm n,read_add]
      rfl

theorem blitBytes_eq (hsize : v.size < 2^31) (h : a+n ≤ v.size) :
    v.blitBytes f pixel (BitVec.ofNat 32 a) n =
      some (write f a (read pixel 0 n),BitVec.ofNat 32 (a+n)) := by
  induction n with
  | zero => rfl
  | succ n ih =>
      rw [blitBytes,ih (by omega)]
      simp only [Option.bind_eq_bind,Option.bind_some]
      rw [store,ofNat_toNat (by omega),if_pos (by omega),ofNat_succ,read_add,write_append,
        length_read]
      simp only [Option.bind_some,Nat.zero_add]
      rfl

end bytes

section pixels

variable {v : Video} {f f' : Frame} {pixel : ℕ → BitVec 8} {x y x' y' : ℕ}

/-- The first byte of a pixel. -/
def place (v : Video) (x y : ℕ) : ℕ := (x+y*v.width.toNat)*v.bt

theorem location_eq : v.location x y = BitVec.ofNat 32 (v.place x y) := by
  rw [location,place,← BitVec.ofInt_natCast]
  congr 1
  push_cast
  ring

theorem InRange.exists_nat {x y : ℤ} (h : v.InRange x y) :
    ∃ a b : ℕ, x = a ∧ y = b ∧ a < v.width.toNat ∧ b < v.height.toNat := by
  obtain ⟨hx,hx',hy,hy'⟩ := h
  lift x to ℕ using hx
  lift y to ℕ using hy
  exact ⟨x,y,rfl,rfl,by omega,by omega⟩

theorem place_le (hx : x ≤ v.width.toNat) (hy : y < v.height.toNat) :
    v.place x y ≤ v.size := by
  have hpixels : x+y*v.width.toNat ≤ v.width.toNat*v.height.toNat := by
    calc x+y*v.width.toNat ≤ v.width.toNat+y*v.width.toNat := by omega
      _ = v.width.toNat*(y+1) := by ring
      _ ≤ v.width.toNat*v.height.toNat := Nat.mul_le_mul_left _ hy
  exact Nat.mul_le_mul_right _ hpixels

theorem place_succ : v.place (x+1) y = v.place x y+v.bt := by
  unfold place
  ring

theorem place_end (hx : x < v.width.toNat) (hy : y < v.height.toNat) :
    v.place x y+v.bt ≤ v.size := by
  rw [← place_succ]
  exact place_le hx hy

/-- Different pixels share no byte. -/
theorem place_apart (hx : x < v.width.toNat) (hx' : x' < v.width.toNat)
    (hne : ¬(x' = x ∧ y' = y)) :
    v.place x y+v.bt ≤ v.place x' y' ∨ v.place x' y'+v.bt ≤ v.place x y := by
  have hcell : x+y*v.width.toNat ≠ x'+y'*v.width.toNat := by
    intro heq
    have hmod := congrArg (·%v.width.toNat) heq
    simp only [Nat.add_mul_mod_self_right,Nat.mod_eq_of_lt hx,Nat.mod_eq_of_lt hx'] at hmod
    subst hmod
    exact hne ⟨rfl,(Nat.eq_of_mul_eq_mul_right (Nat.zero_lt_of_lt hx) (by omega)).symm⟩
  rcases Nat.lt_or_gt_of_ne hcell with h | h
  · left
    rw [← place_succ]
    exact Nat.mul_le_mul_right _ (by omega)
  · right
    rw [← place_succ]
    exact Nat.mul_le_mul_right _ (by omega)

variable (hsize : v.size < 2^31)
include hsize

theorem setPixel_eq (hx : x < v.width.toNat) (hy : y < v.height.toNat) :
    v.setPixel f pixel x y = some (write f (v.place x y) (read pixel 0 v.bt)) := by
  rw [setPixel,location_eq,setBytes_eq hsize (place_end hx hy)]

theorem getPixel_eq (hx : x < v.width.toNat) (hy : y < v.height.toNat) :
    v.getPixel f x y = some (read f (v.place x y) v.bt) := by
  rw [getPixel,location_eq,getBytes_eq hsize (place_end hx hy)]

theorem getPixel_set (hx : x < v.width.toNat) (hy : y < v.height.toNat) :
    v.getPixel (write f (v.place x y) (read pixel 0 v.bt)) x y = some (read pixel 0 v.bt) := by
  rw [getPixel_eq hsize hx hy]
  have h : CellBuffers.read (write f (v.place x y) (read pixel 0 v.bt)) (v.place x y)
      (read pixel 0 v.bt).length = read pixel 0 v.bt := read_write
  rw [length_read] at h
  rw [h]

theorem getPixel_set_of_ne (hx : x < v.width.toNat) (hx' : x' < v.width.toNat)
    (hy' : y' < v.height.toNat) (hne : ¬(x' = x ∧ y' = y)) :
    v.getPixel (write f (v.place x y) (read pixel 0 v.bt)) x' y' = v.getPixel f x' y' := by
  rw [getPixel_eq hsize hx' hy',getPixel_eq hsize hx' hy',read_write_apart]
  rw [length_read]
  exact (place_apart hx hx' hne).symm

theorem setPixel_paints (f : Frame) (pixel : ℕ → BitVec 8) {x y : ℤ} (h : v.InRange x y) :
    ∃ f', v.setPixel f pixel x y = some f' ∧
      v.Paints pixel (fun x' y' => x' = x ∧ y' = y) f f' := by
  obtain ⟨x,y,rfl,rfl,hx,hy⟩ := h.exists_nat
  refine ⟨_,setPixel_eq hsize hx hy,?_,?_⟩
  · rintro x' y' - ⟨rfl,rfl⟩
    exact getPixel_set hsize hx hy
  · intro x' y' h' hne
    obtain ⟨x',y',rfl,rfl,hx',hy'⟩ := h'.exists_nat
    exact getPixel_set_of_ne hsize hx hx' hy' (by omega)

theorem drawHline_paints {x₁ x₂ y : ℤ} (hx₁ : 0 ≤ x₁) (hx₂ : x₂ ≤ v.width.toNat) (hy : 0 ≤ y)
    (hy' : y < v.height.toNat) :
    ∃ f', v.drawHline f pixel x₁ x₂ y = some f' ∧
      v.Paints pixel (fun x' y' => x₁ ≤ x' ∧ x' < x₂ ∧ y' = y) f f' := by
  induction hn : (x₂-x₁).toNat generalizing f x₁ with
  | zero =>
      rw [drawHline,if_neg (by omega)]
      exact ⟨f,rfl,Paints.refl fun x' y' h => by omega⟩
  | succ n ih =>
      obtain ⟨g,hg,hpaint⟩ := setPixel_paints hsize f pixel
        (x := x₁) (y := y) ⟨hx₁,by omega,hy,hy'⟩
      obtain ⟨f',hf',hrest⟩ := ih (f := g) (show 0 ≤ x₁+1 by omega) (by omega)
      rw [drawHline,if_pos (by omega),hg]
      exact ⟨f',hf',(hpaint.trans hrest).congr fun x' y' => by omega⟩

theorem drawVline_paints {x y₁ y₂ : ℤ} (hx : 0 ≤ x) (hx' : x < v.width.toNat) (hy₁ : 0 ≤ y₁)
    (hy₂ : y₂ ≤ v.height.toNat) :
    ∃ f', v.drawVline f pixel x y₁ y₂ = some f' ∧
      v.Paints pixel (fun x' y' => x' = x ∧ y₁ ≤ y' ∧ y' < y₂) f f' := by
  induction hn : (y₂-y₁).toNat generalizing f y₁ with
  | zero =>
      rw [drawVline,if_neg (by omega)]
      exact ⟨f,rfl,Paints.refl fun x' y' h => by omega⟩
  | succ n ih =>
      obtain ⟨g,hg,hpaint⟩ := setPixel_paints hsize f pixel
        (x := x) (y := y₁) ⟨hx,hx',hy₁,by omega⟩
      obtain ⟨f',hf',hrest⟩ := ih (f := g) (show 0 ≤ y₁+1 by omega) (by omega)
      rw [drawVline,if_pos (by omega),hg]
      exact ⟨f',hf',(hpaint.trans hrest).congr fun x' y' => by omega⟩

/-- The running offset of `blit_line` is the offset of the next pixel. -/
theorem blitPixels_eq {n : ℕ} (hx : x+n ≤ v.width.toNat) (hy : y < v.height.toNat) :
    v.blitPixels pixel f (BitVec.ofNat 32 (v.place x y)) n =
      v.drawHline f pixel x ((x : ℤ)+n) y := by
  induction n generalizing f x with
  | zero => rw [blitPixels,drawHline,if_neg (by omega)]
  | succ n ih =>
      have hlt : x < v.width.toNat := by omega
      rw [blitPixels,drawHline,if_pos (by omega),setPixel_eq hsize hlt hy,
        blitBytes_eq hsize (place_end hlt hy)]
      simp only [Option.bind_eq_bind,Option.bind_some]
      rw [← place_succ,ih (by omega)]
      push_cast
      rw [add_assoc,add_comm (1 : ℤ)]

end pixels

end Video

variable {v : Video}

/-- For every depth, picture and coordinates: a pixel that is set is read back and no other pixel
changes, the lines paint exactly their range, and `blit_line` is `draw_hline`. -/
theorem video_operations_agree (hsize : v.size < 2^31) (f : Frame)
    (pixel : ℕ → BitVec 8) :
    (∀ x y : ℤ, v.InRange x y → ∃ p, v.getPixel f x y = some p) ∧
    (∀ x y : ℤ, v.InRange x y → ∃ f', v.setPixel f pixel x y = some f' ∧
      v.Paints pixel (fun x' y' => x' = x ∧ y' = y) f f') ∧
    (∀ x₁ x₂ y : ℤ, 0 ≤ x₁ → x₂ ≤ v.width.toNat → 0 ≤ y → y < v.height.toNat →
      ∃ f', v.drawHline f pixel x₁ x₂ y = some f' ∧
        v.Paints pixel (fun x' y' => x₁ ≤ x' ∧ x' < x₂ ∧ y' = y) f f') ∧
    (∀ x y₁ y₂ : ℤ, 0 ≤ x → x < v.width.toNat → 0 ≤ y₁ → y₂ ≤ v.height.toNat →
      ∃ f', v.drawVline f pixel x y₁ y₂ = some f' ∧
        v.Paints pixel (fun x' y' => x' = x ∧ y₁ ≤ y' ∧ y' < y₂) f f') ∧
    (∀ (x y : ℤ) (n : BitVec 32), 0 ≤ x → 0 ≤ y → y < v.height.toNat → x+n.toNat ≤ v.width.toNat →
      v.blitLine f pixel x y n = v.drawHline f pixel x (x+n.toNat) y) := by
  refine ⟨?_,fun x y h => Video.setPixel_paints hsize f pixel h,
    fun x₁ x₂ y => Video.drawHline_paints hsize,fun x y₁ y₂ => Video.drawVline_paints hsize,?_⟩
  · intro x y h
    obtain ⟨x,y,rfl,rfl,hx,hy⟩ := h.exists_nat
    exact ⟨_,Video.getPixel_eq hsize hx hy⟩
  · intro x y n hx hy hy' hn
    lift x to ℕ using hx
    lift y to ℕ using hy
    rw [Video.blitLine,Video.location_eq]
    exact Video.blitPixels_eq hsize (by omega) (by omega)

/-- A frame of 24 bits for each pixel. -/
theorem video_operations_agree_trueColour :
    ∃ f', Video.setPixel ⟨24,640,480⟩ (fun _ => 0) (fun i => BitVec.ofNat 8 (i+1)) 639 479 = some f' ∧
      Video.getPixel ⟨24,640,480⟩ f' 639 479 = some [1,2,3] := by
  obtain ⟨_,hset,-⟩ := video_operations_agree (v := ⟨24,640,480⟩) (by decide)
    (fun _ => 0) (fun i => BitVec.ofNat 8 (i+1))
  obtain ⟨f',hf',hpaint⟩ := hset 639 479 (by decide)
  exact ⟨f',hf',hpaint.inside 639 479 (by decide) ⟨rfl,rfl⟩⟩

/-- The fields of `mode_info_t` that `video_init` reads; `pitch` is in bytes per scan line. -/
structure ModeInfo where
  pitch : BitVec 16
  xres : BitVec 16
  yres : BitVec 16
deriving DecidableEq

/-- `video_init` divides by `Xres`. -/
def videoInit (displayInfo : ModeInfo) : Option Video :=
  if displayInfo.xres = 0 then none
  else
    let BT : BitVec 8 := (displayInfo.pitch/displayInfo.xres).setWidth 8
    some ⟨BT*8,displayInfo.xres,displayInfo.yres⟩

/-- The scan lines of `k` bytes for each pixel that the frame of `video_init` agrees with: they
have no padding, or the mode has a single row or column in which the padding does not show. -/
def ModeInfo.Unpadded (m : ModeInfo) (k : ℕ) : Prop :=
  m.pitch.toNat = m.xres.toNat*k ∨ m.yres = 0 ∨
    (m.xres = 1 ∧ (m.yres = 1 ∨ m.pitch.toNat < 32)) ∨
    (m.yres = 1 ∧ m.xres.toNat*k ≤ m.pitch.toNat%(m.xres.toNat*32) ∧
      m.pitch.toNat%(m.xres.toNat*32) < m.xres.toNat*(k+1))
deriving Decidable

section modes

variable {m : ModeInfo} {v : Video} {k : ℕ}

theorem videoInit_spec (h : videoInit m = some v) :
    v.bt = m.pitch.toNat/m.xres.toNat%32 ∧ v.width = m.xres ∧ v.height = m.yres := by
  unfold videoInit at h
  split_ifs at h with hx
  obtain rfl := Option.some.inj h
  refine ⟨?_,rfl,rfl⟩
  simp only [Video.bt,BitVec.toNat_mul,BitVec.toNat_setWidth,BitVec.toNat_udiv]
  change m.pitch.toNat/m.xres.toNat%256*8%256/8 = _
  omega

/-- The bytes of a row are at most those of a scan line, so no offset wraps around. -/
theorem videoInit_location (h : videoInit m = some v) {x y : ℕ} (hx : x < m.xres.toNat)
    (hy : y < m.yres.toNat) :
    (v.location x y).toNat = x*v.bt+y*(m.xres.toNat*v.bt) := by
  obtain ⟨hbt,hwidth,-⟩ := videoInit_spec h
  have hrow : m.xres.toNat*v.bt ≤ m.pitch.toNat :=
    calc m.xres.toNat*v.bt ≤ m.xres.toNat*(m.pitch.toNat/m.xres.toNat) := by
          rw [hbt]
          exact Nat.mul_le_mul_left _ (Nat.mod_le _ _)
      _ ≤ m.pitch.toNat := Nat.mul_div_le _ _
  have hlt : x*v.bt+y*(m.xres.toNat*v.bt) < 2^32 :=
    calc x*v.bt+y*(m.xres.toNat*v.bt) ≤ m.xres.toNat*v.bt+y*(m.xres.toNat*v.bt) :=
          Nat.add_le_add_right (Nat.mul_le_mul_right _ hx.le) _
      _ = (y+1)*(m.xres.toNat*v.bt) := by ring
      _ ≤ 65535*65535 := Nat.mul_le_mul (by omega) (by omega)
      _ < 2^32 := by decide
  have hplace : v.place x y = x*v.bt+y*(m.xres.toNat*v.bt) := by
    rw [Video.place,hwidth]
    ring
  rw [Video.location_eq,hplace,Video.ofNat_toNat hlt]

/-- What the first row and the first column say about the frame. -/
theorem scan_lines_iff (h : videoInit m = some v) :
    (∀ x y : ℕ, x < m.xres.toNat → y < m.yres.toNat →
      (v.location x y).toNat = y*m.pitch.toNat+x*k) ↔
    m.yres.toNat = 0 ∨ ((m.xres.toNat ≤ 1 ∨ v.bt = k) ∧
      (m.yres.toNat = 1 ∨ m.xres.toNat*v.bt = m.pitch.toNat)) := by
  have hx : 0 < m.xres.toNat := by
    unfold videoInit at h
    split_ifs at h with hx
    exact Nat.pos_of_ne_zero fun h0 => hx (BitVec.eq_of_toNat_eq h0)
  constructor
  · intro hall
    refine or_iff_not_imp_left.mpr fun hy => ⟨?_,?_⟩
    · refine or_iff_not_imp_left.mpr fun hx₁ => ?_
      have h₁ := hall 1 0 (by omega) (by omega)
      rw [videoInit_location h (by omega) (by omega)] at h₁
      omega
    · refine or_iff_not_imp_left.mpr fun hy₁ => ?_
      have h₁ := hall 0 1 hx (by omega)
      rw [videoInit_location h hx (by omega)] at h₁
      omega
  · rintro hcond x y hx hy
    rw [videoInit_location h hx hy,Nat.add_comm]
    obtain ⟨hrow,hcol⟩ := hcond.resolve_left (by omega)
    congr 1
    · rcases hcol with hcol | hcol
      · rw [show y = 0 by omega,Nat.zero_mul,Nat.zero_mul]
      · rw [hcol]
    · rcases hrow with hrow | hrow
      · rw [show x = 0 by omega,Nat.zero_mul,Nat.zero_mul]
      · rw [hrow]

theorem quotient_eq_iff (hx : 1 ≤ m.xres.toNat) :
    m.pitch.toNat/m.xres.toNat%32 = k ↔ m.xres.toNat*k ≤ m.pitch.toNat%(m.xres.toNat*32) ∧
      m.pitch.toNat%(m.xres.toNat*32) < m.xres.toNat*(k+1) := by
  have hsucc : m.xres.toNat*(k+1) = m.xres.toNat*k+m.xres.toNat := Nat.mul_succ _ _
  rw [← Nat.mod_mul_right_div_self,Nat.div_eq_iff hx,Nat.mul_comm k,hsucc]
  omega

theorem unpadded_iff (hx : 1 ≤ m.xres.toNat) (hk : k ≤ 4) : m.Unpadded k ↔
    m.yres.toNat = 0 ∨ ((m.xres.toNat ≤ 1 ∨ m.pitch.toNat/m.xres.toNat%32 = k) ∧
      (m.yres.toNat = 1 ∨ m.xres.toNat*(m.pitch.toNat/m.xres.toNat%32) = m.pitch.toNat)) := by
  have hy₀ : m.yres = 0 ↔ m.yres.toNat = 0 := BitVec.toNat_inj.symm
  have hy₁ : m.yres = 1 ↔ m.yres.toNat = 1 := BitVec.toNat_inj.symm
  have hx₁ : m.xres = 1 ↔ m.xres.toNat = 1 := BitVec.toNat_inj.symm
  rw [ModeInfo.Unpadded,hy₀,hy₁,hx₁,← quotient_eq_iff hx]
  constructor
  · rintro (hexact | hy | ⟨hone,hy⟩ | ⟨hy,hq⟩)
    · rw [hexact,Nat.mul_div_cancel_left k hx,Nat.mod_eq_of_lt (by omega)]
      exact .inr ⟨.inr rfl,.inr rfl⟩
    · exact .inl hy
    · rw [hone,Nat.div_one]
      omega
    · exact .inr ⟨.inr hq,.inl hy⟩
  · rintro (hy | ⟨hrow,hcol⟩)
    · exact .inr (.inl hy)
    rcases hrow with hrow | hrow
    · have hone : m.xres.toNat = 1 := by omega
      rw [hone,Nat.div_one] at hcol
      exact .inr (.inr (.inl ⟨hone,by omega⟩))
    rcases hcol with hcol | hcol
    · exact .inr (.inr (.inr ⟨hcol,hrow⟩))
    · exact .inl (hrow ▸ hcol.symm)

end modes

/-- The frame has its pixels on the scan lines of the mode iff these have no padding. -/
theorem pixels_on_scan_lines_iff {m : ModeInfo} {k : ℕ} (hx : 1 ≤ m.xres.toNat) (hk : k ≤ 4) :
    (∃ v, videoInit m = some v ∧ ∀ x y : ℕ, x < m.xres.toNat → y < m.yres.toNat →
      (v.location x y).toNat = y*m.pitch.toNat+x*k) ↔ m.Unpadded k := by
  have hinit : ∃ v, videoInit m = some v := by
    unfold videoInit
    rw [if_neg (by rintro h; simp [h] at hx)]
    exact ⟨_,rfl⟩
  obtain ⟨v,hv⟩ := hinit
  obtain ⟨hbt,-,-⟩ := videoInit_spec hv
  rw [unpadded_iff hx hk,← hbt,← scan_lines_iff hv]
  constructor
  · rintro ⟨v',hv',hall⟩
    rw [hv] at hv'
    exact Option.some.inj hv' ▸ hall
  · exact fun hall => ⟨v,hv,hall⟩

/-- A mode of 640 by 480 pixels without padding. -/
theorem pixels_on_scan_lines_iff_unpadded :
    ModeInfo.Unpadded ⟨1920,640,480⟩ 3 ∧ ∃ v, videoInit ⟨1920,640,480⟩ = some v ∧
      ∀ x y : ℕ, x < 640 → y < 480 → (v.location x y).toNat = y*1920+x*3 :=
  ⟨by decide,(pixels_on_scan_lines_iff (by decide) (by decide)).mpr (by decide)⟩

/-- Scan lines of 1366 pixels, padded to a multiple of 64 bytes. -/
theorem padded_scan_line_misplaced :
    ∃ v, videoInit ⟨5504,1366,768⟩ = some v ∧ 1366*4 ≤ 5504 ∧
      (v.location 0 1).toNat = 5464 ∧ (v.location 0 1).toNat ≠ 1*5504+0*4 :=
  ⟨⟨32,1366,768⟩,by decide⟩

end CosKernel.VideoFrames

import WarkRune.Graphics.Paint
import WarkRune.Io.Mouse

/-!
# Drawing on the back buffer

The back buffer has 800 by 600 pixels in rows. `put_pixel` compares its coordinates as unsigned
numbers, so a negative one is off the screen, and stores nothing there. All other drawing goes
through it, but `fill_screen`, which stores to every pixel once there is a framebuffer.

## Main definitions

* `pixelAt`: the place of a pixel in the buffer
* `putPixel`, `fillScreen`, `drawRect`, `printxy`: the operations
* `Op`: an operation with its arguments

## Main results

* `pixelAt_wrap32`, `pixelAt_inj`: coordinates that wrap, and coordinates of one pixel
* `pointwise_draw`: what an operation makes of a pixel depends on that pixel only
-/

namespace WarkRune.Graphics

open Io (wrap32)

/-- `g_backbuf`. -/
abbrev Buffer := ℕ → UInt32

/-- An `int`. -/
def CInt : Type := { z : ℤ // -2 ^ 31 ≤ z ∧ z < 2 ^ 31 }

/-- An `int` as an `unsigned`. -/
def unsigned (z : ℤ) : ℕ := (z % 2 ^ 32).toNat

/-- The place of a pixel in the buffer, if it is on the screen. -/
def pixelAt (x y : ℤ) : Option ℕ :=
  if unsigned x < 800 ∧ unsigned y < 600 then some (unsigned y * 800 + unsigned x) else none

/-- `put_pixel`. -/
def putPixel (x y : ℤ) (color : UInt32) (buf : Buffer) : Buffer := writeAt (pixelAt x y) color buf

/-- The values of `for (int i = lo; i < hi; i++)`. -/
def ints (lo hi : ℤ) : List ℤ := (List.range (hi - lo).toNat).map fun k : ℕ => lo + k

/-- `fill_screen`, `ready` being `fb_ready()`. -/
def fillScreen (ready : Bool) (color : UInt32) (buf : Buffer) : Buffer :=
  if ready then (List.range (800 * 600)).foldl (fun buf i => Function.update buf i color) buf
  else buf

/-- `draw_rect`. -/
def drawRect (x y w h : ℤ) (color : UInt32) (buf : Buffer) : Buffer :=
  (ints y (wrap32 (y + h))).foldl (fun buf py =>
    (ints x (wrap32 (x + w))).foldl (fun buf px => putPixel px py color buf) buf) buf

/-- The glyph of a printable character, `font` being `font_data`. -/
def drawGlyph (font : ℕ → UInt8) (c : UInt8) (cx y : ℤ) (color : UInt32) (buf : Buffer) : Buffer :=
  (List.range 8).foldl (fun buf row =>
    (List.range 8).foldl (fun buf col =>
      if (font ((c.toNat - 0x20) * 8 + row)).toNat.testBit (7 - col) then
        putPixel (wrap32 (cx + col)) (wrap32 (y + row)) color buf
      else buf) buf) buf

/-- `printxy` of the bytes before the NUL. -/
def printxy (font : ℕ → UInt8) : List UInt8 → ℤ → ℤ → UInt32 → Buffer → Buffer
  | [], _, _, _, buf => buf
  | c :: str, cx, y, color, buf =>
    printxy font str (wrap32 (cx + 8)) y color
      (if c < 0x20 ∨ c > 0x7E then buf else drawGlyph font c cx y color buf)

/-- An operation with its arguments. -/
inductive Op where
  | putPixel (x y : CInt) (color : UInt32)
  | drawRect (x y w h : CInt) (color : UInt32)
  | printxy (str : List UInt8) (x y : CInt) (color : UInt32)
  | fillScreen (color : UInt32)

/-- What the operation draws. -/
def Op.draw (font : ℕ → UInt8) (ready : Bool) : Op → Buffer → Buffer
  | .putPixel x y color => Graphics.putPixel x.val y.val color
  | .drawRect x y w h color => Graphics.drawRect x.val y.val w.val h.val color
  | .printxy str x y color => Graphics.printxy font str x.val y.val color
  | .fillScreen color => Graphics.fillScreen ready color

/-! ## Pixels -/

section Pixels

variable {x y x' y' : ℤ} {c : ℕ}

/-- Coordinates that wrap are the same pixel. -/
theorem pixelAt_wrap32 (x y : ℤ) : pixelAt (wrap32 x) (wrap32 y) = pixelAt x y := by
  have h (z : ℤ) : unsigned (wrap32 z) = unsigned z := by
    rw [unsigned, wrap32]
    exact congrArg Int.toNat Int.bmod_emod
  rw [pixelAt, h, h]
  rfl

/-- **The coordinates of one pixel** are equal as unsigned numbers. -/
theorem pixelAt_inj (h : pixelAt x y = some c) (h' : pixelAt x' y' = some c) :
    x % 2 ^ 32 = x' % 2 ^ 32 ∧ y % 2 ^ 32 = y' % 2 ^ 32 := by
  unfold pixelAt at h h'
  split at h
  · split at h'
    · have hc := Option.some_inj.mp (h.trans h'.symm)
      have hcol : unsigned x = unsigned x' := by omega
      have hrow : unsigned y = unsigned y' := by omega
      unfold unsigned at hcol hrow
      omega
    · cases h'
  · cases h

theorem mem_ints {lo hi z : ℤ} : z ∈ ints lo hi ↔ lo ≤ z ∧ z < hi := by
  rw [ints, List.mem_map]
  constructor
  · rintro ⟨k, hk, rfl⟩
    have hk := List.mem_range.mp hk
    omega
  · rintro ⟨h₁, h₂⟩
    exact ⟨(z - lo).toNat, List.mem_range.mpr (by omega), by omega⟩

end Pixels

/-! ## Operations -/

theorem pointwise_putPixel (x y : ℤ) (color : UInt32) : Pointwise (putPixel x y color) :=
  pointwise_writeAt (pixelAt x y) color

theorem pointwise_fillScreen (ready : Bool) (color : UInt32) :
    Pointwise (fillScreen ready color) := by
  have hfill : Pointwise fun buf : Buffer =>
      (List.range (800 * 600)).foldl (fun buf i => Function.update buf i color) buf :=
    .foldl (fun i => pointwise_writeAt (some i) color) _
  exact .ite hfill .id

theorem pointwise_drawRect (x y w h : ℤ) (color : UInt32) : Pointwise (drawRect x y w h color) :=
  .foldl (fun py => .foldl (fun px => pointwise_putPixel px py color) _) _

theorem pointwise_drawGlyph (font : ℕ → UInt8) (c : UInt8) (cx y : ℤ) (color : UInt32) :
    Pointwise (drawGlyph font c cx y color) :=
  .foldl (fun _ => .foldl (fun _ => .ite (pointwise_putPixel _ _ color) .id) _) _

theorem pointwise_printxy (font : ℕ → UInt8) (str : List UInt8) (cx y : ℤ) (color : UInt32) :
    Pointwise (printxy font str cx y color) := by
  induction str generalizing cx with
  | nil => exact .id
  | cons c str ih => exact (ih _).comp (.ite .id (pointwise_drawGlyph font c cx y color))

/-- **What an operation makes of a pixel** depends on that pixel only. -/
theorem pointwise_draw (font : ℕ → UInt8) (ready : Bool) (op : Op) :
    Pointwise (op.draw font ready) := by
  cases op with
  | putPixel x y color => exact pointwise_putPixel _ _ color
  | drawRect x y w h color => exact pointwise_drawRect _ _ _ _ color
  | printxy str x y color => exact pointwise_printxy font str _ _ color
  | fillScreen color => exact pointwise_fillScreen ready color

end WarkRune.Graphics

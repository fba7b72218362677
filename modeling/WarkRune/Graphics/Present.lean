import Mathlib.Data.UInt
import WarkRune.Graphics.Text

/-!
# Presenting the back buffer

`fb_present` copies the back buffer to the framebuffer of the display, row by row, as far as the
display reaches. The display has its own length of a row and its own format of a pixel. What it
shows is read off the address: the row, the pixel in the row, and the byte of the pixel.

## Main definitions

* `Vbe`: the mode of the display
* `pixelBytes`: a colour in the format of the mode
* `fbPresent`: the function
* `Vbe.Shows`, `Vbe.picture`: the bytes of the display that the back buffer reaches, and their values

## Main results

* `fbPresent_picture`: the display shows the back buffer, and no other byte is written
-/

namespace WarkRune.Graphics

/-- The mode of the display, `vbe_framebuffer` and the variables beside it. -/
structure Vbe where
  framebuffer : UInt32
  pitch : UInt32
  width : UInt32
  height : UInt32
  bpp : UInt32
  deriving DecidableEq

namespace Vbe

variable (v : Vbe)

/-- `fb_ready`. -/
def fbReady : Bool :=
  v.framebuffer != 0 && v.pitch != 0 && v.width != 0 && v.height != 0 && v.bpp != 0

/-- The number of bytes of a pixel, `bpp >> 3`. -/
def bps : UInt32 := v.bpp >>> 3

/-- The pixels of a row that are presented. -/
def cols : UInt32 := if v.width < 800 then v.width else 800

/-- The rows that are presented. -/
def rows : UInt32 := if v.height < 600 then v.height else 600

end Vbe

/-- A colour in the format of the mode. In a format that is not known nothing is stored. -/
def pixelBytes (bpp color : UInt32) : List UInt8 :=
  if bpp = 32 then
    [color.toUInt8, (color >>> 8).toUInt8, (color >>> 16).toUInt8, (color >>> 24).toUInt8]
  else if bpp = 24 then [color.toUInt8, (color >>> 8).toUInt8, (color >>> 16).toUInt8]
  else if bpp = 16 then
    let rgb565 := (((color >>> 19) &&& 0x1F) <<< 11).toUInt16 |||
      (((color >>> 10) &&& 0x3F) <<< 5).toUInt16 ||| ((color >>> 3) &&& 0x1F).toUInt16
    [rgb565.toUInt8, (rgb565 >>> 8).toUInt8]
  else if bpp = 8 then
    let r := (color >>> 16).toUInt8.toUInt32
    let g := (color >>> 8).toUInt8.toUInt32
    let b := color.toUInt8.toUInt32
    [((r + g + b) / 48).toUInt8]
  else []

/-- The bytes stored from `a` on. -/
def storeBytes (a : UInt32) (bs : List UInt8) (m : UInt32 → UInt8) : UInt32 → UInt8 :=
  (List.range bs.length).foldl
    (fun m j => Function.update m (a + UInt32.ofNat j) (bs.getD j 0)) m

/-- `fb_present`, the memory being the bytes at their addresses. The two loops of the source differ
in how a pixel is stored. -/
def fbPresent (v : Vbe) (backbuf : Buffer) (m : UInt32 → UInt8) : UInt32 → UInt8 :=
  if v.fbReady then
    (List.range v.rows.toNat).foldl (fun m y =>
      (List.range v.cols.toNat).foldl (fun m x =>
        storeBytes (v.framebuffer + UInt32.ofNat y * v.pitch + UInt32.ofNat x * v.bps)
          (pixelBytes v.bpp (backbuf (y * 800 + x))) m) m) m
  else m

/-! ## What the display shows -/

namespace Vbe

variable (v : Vbe) (backbuf : Buffer) (a : UInt32)

/-- The row of an address. -/
def rowOf : ℕ := (a - v.framebuffer).toNat / v.pitch.toNat

/-- The pixel in its row. -/
def colOf : ℕ := (a - v.framebuffer).toNat % v.pitch.toNat / v.bps.toNat

/-- The byte in its pixel. -/
def byteOf : ℕ := (a - v.framebuffer).toNat % v.pitch.toNat % v.bps.toNat

/-- The byte is one of the display that the back buffer reaches. -/
def Shows : Prop :=
  v.rowOf a < v.rows.toNat ∧ v.colOf a < v.cols.toNat ∧ v.byteOf a < (pixelBytes v.bpp 0).length

/-- The picture of the back buffer. -/
def picture : UInt8 :=
  (pixelBytes v.bpp (backbuf (v.rowOf a * 800 + v.colOf a))).getD (v.byteOf a) 0

/-- The rows of the display lie behind each other, below the end of the memory. -/
structure Fits : Prop where
  row : v.cols.toNat * v.bps.toNat ≤ v.pitch.toNat
  memory : v.rows.toNat * v.pitch.toNat ≤ 2 ^ 32

end Vbe

variable {v : Vbe} {backbuf : Buffer} {a : UInt32} {x y j : ℕ}

theorem length_pixelBytes (bpp color : UInt32) : (pixelBytes bpp color).length =
    if bpp = 32 then 4 else if bpp = 24 then 3 else if bpp = 16 then 2 else if bpp = 8 then 1
      else 0 := by
  simp only [pixelBytes, apply_ite List.length, List.length_cons, List.length_nil]

/-- A pixel has as many bytes as its format says, if the format is known. -/
theorem length_pixelBytes_le (v : Vbe) (color : UInt32) :
    (pixelBytes v.bpp color).length ≤ v.bps.toNat := by
  rw [length_pixelBytes, Vbe.bps]
  split_ifs with h₁ h₂ h₃ h₄
  · rw [h₁]
    decide
  · rw [h₂]
    decide
  · rw [h₃]
    decide
  · rw [h₄]
    decide
  · exact Nat.zero_le _

namespace Vbe

/-- The address of a byte of a pixel. -/
def address (v : Vbe) (y x j : ℕ) : UInt32 :=
  v.framebuffer + UInt32.ofNat y * v.pitch + UInt32.ofNat x * v.bps + UInt32.ofNat j

theorem address_eq (v : Vbe) (y x j : ℕ) : v.address y x j =
    v.framebuffer + UInt32.ofNat (y * v.pitch.toNat + (x * v.bps.toNat + j)) := by
  rw [UInt32.ofNat_add, UInt32.ofNat_add, UInt32.ofNat_mul, UInt32.ofNat_mul, UInt32.ofNat_toNat,
    UInt32.ofNat_toNat, address, UInt32.add_assoc, UInt32.add_assoc]

/-- **An address is read off** as the row, the pixel and the byte it was made of. -/
theorem read_address (h : v.Fits) (hy : y < v.rows.toNat) (hx : x < v.cols.toNat)
    (hj : j < v.bps.toNat) : v.rowOf (v.address y x j) = y ∧ v.colOf (v.address y x j) = x ∧
      v.byteOf (v.address y x j) = j := by
  obtain ⟨hrow, hmem⟩ := h
  have hpix : x * v.bps.toNat + j < v.pitch.toNat := calc
    x * v.bps.toNat + j < x * v.bps.toNat + v.bps.toNat := Nat.add_lt_add_left hj _
    _ = (x + 1) * v.bps.toNat := (Nat.succ_mul ..).symm
    _ ≤ v.cols.toNat * v.bps.toNat := Nat.mul_le_mul_right _ hx
    _ ≤ v.pitch.toNat := hrow
  have hoff : y * v.pitch.toNat + (x * v.bps.toNat + j) < 2 ^ 32 := calc
    y * v.pitch.toNat + (x * v.bps.toNat + j) < y * v.pitch.toNat + v.pitch.toNat :=
      Nat.add_lt_add_left hpix _
    _ = (y + 1) * v.pitch.toNat := (Nat.succ_mul ..).symm
    _ ≤ v.rows.toNat * v.pitch.toNat := Nat.mul_le_mul_right _ hy
    _ ≤ 2 ^ 32 := hmem
  have hnat : (v.address y x j - v.framebuffer).toNat =
      y * v.pitch.toNat + (x * v.bps.toNat + j) := by
    rw [address_eq, UInt32.add_comm, UInt32.add_sub_cancel, UInt32.toNat_ofNat',
      Nat.mod_eq_of_lt hoff]
  unfold rowOf colOf byteOf
  rw [hnat]
  have hpos : 0 < v.pitch.toNat := Nat.zero_lt_of_lt hpix
  have hbps : 0 < v.bps.toNat := Nat.zero_lt_of_lt hj
  refine ⟨?_, ?_, ?_⟩
  · rw [Nat.mul_comm, Nat.mul_add_div hpos, Nat.div_eq_of_lt hpix, Nat.add_zero]
  · rw [Nat.mul_comm y, Nat.mul_add_mod, Nat.mod_eq_of_lt hpix, Nat.mul_comm x,
      Nat.mul_add_div hbps, Nat.div_eq_of_lt hj, Nat.add_zero]
  · rw [Nat.mul_comm y, Nat.mul_add_mod, Nat.mod_eq_of_lt hpix, Nat.mul_comm x,
      Nat.mul_add_mod, Nat.mod_eq_of_lt hj]

/-- Every address is the one of its row, pixel and byte. -/
theorem address_read (v : Vbe) (a : UInt32) : v.address (v.rowOf a) (v.colOf a) (v.byteOf a) = a := by
  have hnat : v.rowOf a * v.pitch.toNat + (v.colOf a * v.bps.toNat + v.byteOf a) =
      (a - v.framebuffer).toNat := by
    unfold rowOf colOf byteOf
    rw [Nat.mul_comm (_ / v.bps.toNat), Nat.div_add_mod, Nat.mul_comm, Nat.div_add_mod]
  rw [address_eq, hnat, UInt32.ofNat_toNat, UInt32.add_comm, UInt32.sub_add_cancel]

end Vbe

/-- Bytes that are part of a picture. -/
theorem paints_storeBytes {base : UInt32} {bs : List UInt8} {V : UInt32 → UInt8}
    (hV : ∀ j < bs.length, V (base + UInt32.ofNat j) = bs.getD j 0) :
    Paints (fun a => ∃ j ∈ List.range bs.length, some (base + UInt32.ofNat j) = some a) V
      (storeBytes base bs) := by
  apply Paints.foldl (f := fun j => writeAt (some (base + UInt32.ofNat j)) (bs.getD j 0))
  intro j hj
  apply paints_writeAt
  rintro _ ⟨rfl⟩
  exact hV j (List.mem_range.mp hj)

/-- A pixel that is stored is part of the picture. -/
theorem paints_pixel (h : v.Fits) (hy : y < v.rows.toNat) (hx : x < v.cols.toNat) :
    Paints (fun a => ∃ j ∈ List.range (pixelBytes v.bpp 0).length, some (v.address y x j) = some a)
      (v.picture backbuf)
      (storeBytes (v.framebuffer + UInt32.ofNat y * v.pitch + UInt32.ofNat x * v.bps)
        (pixelBytes v.bpp (backbuf (y * 800 + x)))) := by
  have hlen : (pixelBytes v.bpp (backbuf (y * 800 + x))).length = (pixelBytes v.bpp 0).length := by
    rw [length_pixelBytes, length_pixelBytes]
  rw [← hlen]
  apply paints_storeBytes
  intro j hj
  obtain ⟨hrow, hcol, hbyte⟩ := Vbe.read_address h hy hx
    (Nat.lt_of_lt_of_le hj (length_pixelBytes_le v _))
  change v.picture backbuf (v.address y x j) = _
  rw [Vbe.picture, hrow, hcol, hbyte]

/-- **The display shows the back buffer**: `fb_present` stores the picture at the bytes of the
display that the back buffer reaches, and nothing else. -/
theorem fbPresent_picture (h : v.Fits) (backbuf : Buffer) (m : UInt32 → UInt8) (a : UInt32) :
    (v.fbReady = true ∧ v.Shows a → fbPresent v backbuf m a = v.picture backbuf a) ∧
      (¬ (v.fbReady = true ∧ v.Shows a) → fbPresent v backbuf m a = m a) := by
  have hloops : Paints (fun a => v.fbReady = true ∧ ∃ y ∈ List.range v.rows.toNat,
      ∃ x ∈ List.range v.cols.toNat, ∃ j ∈ List.range (pixelBytes v.bpp 0).length,
        some (v.address y x j) = some a) (v.picture backbuf) (fbPresent v backbuf) :=
    .ite (.foldl fun y hy => .foldl fun x hx =>
      paints_pixel h (List.mem_range.mp hy) (List.mem_range.mp hx))
  refine hloops.congr (fun a => and_congr_right fun _ => ?_) m a
  constructor
  · rintro ⟨y, hy, x, hx, j, hj, ha⟩
    have hj' := List.mem_range.mp hj
    obtain ⟨hrow, hcol, hbyte⟩ := Vbe.read_address h (List.mem_range.mp hy) (List.mem_range.mp hx)
      (Nat.lt_of_lt_of_le hj' (length_pixelBytes_le v _))
    obtain rfl := Option.some.inj ha
    unfold Vbe.Shows
    rw [hrow, hcol, hbyte]
    exact ⟨List.mem_range.mp hy, List.mem_range.mp hx, hj'⟩
  · rintro ⟨hrow, hcol, hbyte⟩
    exact ⟨_, List.mem_range.mpr hrow, _, List.mem_range.mpr hcol, _, List.mem_range.mpr hbyte,
      congrArg some (v.address_read a)⟩

/-- The mode that the loader falls back to. -/
def mode13 : Vbe := ⟨0xA0000, 320, 320, 200, 8⟩

/-- The theorem for the second pixel of the second row in that mode. -/
theorem fbPresent_picture_mode13 :
    fbPresent mode13 (fun _ => 0xFFFFFF) (fun _ => 0) 0xA0141 = 15 := by
  have hshown := (fbPresent_picture (⟨by decide, by decide⟩ : mode13.Fits) (fun _ => 0xFFFFFF)
    (fun _ => 0) 0xA0141).1
  exact (hshown ⟨rfl, by unfold Vbe.Shows; decide⟩).trans (by decide)

end WarkRune.Graphics

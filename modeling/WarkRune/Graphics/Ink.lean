import WarkRune.Graphics.Text

/-!
# What text and rectangles cover

A text is drawn in one colour, and so is a rectangle: they are given by the pixels they cover. The
characters of a text lie side by side, each in a square of 8 by 8 pixels.

## Main definitions

* `GlyphInk`, `Ink`: the pixels of a character, and of a text
* `Cell`: the pixels of a square of 8 by 8

## Main results

* `paints_printxy`, `paints_drawRect`: text and rectangles paint their pixels
* `ink_concat`: a text with one more character
* `cell_of_glyphInk`: a character stays in its square
-/

namespace WarkRune.Graphics

open Io (wrap32)

/-- The pixels of a character. -/
def GlyphInk (font : ℕ → UInt8) (ch : UInt8) (cx y : ℤ) (c : ℕ) : Prop :=
  ∃ row ∈ List.range 8, ∃ col ∈ List.range 8,
    (font ((ch.toNat - 0x20) * 8 + row)).toNat.testBit (7 - col) = true ∧
      pixelAt (wrap32 (cx + col)) (wrap32 (y + row)) = some c

/-- The pixels of a text. -/
def Ink (font : ℕ → UInt8) : List UInt8 → ℤ → ℤ → ℕ → Prop
  | [], _, _, _ => False
  | ch :: str, cx, y, c =>
    ¬ (ch < 0x20 ∨ ch > 0x7E) ∧ GlyphInk font ch cx y c ∨ Ink font str (wrap32 (cx + 8)) y c

/-- The pixels of a square of 8 by 8. -/
def Cell (x y : ℤ) (c : ℕ) : Prop :=
  ∃ col row : ℕ, col < 8 ∧ row < 8 ∧ pixelAt (x + col) (y + row) = some c

theorem paints_putPixel (x y : ℤ) (color : UInt32) :
    Paints (fun c => pixelAt x y = some c) (fun _ => color) (putPixel x y color) :=
  paints_writeAt fun _ _ => rfl

theorem paints_drawGlyph (font : ℕ → UInt8) (ch : UInt8) (cx y : ℤ) (color : UInt32) :
    Paints (GlyphInk font ch cx y) (fun _ => color) (drawGlyph font ch cx y color) :=
  .foldl fun _ _ => .foldl fun _ _ => .ite (paints_putPixel _ _ color)

/-- **A text paints its pixels.** -/
theorem paints_printxy (font : ℕ → UInt8) (str : List UInt8) (cx y : ℤ) (color : UInt32) :
    Paints (Ink font str cx y) (fun _ => color) (printxy font str cx y color) := by
  induction str generalizing cx with
  | nil => exact .id _
  | cons ch str ih =>
    have hglyph : Paints (fun c => ¬ (ch < 0x20 ∨ ch > 0x7E) ∧ GlyphInk font ch cx y c)
        (fun _ => color) fun buf =>
          if ch < 0x20 ∨ ch > 0x7E then buf else drawGlyph font ch cx y color buf := by
      have hdraw := (paints_drawGlyph font ch cx y color).ite
        (p := ¬ (ch < 0x20 ∨ ch > 0x7E))
      simpa only [ite_not] using hdraw
    exact (ih (wrap32 (cx + 8))).comp hglyph

variable {font : ℕ → UInt8}

theorem paints_drawRect (x y w h : ℤ) (color : UInt32) :
    Paints (fun c => ∃ py ∈ ints y (wrap32 (y + h)), ∃ px ∈ ints x (wrap32 (x + w)),
      pixelAt px py = some c) (fun _ => color) (drawRect x y w h color) :=
  .foldl fun py _ => .foldl fun px _ => paints_putPixel px py color

/-- A square is a rectangle, where its edges do not wrap. -/
theorem paints_square {x y : ℤ} (hx : wrap32 (x + 8) = x + 8) (hy : wrap32 (y + 8) = y + 8)
    (color : UInt32) : Paints (Cell x y) (fun _ => color) (drawRect x y 8 8 color) := by
  refine (paints_drawRect x y 8 8 color).congr fun c => ?_
  rw [hx, hy]
  constructor
  · rintro ⟨py, hpy, px, hpx, hc⟩
    have hpy' := mem_ints.mp hpy
    have hpx' := mem_ints.mp hpx
    have hcol : x + ((px - x).toNat : ℤ) = px := by omega
    have hrow : y + ((py - y).toNat : ℤ) = py := by omega
    exact ⟨(px - x).toNat, (py - y).toNat, by omega, by omega, by rwa [hcol, hrow]⟩
  · rintro ⟨col, row, hcol, hrow, hc⟩
    exact ⟨y + row, mem_ints.mpr (by omega), x + col, mem_ints.mpr (by omega), hc⟩

/-- **A character stays in its square.** -/
theorem cell_of_glyphInk {ch : UInt8} {cx y : ℤ} {c : ℕ} (h : GlyphInk font ch cx y c) :
    Cell cx y c := by
  obtain ⟨row, hrow, col, hcol, -, hc⟩ := h
  rw [pixelAt_wrap32] at hc
  exact ⟨col, row, List.mem_range.mp hcol, List.mem_range.mp hrow, hc⟩

theorem glyphInk_wrap32 {ch : UInt8} {cx y : ℤ} {c : ℕ} :
    GlyphInk font ch (wrap32 cx) y c ↔ GlyphInk font ch cx y c := by
  have hcol (col : ℕ) : wrap32 (wrap32 cx + col) = wrap32 (cx + col) := Int.bmod_add_bmod
  simp only [GlyphInk, hcol]

theorem ink_wrap32 {str : List UInt8} {cx y : ℤ} {c : ℕ} :
    Ink font str (wrap32 cx) y c ↔ Ink font str cx y c := by
  cases str with
  | nil => exact Iff.rfl
  | cons ch str =>
    have hnext : wrap32 (wrap32 cx + 8) = wrap32 (cx + 8) := Int.bmod_add_bmod
    rw [Ink, Ink, glyphInk_wrap32, hnext]

/-- **A text with one more character** covers the pixels of that character as well. -/
theorem ink_concat {str : List UInt8} {ch : UInt8} {cx y : ℤ} {c : ℕ} :
    Ink font (str ++ [ch]) cx y c ↔
      Ink font str cx y c ∨ Ink font [ch] (cx + 8 * str.length) y c := by
  induction str generalizing cx with
  | nil => simp [Ink]
  | cons b str ih =>
    have hx : cx + 8 + 8 * (str.length : ℤ) = cx + 8 * ((b :: str).length : ℕ) := by
      rw [List.length_cons]
      push_cast
      omega
    rw [List.cons_append, Ink, Ink, ink_wrap32, ink_wrap32, ih, hx, or_assoc]

/-- A text stays in the squares of its characters. -/
theorem cell_of_ink {str : List UInt8} {cx y : ℤ} {c : ℕ} (h : Ink font str cx y c) :
    ∃ i < str.length, Cell (cx + 8 * i) y c := by
  induction str generalizing cx with
  | nil => exact h.elim
  | cons b str ih =>
    rcases h with ⟨-, hglyph⟩ | hstr
    · have hx : cx = cx + 8 * (0 : ℕ) := by omega
      exact ⟨0, Nat.zero_lt_succ _, hx ▸ cell_of_glyphInk hglyph⟩
    · obtain ⟨i, hi, hc⟩ := ih (ink_wrap32.mp hstr)
      have hx : cx + 8 + 8 * (i : ℤ) = cx + 8 * (i + 1 : ℕ) := by
        push_cast
        omega
      exact ⟨i + 1, Nat.succ_lt_succ hi, hx ▸ hc⟩

end WarkRune.Graphics

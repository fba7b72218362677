import WarkRune.Graphics.Ink
import WarkRune.Shell.Readline

/-!
# The line on the screen

`shell_readline` draws each character behind the line. A backspace clears the square of the last
character and draws the whole line again, over what is there. On a row whose squares are in the
colour of the background this leaves the row as if the line had been printed once.

The drawing is the one beside the mouse cursor, which is saved and put back on its own.

## Main definitions

* `drawing`: what has been drawn
* `Blank`: the squares of a row are in the colour of the background

## Main results

* `draws_line`: every key keeps the line on the row
* `readline_shows`: the row shows the prompt and the line that is returned
-/

namespace WarkRune.Shell

open Graphics (Buffer Op Cell Ink printxy drawRect fillScreen pixelAt_inj paints_printxy
  paints_square ink_concat cell_of_ink)
open Io (wrap32)
open LineEdit (edit)

/-- What has been drawn on the buffer, the cursor apart. -/
def drawing (font : ℕ → UInt8) (ready : Bool) (b : Buffer) (d : List Event) : Buffer :=
  Machine.after (drawStep font ready) b d.reverse

/-- The squares of the first `n` characters of a line are in the colour of the background. -/
def Blank (n : ℕ) (y : ℤ) (b : Buffer) : Prop :=
  ∀ k < n, ∀ c, Cell (promptPx + 8 * k) y c → b c = colBg

variable {font : ℕ → UInt8} {ready : Bool} {b base : Buffer} {y : ℤ} {cap : ℕ}

theorem drawing_cons (d : List Event) (e : Event) :
    drawing font ready b (e :: d) = drawStep font ready (drawing font ready b d) e := by
  rw [drawing, List.reverse_cons, Machine.after_concat]
  rfl

theorem drawing_printxy (d : List Event) (str : List UInt8) (x y : ℤ) (color : UInt32) :
    drawing font ready b (.draw (.printxy str (cint x) (cint y) color) :: d) =
      printxy font str (wrap32 x) (wrap32 y) color (drawing font ready b d) := drawing_cons ..

theorem drawing_drawRect (d : List Event) (x y w h : ℤ) (color : UInt32) :
    drawing font ready b (.draw (.drawRect (cint x) (cint y) (cint w) (cint h) color) :: d) =
      drawRect (wrap32 x) (wrap32 y) (wrap32 w) (wrap32 h) color (drawing font ready b d) :=
  drawing_cons ..

/-- One more character. -/
theorem printxy_concat (w : List UInt8) (c : UInt8) (x y : ℤ) (color : UInt32) (b : Buffer) :
    printxy font [c] (x + 8 * w.length) y color (printxy font w x y color b) =
      printxy font (w ++ [c]) x y color b := by
  have hboth := (paints_printxy font [c] (x + 8 * w.length) y color).comp
    (paints_printxy font w x y color)
  exact (hboth.congr fun _ => ink_concat.symm).eq (paints_printxy font (w ++ [c]) x y color) b

/-- **A character that is cleared** leaves the line before it. -/
theorem printxy_erase (w : List UInt8) (c : UInt8) {x y : ℤ}
    (hx : wrap32 (x + 8 * w.length + 8) = x + 8 * w.length + 8) (hy : wrap32 (y + 8) = y + 8)
    {color bg : UInt32} (hbg : ∀ p, Cell (x + 8 * w.length) y p → b p = bg) :
    printxy font w x y color
        (drawRect (x + 8 * w.length) y 8 8 bg (printxy font (w ++ [c]) x y color b)) =
      printxy font w x y color b := by
  have hline := paints_printxy font w x y color
  have hsquare := paints_square hx hy bg
  have hlong := paints_printxy font (w ++ [c]) x y color
  funext p
  by_cases hink : Ink font w x y p
  · exact ((hline _ p).1 hink).trans ((hline _ p).1 hink).symm
  rw [(hline _ p).2 hink, (hline _ p).2 hink]
  by_cases hcell : Cell (x + 8 * w.length) y p
  · exact ((hsquare _ p).1 hcell).trans (hbg p hcell).symm
  · -- outside of its square the character has no pixels
    rw [(hsquare _ p).2 hcell]
    refine (hlong _ p).2 fun h => ?_
    rcases ink_concat.mp h with h | h
    · exact hink h
    · obtain ⟨i, hi, hc⟩ := cell_of_ink h
      obtain rfl := Nat.lt_one_iff.mp hi
      have hx : x + 8 * w.length + 8 * ((0 : ℕ) : ℤ) = x + 8 * w.length := by omega
      exact hcell (hx ▸ hc)

/-- **Every key keeps the line on its row.** -/
theorem draws_line (hylo : -2 ^ 31 ≤ y) (hyhi : y + 8 < 2 ^ 31) (hcap : cap < 2 ^ 20)
    (hbase : Blank cap y base) : Draws y cap fun w d =>
      drawing font ready b d = printxy font w promptPx y colFg base := by
  have hy : wrap32 y = y := wrap32_eq hylo (by omega)
  have hpx : promptPx = 80 := rfl
  have hstart : wrap32 promptPx = promptPx := wrap32_eq (by omega) (by omega)
  refine ⟨fun w d p q hI => ?_, fun w d c hlt hI => ?_, fun w d c hlt hI => ?_⟩
  · rw [drawing_cons]
    exact hI
  · have hx : wrap32 (promptPx + 8 * w.length) = promptPx + 8 * w.length :=
      wrap32_eq (by omega) (by omega)
    rw [drawing_printxy, hI, hx, hy]
    exact printxy_concat w c promptPx y colFg base
  · have hx : wrap32 (promptPx + 8 * w.length) = promptPx + 8 * w.length :=
      wrap32_eq (by omega) (by omega)
    rw [drawing_printxy, drawing_drawRect, hI, hx, hy, hstart, show wrap32 8 = 8 from rfl]
    exact printxy_erase w c (wrap32_eq (by omega) (by omega)) (wrap32_eq (by omega) hyhi)
      (hbase w.length (by omega))

/-- The prompt is in front of the squares of the line. -/
theorem blank_prompt (hcap : cap < 2 ^ 20) (hb : Blank cap y b) :
    Blank cap y (printxy font prompt 0 y colPrompt b) := by
  intro k hk c hc
  have hout : ¬ Ink font prompt 0 y c := by
    intro h
    obtain ⟨i, hi, hi'⟩ := cell_of_ink h
    obtain ⟨col, row, hcol, hrow, hpix⟩ := hc
    obtain ⟨col', row', hcol', hrow', hpix'⟩ := hi'
    obtain ⟨hx, -⟩ := pixelAt_inj hpix hpix'
    have hlen : prompt.length = 10 := rfl
    unfold promptPx at hx
    omega
  rw [(paints_printxy font prompt 0 y colPrompt _ c).2 hout]
  exact hb k hk c hc

/-- Filling the screen leaves every row blank. -/
theorem blank_fillScreen (n : ℕ) (y : ℤ) (b : Buffer) : Blank n y (fillScreen true colBg b) := by
  intro k _ c hc
  obtain ⟨col, row, -, -, hpix⟩ := hc
  have hlt : c < 800 * 600 := by
    unfold Graphics.pixelAt at hpix
    split at hpix
    · have hc := Option.some.inj hpix
      omega
    · cases hpix
  have hall : Paints (fun c => ∃ i ∈ List.range (800 * 600), some i = some c) (fun _ => colBg)
      fun b : Buffer => (List.range (800 * 600)).foldl (fun b i => Function.update b i colBg) b :=
    .foldl fun i _ => paints_writeAt fun _ _ => rfl
  exact (hall b c).1 ⟨c, List.mem_range.mpr hlt, rfl⟩

/-- The buffer that the prompt is drawn on. -/
def Terminal.page (s : Terminal) (font : ℕ → UInt8) (ready : Bool) (b : Buffer) : Buffer :=
  if wrap32 (s.y + 10) > 600 then fillScreen ready colBg (drawing font ready b s.drawn)
  else drawing font ready b s.drawn

/-- **The row shows the prompt and the line**: on a row whose squares are blank, or on a screen that
is full and is cleared first, what has been drawn when the line is returned is the prompt and the
line, each printed once. -/
theorem readline_shows {s : Terminal} {cs : List UInt8} {e : UInt8} {m : ℕ} (hylo : -2 ^ 31 ≤ s.y)
    (hyhi : s.y + 10 < 2 ^ 31) (h0 : 0 < cap) (hcap : cap < 2 ^ 20)
    (ht : Typed s.keys s.polls cs e m)
    (hrow : s.y + 10 ≤ 600 → Blank cap s.y (drawing font ready b s.drawn))
    (hfull : 600 < s.y + 10 → ready = true) (buf : ℕ → UInt8) :
    (shellReadline buf cap).Yields s fun line s' => line = edit (cap - 1) [] (cs.map keyOf) ∧
      drawing font ready b s'.drawn = printxy font line promptPx s.row colFg
        (printxy font prompt 0 s.row colPrompt (s.page font ready b)) := by
  have hwrap : wrap32 (s.y + 10) = s.y + 10 := wrap32_eq (by omega) hyhi
  have hpage : Blank cap s.row (s.page font ready b) := by
    unfold Terminal.row Terminal.page
    rw [hwrap]
    split_ifs with h
    · rw [hfull h]
      exact blank_fillScreen cap 0 _
    · exact hrow (not_lt.mp h)
  have hlo : -2 ^ 31 ≤ s.row := by
    unfold Terminal.row
    split <;> omega
  have hhi : s.row + 8 < 2 ^ 31 := by
    unfold Terminal.row
    split <;> omega
  have hopened : drawing font ready b s.opened =
      printxy font [] promptPx s.row colFg
        (printxy font prompt 0 s.row colPrompt (s.page font ready b)) := by
    rw [Terminal.opened, drawing_printxy, wrap32_eq hlo (by omega), show wrap32 0 = 0 from rfl,
      printxy]
    congr 1
    unfold Terminal.page
    split_ifs
    · exact drawing_cons _ _
    · rfl
  refine (shellReadline_reads (draws_line hlo hhi hcap (blank_prompt hcap hpage)) h0 hcap ht
    hopened).mono ?_
  rintro line s' ⟨hline, hshown, -⟩
  exact ⟨hline, hshown⟩

/-- The theorem for `ls`, typed on a blank screen. -/
theorem readline_shows_ls :
    (shellReadline (fun _ => 0) 128).Yields (.start [108, 115, 13]) fun line s' =>
      line = [108, 115] ∧ drawing (fun _ => 0) true (fun _ => colBg) s'.drawn =
        printxy (fun _ => 0) line promptPx 0 colFg
          (printxy (fun _ => 0) prompt 0 0 colPrompt fun _ => colBg) := by
  obtain ⟨m, ht⟩ : ∃ m, Typed (Terminal.start [108, 115, 13]).keys 0 [108, 115] 13 m :=
    typed_of_filter [] rfl (by decide +kernel) (.inl rfl) fun i _ => congrArg _ (Nat.zero_add i)
  exact readline_shows (s := .start [108, 115, 13]) (by decide) (by decide) (by decide) (by decide)
    ht (fun _ _ _ _ _ => rfl) (fun h => absurd h (by decide)) _

end WarkRune.Shell

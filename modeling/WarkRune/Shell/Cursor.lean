import WarkRune.Graphics.Text

/-!
# The mouse cursor

`update_cursor` puts back the pixels it saved under the cursor, saves those at the new position and
draws the sprite over them. The saved pixels are those from before the sprite was drawn, so whatever
is drawn under the cursor afterwards is lost with the next update; and a cursor that sticks out over
the left or the upper edge is not taken away at all.

## Main definitions

* `Cursor`: the back buffer, and the variables of the cursor
* `cursorSaveBg`, `cursorRestoreBg`, `drawCursorSprite`, `updateCursor`: the functions
* `Event`: a drawing operation, or an update at a mouse position
* `Removed`: taking the cursor away leaves the drawing
* `Harmless`: an event that the drawing survives

## Main results

* `cursorRestoreBg_apply`: the buffer without the cursor
* `removed_step_iff`: one event keeps the drawing exactly when it is harmless
* `cursor_keeps_drawing_iff`: so does a run
-/

namespace WarkRune.Shell

open Graphics (Buffer CInt Op pixelAt drawRect pixelAt_wrap32 pixelAt_inj mem_ints pointwise_draw)
open Io (wrap32)

/-- The back buffer, and the variables of the cursor. -/
structure Cursor where
  backbuf : Buffer
  /-- `cursor_save`, 96 pixels. -/
  save : ℕ → UInt32
  saved : Bool
  lastCx : ℤ
  lastCy : ℤ

/-- `CURS_W`. -/
def cursW : ℕ := 8

/-- `CURS_H`. -/
def cursH : ℕ := 12

/-- `COL_BG`. -/
def colBg : UInt32 := 0x1C1C1C

/-- The columns and rows of the cursor, row by row. -/
def footprint : List (ℕ × ℕ) :=
  (List.range cursH).flatMap fun py => (List.range cursW).map fun px => (px, py)

/-- The place of a pixel in `cursor_save`. -/
def saveIndex (p : ℕ × ℕ) : ℕ := p.2 * cursW + p.1

/-- The place in the back buffer of a pixel of a cursor at `(x, y)`. -/
def cursorPixel (x y : ℤ) (p : ℕ × ℕ) : Option ℕ := pixelAt (wrap32 (x + p.1)) (wrap32 (y + p.2))

/-- `cursor_save_bg`. -/
def cursorSaveBg (x y : ℤ) (s : Cursor) : Cursor :=
  { s with
    save := writeAll (fun p => some (saveIndex p))
      (fun p => match cursorPixel x y p with
        | some c => s.backbuf c
        | none => colBg) footprint s.save
    saved := true }

/-- `cursor_restore_bg`. -/
def cursorRestoreBg (x y : ℤ) (s : Cursor) : Cursor :=
  if s.saved then
    { s with backbuf :=
      writeAll (cursorPixel x y) (fun p => s.save (saveIndex p)) footprint s.backbuf }
  else s

/-- `draw_cursor_sprite`. -/
def drawCursorSprite (x y : ℤ) (s : Cursor) : Cursor :=
  { s with backbuf := drawRect x y cursW 2 0xFFFFFF (drawRect x y 2 cursH 0xFFFFFF s.backbuf) }

/-- `update_cursor` with the mouse at `(x, y)`. -/
def updateCursor (x y : ℤ) (s : Cursor) : Cursor :=
  let s := if s.lastCx ≥ 0 ∧ s.lastCy ≥ 0 then cursorRestoreBg s.lastCx s.lastCy s else s
  let s := drawCursorSprite x y (cursorSaveBg x y s)
  { s with lastCx := x, lastCy := y }

/-- The cursor before the first update. -/
def Cursor.start (buf : Buffer) (save : ℕ → UInt32) : Cursor := ⟨buf, save, false, -1, -1⟩

/-! ## Events -/

/-- A drawing operation, or an update with the mouse at a position. -/
inductive Event where
  | draw (op : Op)
  | update (x y : CInt)

section Steps

variable (font : ℕ → UInt8) (ready : Bool)

/-- What an event does. -/
def Cursor.step (s : Cursor) : Event → Cursor
  | .draw op => { s with backbuf := op.draw font ready s.backbuf }
  | .update x y => updateCursor x.val y.val s

/-- What an event does to the drawing alone. -/
def drawStep (buf : Buffer) : Event → Buffer
  | .draw op => op.draw font ready buf
  | .update _ _ => buf

end Steps

/-- The back buffer once the cursor has been taken away at its last position. -/
def Cursor.removed (s : Cursor) : Buffer := (cursorRestoreBg s.lastCx s.lastCy s).backbuf

/-- A pixel under the cursor as it was saved last. -/
def Cursor.Under (s : Cursor) (c : ℕ) : Prop :=
  s.saved = true ∧ ∃ p ∈ footprint, cursorPixel s.lastCx s.lastCy p = some c

/-! ## Pixels of the cursor -/

section Pixels

variable {s : Cursor} {x y : ℤ} {p q : ℕ × ℕ} {c : ℕ}

theorem mem_footprint : p ∈ footprint ↔ p.1 < cursW ∧ p.2 < cursH := by
  obtain ⟨px, py⟩ := p
  simp only [footprint, List.mem_flatMap, List.mem_map, List.mem_range, Prod.mk.injEq]
  constructor
  · rintro ⟨j, hj, i, hi, rfl, rfl⟩
    exact ⟨hi, hj⟩
  · rintro ⟨hi, hj⟩
    exact ⟨py, hj, px, hi, rfl, rfl⟩

theorem cursorPixel_eq (x y : ℤ) (p : ℕ × ℕ) :
    cursorPixel x y p = pixelAt (x + p.1) (y + p.2) := pixelAt_wrap32 _ _

/-- The pixels of the cursor are different ones. -/
theorem cursorPixel_inj (hp : p ∈ footprint) (hq : q ∈ footprint)
    (h : cursorPixel x y p = some c) (h' : cursorPixel x y q = some c) : p = q := by
  rw [cursorPixel_eq] at h h'
  obtain ⟨hx, hy⟩ := pixelAt_inj h h'
  have hp' := mem_footprint.mp hp
  have hq' := mem_footprint.mp hq
  unfold cursW cursH at hp' hq'
  exact Prod.ext (by omega) (by omega)

theorem saveIndex_inj (hp : p ∈ footprint) (hq : q ∈ footprint)
    (h : saveIndex p = saveIndex q) : p = q := by
  have hp' := mem_footprint.mp hp
  have hq' := mem_footprint.mp hq
  unfold saveIndex cursW at h
  unfold cursW cursH at hp' hq'
  exact Prod.ext (by omega) (by omega)

/-- **Without the cursor**: a pixel under it is the one that was saved, any other is that of the
back buffer. -/
theorem removed_of_under (hs : s.saved = true) (hp : p ∈ footprint)
    (hc : cursorPixel s.lastCx s.lastCy p = some c) : s.removed c = s.save (saveIndex p) := by
  have hrestore := writeAll_apply (v := fun p => s.save (saveIndex p)) hp hc
    (fun q hq h => by rw [cursorPixel_inj hq hp h hc]) s.backbuf
  rw [Cursor.removed, cursorRestoreBg, if_pos hs]
  exact hrestore

theorem removed_of_not_under (h : ¬ s.Under c) : s.removed c = s.backbuf c := by
  unfold Cursor.removed cursorRestoreBg
  by_cases hs : s.saved = true
  · have hne : ∀ p ∈ footprint, cursorPixel s.lastCx s.lastCy p ≠ some c :=
      fun p hp hc => h ⟨hs, p, hp, hc⟩
    have hrestore := writeAll_of_forall_ne (v := fun p => s.save (saveIndex p)) hne s.backbuf
    rw [if_pos hs]
    exact hrestore
  · rw [if_neg hs]

/-- **What is saved** of a pixel on the screen is the pixel. -/
theorem cursorSaveBg_save (hp : p ∈ footprint) (hc : cursorPixel x y p = some c) :
    (cursorSaveBg x y s).save (saveIndex p) = s.backbuf c := by
  have hcell : (fun q => some (saveIndex q)) p = some (saveIndex p) := rfl
  rw [cursorSaveBg]
  dsimp only
  rw [writeAll_apply hp hcell, hc]
  exact fun q hq h => by rw [saveIndex_inj hq hp (Option.some_inj.mp h)]

/-- A rectangle of the sprite is under the cursor. -/
theorem changesOnly_drawRect (x y : CInt) {w h : ℕ} (hw : w ≤ cursW) (hh : h ≤ cursH)
    (color : UInt32) :
    ChangesOnly (fun c => ∃ p ∈ footprint, cursorPixel x.val y.val p = some c)
      (drawRect x.val y.val w h color) := by
  have hx := x.property
  have hy := y.property
  have hbound (z : ℤ) (hz : -2 ^ 31 ≤ z) : wrap32 z ≤ z := by
    unfold wrap32
    rw [Int.bmod_def]
    omega
  refine ChangesOnly.foldl fun py hpy => ChangesOnly.foldl fun px hpx => ?_
  have hpy' := mem_ints.mp hpy
  have hpx' := mem_ints.mp hpx
  have hwx := hbound (x.val + w) (by omega)
  have hwy := hbound (y.val + h) (by omega)
  obtain ⟨i, rfl⟩ : ∃ i : ℕ, px = x.val + i := ⟨(px - x.val).toNat, by omega⟩
  obtain ⟨j, rfl⟩ : ∃ j : ℕ, py = y.val + j := ⟨(py - y.val).toNat, by omega⟩
  refine changesOnly_writeAt (fun c hc => ⟨(i, j), mem_footprint.mpr ⟨?_, ?_⟩, ?_⟩) color
  · exact Nat.lt_of_lt_of_le (by omega) hw
  · exact Nat.lt_of_lt_of_le (by omega) hh
  · rw [cursorPixel_eq]
    exact hc

end Pixels

/-! ## Events and the drawing -/

section Events

variable {s : Cursor} {c : ℕ}

/-- The buffer that an update starts from: without the cursor, if its position is not negative. -/
def Cursor.erased (s : Cursor) : Buffer :=
  if s.lastCx ≥ 0 ∧ s.lastCy ≥ 0 then s.removed else s.backbuf

/-- **Taking away the cursor of an update** leaves the buffer that the update started from. -/
theorem removed_updateCursor (x y : CInt) (s : Cursor) :
    (updateCursor x.val y.val s).removed = s.erased := by
  let s₁ := if s.lastCx ≥ 0 ∧ s.lastCy ≥ 0 then cursorRestoreBg s.lastCx s.lastCy s else s
  have hs₁ : s₁.backbuf = s.erased := apply_ite Cursor.backbuf _ _ _
  funext c
  rw [← hs₁]
  by_cases hc : (updateCursor x.val y.val s).Under c
  · obtain ⟨hsaved, p, hp, hpc⟩ := hc
    rw [removed_of_under hsaved hp hpc]
    exact cursorSaveBg_save (s := s₁) hp hpc
  · have hout : ¬ ∃ p ∈ footprint, cursorPixel x.val y.val p = some c := fun h => hc ⟨rfl, h⟩
    rw [removed_of_not_under hc]
    have hstem := changesOnly_drawRect x y (w := 2) (h := cursH) (by decide) le_rfl 0xFFFFFF
    have hcap := changesOnly_drawRect x y (w := cursW) (h := 2) le_rfl (by decide) 0xFFFFFF
    exact (hcap.comp hstem) s₁.backbuf c hout

/-- Taking the cursor away leaves the drawing. -/
def Removed (p : Cursor × Buffer) : Prop := p.1.removed = p.2

/-- An event that the drawing survives. A drawing operation changes no pixel under the cursor, as
these are without it; and an update finds the last position not negative, or no pixel under the
cursor that shows it. -/
def Harmless (font : ℕ → UInt8) (ready : Bool) (p : Cursor × Buffer) : Event → Prop
  | .draw op => ∀ c, p.1.Under c → op.draw font ready p.2 c = p.2 c
  | .update _ _ => (0 ≤ p.1.lastCx ∧ 0 ≤ p.1.lastCy) ∨ ∀ c, p.1.Under c → p.1.backbuf c = p.2 c

variable (font : ℕ → UInt8) (ready : Bool)

/-- An operation leaves the drawing when it draws nothing new under the cursor. -/
theorem removed_draw_iff {buf : Buffer} (h : s.removed = buf) (op : Op) :
    ({ s with backbuf := op.draw font ready s.backbuf } : Cursor).removed =
        op.draw font ready buf ↔
      ∀ c, s.Under c → op.draw font ready buf c = buf c := by
  let s' : Cursor := { s with backbuf := op.draw font ready s.backbuf }
  -- under the cursor the saved pixel comes back, whatever was drawn
  have hunder (c : ℕ) (hc : s.Under c) : s'.removed c = buf c := by
    obtain ⟨hs, p, hp, hpc⟩ := hc
    rw [← h, removed_of_under (s := s') hs hp hpc, removed_of_under hs hp hpc]
  have hout (c : ℕ) (hc : ¬ s.Under c) : s'.removed c = op.draw font ready buf c := by
    rw [removed_of_not_under (s := s') hc]
    refine pointwise_draw font ready op _ _ c ?_
    rw [← h, removed_of_not_under hc]
  constructor
  · intro heq c hc
    rw [← heq]
    exact hunder c hc
  · intro hsame
    funext c
    by_cases hc : s.Under c
    · exact (hunder c hc).trans (hsame c hc).symm
    · exact hout c hc

/-- An update leaves the drawing when it starts from it. -/
theorem erased_eq_iff {buf : Buffer} (h : s.removed = buf) : s.erased = buf ↔
    (0 ≤ s.lastCx ∧ 0 ≤ s.lastCy) ∨ ∀ c, s.Under c → s.backbuf c = buf c := by
  unfold Cursor.erased
  by_cases hpos : s.lastCx ≥ 0 ∧ s.lastCy ≥ 0
  · rw [if_pos hpos]
    exact iff_of_true h (.inl hpos)
  · rw [if_neg hpos, or_iff_right hpos]
    constructor
    · exact fun heq c _ => congrFun heq c
    · intro hsame
      funext c
      by_cases hc : s.Under c
      · exact hsame c hc
      · rw [← h, removed_of_not_under hc]

/-- **One event leaves the drawing** exactly when it is harmless. -/
theorem removed_step_iff {p : Cursor × Buffer} (h : Removed p) (e : Event) :
    Removed (Machine.both (Cursor.step font ready) (drawStep font ready) p e) ↔
      Harmless font ready p e := by
  cases e with
  | draw op => exact removed_draw_iff font ready h op
  | update x y =>
    refine Iff.trans ?_ (erased_eq_iff h)
    exact ⟨fun hr => (removed_updateCursor x y p.1).symm.trans hr,
      fun he => (removed_updateCursor x y p.1).trans he⟩

/-- **The cursor leaves the drawing** throughout a run of drawing operations and updates, in any
order and at any positions, exactly when every event is harmless. -/
theorem cursor_keeps_drawing_iff (buf : Buffer) (save : ℕ → UInt32) (es : List Event) :
    (∀ fs, fs <+: es → (Machine.after (Cursor.step font ready) (.start buf save) fs).removed =
        Machine.after (drawStep font ready) buf fs) ↔
      Machine.Admits (Machine.both (Cursor.step font ready) (drawStep font ready))
        (Harmless font ready) (.start buf save, buf) es := by
  rw [← Machine.visits_iff (s := (Cursor.start buf save, buf)) (I := Removed) (Q := Removed)
    (fun p e hp hok => (removed_step_iff font ready hp e).mpr hok) (fun p hp => hp)
    (fun p e hp hok => mt (removed_step_iff font ready hp e).mp hok) rfl]
  simp only [Machine.after_both, Removed]

end Events

/-- **A pixel under the cursor**: the cursor is shown at (10, 10), and a pixel drawn there is lost
when it is taken away. -/
theorem cursor_loses_pixel :
    (Machine.after (Cursor.step (fun _ => 0) true) (.start (fun _ => 0) fun _ => 0)
      [.update ⟨10, by decide⟩ ⟨10, by decide⟩,
        .draw (.putPixel ⟨10, by decide⟩ ⟨10, by decide⟩ 0xFF0000)]).removed (10 * 800 + 10) = 0 ∧
    Machine.after (drawStep (fun _ => 0) true) (fun _ => 0)
      [.update ⟨10, by decide⟩ ⟨10, by decide⟩,
        .draw (.putPixel ⟨10, by decide⟩ ⟨10, by decide⟩ 0xFF0000)] (10 * 800 + 10) =
      0xFF0000 := by
  decide +kernel

end WarkRune.Shell

import Mathlib.Data.UInt
import WarkRune.Edit.Line
import WarkRune.Exec.Yields
import WarkRune.Io.Keys
import WarkRune.Shell.Cursor

/-!
# Reading a line from the keyboard

`shell_readline` prints the prompt and then takes keys until a line end. It polls `read_key`, and
updates the mouse cursor while there is no key. A character is stored, echoed on the serial port and
drawn behind the line; a backspace takes the last one away and draws the line anew.

What `read_key` and `mouse_get` return is a sequence the state carries, one entry for each call.

## Main definitions

* `Terminal`, `shellReadline`: what the function acts on, and the function
* `keyOf`: what a character means to the line
* `Typed`: the keys of a line
* `Draws`: what is drawn keeps up with the line

## Main results

* `lineKey_edits`: a key edits the line
* `shellReadline_reads`: the line that is returned, and what is echoed
* `shellReadline_halts_iff`: the function returns when a line end is typed
* `typed_line`: a line that is typed on the keyboard is read
-/

namespace WarkRune.Shell

open Graphics (CInt Op)
open Io (wrap32)
open LineEdit (Key Holds press edit strOf)

/-- What reading a line acts on. -/
structure Terminal where
  /-- `_y`, the row to print at next. -/
  y : ℤ
  /-- What the `n`-th call of `read_key` returns, 0 for no key. -/
  keys : ℕ → UInt8
  polls : ℕ
  /-- What the `n`-th call of `mouse_get` returns. -/
  mouse : ℕ → CInt × CInt
  updates : ℕ
  /-- The bytes the serial port has received. -/
  received : List UInt8
  /-- The bytes sent on the serial port, the latest first. -/
  sent : List UInt8
  /-- What was drawn, the latest first. -/
  drawn : List Event

/-- A program over the terminal. -/
abbrev Term (α : Type) := Exec Terminal α

/-- `COL_FG`. -/
def colFg : UInt32 := 0xFFFFFF

/-- `COL_PROMPT`. -/
def colPrompt : UInt32 := 0xFFCC00

/-- `PROMPT`. -/
def prompt : List UInt8 := [87, 97, 114, 107, 82, 117, 110, 101, 62, 32]

/-- `PROMPT_PX`. -/
def promptPx : ℤ := 10 * 8

/-- An `int` that wraps. -/
def cint (z : ℤ) : CInt := ⟨wrap32 z, by unfold wrap32; rw [Int.bmod_def]; omega⟩

def draw (op : Op) : Term Unit := modify fun s => { s with drawn := .draw op :: s.drawn }

/-- `serial_putc`: a newline goes out behind a carriage return. -/
def serialPutc (c : UInt8) : Term Unit :=
  modify fun s => { s with sent := (if c = 10 then [10, 13] else [c]) ++ s.sent }

/-- `serial_puts` of the bytes before the NUL. -/
def serialPuts : List UInt8 → Term Unit
  | [] => serialPutc 10
  | c :: str => do
    serialPutc c
    serialPuts str

/-- `update_cursor`. -/
def terminalUpdate : Term Unit :=
  modify fun s => { s with
    drawn := .update (s.mouse s.updates).1 (s.mouse s.updates).2 :: s.drawn
    updates := s.updates + 1 }

/-- A round of `while ((c = read_key()) == 0)`. -/
def pollRound (_ : Unit) : Term (Unit ⊕ UInt8) := do
  let s ← get
  set { s with polls := s.polls + 1 }
  if s.keys s.polls = 0 then
    terminalUpdate
    return .inl ()
  else return .inr (s.keys s.polls)

/-- The variables `buf`, `len` and `x`. -/
structure LineBuf where
  buf : ℕ → UInt8
  len : ℕ
  x : ℤ

/-- What the outer loop does with the key `c`. -/
def lineKey (y : ℤ) (cap : ℕ) (l : LineBuf) (c : UInt8) : Term (LineBuf ⊕ List UInt8) := do
  serialPutc c
  if c = 13 ∨ c = 10 then return .inr (strOf (Function.update l.buf l.len 0) cap)
  else if c = 8 ∨ c = 127 then
    if l.len > 0 then
      let buf := Function.update l.buf (l.len - 1) 0
      let x := wrap32 (l.x - 8)
      draw (.drawRect (cint x) (cint y) (cint 8) (cint 8) colBg)
      draw (.printxy (strOf buf cap) (cint promptPx) (cint y) colFg)
      return .inl ⟨buf, l.len - 1, x⟩
    else return .inl l
  else if l.len < cap - 1 then
    draw (.printxy [c] (cint l.x) (cint y) colFg)
    return .inl ⟨Function.update l.buf l.len c, l.len + 1, wrap32 (l.x + 8)⟩
  else return .inl l

/-- A round of the outer loop. -/
def lineRound (y : ℤ) (cap : ℕ) (l : LineBuf) : Term (LineBuf ⊕ List UInt8) := do
  let c ← Exec.loop pollRound ()
  lineKey y cap l c

/-- `shell_readline` into an array of `cap` bytes that holds `buf`. -/
def shellReadline (buf : ℕ → UInt8) (cap : ℕ) : Term (List UInt8) := do
  if wrap32 ((← get).y + 10) > 600 then
    draw (.fillScreen colBg)
    modify fun s => { s with y := 0 }
  let y := (← get).y
  draw (.printxy prompt (cint 0) (cint y) colPrompt)
  serialPuts prompt
  modify fun s => { s with y := wrap32 (y + 10) }
  modify fun s => { s with received := [] }
  Exec.loop (lineRound y cap) ⟨buf, 0, promptPx⟩

/-! ## Keys and the line -/

/-- What a character means to the line. -/
def keyOf (c : UInt8) : Key UInt8 := if c = 8 ∨ c = 127 then .erase else .put c

/-- The bytes that `serial_putc` sends for characters. -/
def echoed (cs : List UInt8) : List UInt8 := cs.flatMap fun c => if c = 10 then [13, 10] else [c]

theorem echoed_cons (c : UInt8) (cs : List UInt8) : echoed (c :: cs) = echoed [c] ++ echoed cs := by
  rw [echoed, echoed, echoed, List.flatMap_cons, List.flatMap_singleton]

/-- The keys from the `n`-th call on: `cs` and then the line end `e`, with calls between that return
no key, and `m` calls in all. -/
inductive Typed (keys : ℕ → UInt8) : ℕ → List UInt8 → UInt8 → ℕ → Prop
  | stop {n : ℕ} {e : UInt8} (h : keys n = e) (he : e = 13 ∨ e = 10) : Typed keys n [] e (n + 1)
  | none {n m : ℕ} {cs : List UInt8} {e : UInt8} (h : keys n = 0) (ht : Typed keys (n + 1) cs e m) :
      Typed keys n cs e m
  | key {n m : ℕ} {cs : List UInt8} {c e : UInt8} (h : keys n = c) (h0 : c ≠ 0)
      (he : ¬ (c = 13 ∨ c = 10)) (ht : Typed keys (n + 1) cs e m) : Typed keys n (c :: cs) e m

/-! ## The variables and the line -/

variable {y : ℤ} {cap : ℕ} {w : List UInt8} {l : LineBuf} {s : Terminal}

theorem wrap32_eq {z : ℤ} (hlo : -2 ^ 31 ≤ z) (hhi : z < 2 ^ 31) : wrap32 z = z := by
  unfold wrap32
  rw [Int.bmod_def]
  omega

/-- The variables hold the line `w`. -/
structure LineOk (cap : ℕ) (w : List UInt8) (l : LineBuf) : Prop where
  holds : Holds cap w l.buf l.len
  x : l.x = promptPx + 8 * w.length

namespace LineOk

variable (h : LineOk cap w l)
include h

/-- A character is stored. -/
theorem put (hcap : cap < 2 ^ 20) {c : UInt8} (hc : c ≠ 0) (hlen : l.len < cap - 1) :
    LineOk cap (w ++ [c]) ⟨Function.update l.buf l.len c, l.len + 1, wrap32 (l.x + 8)⟩ := by
  refine ⟨h.holds.put hc hlen, ?_⟩
  have hx := h.x
  have hlt := h.holds.lt
  unfold promptPx at hx ⊢
  change wrap32 (l.x + 8) = _
  rw [wrap32_eq (by omega) (by omega), hx, List.length_append, List.length_singleton]
  push_cast
  omega

/-- The last character is taken away. -/
theorem erase (hcap : cap < 2 ^ 20) (hlen : 0 < l.len) :
    LineOk cap w.dropLast ⟨Function.update l.buf (l.len - 1) 0, l.len - 1, wrap32 (l.x - 8)⟩ ∧
      strOf (Function.update l.buf (l.len - 1) 0) cap = w.dropLast := by
  have herase := h.holds.erase hlen l.buf fun _ _ => rfl
  refine ⟨⟨h.holds.erase hlen _ fun _ hk => Function.update_of_ne hk.ne .., ?_⟩, herase.strOf_end⟩
  have hx := h.x
  have hsize := h.holds.size
  have hlt := h.holds.lt
  unfold promptPx at hx ⊢
  change wrap32 (l.x - 8) = _
  rw [wrap32_eq (by omega) (by omega), hx, List.length_dropLast]
  omega

end LineOk

/-! ## Keys -/

/-- What is drawn keeps up with the line. -/
structure Draws (y : ℤ) (cap : ℕ) (I : List UInt8 → List Event → Prop) : Prop where
  update : ∀ w d a b, I w d → I w (.update a b :: d)
  put : ∀ w d c, w.length < cap - 1 → I w d →
    I (w ++ [c]) (.draw (.printxy [c] (cint (promptPx + 8 * w.length)) (cint y) colFg) :: d)
  erase : ∀ w d c, w.length < cap - 1 → I (w ++ [c]) d →
    I w (.draw (.printxy w (cint promptPx) (cint y) colFg) ::
      .draw (.drawRect (cint (promptPx + 8 * w.length)) (cint y) (cint 8) (cint 8) colBg) :: d)

theorem yields_draw {op : Op} {P : Unit → Terminal → Prop} :
    (draw op).Yields s P ↔ P () { s with drawn := .draw op :: s.drawn } := Exec.yields_modify

theorem yields_serialPutc {c : UInt8} {P : Unit → Terminal → Prop} :
    (serialPutc c).Yields s P ↔ P () { s with sent := (echoed [c]).reverse ++ s.sent } := by
  have he : (echoed [c]).reverse = if c = 10 then [10, 13] else [c] := by
    rw [echoed, List.flatMap_singleton]
    split <;> rfl
  rw [he]
  exact Exec.yields_modify

variable {I : List UInt8 → List Event → Prop}

/-- **A key edits the line**, and is echoed. -/
theorem lineKey_edits (hd : Draws y cap I) (hcap : cap < 2 ^ 20) (hl : LineOk cap w l)
    (hI : I w s.drawn) {c : UInt8} (h0 : c ≠ 0) (he : ¬ (c = 13 ∨ c = 10)) :
    (lineKey y cap l c).Yields s fun r s' => ∃ l', r = .inl l' ∧
      LineOk cap (press (cap - 1) w (keyOf c)) l' ∧ I (press (cap - 1) w (keyOf c)) s'.drawn ∧
      s' = { s with sent := (echoed [c]).reverse ++ s.sent, drawn := s'.drawn } := by
  have hlen := hl.holds.size
  have hx := hl.x
  rw [lineKey, Exec.yields_bind, yields_serialPutc, if_neg he, keyOf]
  by_cases herase : c = 8 ∨ c = 127
  · rw [if_pos herase, if_pos herase, press]
    by_cases hpos : l.len > 0
    · obtain ⟨hl', hstr⟩ := hl.erase hcap hpos
      simp only [if_pos hpos, Exec.yields_bind, yields_draw, Exec.yields_pure, hstr]
      refine ⟨_, rfl, hl', ?_, trivial⟩
      obtain ⟨u, b, rfl⟩ : ∃ u b, w = u ++ [b] := by
        rcases List.eq_nil_or_concat w with rfl | ⟨u, b, rfl⟩
        · rw [hlen] at hpos
          exact absurd hpos (Nat.lt_irrefl 0)
        · exact ⟨u, b, by rw [List.concat_eq_append]⟩
      have hlt := hl.holds.lt
      rw [List.length_append, List.length_singleton] at hlt hx
      have hx' : wrap32 (l.x - 8) = promptPx + 8 * u.length := by
        have hx₁ := hl'.x
        rwa [List.dropLast_concat] at hx₁
      rw [List.dropLast_concat, hx']
      exact hd.erase u _ b (by omega) hI
    · have hnil : w = [] := List.eq_nil_of_length_eq_zero (by omega)
      subst hnil
      rw [if_neg hpos, Exec.yields_pure]
      exact ⟨l, rfl, hl, hI, rfl⟩
  · rw [if_neg herase, if_neg herase, press]
    by_cases hroom : l.len < cap - 1
    · simp only [if_pos hroom, Exec.yields_bind, yields_draw, Exec.yields_pure]
      rw [if_pos (hlen ▸ hroom), hx]
      refine ⟨_, rfl, ?_, hd.put w _ c (hlen ▸ hroom) hI, trivial⟩
      have hput := hl.put hcap h0 hroom
      rwa [hx] at hput
    · rw [if_neg hroom, if_neg (hlen ▸ hroom), Exec.yields_pure]
      exact ⟨l, rfl, hl, hI, rfl⟩

/-- **A line end gives the line.** -/
theorem lineKey_ends (hl : LineOk cap w l) {c : UInt8} (he : c = 13 ∨ c = 10) :
    (lineKey y cap l c).Yields s fun r s' => r = .inr w ∧
      s' = { s with sent := (echoed [c]).reverse ++ s.sent } := by
  rw [lineKey, Exec.yields_bind, yields_serialPutc, if_pos he, Exec.yields_pure, hl.holds.strOf_end]
  exact ⟨rfl, rfl⟩

/-! ## Polling -/

/-- The terminal after a call that returns no key. -/
def Terminal.idle (s : Terminal) : Terminal :=
  { s with
    polls := s.polls + 1
    drawn := .update (s.mouse s.updates).1 (s.mouse s.updates).2 :: s.drawn
    updates := s.updates + 1 }

theorem pollRound_yields {P : Unit ⊕ UInt8 → Terminal → Prop} : (pollRound ()).Yields s P ↔
    if s.keys s.polls = 0 then P (.inl ()) s.idle
    else P (.inr (s.keys s.polls)) { s with polls := s.polls + 1 } := by
  rw [pollRound, Exec.yields_bind, Exec.yields_get, Exec.yields_bind, Exec.yields_set]
  split
  · rw [Exec.yields_bind, terminalUpdate, Exec.yields_modify, Exec.yields_pure]
    rfl
  · rw [Exec.yields_pure]

/-- A call that returns no key leaves the loop where it is. -/
theorem loop_of_none {P : List UInt8 → Terminal → Prop} (h : s.keys s.polls = 0) :
    (Exec.loop (lineRound y cap) l).Yields s P ↔
      (Exec.loop (lineRound y cap) l).Yields s.idle P := by
  rw [Exec.yields_loop, Exec.yields_loop, lineRound, Exec.yields_bind, Exec.yields_bind]
  conv_lhs => rw [Exec.yields_loop, pollRound_yields, if_pos h]
  exact Iff.rfl

/-- A key is handed on. -/
theorem loop_of_key {P : List UInt8 → Terminal → Prop} (h : s.keys s.polls ≠ 0) :
    (Exec.loop (lineRound y cap) l).Yields s P ↔
      (lineKey y cap l (s.keys s.polls)).Yields { s with polls := s.polls + 1 }
        (Exec.Resumes (lineRound y cap) P) := by
  rw [Exec.yields_loop, lineRound, Exec.yields_bind, Exec.yields_loop, pollRound_yields, if_neg h]
  exact Iff.rfl

/-- **The loop edits the line** until the line end. -/
theorem loop_edits (hd : Draws y cap I) (hcap : cap < 2 ^ 20) {n m : ℕ} {cs : List UInt8}
    {e : UInt8} (ht : Typed s.keys n cs e m) (hn : s.polls = n) (hl : LineOk cap w l)
    (hI : I w s.drawn) : (Exec.loop (lineRound y cap) l).Yields s fun line s' =>
      line = edit (cap - 1) w (cs.map keyOf) ∧ I line s'.drawn ∧ s'.polls = m ∧
      s'.sent = (echoed (cs ++ [e])).reverse ++ s.sent ∧ s'.y = s.y ∧
      s'.received = s.received := by
  generalize hk : s.keys = keys at ht
  induction ht generalizing s w l with
  | @stop n e h he =>
    subst hk hn
    have h0 : s.keys s.polls ≠ 0 := by
      rw [h]
      rcases he with rfl | rfl <;> decide
    rw [loop_of_key h0, h]
    refine (lineKey_ends hl he).mono ?_
    rintro _ s' ⟨rfl, rfl⟩
    exact ⟨rfl, hI, rfl, rfl, rfl, rfl⟩
  | @none n m cs e h ht ih =>
    subst hk hn
    rw [loop_of_none h]
    exact ih (s := s.idle) rfl hl (hd.update w _ _ _ hI) rfl
  | @key n m cs c e h h0 he ht ih =>
    subst hk hn
    rw [loop_of_key (h ▸ h0), h]
    refine (lineKey_edits (s := { s with polls := s.polls + 1 }) hd hcap hl hI h0 he).mono ?_
    rintro _ s' ⟨l', rfl, hl', hI', hs'⟩
    have hkeys : s'.keys = s.keys := by rw [hs']
    have hpolls : s'.polls = s.polls + 1 := by rw [hs']
    refine (ih hpolls hl' hI' hkeys).mono ?_
    rintro line s'' ⟨hline, hI'', hm, hsent, hy, hrec⟩
    refine ⟨hline, hI'', hm, ?_, ?_, ?_⟩
    · have hsent' : s'.sent = (echoed [c]).reverse ++ s.sent := by rw [hs']
      rw [hsent, hsent', List.cons_append, echoed_cons c (cs ++ [e]), List.reverse_append,
        List.append_assoc]
    · rw [hy, hs']
    · rw [hrec, hs']

/-! ## The function -/

theorem yields_serialPuts {str : List UInt8} {P : Unit → Terminal → Prop} :
    (serialPuts str).Yields s P ↔
      P () { s with sent := (echoed str ++ [13, 10]).reverse ++ s.sent } := by
  induction str generalizing s with
  | nil => exact yields_serialPutc
  | cons c str ih =>
    have hsent : (echoed (c :: str) ++ [13, 10]).reverse ++ s.sent =
        (echoed str ++ [13, 10]).reverse ++ ((echoed [c]).reverse ++ s.sent) := by
      rw [echoed_cons c str, List.append_assoc, List.reverse_append, List.append_assoc]
    rw [serialPuts, Exec.yields_bind, yields_serialPutc, ih, hsent]

/-- The row of the prompt: the first one when the screen is full. -/
def Terminal.row (s : Terminal) : ℤ := if wrap32 (s.y + 10) > 600 then 0 else s.y

/-- What has been drawn once the prompt is. -/
def Terminal.opened (s : Terminal) : List Event :=
  .draw (.printxy prompt (cint 0) (cint s.row) colPrompt) ::
    if wrap32 (s.y + 10) > 600 then .draw (.fillScreen colBg) :: s.drawn else s.drawn

/-- The terminal when the loop begins. -/
def Terminal.prompted (s : Terminal) : Terminal :=
  { s with
    y := wrap32 (s.row + 10)
    received := []
    sent := (echoed prompt ++ [13, 10]).reverse ++ s.sent
    drawn := s.opened }

theorem shellReadline_yields {buf : ℕ → UInt8} {P : List UInt8 → Terminal → Prop} :
    (shellReadline buf cap).Yields s P ↔
      (Exec.loop (lineRound s.row cap) ⟨buf, 0, promptPx⟩).Yields s.prompted P := by
  unfold Terminal.prompted Terminal.opened Terminal.row
  by_cases hfull : wrap32 (s.y + 10) > 600
  · simp only [shellReadline, Exec.yields_bind, Exec.yields_get, if_pos hfull, yields_draw,
      Exec.yields_modify, yields_serialPuts]
  · simp only [shellReadline, Exec.yields_bind, Exec.yields_get, if_neg hfull, yields_draw,
      Exec.yields_modify, yields_serialPuts]

/-- **`shell_readline` reads a line**: it returns what the keys make of the empty line, has taken
the keys up to the line end, and has echoed them. -/
theorem shellReadline_reads {buf : ℕ → UInt8} (hd : Draws s.row cap I) (h0 : 0 < cap)
    (hcap : cap < 2 ^ 20) {cs : List UInt8} {e : UInt8} {m : ℕ} (ht : Typed s.keys s.polls cs e m)
    (hI : I [] s.opened) : (shellReadline buf cap).Yields s fun line s' =>
      line = edit (cap - 1) [] (cs.map keyOf) ∧ I line s'.drawn ∧ s'.polls = m ∧
      s'.sent = (echoed prompt ++ [13, 10] ++ echoed (cs ++ [e])).reverse ++ s.sent ∧
      s'.y = wrap32 (s.row + 10) ∧ s'.received = [] := by
  have hl : LineOk cap [] ⟨buf, 0, promptPx⟩ := ⟨LineEdit.holds_nil h0 buf, rfl⟩
  rw [shellReadline_yields]
  refine (loop_edits (s := s.prompted) hd hcap ht rfl hl hI).mono ?_
  rintro line s' ⟨hline, hI', hm, hsent, hy, hrec⟩
  refine ⟨hline, hI', hm, ?_, hy, hrec⟩
  rw [hsent, @List.reverse_append _ (_ ++ _), List.append_assoc]
  rfl

/-! ## When it returns -/

theorem of_pollRound_returns {s' : Terminal} {r : Unit ⊕ UInt8}
    (h : (pollRound ()).Returns s r s') :
    if s.keys s.polls = 0 then r = .inl () ∧ s' = s.idle
    else r = .inr (s.keys s.polls) ∧ s' = { s with polls := s.polls + 1 } := by
  have hy := pollRound_yields (s := s) (P := fun r s' => if s.keys s.polls = 0
    then r = .inl () ∧ s' = s.idle
    else r = .inr (s.keys s.polls) ∧ s' = { s with polls := s.polls + 1 })
  refine (hy.mpr ?_).of_returns h
  split
  · exact ⟨rfl, rfl⟩
  · exact ⟨rfl, rfl⟩

/-- What the polling loop hands on is typed in front of what follows. -/
theorem typed_of_poll {c : UInt8} {s' : Terminal} (h : (Exec.loop pollRound ()).Returns s c s') :
    s'.keys = s.keys ∧ (c = 13 ∨ c = 10 → Typed s.keys s.polls [] c s'.polls) ∧
      ∀ cs e m, ¬ (c = 13 ∨ c = 10) → Typed s'.keys s'.polls cs e m →
        Typed s.keys s.polls (c :: cs) e m := by
  refine h.loop_induct (P := fun _ s c s' => s'.keys = s.keys ∧
    (c = 13 ∨ c = 10 → Typed s.keys s.polls [] c s'.polls) ∧
      ∀ cs e m, ¬ (c = 13 ∨ c = 10) → Typed s'.keys s'.polls cs e m →
        Typed s.keys s.polls (c :: cs) e m) ?_ ?_
  · intro _ s c s' hr
    have hround := of_pollRound_returns hr
    split_ifs at hround with h0
    · cases hround.1
    · obtain ⟨hc, rfl⟩ := hround
      obtain rfl := Sum.inr.inj hc
      exact ⟨rfl, .stop rfl, fun cs e m he ht => .key rfl h0 he ht⟩
  · intro _ s _ s₁ c s' hr ih
    have hround := of_pollRound_returns hr
    split_ifs at hround with h0
    · obtain ⟨-, rfl⟩ := hround
      obtain ⟨hkeys, hstop, hkey⟩ := ih
      exact ⟨hkeys, fun he => .none h0 (hstop he), fun cs e m he ht => .none h0 (hkey cs e m he ht)⟩
    · cases hround.1

/-- A key takes no further one, and ends the loop exactly when it is a line end. -/
theorem lineKey_frame (c : UInt8) : (lineKey y cap l c).Yields s fun r s' =>
    s'.keys = s.keys ∧ s'.polls = s.polls ∧ (r.isRight = true ↔ c = 13 ∨ c = 10) := by
  rw [lineKey, Exec.yields_bind, yields_serialPutc]
  by_cases he : c = 13 ∨ c = 10
  · rw [if_pos he, Exec.yields_pure]
    exact ⟨rfl, rfl, iff_of_true rfl he⟩
  · rw [if_neg he]
    have hleft {r : LineBuf ⊕ List UInt8} {l' : LineBuf} (hr : r = .inl l') :
        r.isRight = true ↔ c = 13 ∨ c = 10 := by
      rw [hr]
      exact iff_of_false Bool.false_ne_true he
    split_ifs
    · simp only [Exec.yields_bind, yields_draw, Exec.yields_pure]
      exact ⟨trivial, trivial, hleft rfl⟩
    · exact Exec.yields_pure.mpr ⟨rfl, rfl, hleft rfl⟩
    · simp only [Exec.yields_bind, yields_draw, Exec.yields_pure]
      exact ⟨trivial, trivial, hleft rfl⟩
    · exact Exec.yields_pure.mpr ⟨rfl, rfl, hleft rfl⟩

/-- **A line that is returned was typed.** -/
theorem typed_of_loop {line : List UInt8} {s' : Terminal}
    (h : (Exec.loop (lineRound y cap) l).Returns s line s') :
    ∃ cs e m, Typed s.keys s.polls cs e m := by
  refine h.loop_induct (P := fun _ s _ _ => ∃ cs e m, Typed s.keys s.polls cs e m) ?_ ?_
  · intro l s line s' hr
    obtain ⟨c, s₁, hpoll, hkey⟩ := Exec.returns_bind.mp hr
    obtain ⟨-, -, hend⟩ := (lineKey_frame c).of_returns hkey
    obtain ⟨-, hstop, -⟩ := typed_of_poll hpoll
    exact ⟨[], c, s₁.polls, hstop (hend.mp rfl)⟩
  · intro l s l' s₂ line s' hr ih
    obtain ⟨c, s₁, hpoll, hkey⟩ := Exec.returns_bind.mp hr
    obtain ⟨hkeys, hpolls, hend⟩ := (lineKey_frame c).of_returns hkey
    obtain ⟨-, -, hnext⟩ := typed_of_poll hpoll
    obtain ⟨cs, e, m, ht⟩ := ih
    rw [hkeys, hpolls] at ht
    exact ⟨c :: cs, e, m, hnext cs e m (mt hend.mpr Bool.false_ne_true) ht⟩

/-- **`shell_readline` returns** exactly when a line end is typed. -/
theorem shellReadline_halts_iff {buf : ℕ → UInt8} (h0 : 0 < cap) (hcap : cap < 2 ^ 20) :
    (shellReadline buf cap).Halts s ↔ ∃ cs e m, Typed s.keys s.polls cs e m := by
  constructor
  · rintro ⟨line, s', h⟩
    have hy : (shellReadline buf cap).Yields s fun _ _ => True := ⟨line, s', h, trivial⟩
    obtain ⟨line, s', h, -⟩ := shellReadline_yields.mp hy
    exact typed_of_loop (s := s.prompted) h
  · rintro ⟨cs, e, m, ht⟩
    have hd : Draws s.row cap fun _ _ => True :=
      ⟨fun _ _ _ _ _ => trivial, fun _ _ _ _ _ => trivial, fun _ _ _ _ _ => trivial⟩
    exact (shellReadline_reads hd h0 hcap ht trivial).halts

/-! ## From the keyboard -/

/-- Calls that return characters, with no key between, type them. -/
theorem typed_of_filter {keys : ℕ → UInt8} {n : ℕ} {rs cs : List UInt8} {e : UInt8}
    (rest : List UInt8) (hf : rs.filter (· ≠ 0) = cs ++ e :: rest) (hcs : ∀ c ∈ cs, ¬ (c = 13 ∨ c = 10))
    (he : e = 13 ∨ e = 10) (hk : ∀ i < rs.length, keys (n + i) = rs.getD i 0) :
    ∃ m, Typed keys n cs e m := by
  induction rs generalizing n cs with
  | nil =>
    rw [List.filter_nil] at hf
    exact absurd hf.symm (List.append_ne_nil_of_right_ne_nil _ (List.cons_ne_nil _ _))
  | cons r rs ih =>
    have hkey : keys n = r := hk 0 (Nat.zero_lt_succ _)
    have hk' : ∀ i < rs.length, keys (n + 1 + i) = rs.getD i 0 := fun i hi => by
      have hi' := hk (i + 1) (Nat.succ_lt_succ hi)
      rwa [← Nat.add_assoc, Nat.add_right_comm] at hi'
    by_cases h0 : r = 0
    · rw [List.filter_cons_of_neg (by simpa using h0)] at hf
      obtain ⟨m, hm⟩ := ih hf hcs hk'
      exact ⟨m, .none (hkey.trans h0) hm⟩
    · rw [List.filter_cons_of_pos (by simpa using h0)] at hf
      cases cs with
      | nil =>
        obtain ⟨rfl, -⟩ := List.cons.inj hf
        exact ⟨n + 1, .stop hkey he⟩
      | cons c cs =>
        obtain ⟨rfl, hf'⟩ := List.cons.inj hf
        obtain ⟨hc, hcs'⟩ := List.forall_mem_cons.mp hcs
        obtain ⟨m, hm⟩ := ih hf' hcs' hk'
        exact ⟨m, .key hkey h0 hc hm⟩

open Io (Types KbdEvent Keys keysInit irqs) in
/-- **A line that is typed is read**: whatever way its keys and the return key are pressed, and
wherever the interrupts come between the calls of `read_key`, as long as the queue has room and is
read to its end, `shell_readline` returns the line as its corrections leave it. -/
theorem typed_line {text scs : List UInt8} {es : List KbdEvent}
    (ht : Types false (text ++ [13]) scs) (htext : ∀ c ∈ text, ¬ (c = 13 ∨ c = 10))
    (hes : irqs es = scs) (hr : Machine.Admits Keys.step Keys.Room keysInit es)
    (hend : (Machine.after Keys.step keysInit es).queue.pending = []) (buf : ℕ → UInt8)
    (hs : ∀ i < (Machine.outputs Keys.step Keys.results keysInit es).length,
      s.keys (s.polls + i) = (Machine.outputs Keys.step Keys.results keysInit es).getD i 0) :
    (shellReadline buf 128).Yields s fun line _ => line = edit 127 [] (text.map keyOf) ∧
      line.length ≤ 127 ∧ ((∀ c ∈ text, ¬ (c = 8 ∨ c = 127)) → line = text.take 127) := by
  have hread := Io.typed_text ht hes hr
  rw [hend, Io.decode, List.append_nil, ← Io.filter_results] at hread
  obtain ⟨m, hm⟩ := typed_of_filter [] hread htext (.inl rfl) hs
  have hd : Draws s.row 128 fun _ _ => True :=
    ⟨fun _ _ _ _ _ => trivial, fun _ _ _ _ _ => trivial, fun _ _ _ _ _ => trivial⟩
  refine (shellReadline_reads hd (by decide) (by decide) hm trivial).mono ?_
  rintro line s' ⟨rfl, -⟩
  refine ⟨rfl, LineEdit.length_edit_le (Nat.zero_le _) _, fun hplain => ?_⟩
  have hput : text.map keyOf = text.map .put := List.map_congr_left fun c hc => if_neg (hplain c hc)
  rw [hput]
  exact LineEdit.edit_puts (Nat.zero_le _) text

/-- A terminal whose calls of `read_key` return `rs`, and then no key. -/
def Terminal.start (rs : List UInt8) : Terminal :=
  ⟨0, fun i => rs.getD i 0, 0, fun _ => (cint 0, cint 0), 0, [], [], []⟩

/-- The keys of `Ls`, of a backspace and of the return key, with calls before, between and behind
the interrupts. -/
def correctedKeys : List Io.KbdEvent :=
  [.read, .irq 0x2A, .irq 0x26, .read, .irq 0xA6, .irq 0xAA, .read, .read, .irq 0x1F, .irq 0x9F,
    .irq 0x0E, .read, .read, .read, .read, .read, .irq 0x1C, .read]

open Io (Types Keys keysInit) in
/-- The theorem for `Ls` with its last letter corrected. -/
theorem typed_line_corrected :
    (shellReadline (fun _ => 0) 128).Yields
      (.start (Machine.outputs Keys.step Keys.results keysInit correctedKeys))
      fun line _ => line = [76] := by
  have ht : Types false ([76, 115, 8] ++ [13])
      [0x2A, 0x26, 0xA6, 0xAA, 0x1F, 0x9F, 0x0E, 0x1C] := by
    refine .press (.inl rfl) (.down (by decide) (by decide) ?_)
    refine .up (by decide) (by decide) (by decide) (.release (.inl rfl) ?_)
    refine .down (by decide) (by decide) (.up (by decide) (by decide) (by decide) ?_)
    exact .down (by decide) (by decide) (.down (by decide) (by decide) (.done false))
  refine (typed_line ht (by decide +kernel) (rfl : Io.irqs correctedKeys = _) ?_ (by decide) _
    fun i _ => ?_).mono ?_
  · simp only [correctedKeys, Machine.admits_cons, Machine.admits_nil, Keys.Room, and_true,
      true_and]
    decide
  · exact congrArg (fun j => List.getD _ j 0) (Nat.zero_add i)
  · rintro line _ ⟨rfl, -⟩
    decide

end WarkRune.Shell

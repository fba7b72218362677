import WarkRune.Io.Keyboard

/-!
# Keys

`read_key` takes one scancode out of the keyboard queue. A scancode below 0x80 says that a key went
down, one from 0x80 on that a key came up. The scancodes of the two shift keys switch between the
legends of the keys; of the other keys only going down gives a character.

The interrupts that fill the queue come in between the calls at any time.

## Main definitions

* `scMap`, `scMapShift`, `Keys`, `readKey`: the legends, and the routine
* `decode`: the characters of a sequence of scancodes
* `Types`: a sequence of scancodes that types a text, with either shift key and with the keys let
  go at any time

## Main results

* `decode_of_types`: whatever way a text is typed, its characters come out
* `keys_account`: over every run of interrupts and calls, what was read and what is pending is what
  was accepted
* `typed_text`: a text that is typed is read
-/

namespace WarkRune.Io

/-- `sc_map`. -/
def scMap : List UInt8 :=
  [0, 0, 49, 50, 51, 52, 53, 54, 55, 56, 57, 48, 45, 61, 8,
    0, 113, 119, 101, 114, 116, 121, 117, 105, 111, 112, 91, 93, 13,
    0, 97, 115, 100, 102, 103, 104, 106, 107, 108, 59, 39, 96,
    0, 92, 122, 120, 99, 118, 98, 110, 109, 44, 46, 47, 0,
    0, 0, 32]

/-- `sc_map_shift`. -/
def scMapShift : List UInt8 :=
  [0, 0, 33, 64, 35, 36, 37, 94, 38, 42, 40, 41, 95, 43, 8,
    0, 81, 87, 69, 82, 84, 89, 85, 73, 79, 80, 123, 125, 13,
    0, 65, 83, 68, 70, 71, 72, 74, 75, 76, 58, 34, 126,
    0, 124, 90, 88, 67, 86, 66, 78, 77, 60, 62, 63, 0,
    0, 0, 32]

/-- The character of the key with the scancode `sc`, `sc_map` and `sc_map_shift` having 58. -/
def legend (shift : Bool) (sc : UInt8) : UInt8 :=
  (if shift then scMapShift else scMap).getD sc.toNat 0

/-- The keyboard queue and `kbd_shift_down`. -/
structure Keys where
  queue : Keyboard
  shiftDown : Bool

/-- `read_key`. -/
def readKey (k : Keys) : UInt8 × Keys :=
  let (sc, queue) := readScancode k.queue
  let k := { k with queue }
  if sc = 0 then (0, k)
  else if sc = 0x2A ∨ sc = 0x36 then (0, { k with shiftDown := true })
  else if sc = 0xAA ∨ sc = 0xB6 then (0, { k with shiftDown := false })
  else if sc &&& 0x80 ≠ 0 then (0, k)
  else if sc ≥ 58 then (0, k)
  else (legend k.shiftDown sc, k)

namespace Keys

/-- An interrupt, or a call of `read_key`. -/
def step (k : Keys) : KbdEvent → Keys
  | .irq sc => { k with queue := kbdHandler k.queue sc }
  | .read => (readKey k).2

/-- The character a call returns; 0 is none. -/
def returned (k : Keys) : KbdEvent → List UInt8
  | .irq _ => []
  | .read => if (readKey k).1 = 0 then [] else [(readKey k).1]

/-- What a call returns. -/
def results (k : Keys) : KbdEvent → List UInt8
  | .irq _ => []
  | .read => [(readKey k).1]

/-- The scancode of an interrupt that the queue takes. -/
def accepted (k : Keys) (e : KbdEvent) : List UInt8 := k.queue.accepted e

end Keys

/-- The keys before the first interrupt. -/
def keysInit : Keys := ⟨kbdInit, false⟩

/-! ## Scancodes and characters -/

/-- Whether the shift key is down after a scancode. -/
def shiftAfter (shift : Bool) (sc : UInt8) : Bool :=
  if sc = 0x2A ∨ sc = 0x36 then true else if sc = 0xAA ∨ sc = 0xB6 then false else shift

/-- The character of a scancode; 0 is none. -/
def charOf (shift : Bool) (sc : UInt8) : UInt8 :=
  if sc = 0x2A ∨ sc = 0x36 ∨ 58 ≤ sc then 0 else legend shift sc

/-- The characters of a sequence of scancodes. -/
def decode : Bool → List UInt8 → List UInt8
  | _, [] => []
  | shift, sc :: scs =>
    let cs := decode (shiftAfter shift sc) scs
    if charOf shift sc = 0 then cs else charOf shift sc :: cs

/-- The scancodes type a text when the shift key is down or not. -/
inductive Types : Bool → List UInt8 → List UInt8 → Prop
  | done (shift : Bool) : Types shift [] []
  /-- One of the shift keys goes down. -/
  | press {shift : Bool} {text scs : List UInt8} {sc : UInt8} (hsc : sc = 0x2A ∨ sc = 0x36)
      (h : Types true text scs) : Types shift text (sc :: scs)
  /-- One of the shift keys comes up. -/
  | release {shift : Bool} {text scs : List UInt8} {sc : UInt8} (hsc : sc = 0xAA ∨ sc = 0xB6)
      (h : Types false text scs) : Types shift text (sc :: scs)
  /-- Another key comes up. -/
  | up {shift : Bool} {text scs : List UInt8} {sc : UInt8} (hsc : 0x80 ≤ sc) (h₁ : sc ≠ 0xAA)
      (h₂ : sc ≠ 0xB6) (h : Types shift text scs) : Types shift text (sc :: scs)
  /-- A key goes down that has the character as its legend. -/
  | down {shift : Bool} {text scs : List UInt8} {c sc : UInt8} (hc : c ≠ 0)
      (hsc : legend shift sc = c) (h : Types shift text scs) : Types shift (c :: text) (sc :: scs)

/-! ## Typing -/

/-- The legends of a key and of a shift key. -/
theorem lt_of_legend {shift : Bool} {sc : UInt8} (h : legend shift sc ≠ 0) :
    ¬ (sc = 0x2A ∨ sc = 0x36 ∨ 58 ≤ sc) := by
  have hlen : (if shift then scMapShift else scMap).length = 58 := by cases shift <;> rfl
  rintro (rfl | rfl | hle)
  · exact h (by cases shift <;> rfl)
  · exact h (by cases shift <;> rfl)
  · have hout : (if shift then scMapShift else scMap).length ≤ sc.toNat := hlen ▸ hle
    exact h (by rw [legend, List.getD_eq_getElem?_getD, List.getElem?_eq_none hout]; rfl)

/-- **Whatever way a text is typed**, its characters come out. -/
theorem decode_of_types {shift : Bool} {text scs : List UInt8} (h : Types shift text scs) :
    decode shift scs = text := by
  induction h with
  | done shift => rfl
  | press hsc _ ih =>
    rw [decode, show charOf _ _ = 0 from if_pos (hsc.imp_right .inl), if_pos rfl, shiftAfter,
      if_pos hsc, ih]
  | @release shift text scs sc hsc _ ih =>
    have hne : ¬ (sc = 0x2A ∨ sc = 0x36) := by rcases hsc with rfl | rfl <;> decide
    have hle : 58 ≤ sc := by rcases hsc with rfl | rfl <;> decide
    rw [decode, show charOf _ _ = 0 from if_pos (.inr (.inr hle)), if_pos rfl, shiftAfter,
      if_neg hne, if_pos hsc, ih]
  | @up shift text scs sc hsc h₁ h₂ _ ih =>
    have hne : ¬ (sc = 0x2A ∨ sc = 0x36) := by rintro (rfl | rfl) <;> exact absurd hsc (by decide)
    have hle : 58 ≤ sc := UInt8.le_trans (by decide) hsc
    rw [decode, show charOf _ _ = 0 from if_pos (.inr (.inr hle)), if_pos rfl, shiftAfter,
      if_neg hne, if_neg (not_or.mpr ⟨h₁, h₂⟩), ih]
  | @down shift text scs c sc hc hsc _ ih =>
    have hkey := lt_of_legend (hsc.symm ▸ hc)
    have hrel : ¬ (sc = 0xAA ∨ sc = 0xB6) := by
      rintro (rfl | rfl) <;> exact hkey (.inr (.inr (by decide)))
    have hne : ¬ (sc = 0x2A ∨ sc = 0x36) := fun h => hkey (h.imp_right .inl)
    rw [decode, show charOf _ _ = c from (if_neg hkey).trans hsc, if_neg hc, shiftAfter,
      if_neg hne, if_neg hrel, ih]

/-! ## Reading -/

/-- **`read_key`** gives the character of the scancode it takes. -/
theorem readKey_eq (k : Keys) : readKey k =
    (charOf k.shiftDown (readScancode k.queue).1,
      ⟨(readScancode k.queue).2, shiftAfter k.shiftDown (readScancode k.queue).1⟩) := by
  have hbit : ∀ n < 58, UInt8.ofNat n &&& 0x80 = 0 := by decide
  unfold readKey
  generalize readScancode k.queue = r
  obtain ⟨sc, queue⟩ := r
  dsimp only
  by_cases h0 : sc = 0
  · subst h0
    cases k.shiftDown <;> rfl
  rw [if_neg h0, shiftAfter, charOf]
  by_cases hs : sc = 0x2A ∨ sc = 0x36
  · rw [if_pos hs, if_pos hs, if_pos (hs.imp_right .inl)]
  rw [if_neg hs, if_neg hs]
  by_cases hr : sc = 0xAA ∨ sc = 0xB6
  · have hle : 58 ≤ sc := by rcases hr with rfl | rfl <;> decide
    rw [if_pos hr, if_pos hr, if_pos (.inr (.inr hle))]
  rw [if_neg hr, if_neg hr]
  by_cases hle : 58 ≤ sc
  · -- with the high bit or without it, there is no such key
    rw [if_pos hle, ite_self, if_pos (.inr (.inr hle))]
  · have hlt : sc.toNat < 58 := Nat.lt_of_not_le hle
    have hlow := hbit sc.toNat hlt
    rw [UInt8.ofNat_toNat] at hlow
    rw [if_neg (not_not.mpr hlow), if_neg hle,
      if_neg (not_or.mpr ⟨fun h => hs (.inl h), not_or.mpr ⟨fun h => hs (.inr h), hle⟩⟩)]

theorem decode_append (shift : Bool) (xs ys : List UInt8) :
    decode shift (xs ++ ys) = decode shift xs ++ decode (xs.foldl shiftAfter shift) ys := by
  induction xs generalizing shift with
  | nil => rfl
  | cons sc xs ih =>
    rw [List.cons_append, decode, decode, ih, List.foldl_cons]
    split <;> rfl

variable {k : Keys}

/-- One event keeps the account of the characters and of the shift key. -/
theorem Keys.account (h : k.queue.Ok) (e : KbdEvent) :
    k.returned e ++ decode (k.step e).shiftDown (k.step e).queue.pending =
        decode k.shiftDown (k.queue.pending ++ k.accepted e) ∧
      (k.step e).queue.pending.foldl shiftAfter (k.step e).shiftDown =
        (k.queue.pending ++ k.accepted e).foldl shiftAfter k.shiftDown := by
  have hq := h.account e
  cases e with
  | irq sc =>
    have hpending : (kbdHandler k.queue sc).pending = k.queue.pending ++ k.accepted (.irq sc) := hq
    exact ⟨congrArg (decode k.shiftDown) hpending, congrArg (List.foldl _ k.shiftDown) hpending⟩
  | read =>
    obtain ⟨-, hread⟩ := h.read
    simp only [Keys.returned, Keys.step, readKey_eq, Keys.accepted, Keyboard.accepted,
      List.append_nil]
    split_ifs at hread with hnil
    · rw [hread.1, hnil]
      cases k.shiftDown <;> exact ⟨rfl, rfl⟩
    · rw [hread.1, decode, List.foldl_cons]
      split_ifs
      · exact ⟨rfl, rfl⟩
      · exact ⟨rfl, rfl⟩

theorem Keys.step_ok (h : k.queue.Ok) (e : KbdEvent) : (k.step e).queue.Ok := by
  cases e with
  | irq sc => exact h.step (.irq sc)
  | read =>
    rw [Keys.step, readKey_eq]
    exact h.step .read

/-- **What was read and what is pending** is what was accepted. -/
theorem keys_account (h : k.queue.Ok) (es : List KbdEvent) :
    Machine.outputs Keys.step Keys.returned k es ++
        decode (Machine.after Keys.step k es).shiftDown (Machine.after Keys.step k es).queue.pending =
      decode k.shiftDown (k.queue.pending ++ Machine.outputs Keys.step Keys.accepted k es) := by
  induction es generalizing k with
  | nil => rw [Machine.outputs, Machine.outputs, List.append_nil]; rfl
  | cons e es ih =>
    obtain ⟨hread, hshift⟩ := Keys.account h e
    rw [Machine.outputs, Machine.outputs, Machine.after_cons, List.append_assoc,
      ih (Keys.step_ok h e), decode_append, ← List.append_assoc, ← List.append_assoc, hread, hshift,
      ← decode_append]

/-- The characters among what the calls return. -/
theorem filter_results (es : List KbdEvent) :
    (Machine.outputs Keys.step Keys.results k es).filter (· ≠ 0) =
      Machine.outputs Keys.step Keys.returned k es := by
  induction es generalizing k with
  | nil => rfl
  | cons e es ih =>
    rw [Machine.outputs, Machine.outputs, List.filter_append, ih]
    congr 1
    cases e with
    | irq sc => rfl
    | read =>
      rw [Keys.results, Keys.returned]
      by_cases h0 : (readKey k).1 = 0
      · rw [if_pos h0, List.filter_cons_of_neg (by simpa using h0), List.filter_nil]
      · rw [if_neg h0, List.filter_cons_of_pos (by simpa using h0), List.filter_nil]

/-- The scancodes of the interrupts. -/
def irqs (es : List KbdEvent) : List UInt8 := es.flatMap fun
  | .irq sc => [sc]
  | .read => []

/-- The queue has room for the scancode of an interrupt. -/
def Keys.Room (k : Keys) : KbdEvent → Prop
  | .irq _ => k.queue.pending.length < 31
  | .read => True

/-- Where there is room, every scancode is accepted. -/
theorem accepted_of_room (h : k.queue.Ok) {es : List KbdEvent}
    (hr : Machine.Admits Keys.step Keys.Room k es) :
    Machine.outputs Keys.step Keys.accepted k es = irqs es := by
  induction es generalizing k with
  | nil => rfl
  | cons e es ih =>
    rw [Machine.outputs, ih (Keys.step_ok h e) hr.2, irqs, irqs, List.flatMap_cons]
    congr 1
    cases e with
    | irq sc =>
      obtain ⟨-, hq⟩ := h.handler sc
      have hroom : k.queue.pending.length < 31 := hr.1
      rw [if_pos hroom] at hq
      exact hq.2
    | read => rfl

/-- **A text that is typed is read**: whatever way it is typed, and wherever the interrupts come
between the calls, as long as the queue has room the calls return the text and then what is
pending. -/
theorem typed_text {text scs : List UInt8} {es : List KbdEvent} (ht : Types false text scs)
    (hes : irqs es = scs) (hr : Machine.Admits Keys.step Keys.Room keysInit es) :
    Machine.outputs Keys.step Keys.returned keysInit es ++
      decode (Machine.after Keys.step keysInit es).shiftDown
        (Machine.after Keys.step keysInit es).queue.pending = text := by
  rw [keys_account Keyboard.kbdInit_ok es, accepted_of_room Keyboard.kbdInit_ok hr, hes]
  exact decode_of_types ht

end WarkRune.Io

import WarkRune.Shell.Readline

/-!
# Reading a line from the serial port

`serial_shell_poll` is handed one character from the serial port at a time, and keeps the line in a
static array between its calls. A line end hands the line to `run_pipeline`. The port and the
keyboard are two ways to the same commands, with an editor each.

What `run_pipeline` does and sends is not part of this model.

## Main definitions

* `SerialShell`, `serialShellPoll`: the static variables, and the function
* `SerialShell.Plain`: the characters that both editors take alike

## Main results

* `poll_ends`, `poll_edits`: a line end, and any other character
* `consoles_agree_iff`: both editors make the same line of a text exactly when its characters are
  plain where they come
-/

namespace WarkRune.Shell

open LineEdit (Key Holds press edit strOf)

/-- The static variables of `serial_shell_poll`, and what it does with them. -/
structure SerialShell where
  buf : ℕ → UInt8
  len : ℕ
  /-- The bytes sent on the serial port, the latest first. -/
  sent : List UInt8
  /-- The lines handed to `run_pipeline`, the latest first. -/
  ran : List (List UInt8)

namespace SerialShell

/-- `serial_putc`. -/
def putc (s : SerialShell) (c : UInt8) : SerialShell :=
  { s with sent := (if c = 10 then [10, 13] else [c]) ++ s.sent }

/-- `serial_puts`, which ends with a newline. -/
def puts (s : SerialShell) (str : List UInt8) : SerialShell := (str ++ [10]).foldl putc s

/-- `serial_shell_poll`. -/
def serialShellPoll (s : SerialShell) (c : UInt8) : SerialShell :=
  let s := s.putc c
  if c = 13 ∨ c = 10 then
    let s := { s with buf := Function.update s.buf s.len 0 }
    let s := s.putc 10
    let s := if s.len > 0 then { s with ran := strOf s.buf 128 :: s.ran } else s
    let s := { s with len := 0 }
    -- "[ring0]> "
    s.puts [91, 114, 105, 110, 103, 48, 93, 62, 32]
  else if (c = 8 ∨ c = 127) ∧ s.len > 0 then { s with len := s.len - 1 }.puts [8, 32, 8]
  -- the comparison is one of signed characters
  else if s.len < 127 ∧ 0x20 ≤ c ∧ c < 0x80 then
    { s with buf := Function.update s.buf s.len c, len := s.len + 1 }
  else s

/-- The line, as far as it has come. -/
def line (s : SerialShell) : List UInt8 := (List.range s.len).map s.buf

/-! ## What the port is sent -/

variable {s : SerialShell} {w : List UInt8} {c : UInt8}

theorem puts_sends (s : SerialShell) (str : List UInt8) :
    ∃ bs, s.puts str = { s with sent := bs } := by
  unfold puts
  induction str ++ [10] generalizing s with
  | nil => exact ⟨s.sent, rfl⟩
  | cons c str ih => exact ih (s.putc c)

@[simp] theorem putc_buf (s : SerialShell) (c : UInt8) : (s.putc c).buf = s.buf := rfl

@[simp] theorem putc_len (s : SerialShell) (c : UInt8) : (s.putc c).len = s.len := rfl

@[simp] theorem putc_ran (s : SerialShell) (c : UInt8) : (s.putc c).ran = s.ran := rfl

@[simp] theorem puts_buf (s : SerialShell) (str : List UInt8) : (s.puts str).buf = s.buf := by
  obtain ⟨bs, hs⟩ := s.puts_sends str
  rw [hs]

@[simp] theorem puts_len (s : SerialShell) (str : List UInt8) : (s.puts str).len = s.len := by
  obtain ⟨bs, hs⟩ := s.puts_sends str
  rw [hs]

@[simp] theorem puts_ran (s : SerialShell) (str : List UInt8) : (s.puts str).ran = s.ran := by
  obtain ⟨bs, hs⟩ := s.puts_sends str
  rw [hs]

/-! ## The line -/

/-- What a character that is no line end makes of the line. -/
def serialPress (w : List UInt8) (c : UInt8) : List UInt8 :=
  if (c = 8 ∨ c = 127) ∧ 0 < w.length then w.dropLast
  else if 0x20 ≤ c ∧ c < 0x80 then press 127 w (.put c)
  else w

/-- **A line end** hands the line on, if there is one, and the next line is empty. -/
theorem poll_ends (h : Holds 128 w s.buf s.len) (hc : c = 13 ∨ c = 10) :
    Holds 128 [] (s.serialShellPoll c).buf (s.serialShellPoll c).len ∧
      (s.serialShellPoll c).ran = if 0 < w.length then w :: s.ran else s.ran := by
  unfold serialShellPoll
  rw [if_pos hc]
  simp only [puts_buf, puts_len, puts_ran, putc_buf, putc_len, h.strOf_end, ← h.size]
  refine ⟨LineEdit.holds_nil (by decide) _, ?_⟩
  split
  · rfl
  · rfl

theorem poll_eq (hc : ¬ (c = 13 ∨ c = 10)) : s.serialShellPoll c =
    if (c = 8 ∨ c = 127) ∧ s.len > 0 then { s.putc c with len := s.len - 1 }.puts [8, 32, 8]
    else if s.len < 127 ∧ 0x20 ≤ c ∧ c < 0x80 then
      { s.putc c with buf := Function.update s.buf s.len c, len := s.len + 1 }
    else s.putc c := if_neg hc

/-- **Any other character** edits the line. -/
theorem poll_edits (h : Holds 128 w s.buf s.len) (hc : ¬ (c = 13 ∨ c = 10)) :
    Holds 128 (serialPress w c) (s.serialShellPoll c).buf (s.serialShellPoll c).len ∧
      (s.serialShellPoll c).ran = s.ran := by
  rw [poll_eq hc, serialPress, ← h.size]
  by_cases herase : (c = 8 ∨ c = 127) ∧ s.len > 0
  · simp only [if_pos herase, puts_buf, puts_len, puts_ran]
    exact ⟨h.erase herase.2 _ fun _ _ => rfl, rfl⟩
  simp only [if_neg herase]
  by_cases hprint : 0x20 ≤ c ∧ c < 0x80
  · rw [if_pos hprint, press, ← h.size]
    by_cases hroom : s.len < 127
    · have h0 : c ≠ 0 := by
        rintro rfl
        exact absurd hprint.1 (by decide)
      simp only [if_pos hroom, if_pos (And.intro hroom hprint)]
      exact ⟨h.put h0 hroom, rfl⟩
    · simp only [if_neg hroom, if_neg fun hn : s.len < 127 ∧ 0x20 ≤ c ∧ c < 0x80 => hroom hn.1]
      exact ⟨h, rfl⟩
  · simp only [if_neg hprint, if_neg fun hn : s.len < 127 ∧ 0x20 ≤ c ∧ c < 0x80 => hprint hn.2]
    exact ⟨h, rfl⟩

/-! ## The two editors -/

/-- A character of a text: no NUL, which no editor is handed, and no line end. -/
abbrev TextChar := { c : UInt8 // c ≠ 0 ∧ ¬ (c = 13 ∨ c = 10) }

/-- **The characters that both editors take alike**: a backspace, a delete that has something to
take away, and what can be printed. Where the line is full, it is everything but a delete. -/
def Plain (s : SerialShell) (c : TextChar) : Prop :=
  if c.1 = 8 then True else if c.1 = 127 then 0 < s.len else s.len = 127 ∨ 0x20 ≤ c.1 ∧ c.1 < 0x80

instance decidablePlain (s : SerialShell) (c : TextChar) : Decidable (s.Plain c) :=
  inferInstanceAs (Decidable (if c.1 = 8 then True else if c.1 = 127 then 0 < s.len else
    s.len = 127 ∨ 0x20 ≤ c.1 ∧ c.1 < 0x80))

/-- An entry that is added changes the line. -/
theorem concat_ne_self (w : List UInt8) (c : UInt8) : w ++ [c] ≠ w := by
  intro h
  have hlen := congrArg List.length h
  rw [List.length_append, List.length_singleton] at hlen
  omega

/-- **The editors agree** on a character exactly when it is plain. -/
theorem serialPress_eq_iff (h : Holds 128 w s.buf s.len) (c : TextChar) :
    serialPress w c = press 127 w (keyOf c) ↔ s.Plain c := by
  obtain ⟨c, h0, hend⟩ := c
  have hsize := h.size
  have hlt := h.lt
  unfold serialPress Plain keyOf
  dsimp only
  by_cases h8 : c = 8
  · subst h8
    have hkey : (8 : UInt8) = 8 ∨ (8 : UInt8) = 127 := .inl rfl
    rw [if_pos hkey, if_pos rfl]
    refine iff_of_true ?_ trivial
    split_ifs with hpos hprint
    · rfl
    · exact absurd hprint.1 (by decide)
    · have hnil : w = [] := List.eq_nil_of_length_eq_zero (by
        by_contra hne
        exact hpos ⟨hkey, Nat.pos_of_ne_zero hne⟩)
      rw [hnil]
      rfl
  rw [if_neg h8]
  by_cases h127 : c = 127
  · subst h127
    have hkey : (127 : UInt8) = 8 ∨ (127 : UInt8) = 127 := .inr rfl
    rw [if_pos hkey, if_pos rfl, hsize]
    by_cases hpos : 0 < w.length
    · rw [if_pos ⟨hkey, hpos⟩]
      exact iff_of_true rfl hpos
    · -- a delete on an empty line is stored
      have hnil : w = [] := List.eq_nil_of_length_eq_zero (by omega)
      rw [if_neg fun hn => hpos hn.2, if_pos (by decide), hnil]
      exact iff_of_false (List.cons_ne_nil _ _) (Nat.lt_irrefl 0)
  have hkey : ¬ (c = 8 ∨ c = 127) := not_or.mpr ⟨h8, h127⟩
  rw [if_neg h127, if_neg hkey, if_neg fun hn => hkey hn.1, hsize]
  by_cases hprint : 0x20 ≤ c ∧ c < 0x80
  · rw [if_pos hprint]
    exact iff_of_true rfl (.inr hprint)
  · rw [if_neg hprint, press]
    by_cases hroom : w.length < 127
    · rw [if_pos hroom]
      apply iff_of_false
      · exact (concat_ne_self w c).symm
      · rintro (hfull | hprint')
        · omega
        · exact hprint hprint'
    · rw [if_neg hroom]
      exact iff_of_true rfl (.inl (by omega))

/-- The port takes a text. -/
abbrev pollText (s : SerialShell) (c : TextChar) : SerialShell := s.serialShellPoll c

/-- The keyboard takes a text. -/
abbrev pressText (w : List UInt8) (c : TextChar) : List UInt8 := press 127 w (keyOf c)

theorem holds_pollText (h : Holds 128 w s.buf s.len) (c : TextChar) :
    Holds 128 (serialPress w c) (s.pollText c).buf (s.pollText c).len :=
  (poll_edits h c.2.2).1

/-- What the keyboard makes of a text. -/
theorem after_pressText (w : List UInt8) (text : List TextChar) :
    Machine.after pressText w text = edit 127 w ((text.map (·.1)).map keyOf) := by
  rw [edit, List.map_map, List.foldl_map]
  rfl

/-- A text that is typed is read as the keyboard makes it. -/
theorem reads_text {t : Terminal} {text : List TextChar} {m : ℕ}
    (ht : Typed t.keys t.polls (text.map (·.1)) 13 m) (buf : ℕ → UInt8) :
    (shellReadline buf 128).Yields t fun line _ => line = Machine.after pressText [] text := by
  have hd : Draws t.row 128 fun _ _ => True :=
    ⟨fun _ _ _ _ _ => trivial, fun _ _ _ _ _ => trivial, fun _ _ _ _ _ => trivial⟩
  refine (shellReadline_reads hd (by decide) (by decide) ht trivial).mono ?_
  rintro line s' ⟨rfl, -⟩
  exact (after_pressText [] text).symm

/-- A terminal on which the text is typed. -/
theorem typed_start (text : List TextChar) :
    ∃ m, Typed (Terminal.start (text.map (·.1) ++ [13])).keys 0 (text.map (·.1)) 13 m := by
  refine typed_of_filter [] ?_ ?_ (.inl rfl) fun i _ => congrArg _ (Nat.zero_add i)
  · apply List.filter_eq_self.mpr
    intro c hc
    rcases List.mem_append.mp hc with hc | hc
    · obtain ⟨c, -, rfl⟩ := List.mem_map.mp hc
      simpa using c.2.1
    · rw [List.mem_singleton.mp hc]
      rfl
  · intro c hc
    obtain ⟨c, -, rfl⟩ := List.mem_map.mp hc
    exact c.2.2

/-- The lines of a text agree, as far as it has come, exactly when each of its characters is plain
where it comes. -/
theorem lines_agree_iff {s : SerialShell} (hs : s.len = 0) (text : List TextChar) :
    (∀ p, p <+: text → (Machine.after (Machine.both pollText pressText) (s, []) p).1.line =
      (Machine.after (Machine.both pollText pressText) (s, []) p).2) ↔
        Machine.Admits (Machine.both pollText pressText) (fun q c => q.1.Plain c) (s, []) text := by
  refine Machine.visits_iff (I := fun q : SerialShell × List UInt8 => Holds 128 q.2 q.1.buf q.1.len)
    (Q := fun q : SerialShell × List UInt8 => q.1.line = q.2) (fun q c hq hc => ?_)
    (fun q hq => hq.entries) (fun q c hq hc h => ?_) ?_
  · have hpress := holds_pollText hq c
    rwa [(serialPress_eq_iff hq c).mpr hc] at hpress
  · have hpress := (holds_pollText hq c).entries
    exact hc ((serialPress_eq_iff hq c).mp (hpress.symm.trans h))
  · show Holds 128 [] s.buf s.len
    rw [hs]
    exact LineEdit.holds_nil (by decide) _

/-- **The two consoles read the same lines** of a text, as far as it has come, exactly when each of
its characters is plain where it comes. -/
theorem consoles_agree_iff {s : SerialShell} (hs : s.len = 0) (text : List TextChar) :
    (∀ p, p <+: text → ∀ t m buf, Typed t.keys t.polls (p.map (·.1)) 13 m →
      (shellReadline buf 128).Yields t fun line _ => line = (Machine.after pollText s p).line) ↔
        Machine.Admits pollText Plain s text := by
  have hlines := lines_agree_iff hs text
  rw [Machine.admits_both] at hlines
  rw [← hlines]
  apply forall_congr'
  intro p
  apply forall_congr'
  intro _
  rw [Machine.after_both]
  constructor
  · intro h
    obtain ⟨m, hm⟩ := typed_start p
    obtain ⟨line, s', hr, hline⟩ := h _ m (fun _ => 0) hm
    exact hline.symm.trans ((reads_text hm _).of_returns hr)
  · intro h t m buf ht
    exact (reads_text ht buf).mono fun line _ hline => hline.trans h.symm

/-- `serial_shell_poll` before its first call. -/
def start : SerialShell := ⟨fun _ => 0, 0, [], []⟩

/-- A letter and two deletes. -/
def twoDeletes : List TextChar := [⟨108, by decide⟩, ⟨127, by decide⟩, ⟨127, by decide⟩]

/-- The theorem where the second delete finds an empty line: the consoles differ. -/
theorem consoles_differ_twoDeletes :
    ¬ ∀ p, p <+: twoDeletes → ∀ t m buf, Typed t.keys t.polls (p.map (·.1)) 13 m →
      (shellReadline buf 128).Yields t fun line _ =>
        line = (Machine.after pollText start p).line := by
  apply (not_congr (consoles_agree_iff rfl twoDeletes)).mpr
  rw [twoDeletes, Machine.admits_cons, Machine.admits_cons, Machine.admits_cons]
  rintro ⟨-, -, h, -⟩
  exact absurd h (by decide)

end SerialShell

end WarkRune.Shell

import WarkRune.Klib.Format

/-!
# What a call of `kvsprintf` leaves

A call puts out the text of its format, cut off where the buffer is full, and then a NUL behind what
is in the buffer. The loop looks at the position between two pieces only, so the last piece may run
past the capacity, where nothing is stored, and the NUL replaces the last byte.

A format may end inside a directive. Then the loop goes past its NUL, unless the text in front of
the directive fills the buffer.

## Main results

* `kvsprintf_runs`, `kvsprintf_text`: the buffer behind a call
* `kvsprintf_truncates`: a smaller buffer holds less of the same text
* `kvsprintf_stops_iff`: when a call stays before the NUL of its format
-/

namespace WarkRune.Klib

/-- The access stays in the `cap` bytes of the buffer and in the 21 bytes of the digits. -/
def Access.Inside (cap : ℤ) : Access → Prop
  | .buf i => i < cap
  | .tmp i => i < 21
  | .out i => i < 21
  | _ => True

/-- The access reads no character of the format behind the NUL at `n`, and puts out no NUL of it. -/
def Access.BeforeNul (n : ℕ) : Access → Prop
  | .fmt i => i ≤ n
  | .copied ch => ch ≠ 0
  | _ => True

theorem Access.Fine.inside {cap : ℤ} {n : ℕ} {e : Access} (h : e.Fine cap n) : e.Inside cap := by
  cases e with
  | buf i => exact h
  | tmp i => exact h
  | out i => exact h
  | fmt i => exact trivial
  | copied ch => exact trivial

theorem Access.Fine.beforeNul {cap : ℤ} {n : ℕ} {e : Access} (h : e.Fine cap n) :
    e.BeforeNul n := by
  cases e with
  | fmt i => exact h
  | copied ch => exact h
  | buf i => exact trivial
  | tmp i => exact trivial
  | out i => exact trivial

section Calls

variable {c : Call} {cap : ℤ} {o : Out} {f : List UInt8}

/-- **A call** that does not come to a directive the NUL ends puts out the text, or as much of it as
fills the buffer, and puts a NUL behind it. -/
theorem kvsprintf_runs (hf : Terminated c.fmt 0 f) (hcap : 1 ≤ cap)
    (hok : .unfinished ∉ pieces f ∨ cap - 1 ≤ (render c o.arg (pieces f)).length) :
    (kvsprintf c cap).Runs o (Access.Fine cap f.length) fun r o' =>
      ∃ t, t <+: render c o.arg (pieces f) ∧
        (t = render c o.arg (pieces f) ∨ cap - 1 ≤ t.length) ∧ r = t.length ∧
        (∀ i < min (cap - 1).toNat t.length, o'.buf i = t.getD i 0) ∧
        o'.buf (min (cap - 1).toNat t.length) = 0 := by
  have hstands : Stands c f.length 0 f := ⟨hf, Nat.zero_add _⟩
  rw [kvsprintf, Traced.runs_bind, Traced.runs_modify, if_neg (by omega), Traced.runs_bind]
  refine (loop_runs hstands ?_).mono fun _ o₁ ⟨t, a, ho₁, hpre, hend⟩ => ?_
  · simpa using hok
  · have hbuf (i : ℕ) (hi : i < t.length) (hic : (i : ℤ) < cap) : o₁.buf i = t.getD i 0 := by
      rw [ho₁]
      exact Out.buf_puts.trans (if_pos ⟨Nat.zero_le i, by simpa using hi, hic⟩)
    have hpos : o₁.pos = t.length := by
      rw [ho₁]
      exact Out.pos_puts.trans (Nat.zero_add _)
    -- the NUL is stored where the text in the buffer ends
    have hlast : (if (o₁.pos : ℤ) < cap then o₁.pos else (cap - 1).toNat) =
        min (cap - 1).toNat t.length := by
      rw [hpos]
      split <;> omega
    have hfine : Access.Fine cap f.length (.buf (min (cap - 1).toNat t.length)) := by
      change ((min (cap - 1).toNat t.length : ℕ) : ℤ) < cap
      omega
    simp only [Traced.runs_bind, Traced.runs_get, Traced.runs_emit, Traced.runs_modify,
      Traced.runs_pure, hlast]
    refine ⟨hfine, t, hpre, ?_, hpos, fun i hi => ?_, Function.update_self ..⟩
    · simpa using hend
    · rw [Function.update_of_ne (by omega)]
      exact hbuf i (by omega) (by omega)

/-- **A call on complete directives** leaves as much of the text as fits, and returns its length
where there is room for all of it. -/
theorem kvsprintf_text (hf : Terminated c.fmt 0 f) (hcap : 1 ≤ cap)
    (hok : .unfinished ∉ pieces f) :
    (kvsprintf c cap).Runs o (Access.Inside cap) fun r o' =>
      ((render c o.arg (pieces f)).length < cap → r = (render c o.arg (pieces f)).length) ∧
      (∀ i < min (cap - 1).toNat (render c o.arg (pieces f)).length,
        o'.buf i = (render c o.arg (pieces f)).getD i 0) ∧
      o'.buf (min (cap - 1).toNat (render c o.arg (pieces f)).length) = 0 := by
  obtain ⟨hw, r, o', hr, t, ⟨u, hu⟩, hend, hlen, hbuf, hnul⟩ := kvsprintf_runs hf hcap (.inl hok)
  refine ⟨fun e he => (hw e he).inside, r, o', hr, ?_⟩
  have htext : (render c o.arg (pieces f)).length = t.length + u.length := by
    rw [← hu, List.length_append]
  rcases hend with heq | hfull
  · rw [heq] at hlen hbuf hnul
    exact ⟨fun _ => hlen, hbuf, hnul⟩
  · -- the text that was put out and the whole text are cut off at the same place
    have hmin : min (cap - 1).toNat t.length =
        min (cap - 1).toNat (render c o.arg (pieces f)).length := by omega
    rw [hmin] at hbuf hnul
    refine ⟨fun h => by omega, fun i hi => ?_, hnul⟩
    rw [hbuf i hi, ← hu, List.getD_eq_getElem?_getD, List.getD_eq_getElem?_getD,
      List.getElem?_append_left (by omega)]

/-- **A smaller buffer holds less of the same text.** A format whose directives are complete has a
text: with room for it and a NUL the call returns its length, and any buffer holds as much of it as
fits, and a NUL behind that. No store is outside of the buffer or of the 21 bytes of the digits. -/
theorem kvsprintf_truncates (c : Call) {f : List UInt8} (hf : Terminated c.fmt 0 f)
    (hok : .unfinished ∉ pieces f) (a : ℕ) :
    ∃ text : List UInt8, ∀ (cap : ℤ) (o : Out), 1 ≤ cap → o.arg = a →
      (kvsprintf c cap).Runs o (Access.Inside cap) fun r o' =>
        (text.length < cap → r = text.length) ∧
        (∀ i < min (cap - 1).toNat text.length, o'.buf i = text.getD i 0) ∧
        o'.buf (min (cap - 1).toNat text.length) = 0 := by
  refine ⟨render c a (pieces f), fun cap o hcap harg => ?_⟩
  subst harg
  exact kvsprintf_text hf hcap hok

/-- A format in a memory that holds `A` behind its NUL, with one word for every argument. -/
def smallCall (f : List UInt8) (w : BitVec 32) : Call where
  fmt i := if i = f.length then 0 else f.getD i (chr 'A')
  args _ := w
  str _ := []

/-- The numeral of -7. -/
theorem kvsprintf_truncates_seven :
    Terminated (smallCall [chr '%', chr 'd'] (-7)).fmt 0 [chr '%', chr 'd'] ∧
      Piece.unfinished ∉ pieces [chr '%', chr 'd'] ∧
      ∃ text : List UInt8, ∀ (cap : ℤ) (o : Out), 1 ≤ cap → o.arg = 0 →
        (kvsprintf (smallCall [chr '%', chr 'd'] (-7)) cap).Runs o (Access.Inside cap) fun r o' =>
          (text.length < cap → r = text.length) ∧
          (∀ i < min (cap - 1).toNat text.length, o'.buf i = text.getD i 0) ∧
          o'.buf (min (cap - 1).toNat text.length) = 0 := by
  have hf : Terminated (smallCall [chr '%', chr 'd'] (-7)).fmt 0 [chr '%', chr 'd'] :=
    ⟨rfl, by decide, rfl, by decide, rfl⟩
  have hok : Piece.unfinished ∉ pieces [chr '%', chr 'd'] := by
    have hnext : next (chr '%') [chr 'd'] = (.directive ⟨false, chr ' ', 0, false⟩ (chr 'd'), []) :=
      by decide
    rw [pieces_cons, hnext, pieces_nil]
    decide
  exact ⟨hf, hok, kvsprintf_truncates (smallCall [chr '%', chr 'd'] (-7)) hf hok 0⟩

/-- **A call stays before the NUL** of its format if and only if the format does not end inside a
directive, or the text in front of that directive fills the buffer. -/
theorem kvsprintf_stops_iff (c : Call) (cap : ℤ) {f : List UInt8} (hf : Terminated c.fmt 0 f)
    (o : Out) :
    (kvsprintf c cap).Within o (Access.BeforeNul f.length) ↔
      .unfinished ∉ pieces f ∨ cap - 1 ≤ (render c o.arg (pieces f)).length := by
  constructor
  · intro h
    by_contra hbad
    obtain ⟨hun, hlen⟩ := not_or.mp hbad
    have hstands : Stands c f.length 0 f := ⟨hf, Nat.zero_add _⟩
    have hloop : (Traced.loop (round c cap) 0).Emits { o with pos := 0 } (.copied 0) := by
      refine loop_emits hstands (not_not.mp hun) ?_
      simp only [Nat.cast_zero, Int.zero_add]
      omega
    have hemits : (kvsprintf c cap).Emits o (.copied 0) := by
      refine Traced.emits_bind.mpr (.inr ⟨(), _, Exec.returns_modify.mpr rfl, ?_⟩)
      rw [if_neg (by omega)]
      exact Traced.emits_bind.mpr (.inl hloop)
    exact h _ hemits rfl
  · intro hok
    by_cases hcap : 1 ≤ cap
    · exact fun e he => ((kvsprintf_runs hf hcap hok).1 e he).beforeNul
    · have hempty : (kvsprintf c cap).Runs o (Access.BeforeNul f.length) fun _ _ => True := by
        rw [kvsprintf, Traced.runs_bind, Traced.runs_modify, if_pos (by omega)]
        exact Traced.runs_pure.mpr trivial
      exact hempty.1

/-- In a buffer of two bytes the text `a` leaves no room for the unfinished directive behind it. -/
theorem kvsprintf_stops_two : Terminated (smallCall [chr 'a', chr '%'] 0).fmt 0 [chr 'a', chr '%'] ∧
    (kvsprintf (smallCall [chr 'a', chr '%'] 0) 2).Within ⟨fun _ => 0, 0, 0⟩
      (Access.BeforeNul 2) := by
  have hf : Terminated (smallCall [chr 'a', chr '%'] 0).fmt 0 [chr 'a', chr '%'] :=
    ⟨rfl, by decide, rfl, by decide, rfl⟩
  refine ⟨hf, (kvsprintf_stops_iff _ 2 hf _).mpr (.inr ?_)⟩
  have hnext : next (chr 'a') [chr '%'] = (.plain (chr 'a'), [chr '%']) := by decide
  rw [pieces_cons, hnext, render, List.length_append]
  simp [Piece.text]

/-- The format `%`: the NUL is put out, and the character behind it is read. -/
theorem kvsprintf_reads_on : Terminated (smallCall [chr '%'] 0).fmt 0 [chr '%'] ∧
    (kvsprintf (smallCall [chr '%'] 0) 8).Emits ⟨fun _ => 0, 0, 0⟩ (.copied 0) ∧
    (kvsprintf (smallCall [chr '%'] 0) 8).Emits ⟨fun _ => 0, 0, 0⟩ (.fmt 2) ∧
    ¬ (kvsprintf (smallCall [chr '%'] 0) 8).Within ⟨fun _ => 0, 0, 0⟩ (Access.BeforeNul 1) := by
  have hnul : (kvsprintf (smallCall [chr '%'] 0) 8).Emits ⟨fun _ => 0, 0, 0⟩ (.copied 0) :=
    ⟨12, by decide⟩
  exact ⟨⟨rfl, by decide, rfl⟩, hnul, ⟨12, by decide⟩, fun h => h _ hnul rfl⟩

end Calls

end WarkRune.Klib

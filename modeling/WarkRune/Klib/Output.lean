import WarkRune.Klib.Numeral

/-!
# The text of a directive

A directive puts out a text that its arguments determine, byte after byte. A byte moves the position
on and is stored as long as the position is below the capacity, so what is put out can be described
without the buffer, and the buffer by what has been put out.

## Main definitions

* `Out.puts`: the buffer and the position behind a text
* `padded`, `Spec.text`, `Spec.words`: the text of a directive and the arguments it takes

## Main results

* `kputs_runs`: a text is put out with its padding
* `convert_runs`: a directive puts out its text
-/

namespace WarkRune.Klib

/-- A byte behind the others. -/
def Out.putc (cap : ℤ) (o : Out) (ch : UInt8) : Out :=
  { o with
    buf := if o.pos < cap then Function.update o.buf o.pos ch else o.buf
    pos := o.pos + 1 }

/-- A text behind what is there. -/
def Out.puts (cap : ℤ) (t : List UInt8) (o : Out) : Out := t.foldl (Out.putc cap) o

/-- A text filled up to a width. -/
def padded (s : List UInt8) (width : ℕ) (left : Bool) (pad : UInt8) : List UInt8 :=
  if left then s ++ List.replicate (width - s.length) (chr ' ')
  else List.replicate (width - s.length) pad ++ s

/-- The integer at a place of the argument list. -/
def Call.integer (c : Call) (ll signed : Bool) (a : ℕ) : BitVec 64 :=
  if ll then c.args (a + 1) ++ c.args a
  else if signed then (c.args a).signExtend 64 else (c.args a).setWidth 64

/-- The words of an integer. -/
def integerWords (ll : Bool) : ℕ := if ll then 2 else 1

/-- The string at a place of the argument list. -/
def Call.string (c : Call) (a : ℕ) : List UInt8 :=
  if c.args a = 0 then "(null)".toList.map chr else c.str (c.args a)

/-- The text of a directive, with its arguments from `a` on. -/
def Spec.text (sp : Spec) (ch : UInt8) (c : Call) (a : ℕ) : List UInt8 :=
  if ch = chr 'd' ∨ ch = chr 'i' then
    padded (signedNumeral (c.integer sp.ll true a).toInt) sp.width sp.left sp.pad
  else if ch = chr 'u' then
    padded (numeral 10 false (c.integer sp.ll false a).toNat) sp.width sp.left sp.pad
  else if ch = chr 'x' then
    padded (numeral 16 false (c.integer sp.ll false a).toNat) sp.width sp.left sp.pad
  else if ch = chr 'X' then
    padded (numeral 16 true (c.integer sp.ll false a).toNat) sp.width sp.left sp.pad
  else if ch = chr 's' then padded (c.string a) sp.width sp.left (chr ' ')
  else if ch = chr 'c' then [.ofNat (c.args a).toNat]
  else if ch = chr '%' then [chr '%']
  else [chr '%', ch]

/-- The words of the argument list that a directive takes. -/
def Spec.words (sp : Spec) (ch : UInt8) : ℕ :=
  if ch = chr 'd' ∨ ch = chr 'i' then integerWords sp.ll
  else if ch = chr 'u' then integerWords sp.ll
  else if ch = chr 'x' then integerWords sp.ll
  else if ch = chr 'X' then integerWords sp.ll
  else if ch = chr 's' then 1
  else if ch = chr 'c' then 1
  else 0

variable {c : Call} {cap : ℤ} {n : ℕ} {o : Out} {s t u : List UInt8} {sp : Spec}

/-! ## What is put out -/

@[simp] theorem Out.puts_nil : o.puts cap [] = o := rfl

@[simp] theorem Out.puts_singleton {ch : UInt8} : o.puts cap [ch] = o.putc cap ch := rfl

theorem Out.puts_append : o.puts cap (t ++ u) = (o.puts cap t).puts cap u :=
  List.foldl_append

@[simp] theorem Out.pos_puts : (o.puts cap t).pos = o.pos + t.length := by
  induction t generalizing o with
  | nil => rfl
  | cons ch t ih =>
    rw [List.length_cons, ← Nat.add_assoc, Nat.add_right_comm]
    exact ih

@[simp] theorem Out.arg_puts : (o.puts cap t).arg = o.arg := by
  induction t generalizing o with
  | nil => rfl
  | cons ch t ih => exact ih

/-- The position in the argument list does not matter for what is put out. -/
theorem Out.puts_arg {a : ℕ} :
    ({ o with arg := a } : Out).puts cap t = { o.puts cap t with arg := a } := by
  induction t generalizing o with
  | nil => rfl
  | cons ch t ih => exact ih (o := o.putc cap ch)

/-- **The buffer** holds what has been put out as far as the capacity. -/
theorem Out.buf_puts {i : ℕ} : (o.puts cap t).buf i =
    if o.pos ≤ i ∧ i < o.pos + t.length ∧ i < cap then t.getD (i - o.pos) 0 else o.buf i := by
  induction t generalizing o with
  | nil =>
    rw [Out.puts_nil, if_neg]
    rintro ⟨hle, hlt, -⟩
    rw [List.length_nil] at hlt
    omega
  | cons ch t ih =>
    change ((o.putc cap ch).puts cap t).buf i = _
    rw [ih, List.length_cons]
    by_cases hi : i = o.pos
    · subst hi
      have hlater : ¬ ((o.putc cap ch).pos ≤ o.pos ∧ o.pos < (o.putc cap ch).pos + t.length ∧
          (o.pos : ℤ) < cap) := fun h => absurd h.1 (Nat.not_succ_le_self _)
      rw [if_neg hlater, Nat.sub_self, List.getD_cons_zero, Out.putc]
      by_cases hcap : (o.pos : ℤ) < cap
      · rw [if_pos hcap, if_pos ⟨Nat.le_refl _, by omega, hcap⟩]
        exact Function.update_self ..
      · rw [if_neg hcap, if_neg fun h => hcap h.2.2]
    · have hbuf : (o.putc cap ch).buf i = o.buf i := by
        rw [Out.putc]
        split
        · exact Function.update_of_ne hi ..
        · rfl
      rw [hbuf]
      have hpos : (o.putc cap ch).pos = o.pos + 1 := rfl
      rw [hpos]
      by_cases hin : o.pos + 1 ≤ i ∧ i < o.pos + 1 + t.length ∧ (i : ℤ) < cap
      · rw [if_pos hin, if_pos (by omega)]
        obtain ⟨k, rfl⟩ := Nat.exists_eq_add_of_le hin.1
        rw [Nat.add_sub_cancel_left, Nat.add_assoc, Nat.add_sub_cancel_left, Nat.add_comm 1 k,
          List.getD_cons_succ]
      · rw [if_neg hin, if_neg (by omega)]

/-- **A byte** is put out. -/
@[simp] theorem runs_kputc {ch : UInt8} {P : Unit → Out → Prop} :
    (kputc cap ch).Runs o (Access.Fine cap n) P ↔ P () (o.putc cap ch) := by
  unfold kputc Out.putc
  simp only [Traced.runs_bind, Traced.runs_get]
  by_cases hcap : (o.pos : ℤ) < cap
  · have hfine : Access.Fine cap n (.buf o.pos) := hcap
    simp [hcap, hfine]
  · simp [hcap]

@[simp] theorem runs_puts {P : Unit → Out → Prop} :
    (t.foldlM (fun _ ch => kputc cap ch) ()).Runs o (Access.Fine cap n) P ↔
      P () (o.puts cap t) := by
  induction t generalizing o with
  | nil => exact Traced.runs_pure
  | cons ch t ih =>
    rw [List.foldlM_cons, Traced.runs_bind, runs_kputc]
    exact ih

/-- A padding loop puts out what is missing up to its limit. -/
theorem pad_runs {pad : UInt8} {limit printed : ℤ} :
    (Traced.loop (padRound cap pad limit) printed).Runs o (Access.Fine cap n) fun _ o' =>
      o' = o.puts cap (List.replicate (limit - printed).toNat pad) := by
  induction hk : (limit - printed).toNat generalizing o printed with
  | zero =>
    refine .loop ?_
    rw [padRound, if_neg (by omega)]
    simp
  | succ k ih =>
    refine .loop ?_
    rw [padRound, if_pos (by omega)]
    simp only [Traced.runs_bind, runs_kputc, Traced.runs_pure, Traced.resumes_inl]
    exact ih (by omega)

/-- **`_kputs`** puts out a text filled up to the width. -/
theorem kputs_runs {width : ℕ} {left : Bool} {pad : UInt8} :
    (kputs cap s width left pad).Runs o (Access.Fine cap n) fun _ o' =>
      o' = o.puts cap (padded s width left pad) := by
  unfold kputs padded
  cases left with
  | true =>
    simp only [if_true, Traced.runs_bind, Traced.runs_pure, runs_puts, Int.zero_add]
    refine pad_runs.mono fun _ o' ho => ?_
    rw [ho, Out.puts_append, show ((width : ℤ) - s.length).toNat = width - s.length by omega]
  | false =>
    simp only [Bool.false_eq_true, if_false, Traced.runs_bind]
    refine pad_runs.mono fun _ o' ho => ?_
    simp only [runs_puts, Traced.runs_pure]
    rw [ho, Out.puts_append, show ((width : ℤ) - s.length - 0).toNat = width - s.length by omega]

/-! ## Arguments -/

@[simp] theorem runs_vaArg {Q : Access → Prop} {P : BitVec 32 → Out → Prop} :
    (vaArg c).Runs o Q P ↔ P (c.args o.arg) { o with arg := o.arg + 1 } := by
  simp [vaArg]

/-- **An integer** is taken from the argument list. -/
@[simp] theorem runs_vaInteger {Q : Access → Prop} {ll signed : Bool}
    {P : BitVec 64 → Out → Prop} :
    (vaInteger c ll signed).Runs o Q P ↔
      P (c.integer ll signed o.arg) { o with arg := o.arg + integerWords ll } := by
  cases ll
  · simp [vaInteger, Call.integer, integerWords]
  · simp [vaInteger, Call.integer, integerWords]

theorem putUnsigned_runs {base : ℕ} {upper : Bool} (hb : 10 ≤ base) (hb' : base ≤ 16) :
    (putUnsigned c cap sp base upper).Runs o (Access.Fine cap n) fun _ o' =>
      o' = ({ o with arg := o.arg + integerWords sp.ll } : Out).puts cap
        (padded (numeral base upper (c.integer sp.ll false o.arg).toNat) sp.width sp.left
          sp.pad) := by
  rw [putUnsigned, Traced.runs_bind, runs_vaInteger, Traced.runs_bind]
  refine (kfmtUll_runs hb hb' (Nat.zero_le 1)).mono fun tmp o' htmp => ?_
  rw [htmp.1, htmp.2]
  exact kputs_runs

/-- **A directive** takes its arguments and puts out its text. -/
theorem convert_runs {ch : UInt8} (hch : ch ≠ 0) :
    (convert c cap sp ch).Runs o (Access.Fine cap n) fun _ o' =>
      o' = ({ o with arg := o.arg + sp.words ch } : Out).puts cap (sp.text ch c o.arg) := by
  unfold convert Spec.words Spec.text
  split_ifs with hd hu hx hX hs hc hp
  · rw [Traced.runs_bind, runs_vaInteger, Traced.runs_bind]
    refine kfmtLl_runs.mono fun tmp o' htmp => ?_
    rw [htmp.1, htmp.2]
    exact kputs_runs
  · exact putUnsigned_runs (by decide) (by decide)
  · exact putUnsigned_runs (by decide) (by decide)
  · exact putUnsigned_runs (by decide) (by decide)
  · rw [Traced.runs_bind, runs_vaArg]
    exact kputs_runs
  · simp
  · simp
  · have hfine : Access.Fine cap n (.copied ch) := hch
    simp [hfine, Out.puts]

end WarkRune.Klib

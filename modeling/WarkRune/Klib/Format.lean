import WarkRune.Klib.Output

/-!
# The pieces of a format

A format is read as a list of pieces: a character that stands for itself, a directive, or a directive
that the NUL ends. The loop of `kvsprintf` puts out one piece in each round and goes on behind it, as
long as the position is below the last byte of the buffer. A directive that the NUL ends is no
piece the loop expects: its round takes the NUL for the conversion and goes on behind it.

## Main definitions

* `Terminated`: a format is in memory, up to its NUL
* `splitSpec`, `next`, `pieces`: the directives and the pieces of a format
* `render`: the text of the pieces

## Main results

* `parseSpec_runs`: the flags, the width and the length are read
* `round_runs`: a round puts out a piece
* `loop_runs`, `loop_emits`: the loop puts out the pieces, or comes to the NUL in a directive
-/

namespace WarkRune.Klib

/-- The characters from `i` on, up to the NUL. -/
def Terminated (fmt : ℕ → UInt8) : ℕ → List UInt8 → Prop
  | i, [] => fmt i = 0
  | i, ch :: f => fmt i = ch ∧ ch ≠ 0 ∧ Terminated fmt (i + 1) f

/-- Whether the format starts with `x`, and what comes behind it. -/
def flag (x : UInt8) (f : List UInt8) : Bool × List UInt8 :=
  if f.headD 0 = x then (true, f.tail) else (false, f)

def isDigit (ch : UInt8) : Bool := ch ≥ chr '0' ∧ ch ≤ chr '9'

/-- The width, with the digits in front of it. -/
def widthFrom (w : ℕ) (f : List UInt8) : ℕ :=
  (f.takeWhile isDigit).foldl (fun w ch => w * 10 + (ch - chr '0').toNat) w

/-- The flags, the width and the length of a directive, and what comes behind them. -/
def splitSpec (f : List UInt8) : Spec × List UInt8 :=
  let left := flag (chr '-') f
  let zero := flag (chr '0') left.2
  let long := flag (chr 'l') (zero.2.dropWhile isDigit)
  let ll := if long.1 then flag (chr 'l') long.2 else (false, long.2)
  (⟨left.1, if zero.1 then chr '0' else chr ' ', widthFrom 0 zero.2, ll.1⟩, ll.2)

/-- A piece of a format. -/
inductive Piece
  | plain (ch : UInt8)
  | directive (sp : Spec) (ch : UInt8)
  /-- A directive that the NUL ends. -/
  | unfinished
  deriving DecidableEq

/-- The piece that starts with `ch`, and what comes behind it. -/
def next (ch : UInt8) (f : List UInt8) : Piece × List UInt8 :=
  if ch ≠ chr '%' then (.plain ch, f)
  else
    match (splitSpec f).2 with
    | [] => (.unfinished, [])
    | conv :: g => (.directive (splitSpec f).1 conv, g)

theorem length_flag_le {x : UInt8} {f : List UInt8} : (flag x f).2.length ≤ f.length := by
  unfold flag
  split
  · rw [List.length_tail]
    exact Nat.sub_le _ _
  · exact Nat.le_refl _

theorem length_splitSpec_le {f : List UInt8} : (splitSpec f).2.length ≤ f.length := by
  have hll {b : Bool} {g : List UInt8} :
      (if b then flag (chr 'l') g else (false, g)).2.length ≤ g.length := by
    split
    · exact length_flag_le
    · exact Nat.le_refl _
  calc (splitSpec f).2.length
      ≤ (flag (chr 'l') ((flag (chr '0') (flag (chr '-') f).2).2.dropWhile isDigit)).2.length := hll
    _ ≤ ((flag (chr '0') (flag (chr '-') f).2).2.dropWhile isDigit).length := length_flag_le
    _ ≤ (flag (chr '0') (flag (chr '-') f).2).2.length := (List.dropWhile_suffix _).length_le
    _ ≤ (flag (chr '-') f).2.length := length_flag_le
    _ ≤ f.length := length_flag_le

theorem length_next_le {ch : UInt8} {f : List UInt8} : (next ch f).2.length ≤ f.length := by
  have hsplit := @length_splitSpec_le f
  unfold next
  split
  · exact Nat.le_refl _
  · split
    · exact Nat.zero_le _
    · rename_i heq
      rw [heq, List.length_cons] at hsplit
      exact Nat.le_of_succ_le hsplit

/-- A directive that the NUL ends is the last piece. -/
theorem next_unfinished {ch : UInt8} {f : List UInt8} (h : (next ch f).1 = .unfinished) :
    ch = chr '%' ∧ (splitSpec f).2 = [] ∧ (next ch f).2 = [] := by
  unfold next at h ⊢
  by_cases hplain : ch = chr '%'
  · rw [if_neg (not_not_intro hplain)] at h ⊢
    cases hrest : (splitSpec f).2 with
    | nil => exact ⟨hplain, rfl, rfl⟩
    | cons conv g =>
      rw [hrest] at h
      cases h
  · rw [if_pos hplain] at h
    cases h

/-- The pieces of a format. -/
def pieces : List UInt8 → List Piece
  | [] => []
  | ch :: f => (next ch f).1 :: pieces (next ch f).2
termination_by f => f.length
decreasing_by exact Nat.lt_succ_of_le length_next_le

@[simp] theorem pieces_nil : pieces [] = [] := by rw [pieces]

theorem pieces_cons (ch : UInt8) (f : List UInt8) :
    pieces (ch :: f) = (next ch f).1 :: pieces (next ch f).2 := by rw [pieces]

/-- The text of a piece, with its arguments from `a` on. -/
def Piece.text (c : Call) (a : ℕ) : Piece → List UInt8
  | .plain ch => [ch]
  | .directive sp ch => sp.text ch c a
  | .unfinished => []

/-- The words of the argument list that a piece takes. -/
def Piece.words : Piece → ℕ
  | .plain _ => 0
  | .directive sp ch => sp.words ch
  | .unfinished => 0

/-- The text of the pieces. -/
def render (c : Call) : ℕ → List Piece → List UInt8
  | _, [] => []
  | a, p :: ps => p.text c a ++ render c (a + p.words) ps

/-- What a piece leaves. -/
def Out.after (c : Call) (cap : ℤ) (p : Piece) (o : Out) : Out :=
  ({ o with arg := o.arg + p.words } : Out).puts cap (p.text c o.arg)

/-- The format from `i` on, with its NUL at `n`. -/
def Stands (c : Call) (n i : ℕ) (f : List UInt8) : Prop := Terminated c.fmt i f ∧ i + f.length = n

variable {c : Call} {cap : ℤ} {n i : ℕ} {o : Out} {f : List UInt8}

/-! ## Reading -/

theorem Stands.head (h : Stands c n i f) : c.fmt i = f.headD 0 := by
  obtain ⟨ht, -⟩ := h
  cases f with
  | nil => exact ht
  | cons ch f => exact ht.1

theorem Stands.le (h : Stands c n i f) : i ≤ n := by
  obtain ⟨-, rfl⟩ := h
  exact Nat.le_add_right _ _

theorem Stands.tail (h : Stands c n i f) (hne : f.headD 0 ≠ 0) : Stands c n (i + 1) f.tail := by
  obtain ⟨ht, hn⟩ := h
  cases f with
  | nil => exact absurd rfl hne
  | cons ch f =>
    refine ⟨ht.2.2, ?_⟩
    rw [← hn, List.tail_cons, List.length_cons]
    omega

/-- A character is read: none behind the NUL. -/
theorem readFmt_runs {P : UInt8 → Out → Prop} (h : Stands c n i f) (hP : P (f.headD 0) o) :
    (readFmt c i).Runs o (Access.Fine cap n) P := by
  have hfine : Access.Fine cap n (.fmt i) := h.le
  simp only [readFmt, Traced.runs_bind, Traced.runs_emit, Traced.runs_pure]
  rw [h.head]
  exact ⟨hfine, hP⟩

theorem accept_runs {x : UInt8} (hx : x ≠ 0) (h : Stands c n i f) :
    (accept c x i).Runs o (Access.Fine cap n) fun r o' =>
      o' = o ∧ r.1 = (flag x f).1 ∧ Stands c n r.2 (flag x f).2 := by
  rw [accept, Traced.runs_bind]
  refine readFmt_runs h ?_
  rw [Traced.runs_pure, flag]
  by_cases hhead : f.headD 0 = x
  · rw [if_pos hhead, if_pos hhead]
    exact ⟨rfl, rfl, h.tail (hhead ▸ hx)⟩
  · rw [if_neg hhead, if_neg hhead]
    exact ⟨rfl, rfl, h⟩

/-- The width is read up to the first character that is no digit, which the NUL is. -/
theorem width_runs {w : ℕ} (h : Stands c n i f) :
    (Traced.loop (widthRound c) (w, i)).Runs o (Access.Fine cap n) fun r o' =>
      o' = o ∧ r.1 = widthFrom w f ∧ Stands c n r.2 (f.dropWhile isDigit) := by
  induction f generalizing i w with
  | nil =>
    refine .loop ?_
    rw [widthRound, Traced.runs_bind]
    refine readFmt_runs h ?_
    rw [if_neg (by decide), Traced.runs_pure]
    exact ⟨rfl, rfl, h⟩
  | cons ch f ih =>
    have hne : ch ≠ 0 := h.1.2.1
    refine .loop ?_
    rw [widthRound, Traced.runs_bind]
    refine readFmt_runs h ?_
    rw [List.headD_cons]
    by_cases hdigit : isDigit ch = true
    · have hdigit' : ch ≥ chr '0' ∧ ch ≤ chr '9' := by simpa [isDigit] using hdigit
      rw [if_pos hdigit', Traced.runs_pure, Traced.resumes_inl, widthFrom, List.takeWhile_cons,
        if_pos hdigit, List.foldl_cons, List.dropWhile_cons, if_pos hdigit]
      exact ih (h.tail hne)
    · have hdigit' : ¬ (ch ≥ chr '0' ∧ ch ≤ chr '9') := by simpa [isDigit] using hdigit
      rw [if_neg hdigit', Traced.runs_pure, Traced.resumes_inr, widthFrom, List.takeWhile_cons,
        if_neg hdigit, List.dropWhile_cons, if_neg hdigit]
      exact ⟨rfl, rfl, h⟩

/-- **The flags, the width and the length** of a directive are read. -/
theorem parseSpec_runs (cap : ℤ) (o : Out) (h : Stands c n i f) :
    (parseSpec c i).Runs o (Access.Fine cap n) fun r o' =>
      o' = o ∧ r.1 = (splitSpec f).1 ∧ Stands c n r.2 (splitSpec f).2 := by
  rw [parseSpec, Traced.runs_bind]
  refine (accept_runs (by decide) h).mono fun left o₁ ⟨ho₁, hleft, h₁⟩ => ?_
  subst ho₁
  rw [Traced.runs_bind]
  refine (accept_runs (by decide) h₁).mono fun zero o₂ ⟨ho₂, hzero, h₂⟩ => ?_
  subst ho₂
  rw [Traced.runs_bind]
  refine (width_runs h₂).mono fun width o₃ ⟨ho₃, hwidth, h₃⟩ => ?_
  subst ho₃
  rw [Traced.runs_bind]
  refine (accept_runs (by decide) h₃).mono fun long o₄ ⟨ho₄, hlong, h₄⟩ => ?_
  subst ho₄
  rw [Traced.runs_bind]
  simp only [splitSpec, ← hleft, ← hzero, ← hwidth, ← hlong]
  -- a second `l` is looked for behind the first one only
  cases long.1 with
  | true =>
    simp only [if_true]
    refine (accept_runs (by decide) h₄).mono fun ll o₅ ⟨ho₅, hll, h₅⟩ => ?_
    simp only [Traced.runs_pure, ← hll]
    exact ⟨ho₅, trivial, h₅⟩
  | false =>
    simp only [Bool.false_eq_true, if_false, Traced.runs_pure]
    exact ⟨trivial, trivial, h₄⟩

/-! ## Rounds -/

/-- **A round** puts out a piece and goes on behind it. -/
theorem round_runs {ch : UInt8} (h : Stands c n i (ch :: f)) (hroom : o.pos < cap - 1)
    (hpiece : (next ch f).1 ≠ .unfinished) :
    (round c cap i).Runs o (Access.Fine cap n) fun x o' =>
      o' = o.after c cap (next ch f).1 ∧ ∃ j, x = .inl j ∧ Stands c n j (next ch f).2 := by
  have hne : ch ≠ 0 := h.1.2.1
  have htail : Stands c n (i + 1) f := h.tail hne
  rw [round, Traced.runs_bind]
  refine readFmt_runs h ?_
  rw [List.headD_cons, Traced.runs_bind, Traced.runs_get, if_pos ⟨hne, hroom⟩]
  unfold next at hpiece ⊢
  by_cases hplain : ch ≠ chr '%'
  · have hfine : Access.Fine cap n (.copied ch) := hne
    rw [if_pos hplain, if_pos hplain]
    simp only [Traced.runs_bind, Traced.runs_emit, runs_kputc, Traced.runs_pure]
    exact ⟨hfine, rfl, i + 1, rfl, htail⟩
  · rw [if_neg hplain] at hpiece
    rw [if_neg hplain, if_neg hplain, Traced.runs_bind]
    refine (parseSpec_runs cap o htail).mono fun r o₁ hr => ?_
    obtain ⟨rfl, hsp, hj⟩ := hr
    dsimp only
    rw [Traced.runs_bind]
    -- the conversion is what comes behind the flags, the width and the length
    cases hrest : (splitSpec f).2 with
    | nil =>
      rw [hrest] at hpiece
      exact absurd rfl hpiece
    | cons conv g =>
      rw [hrest] at hj
      refine readFmt_runs hj ?_
      have hconv : conv ≠ 0 := hj.1.2.1
      rw [List.headD_cons, Traced.runs_bind, hsp]
      refine (convert_runs hconv).mono fun _ o' ho' => ?_
      rw [Traced.runs_pure]
      exact ⟨ho', r.2 + 1, rfl, hj.tail hconv⟩

/-- A round on a directive that the NUL ends puts out the NUL. -/
theorem round_emits {ch : UInt8} (h : Stands c n i (ch :: f)) (hroom : o.pos < cap - 1)
    (hpiece : (next ch f).1 = .unfinished) : (round c cap i).Emits o (.copied 0) := by
  have hne : ch ≠ 0 := h.1.2.1
  obtain ⟨hplain, hrest, -⟩ := next_unfinished hpiece
  subst hplain
  have htail : Stands c n (i + 1) f := h.tail hne
  obtain ⟨-, r, o₁, hr, ho₁, -, hj⟩ := parseSpec_runs cap o htail
  subst ho₁
  rw [hrest] at hj
  have hhead : c.fmt i = chr '%' := h.head
  have hnul : c.fmt r.2 = 0 := hj.head
  -- the NUL is taken for a conversion that is not known
  have hconv : (convert c cap r.1 0).Emits o₁ (.copied 0) := by
    unfold convert
    iterate 7 rw [if_neg (by decide)]
    have hput : (kputc cap (chr '%')).Runs o₁ (Access.Fine cap n) fun _ _ => True :=
      runs_kputc.mpr trivial
    obtain ⟨-, u, o₂, hr₂, -⟩ := hput
    refine Traced.emits_bind.mpr (.inr ⟨u, o₂, hr₂, ?_⟩)
    exact Traced.emits_bind.mpr (.inl (Traced.emits_emit.mpr rfl))
  have hread (k : ℕ) : (readFmt c k).erase.Returns o₁ (c.fmt k) o₁ := by
    simp [readFmt]
  refine Traced.emits_bind.mpr (.inr ⟨_, _, hread i, ?_⟩)
  refine Traced.emits_bind.mpr (.inr ⟨o₁, o₁, Exec.returns_get.mpr ⟨rfl, rfl⟩, ?_⟩)
  rw [hhead, if_pos ⟨by decide, hroom⟩, if_neg (by decide)]
  refine Traced.emits_bind.mpr (.inr ⟨r, _, hr, ?_⟩)
  refine Traced.emits_bind.mpr (.inr ⟨_, _, hread r.2, ?_⟩)
  rw [hnul]
  exact Traced.emits_bind.mpr (.inl hconv)

/-- What a piece leaves, by its text. -/
theorem Out.after_eq {p : Piece} :
    o.after c cap p = { o.puts cap (p.text c o.arg) with arg := o.arg + p.words } :=
  Out.puts_arg

/-- At the NUL, or without room, the loop ends. -/
theorem loop_stops (h : Stands c n i f) (hstop : f = [] ∨ ¬ o.pos < cap - 1) :
    (Traced.loop (round c cap) i).Runs o (Access.Fine cap n) fun _ o' => o' = o := by
  refine .loop ?_
  rw [round, Traced.runs_bind]
  refine readFmt_runs h ?_
  rw [Traced.runs_bind, Traced.runs_get, if_neg, Traced.runs_pure]
  · rfl
  · rintro ⟨hne, hroom⟩
    rcases hstop with rfl | hfull
    · exact hne rfl
    · exact hfull hroom

/-- **The loop puts out the pieces**, all of them or as many as fill the buffer, when it does not
come to a directive that the NUL ends. -/
theorem loop_runs (h : Stands c n i f)
    (hok : .unfinished ∉ pieces f ∨ cap - 1 ≤ o.pos + (render c o.arg (pieces f)).length) :
    (Traced.loop (round c cap) i).Runs o (Access.Fine cap n) fun _ o' =>
      ∃ t a, o' = { o.puts cap t with arg := a } ∧ t <+: render c o.arg (pieces f) ∧
        (t = render c o.arg (pieces f) ∨ cap - 1 ≤ o.pos + t.length) := by
  induction hk : f.length using Nat.strongRecOn generalizing f i o with
  | ind k ih =>
  subst hk
  by_cases hroom : o.pos < cap - 1
  · cases f with
    | nil =>
      refine (loop_stops h (.inl rfl)).mono fun _ o' ho' => ⟨[], o.arg, ho', ?_⟩
      rw [pieces_nil]
      exact ⟨List.nil_prefix, .inl rfl⟩
    | cons ch f =>
      rw [pieces_cons] at hok ⊢
      have hpiece : (next ch f).1 ≠ .unfinished := by
        intro hun
        rw [hun] at hok
        rcases hok with hmem | hlen
        · exact hmem List.mem_cons_self
        · obtain ⟨-, -, hrest⟩ := next_unfinished hun
          rw [hrest, pieces_nil] at hlen
          simp only [render, Piece.text, List.append_nil, List.length_nil] at hlen
          omega
      refine .loop ((round_runs h hroom hpiece).mono fun x o₁ ⟨ho₁, j, hx, hj⟩ => ?_)
      subst hx
      rw [Traced.resumes_inl]
      rw [Out.after_eq] at ho₁
      have harg : o₁.arg = o.arg + (next ch f).1.words := by rw [ho₁]
      have hpos : o₁.pos = o.pos + ((next ch f).1.text c o.arg).length := by
        rw [ho₁]
        exact Out.pos_puts
      rw [render, List.length_append] at hok
      -- what is left of the format satisfies the condition for the buffer as it is now
      have hok' : .unfinished ∉ pieces (next ch f).2 ∨
          cap - 1 ≤ o₁.pos + (render c o₁.arg (pieces (next ch f).2)).length := by
        rw [harg, hpos]
        refine hok.imp (fun hmem hin => hmem (List.mem_cons_of_mem _ hin)) fun hlen => ?_
        push_cast at hlen ⊢
        omega
      refine (ih _ (Nat.lt_succ_of_le length_next_le) hj hok' rfl).mono fun _ o' ho' => ?_
      obtain ⟨t, a, hto, hpre, hend⟩ := ho'
      rw [harg] at hpre hend
      refine ⟨(next ch f).1.text c o.arg ++ t, a, ?_, ?_, ?_⟩
      · rw [hto, ho₁, Out.puts_arg, Out.puts_append]
      · rw [render]
        exact (List.prefix_append_right_inj _).mpr hpre
      · rw [render, List.length_append]
        refine hend.imp (fun ht => by rw [ht]) fun hlen => ?_
        rw [hpos] at hlen
        push_cast at hlen ⊢
        omega
  · refine (loop_stops h (.inr hroom)).mono fun _ o' ho' => ⟨[], o.arg, ho', List.nil_prefix, ?_⟩
    rw [List.length_nil]
    exact .inr (by omega)

/-- **The loop comes to the NUL in a directive** when there is room for the text in front of it. -/
theorem loop_emits (h : Stands c n i f) (hun : .unfinished ∈ pieces f)
    (hlen : o.pos + (render c o.arg (pieces f)).length < cap - 1) :
    (Traced.loop (round c cap) i).Emits o (.copied 0) := by
  -- by induction on the format that is left, up to the directive that is not finished
  induction hk : f.length using Nat.strongRecOn generalizing f i o with
  | ind k ih =>
  subst hk
  cases f with
  | nil =>
    rw [pieces_nil] at hun
    cases hun
  | cons ch f =>
    have hroom : o.pos < cap - 1 := by omega
    refine Traced.emits_loop.mpr ?_
    by_cases hpiece : (next ch f).1 = .unfinished
    · exact .inl (round_emits h hroom hpiece)
    · obtain ⟨-, x, o₁, hr, ho₁, j, rfl, hj⟩ := round_runs h hroom hpiece
      refine .inr ⟨j, o₁, hr, ih _ (Nat.lt_succ_of_le length_next_le) hj ?_ ?_ rfl⟩
      · rw [pieces_cons] at hun
        exact (List.mem_cons.mp hun).resolve_left (Ne.symm hpiece)
      · rw [pieces_cons, render, List.length_append] at hlen
        rw [Out.after_eq] at ho₁
        have harg : o₁.arg = o.arg + (next ch f).1.words := by rw [ho₁]
        have hpos : o₁.pos = o.pos + ((next ch f).1.text c o.arg).length := by
          rw [ho₁]
          exact Out.pos_puts
        rw [harg, hpos]
        push_cast at hlen ⊢
        omega

end WarkRune.Klib

import WarkRune.Klib.ReadBack

/-!
# Texts put together by `ksnprintf`

A format of plain characters, of `%s` and of `%u` puts strings and numbers together. The arguments
are a list; the pointer to the string of an argument is its place in the list, counted from one.

## Main definitions

* `Arg`, `callOf`: the arguments, and the call with a format
* `ksnprintf cap fmt as`: the string that `ksnprintf` leaves in a buffer of `cap` bytes

## Main results

* `ksnprintf_runs`: `kvsprintf` leaves that string
* `Formats.ksnprintf`: the text of a format
-/

namespace WarkRune.Klib

/-- An argument: a string for `%s`, or an `unsigned int` for `%u`. -/
inductive Arg
  | str (s : List UInt8)
  | word (n : ℕ)

/-- The call with the format and the arguments. -/
def callOf (fmt : List UInt8) (as : List Arg) : Call where
  fmt i := fmt.getD i 0
  args a :=
    match as[a]? with
    | some (.word n) => BitVec.ofNat 32 n
    | some (.str _) => BitVec.ofNat 32 (a + 1)
    | none => 0
  str p :=
    match as[p.toNat - 1]? with
    | some (.str s) => s
    | _ => []

/-- The string that `ksnprintf` leaves in a buffer of `cap` bytes. -/
def ksnprintf (cap : ℕ) (fmt : List UInt8) (as : List Arg) : List UInt8 :=
  (render (callOf fmt as) 0 (pieces fmt)).take (cap - 1)

variable {fmt f g t u : List UInt8} {as : List Arg} {c : Call} {a b : ℕ} {o : Out}

theorem terminated_getD (h0 : 0 ∉ fmt) (i : ℕ) (hi : i ≤ fmt.length) :
    Terminated (fun i => fmt.getD i 0) i (fmt.drop i) := by
  induction hn : fmt.length - i generalizing i with
  | zero =>
    have hlen : fmt.length ≤ i := Nat.le_of_sub_eq_zero hn
    rw [List.drop_of_length_le hlen]
    exact congrArg (Option.getD · 0) (List.getElem?_eq_none hlen)
  | succ n ih =>
    have hlt : i < fmt.length := by omega
    rw [List.drop_eq_getElem_cons hlt]
    refine ⟨congrArg (Option.getD · 0) (List.getElem?_eq_getElem hlt), ?_, ?_⟩
    · exact fun he => h0 (he ▸ List.getElem_mem hlt)
    · exact ih (i + 1) hlt (by omega)

/-- **`kvsprintf` leaves the string**, with a NUL behind it and all its stores in the buffer. -/
theorem ksnprintf_runs {cap : ℕ} (h0 : 0 ∉ fmt) (hok : .unfinished ∉ pieces fmt) (hcap : 1 ≤ cap)
    (ho : o.arg = 0) :
    (kvsprintf (callOf fmt as) cap).Runs o (Access.Inside cap) fun _ o' =>
      (∀ i < (ksnprintf cap fmt as).length, o'.buf i = (ksnprintf cap fmt as).getD i 0) ∧
        o'.buf (ksnprintf cap fmt as).length = 0 := by
  have hf : Terminated (callOf fmt as).fmt 0 fmt := by
    have h := terminated_getD h0 0 (Nat.zero_le _)
    rwa [List.drop_zero] at h
  have hlen : (ksnprintf cap fmt as).length =
      min ((cap : ℤ) - 1).toNat (render (callOf fmt as) 0 (pieces fmt)).length := by
    rw [ksnprintf, List.length_take]
    congr 1
    omega
  have hcap' : 1 ≤ (cap : ℤ) := by omega
  have hruns := kvsprintf_text (o := o) hf hcap' hok
  rw [ho] at hruns
  refine hruns.mono ?_
  rintro r o' ⟨-, hbuf, hnul⟩
  rw [hlen]
  refine ⟨fun i hi => ?_, hnul⟩
  rw [hbuf i hi, ksnprintf, List.getD_eq_getElem?_getD, List.getD_eq_getElem?_getD,
    List.getElem?_take_of_lt (by omega)]

/-! ## The text of a format -/

/-- The format has the text, with the arguments from `a` on, and the next one is `b`. -/
def Formats (c : Call) (a : ℕ) (f t : List UInt8) (b : ℕ) : Prop :=
  ∀ g, (.unfinished ∉ pieces g → .unfinished ∉ pieces (f ++ g)) ∧
    render c a (pieces (f ++ g)) = t ++ render c b (pieces g)

theorem Formats.append (hf : Formats c a f t b) {d : ℕ} (hg : Formats c b g u d) :
    Formats c a (f ++ g) (t ++ u) d := by
  intro h
  obtain ⟨hok₁, htext₁⟩ := hf (g ++ h)
  obtain ⟨hok₂, htext₂⟩ := hg h
  rw [List.append_assoc]
  exact ⟨fun hh => hok₁ (hok₂ hh), by rw [htext₁, htext₂, List.append_assoc]⟩

/-- Characters without a `%` stand for themselves. -/
theorem formats_plain (hf : ∀ ch ∈ f, ch ≠ chr '%') : Formats c a f f a := render_plain hf

/-- A directive without flags and width. -/
theorem formats_directive {ch : UInt8} (hch : ch = chr 's' ∨ ch = chr 'u') :
    Formats c a [chr '%', ch] ((⟨false, chr ' ', 0, false⟩ : Spec).text ch c a) (a + 1) := by
  intro g
  have hsplit : splitSpec (ch :: g) = (⟨false, chr ' ', 0, false⟩, ch :: g) := by
    rcases hch with rfl | rfl <;> rfl
  have hnext : next (chr '%') (ch :: g) = (.directive ⟨false, chr ' ', 0, false⟩ ch, g) := by
    unfold next
    rw [hsplit]
    rfl
  have hwords : (Piece.directive ⟨false, chr ' ', 0, false⟩ ch).words = 1 := by
    rcases hch with rfl | rfl <;> rfl
  rw [List.cons_append, List.cons_append, List.nil_append, pieces_cons, hnext]
  refine ⟨fun hg hmem => ?_, ?_⟩
  · rcases List.mem_cons.mp hmem with h | h
    · cases h
    · exact hg h
  · rw [render, hwords]
    rfl

/-- `%s` stands for the string. -/
theorem formats_str {s : List UInt8} (ha : as[a]? = some (.str s)) (hlt : a + 1 < 2 ^ 32) :
    Formats (callOf fmt as) a [chr '%', chr 's'] s (a + 1) := by
  have hptr : (callOf fmt as).args a = BitVec.ofNat 32 (a + 1) := by
    simp only [callOf, ha]
  have hnat : (BitVec.ofNat 32 (a + 1)).toNat = a + 1 := by
    rw [BitVec.toNat_ofNat, Nat.mod_eq_of_lt hlt]
  have hne : BitVec.ofNat 32 (a + 1) ≠ 0 := by
    intro he
    rw [he] at hnat
    exact absurd hnat (Nat.succ_ne_zero a).symm
  have hstr : (callOf fmt as).string a = s := by
    rw [Call.string, hptr, if_neg hne]
    simp only [callOf, hnat, Nat.add_sub_cancel, ha]
  have htext : (⟨false, chr ' ', 0, false⟩ : Spec).text (chr 's') (callOf fmt as) a = s := by
    have hpad : (⟨false, chr ' ', 0, false⟩ : Spec).text (chr 's') (callOf fmt as) a =
        padded ((callOf fmt as).string a) 0 false (chr ' ') := rfl
    rw [hpad, hstr, padded, Nat.zero_sub]
    simp
  have h := formats_directive (c := callOf fmt as) (a := a) (.inl rfl)
  rwa [htext] at h

/-- `%u` stands for the decimal numeral. -/
theorem formats_word {n : ℕ} (ha : as[a]? = some (.word n)) (hn : n < 2 ^ 32) :
    Formats (callOf fmt as) a [chr '%', chr 'u'] (numeral 10 false n) (a + 1) := by
  have hword : ((callOf fmt as).integer false false a).toNat = n := by
    have harg : (callOf fmt as).args a = BitVec.ofNat 32 n := by simp only [callOf, ha]
    rw [Call.integer, if_neg Bool.false_ne_true, if_neg Bool.false_ne_true, harg,
      BitVec.toNat_setWidth, BitVec.toNat_ofNat, Nat.mod_eq_of_lt hn,
      Nat.mod_eq_of_lt (hn.trans (by decide))]
  have htext : (⟨false, chr ' ', 0, false⟩ : Spec).text (chr 'u') (callOf fmt as) a =
      numeral 10 false n := by
    have hpad : (⟨false, chr ' ', 0, false⟩ : Spec).text (chr 'u') (callOf fmt as) a =
        padded (numeral 10 false ((callOf fmt as).integer false false a).toNat) 0 false (chr ' ') :=
      rfl
    rw [hpad, hword, padded, Nat.zero_sub]
    simp
  have h := formats_directive (c := callOf fmt as) (a := a) (.inr rfl)
  rwa [htext] at h

/-- **The text of a format** is the one its parts have, up to the end of the buffer. -/
theorem Formats.ksnprintf (h : Formats (callOf fmt as) 0 fmt t b) (cap : ℕ) :
    .unfinished ∉ pieces fmt ∧ ksnprintf cap fmt as = t.take (cap - 1) := by
  obtain ⟨hok, htext⟩ := h []
  rw [List.append_nil] at hok htext
  refine ⟨hok (by rw [pieces_nil]; exact List.not_mem_nil), ?_⟩
  rw [Klib.ksnprintf, htext, pieces_nil, render, List.append_nil]

end WarkRune.Klib

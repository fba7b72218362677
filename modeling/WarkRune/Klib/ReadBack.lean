import Mathlib.Data.List.DropRight
import WarkRune.Klib.Truncate

/-!
# Printed numbers read back

The text of a directive for a number is the numeral, filled up to the width with spaces or zeros.
The numeral reads back as the number when the spaces around it are removed, and zeros in front of
its digits do not change its value. Zeros in front of a sign do: a negative number is no longer a
numeral when it is filled up with zeros. The flags are read in one order, so a `-` behind a `0` is
taken for a conversion, and the directive is put out as it stands.

## Main definitions

* `Conversion`, `Flags`, `directive`: the directives for numbers
* `IsNumeral`, `ReadsBack`: what reads back as a number

## Main results

* `splitSpec_directive`: a directive is read as it is meant
* `readsBack_padded_iff`: when a filled up numeral reads back
* `kvsprintf_reads_back_iff`: when the text of a directive reads back
-/

namespace WarkRune.Klib

/-- The conversions for numbers. -/
inductive Conversion
  | d | i | u | x | X
  deriving DecidableEq

namespace Conversion

def char : Conversion → UInt8
  | d => chr 'd'
  | i => chr 'i'
  | u => chr 'u'
  | x => chr 'x'
  | X => chr 'X'

def base : Conversion → ℕ
  | d | i | u => 10
  | x | X => 16

def upper : Conversion → Bool
  | X => true
  | _ => false

def signed : Conversion → Bool
  | d | i => true
  | _ => false

/-- The number at a place of the argument list. -/
def value (k : Conversion) (c : Call) (ll : Bool) (a : ℕ) : ℤ :=
  match k.signed, ll with
  | true, true => (c.args (a + 1) ++ c.args a).toInt
  | true, false => (c.args a).toInt
  | false, true => (c.args (a + 1) ++ c.args a).toNat
  | false, false => (c.args a).toNat

/-- The plain numeral of a number. -/
def plain (k : Conversion) (v : ℤ) : List UInt8 :=
  if v < 0 then chr '-' :: numeral k.base k.upper v.natAbs else numeral k.base k.upper v.natAbs

end Conversion

/-- The flags, in the order they are written. -/
inductive Flags
  | none | minus | zero | minusZero | zeroMinus
  deriving DecidableEq

namespace Flags

def text : Flags → List UInt8
  | none => []
  | minus => [chr '-']
  | zero => [chr '0']
  | minusZero => [chr '-', chr '0']
  | zeroMinus => [chr '0', chr '-']

def left : Flags → Bool
  | minus | minusZero => true
  | _ => false

def pad : Flags → UInt8
  | zero | minusZero => chr '0'
  | _ => chr ' '

end Flags

/-- The width, which is not written when it is 0. -/
def widthText (w : ℕ) : List UInt8 := if w = 0 then [] else numeral 10 false w

/-- The length and the conversion. -/
def convText (ll : Bool) (k : Conversion) : List UInt8 :=
  (if ll then [chr 'l', chr 'l'] else []) ++ [k.char]

/-- A directive for a number. -/
def directive (fl : Flags) (w : ℕ) (ll : Bool) (k : Conversion) : List UInt8 :=
  chr '%' :: (fl.text ++ (widthText w ++ convText ll k))

/-- A text without the spaces around it. -/
def strip (t : List UInt8) : List UInt8 :=
  (t.dropWhile (· = chr ' ')).rdropWhile (· = chr ' ')

/-- A numeral of `v`: digits of the base, with a minus sign in front or not. -/
def IsNumeral (base : ℕ) (upper : Bool) (t : List UInt8) (v : ℤ) : Prop :=
  ∃ ds : List ℕ, ds ≠ [] ∧ (∀ d ∈ ds, d < base) ∧
    (t = ds.map (digitChar upper) ∧ v = Nat.ofDigits base ds.reverse ∨
      t = chr '-' :: ds.map (digitChar upper) ∧ v = -Nat.ofDigits base ds.reverse)

/-- The text has the length it should have, and is a numeral of `v` between spaces. -/
def ReadsBack (k : Conversion) (w : ℕ) (v : ℤ) (t : List UInt8) : Prop :=
  t.length = max w (k.plain v).length ∧ IsNumeral k.base k.upper (strip t) v

variable {base w m n : ℕ} {upper ll left : Bool} {v : ℤ} {k : Conversion} {fl : Flags}
  {pad : UInt8} {s t : List UInt8} {c : Call} {a : ℕ}

/-! ## Numerals -/

/-- No digit is a space, a sign or a `%`. -/
theorem digitChar_ne : ∀ upper : Bool, ∀ d < 16, digitChar upper d ≠ chr ' ' ∧
    digitChar upper d ≠ chr '-' ∧ digitChar upper d ≠ chr '%' := by decide

/-- The decimal digits are the characters from `0` to `9`. -/
theorem digitChar_decimal : ∀ d < 10, isDigit (digitChar false d) = true ∧
    (digitChar false d - chr '0').toNat = d ∧ (digitChar false d = chr '0' → d = 0) := by decide

theorem digitChar_zero : digitChar upper 0 = chr '0' := by
  cases upper <;> rfl

theorem Conversion.base_bounds : 1 < k.base ∧ k.base ≤ 16 := by
  cases k <;> decide

/-- **The numeral of a number** has its digits. -/
theorem numeral_digits (upper : Bool) (hb : 1 < base) (n : ℕ) :
    ∃ ds : List ℕ, ds ≠ [] ∧ (∀ d ∈ ds, d < base) ∧
      numeral base upper n = ds.map (digitChar upper) ∧ Nat.ofDigits base ds.reverse = n := by
  unfold numeral
  by_cases hn : n = 0
  · refine ⟨[0], List.cons_ne_nil _ _, fun d hd => ?_, ?_, ?_⟩
    · rw [List.mem_singleton.mp hd]
      omega
    · rw [if_pos hn, List.map_singleton, digitChar_zero]
    · rw [hn, List.reverse_singleton, Nat.ofDigits_singleton]
  · refine ⟨(Nat.digits base n).reverse, ?_, fun d hd => ?_, ?_, ?_⟩
    · simpa using Nat.digits_ne_nil_iff_ne_zero.mpr hn
    · exact Nat.digits_lt_base hb (List.mem_reverse.mp hd)
    · rw [if_neg hn, List.map_reverse]
    · rw [List.reverse_reverse, Nat.ofDigits_digits]

theorem IsNumeral.mem_ne (h : IsNumeral base upper t v) (hb : base ≤ 16) {ch : UInt8}
    (hch : ch ∈ t) : ch ≠ chr ' ' ∧ ch ≠ chr '%' := by
  obtain ⟨ds, -, hlt, ⟨rfl, -⟩ | ⟨rfl, -⟩⟩ := h
  · obtain ⟨d, hd, rfl⟩ := List.mem_map.mp hch
    have hne := digitChar_ne upper d (Nat.lt_of_lt_of_le (hlt d hd) hb)
    exact ⟨hne.1, hne.2.2⟩
  · rcases List.mem_cons.mp hch with rfl | hch
    · decide
    · obtain ⟨d, hd, rfl⟩ := List.mem_map.mp hch
      have hne := digitChar_ne upper d (Nat.lt_of_lt_of_le (hlt d hd) hb)
      exact ⟨hne.1, hne.2.2⟩

/-- A sign is at the front of a numeral. -/
theorem IsNumeral.head (h : IsNumeral base upper t v) (hb : base ≤ 16) (hch : chr '-' ∈ t) :
    t.headD 0 = chr '-' := by
  obtain ⟨ds, -, hlt, ⟨rfl, -⟩ | ⟨rfl, -⟩⟩ := h
  · obtain ⟨d, hd, heq⟩ := List.mem_map.mp hch
    exact absurd heq (digitChar_ne upper d (Nat.lt_of_lt_of_le (hlt d hd) hb)).2.1
  · rfl

/-- **The plain numeral** is a numeral. -/
theorem isNumeral_plain (k : Conversion) (v : ℤ) : IsNumeral k.base k.upper (k.plain v) v := by
  obtain ⟨ds, hne, hlt, htext, hval⟩ :=
    numeral_digits k.upper k.base_bounds.1 v.natAbs
  refine ⟨ds, hne, hlt, ?_⟩
  rw [Conversion.plain, htext, hval]
  by_cases hneg : v < 0
  · rw [if_pos hneg]
    exact .inr ⟨rfl, by omega⟩
  · rw [if_neg hneg]
    exact .inl ⟨rfl, by omega⟩

/-- Zeros in front of a numeral without a sign leave a numeral. -/
theorem isNumeral_zeros (k : Conversion) (hv : 0 ≤ v) (m : ℕ) :
    IsNumeral k.base k.upper (List.replicate m (chr '0') ++ k.plain v) v := by
  obtain ⟨ds, hne, hlt, htext, hval⟩ :=
    numeral_digits k.upper k.base_bounds.1 v.natAbs
  refine ⟨List.replicate m 0 ++ ds, fun h => hne (List.append_eq_nil_iff.mp h).2, ?_, .inl ⟨?_, ?_⟩⟩
  · intro d hd
    rcases List.mem_append.mp hd with hd | hd
    · rw [List.eq_of_mem_replicate hd]
      exact Nat.zero_lt_of_lt k.base_bounds.1
    · exact hlt d hd
  · rw [Conversion.plain, if_neg (by omega), htext, List.map_append, List.map_replicate,
      digitChar_zero]
  · rw [List.reverse_append, List.reverse_replicate, Nat.ofDigits_append_replicate_zero, hval]
    omega

/-! ## Padding -/

/-- What is no space is not removed. -/
theorem mem_strip {ch : UInt8} (h : ch ∈ t) (hne : ch ≠ chr ' ') : ch ∈ strip t := by
  have hdrop {l : List UInt8} (hl : ch ∈ l) : ch ∈ l.dropWhile (· = chr ' ') := by
    rw [← List.takeWhile_append_dropWhile (p := (· = chr ' ')) (l := l)] at hl
    refine (List.mem_append.mp hl).resolve_left fun hin => hne ?_
    simpa using List.mem_takeWhile_imp hin
  unfold strip List.rdropWhile
  rw [List.mem_reverse]
  exact hdrop (List.mem_reverse.mpr (hdrop h))

/-- The spaces around a text without spaces are removed. -/
theorem strip_spaces (hs : ∀ ch ∈ s, ch ≠ chr ' ') (m n : ℕ) :
    strip (List.replicate m (chr ' ') ++ (s ++ List.replicate n (chr ' '))) = s := by
  have hstart {l : List UInt8} (hl : ∀ ch ∈ l, ch ≠ chr ' ') : l.dropWhile (· = chr ' ') = l := by
    cases l with
    | nil => rfl
    | cons ch l => rw [List.dropWhile_cons, if_neg (by simpa using hl ch List.mem_cons_self)]
  have hspaces (j : ℕ) (ch : UInt8) (hch : ch ∈ List.replicate j (chr ' ')) :
      decide (ch = chr ' ') = true := by
    simpa using List.eq_of_mem_replicate hch
  have hend : ((s ++ List.replicate n (chr ' ')).reverse.dropWhile (· = chr ' ')).reverse = s := by
    rw [List.reverse_append, List.reverse_replicate, List.dropWhile_append_of_pos (hspaces n),
      hstart (fun ch hch => hs ch (List.mem_reverse.mp hch)), List.reverse_reverse]
  rw [strip, List.dropWhile_append_of_pos (hspaces m), List.rdropWhile]
  cases s with
  | nil =>
    rw [List.nil_append, List.dropWhile_replicate, if_pos (by decide)]
    rfl
  | cons ch s =>
    have hne : ¬ decide (ch = chr ' ') = true := by simpa using hs ch List.mem_cons_self
    rw [List.cons_append, List.dropWhile_cons, if_neg hne]
    exact hend

theorem length_padded : (padded s w left pad).length = max w s.length := by
  unfold padded
  split
  · rw [List.length_append, List.length_replicate]
    omega
  · rw [List.length_append, List.length_replicate]
    omega

/-- **A filled up numeral** reads back if and only if there are no zeros in front of a sign. -/
theorem readsBack_padded_iff (k : Conversion) (w : ℕ) (v : ℤ) (left : Bool)
    (hpad : pad = chr ' ' ∨ pad = chr '0') :
    ReadsBack k w v (padded (k.plain v) w left pad) ↔
      ¬ (left = false ∧ pad = chr '0' ∧ v < 0 ∧ (k.plain v).length < w) := by
  have hplain := isNumeral_plain k v
  have hspace : ∀ ch ∈ k.plain v, ch ≠ chr ' ' := fun ch hch =>
    (hplain.mem_ne k.base_bounds.2 hch).1
  rw [ReadsBack, and_iff_right length_padded, padded]
  cases left with
  | true =>
    have hstrip := strip_spaces hspace 0 (w - (k.plain v).length)
    rw [List.replicate_zero, List.nil_append] at hstrip
    rw [if_pos rfl, hstrip]
    exact iff_of_true hplain fun h => Bool.noConfusion h.1
  | false =>
    rw [if_neg Bool.false_ne_true]
    rcases hpad with rfl | rfl
    · have hstrip := strip_spaces hspace (w - (k.plain v).length) 0
      rw [List.replicate_zero, List.append_nil] at hstrip
      rw [hstrip]
      exact iff_of_true hplain fun h => absurd h.2.1 (by decide)
    · have hstrip := strip_spaces
        (s := List.replicate (w - (k.plain v).length) (chr '0') ++ k.plain v) (fun ch hch => ?_) 0 0
      · rw [List.replicate_zero, List.nil_append, List.append_nil] at hstrip
        rw [hstrip]
        by_cases hneg : v < 0
        · by_cases hw : (k.plain v).length < w
          · refine iff_of_false (fun h => ?_) fun h => h ⟨rfl, rfl, hneg, hw⟩
            have hsign : chr '-' ∈ List.replicate (w - (k.plain v).length) (chr '0') ++ k.plain v := by
              rw [Conversion.plain, if_pos hneg]
              exact List.mem_append_right _ List.mem_cons_self
            have hhead := h.head k.base_bounds.2 hsign
            obtain ⟨j, hj⟩ := Nat.exists_eq_add_of_lt hw
            rw [show w - (k.plain v).length = j + 1 by omega, List.replicate_succ] at hhead
            exact absurd hhead (by rw [List.cons_append, List.headD_cons]; decide)
          · rw [Nat.sub_eq_zero_of_le (by omega), List.replicate_zero, List.nil_append]
            exact iff_of_true hplain fun h => hw h.2.2.2
        · exact iff_of_true (isNumeral_zeros k (by omega) _) fun h => hneg h.2.2.1
      · rcases List.mem_append.mp hch with hch | hch
        · rw [List.eq_of_mem_replicate hch]
          decide
        · exact hspace ch hch

/-! ## Directives -/

theorem widthText_eq (hw : w ≠ 0) : ∃ last init, last ≠ 0 ∧ last < 10 ∧ (∀ d ∈ init, d < 10) ∧
    Nat.ofDigits 10 (init ++ [last]) = w ∧
    widthText w = digitChar false last :: (init.map (digitChar false)).reverse := by
  have hne : Nat.digits 10 w ≠ [] := Nat.digits_ne_nil_iff_ne_zero.mpr hw
  have hlt {d : ℕ} (hd : d ∈ Nat.digits 10 w) : d < 10 := Nat.digits_lt_base (by decide) hd
  have happend := List.dropLast_append_getLast hne
  refine ⟨(Nat.digits 10 w).getLast hne, (Nat.digits 10 w).dropLast,
    Nat.getLast_digit_ne_zero 10 hw, hlt (List.getLast_mem hne),
    fun d hd => hlt (List.dropLast_subset _ hd), ?_, ?_⟩
  · rw [happend, Nat.ofDigits_digits]
  · rw [widthText, if_neg hw, numeral, if_neg hw]
    nth_rewrite 1 [← happend]
    rw [List.map_append, List.reverse_append]
    rfl

theorem flag_cons {x y : UInt8} {g : List UInt8} :
    flag x (y :: g) = if y = x then (true, g) else (false, y :: g) := rfl

/-- The width and what is behind it start with no flag. -/
theorem flag_width {x : UInt8} (w : ℕ) (ll : Bool) (k : Conversion) (hx : x = chr '-' ∨ x = chr '0') :
    flag x (widthText w ++ convText ll k) = (false, widthText w ++ convText ll k) := by
  have hhead : (widthText w ++ convText ll k).headD 0 ≠ x := by
    by_cases hw : w = 0
    · rw [widthText, if_pos hw, List.nil_append]
      rcases hx with rfl | rfl <;> cases ll <;> cases k <;> decide
    · obtain ⟨last, init, hlast, hlt, -, -, htext⟩ := widthText_eq hw
      rw [htext, List.cons_append, List.headD_cons]
      rcases hx with rfl | rfl
      · exact (digitChar_ne false last (by omega)).2.1
      · exact fun heq => hlast ((digitChar_decimal last hlt).2.2 heq)
  rw [flag, if_neg hhead]

theorem widthText_digits : ∀ ch ∈ widthText w, isDigit ch = true := by
  intro ch hch
  by_cases hw : w = 0
  · rw [widthText, if_pos hw] at hch
    cases hch
  · rw [widthText, if_neg hw, numeral, if_neg hw] at hch
    obtain ⟨d, hd, rfl⟩ := List.mem_map.mp (List.mem_reverse.mp hch)
    exact (digitChar_decimal d (Nat.digits_lt_base (by decide) hd)).1

/-- The width is read. -/
theorem widthFrom_widthText : widthFrom 0 (widthText w ++ convText ll k) = w := by
  have htail : (convText ll k).takeWhile isDigit = [] := by cases ll <;> cases k <;> decide
  rw [widthFrom, List.takeWhile_append_of_pos widthText_digits, htail, List.append_nil]
  by_cases hw : w = 0
  · rw [widthText, if_pos hw, List.foldl_nil, hw]
  · rw [widthText, if_neg hw, numeral, if_neg hw, List.foldl_reverse]
    have hfold (l : List ℕ) (hl : ∀ d ∈ l, d < 10) :
        (l.map (digitChar false)).foldr (fun ch w => w * 10 + (ch - chr '0').toNat) 0 =
          Nat.ofDigits 10 l := by
      induction l with
      | nil => rfl
      | cons d l ih =>
        rw [List.map_cons, List.foldr_cons, ih fun e he => hl e (List.mem_cons_of_mem _ he),
          (digitChar_decimal d (hl d List.mem_cons_self)).2.1, Nat.ofDigits_cons]
        omega
    rw [hfold _ fun d hd => Nat.digits_lt_base (by decide) hd, Nat.ofDigits_digits]

theorem dropWhile_widthText :
    (widthText w ++ convText ll k).dropWhile isDigit = convText ll k := by
  have htail : (convText ll k).dropWhile isDigit = convText ll k := by
    cases ll <;> cases k <;> decide
  rw [List.dropWhile_append_of_pos widthText_digits, htail]

/-- **A directive is read as it is meant**, with the flags in the order they are looked for. -/
theorem splitSpec_directive (hfl : fl ≠ .zeroMinus) :
    splitSpec (fl.text ++ (widthText w ++ convText ll k)) =
      (⟨fl.left, fl.pad, w, ll⟩, [k.char]) := by
  have hflag (x : UInt8) (g : List UInt8) : flag x (x :: g) = (true, g) :=
    flag_cons.trans (if_pos rfl)
  -- a `-` is looked for before a `0`, so the orders of the two flags differ
  have hother : flag (chr '-') (chr '0' :: (widthText w ++ convText ll k)) =
      (false, chr '0' :: (widthText w ++ convText ll k)) := flag_cons.trans (if_neg (by decide))
  have hlong : (if (flag (chr 'l') (convText ll k)).1 then
        flag (chr 'l') (flag (chr 'l') (convText ll k)).2
      else (false, (flag (chr 'l') (convText ll k)).2)) = (ll, [k.char]) := by
    cases ll <;> cases k <;> decide
  have hminus := flag_width w ll k (.inl rfl)
  have hzero := flag_width w ll k (.inr rfl)
  cases fl with
  | none =>
    simp only [splitSpec, Flags.text, List.nil_append, hminus, hzero, dropWhile_widthText,
      widthFrom_widthText, hlong]
    rfl
  | minus =>
    simp only [splitSpec, Flags.text, List.singleton_append, hflag, hzero, dropWhile_widthText,
      widthFrom_widthText, hlong]
    rfl
  | zero =>
    simp only [splitSpec, Flags.text, List.singleton_append, hother, hflag, dropWhile_widthText,
      widthFrom_widthText, hlong]
    rfl
  | minusZero =>
    simp only [splitSpec, Flags.text, List.cons_append, List.nil_append, hflag,
      dropWhile_widthText, widthFrom_widthText, hlong]
    rfl
  | zeroMinus => exact absurd rfl hfl

/-- A `-` behind a `0` is taken for the conversion. -/
theorem splitSpec_zeroMinus (g : List UInt8) :
    splitSpec (chr '0' :: chr '-' :: g) = (⟨false, chr '0', 0, false⟩, chr '-' :: g) := by
  have h₁ : flag (chr '-') (chr '0' :: chr '-' :: g) = (false, chr '0' :: chr '-' :: g) :=
    flag_cons.trans (if_neg (by decide))
  have h₂ : flag (chr '0') (chr '0' :: chr '-' :: g) = (true, chr '-' :: g) :=
    flag_cons.trans (if_pos rfl)
  have h₃ : flag (chr 'l') (chr '-' :: g) = (false, chr '-' :: g) :=
    flag_cons.trans (if_neg (by decide))
  have h₄ : (chr '-' :: g).dropWhile isDigit = chr '-' :: g := by
    rw [List.dropWhile_cons, if_neg (by decide)]
  have h₅ : widthFrom 0 (chr '-' :: g) = 0 := by
    rw [widthFrom, List.takeWhile_cons, if_neg (by decide)]
    rfl
  simp only [splitSpec, h₁, h₂, h₃, h₄, h₅]
  rfl

/-- Characters without a `%` stand for themselves, in front of any format. -/
theorem render_plain {f : List UInt8} (hf : ∀ ch ∈ f, ch ≠ chr '%') (g : List UInt8) :
    (.unfinished ∉ pieces g → .unfinished ∉ pieces (f ++ g)) ∧
      render c a (pieces (f ++ g)) = f ++ render c a (pieces g) := by
  induction f with
  | nil => exact ⟨id, rfl⟩
  | cons ch f ih =>
    obtain ⟨hok, htext⟩ := ih fun x hx => hf x (List.mem_cons_of_mem _ hx)
    have hnext : next ch (f ++ g) = (.plain ch, f ++ g) := if_pos (hf ch List.mem_cons_self)
    rw [List.cons_append, pieces_cons, hnext]
    refine ⟨fun hg hmem => ?_, ?_⟩
    · rcases List.mem_cons.mp hmem with h | h
      · cases h
      · exact hok hg h
    · rw [render]
      exact congrArg (ch :: ·) htext

/-- The text of a directive for a number is the numeral, filled up. -/
theorem text_number {sp : Spec} : sp.text k.char c a =
    padded (k.plain (k.value c sp.ll a)) sp.width sp.left sp.pad := by
  have hs : (c.integer sp.ll true a).toInt = Conversion.d.value c sp.ll a := by
    cases hll : sp.ll with
    | true => rfl
    | false => exact BitVec.toInt_signExtend_of_le (by decide)
  have hu : (c.integer sp.ll false a).toNat = (Conversion.u.value c sp.ll a).natAbs := by
    cases hll : sp.ll with
    | true => rfl
    | false => exact BitVec.toNat_setWidth_of_le (by decide : 32 ≤ 64)
  have hpos : ¬ Conversion.u.value c sp.ll a < 0 := by
    cases hll : sp.ll with
    | true => exact Int.not_lt.mpr (Int.natCast_nonneg _)
    | false => exact Int.not_lt.mpr (Int.natCast_nonneg _)
  -- an unsigned value is not negative, so its plain numeral has no sign
  have hunsigned (base : ℕ) (upper : Bool) : numeral base upper (c.integer sp.ll false a).toNat =
      if Conversion.u.value c sp.ll a < 0 then
        chr '-' :: numeral base upper (Conversion.u.value c sp.ll a).natAbs
      else numeral base upper (Conversion.u.value c sp.ll a).natAbs := by
    rw [if_neg hpos, hu]
  cases k with
  | d =>
    rw [Spec.text, if_pos (by decide), hs]
    rfl
  | i =>
    rw [Spec.text, if_pos (by decide), hs]
    rfl
  | u =>
    rw [Spec.text, if_neg (by decide), if_pos (by decide), hunsigned]
    rfl
  | x =>
    rw [Spec.text, if_neg (by decide), if_neg (by decide), if_pos (by decide), hunsigned]
    rfl
  | X =>
    rw [Spec.text, if_neg (by decide), if_neg (by decide), if_neg (by decide), if_pos (by decide),
      hunsigned]
    rfl

/-- The text of a directive with its flags in the other order: the directive as it stands. -/
theorem render_zeroMinus : .unfinished ∉ pieces (directive .zeroMinus w ll k) ∧
    render c a (pieces (directive .zeroMinus w ll k)) =
      chr '%' :: chr '-' :: (widthText w ++ convText ll k) := by
  have hplain : ∀ ch ∈ widthText w ++ convText ll k, ch ≠ chr '%' := by
    intro ch hch
    rcases List.mem_append.mp hch with hch | hch
    · rintro rfl
      exact absurd (widthText_digits _ hch) (by decide)
    · rcases List.mem_append.mp hch with hl | hk
      · have hmem : ch ∈ [chr 'l', chr 'l'] := by
          cases ll with
          | true => exact hl
          | false => cases hl
        obtain rfl : ch = chr 'l' := by simpa using hmem
        decide
      · obtain rfl := List.mem_singleton.mp hk
        cases k <;> decide
  -- the `-` is an unknown conversion, which is printed as it stands
  have hnext : next (chr '%') (chr '0' :: chr '-' :: (widthText w ++ convText ll k)) =
      (.directive ⟨false, chr '0', 0, false⟩ (chr '-'), widthText w ++ convText ll k) := by
    rw [next, if_neg (by decide), splitSpec_zeroMinus]
  obtain ⟨hok, htext⟩ := render_plain (c := c) (a := a) hplain []
  simp only [List.append_nil, pieces_nil, List.not_mem_nil, not_false_eq_true, true_implies, render]
    at hok htext
  change .unfinished ∉ pieces (chr '%' :: chr '0' :: chr '-' :: (widthText w ++ convText ll k)) ∧
    render c a (pieces (chr '%' :: chr '0' :: chr '-' :: (widthText w ++ convText ll k))) = _
  rw [pieces_cons, hnext]
  refine ⟨fun hmem => ?_, ?_⟩
  · rcases List.mem_cons.mp hmem with h | h
    · cases h
    · exact hok h
  · rw [render]
    exact congrArg (fun t => chr '%' :: chr '-' :: t) htext

/-- The text of a directive with its flags in order: the numeral, filled up. -/
theorem render_directive (hfl : fl ≠ .zeroMinus) : .unfinished ∉ pieces (directive fl w ll k) ∧
    render c a (pieces (directive fl w ll k)) =
      padded (k.plain (k.value c ll a)) w fl.left fl.pad := by
  have hnext : next (chr '%') (fl.text ++ (widthText w ++ convText ll k)) =
      (.directive ⟨fl.left, fl.pad, w, ll⟩ k.char, []) := by
    rw [next, if_neg (by decide), splitSpec_directive hfl]
  rw [directive, pieces_cons, hnext, pieces_nil]
  refine ⟨fun hmem => ?_, ?_⟩
  · cases List.mem_singleton.mp hmem
  · rw [render, render, List.append_nil]
    exact text_number

/-- **A printed number reads back** if and only if the flags are not a `0` with a `-` behind it, and
no zeros fill up a negative number. -/
theorem kvsprintf_reads_back_iff (c : Call) (fl : Flags) (w : ℕ) (ll : Bool) (k : Conversion)
    (hf : Terminated c.fmt 0 (directive fl w ll k)) (a : ℕ) :
    ∃ text : List UInt8,
      (∀ (cap : ℤ) (o : Out), text.length < cap → o.arg = a →
        (kvsprintf c cap).Runs o (Access.Inside cap) fun r o' =>
          r = text.length ∧ ∀ i < r, o'.buf i = text.getD i 0) ∧
      (ReadsBack k w (k.value c ll a) text ↔ fl ≠ .zeroMinus ∧
        ¬ (fl = .zero ∧ k.value c ll a < 0 ∧ (k.plain (k.value c ll a)).length < w)) := by
  have hok : .unfinished ∉ pieces (directive fl w ll k) := by
    by_cases hfl : fl = .zeroMinus
    · subst hfl
      exact (render_zeroMinus (c := c) (a := a)).1
    · exact (render_directive (c := c) (a := a) hfl).1
  refine ⟨render c a (pieces (directive fl w ll k)), fun cap o hcap harg => ?_, ?_⟩
  · subst harg
    refine (kvsprintf_text hf (by omega) hok).mono fun r o' ⟨hlen, hbuf, _⟩ => ?_
    have hr := hlen hcap
    exact ⟨hr, fun i hi => hbuf i (by omega)⟩
  · by_cases hfl : fl = .zeroMinus
    · subst hfl
      refine iff_of_false (fun h => ?_) fun h => h.1 rfl
      rw [render_zeroMinus.2] at h
      obtain ⟨-, hnum⟩ := h
      exact (hnum.mem_ne k.base_bounds.2 (mem_strip List.mem_cons_self (by decide))).2 rfl
    · have hpad : fl.pad = chr ' ' ∨ fl.pad = chr '0' := by cases fl <;> decide
      rw [(render_directive hfl).2, readsBack_padded_iff k w _ fl.left hpad, and_iff_right hfl]
      have hzero : fl = .zero ↔ fl.left = false ∧ fl.pad = chr '0' := by
        cases fl <;> decide
      rw [hzero, and_assoc]

/-- -42 in a width of five with spaces. -/
theorem kvsprintf_reads_back_spaces :
    Terminated (smallCall (directive .none 5 false .d) (-42)).fmt 0 (directive .none 5 false .d) ∧
    ∃ text : List UInt8,
      (∀ (cap : ℤ) (o : Out), text.length < cap → o.arg = 0 →
        (kvsprintf (smallCall (directive .none 5 false .d) (-42)) cap).Runs o (Access.Inside cap)
          fun r o' => r = text.length ∧ ∀ i < r, o'.buf i = text.getD i 0) ∧
      ReadsBack .d 5 (-42) text := by
  have hf : Terminated (smallCall (directive .none 5 false .d) (-42)).fmt 0
      (directive .none 5 false .d) := by
    have htext : directive .none 5 false .d = [chr '%', chr '5', chr 'd'] := by
      simp [directive, Flags.text, widthText, numeral, convText, Conversion.char]
      decide
    rw [htext]
    exact ⟨rfl, by decide, rfl, by decide, rfl, by decide, rfl⟩
  obtain ⟨text, hrun, hread⟩ := kvsprintf_reads_back_iff _ .none 5 false .d hf 0
  exact ⟨hf, text, hrun, hread.mpr ⟨by decide, by decide⟩⟩

/-- -42 in a width of five with zeros: the text is `00-42`. -/
theorem kvsprintf_zeros_sign :
    ∃ (o : Out), (kvsprintf (smallCall [chr '%', chr '0', chr '5', chr 'd'] (-42)) 16).erase.Returns
        ⟨fun _ => 0, 0, 0⟩ 5 o ∧
      (List.range 5).map o.buf = [chr '0', chr '0', chr '-', chr '4', chr '2'] ∧
      ¬ ReadsBack .d 5 (-42) [chr '0', chr '0', chr '-', chr '4', chr '2'] := by
  refine ⟨_, ⟨24, rfl⟩, by decide, fun h => ?_⟩
  have hhead := h.2.head (by decide) (by decide)
  exact absurd hhead (by decide)

end WarkRune.Klib

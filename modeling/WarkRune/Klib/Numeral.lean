import Mathlib.Data.Nat.Digits.Lemmas
import WarkRune.Exec.Runs
import WarkRune.Klib.Printf

/-!
# The numerals of the formatted output

`_kfmt_ull` divides a number by the base until nothing is left, which gives its digits from the last
to the first, and then turns them round. A 64-bit number has at most twenty digits in the bases the
directives use, and a sign makes the numeral one longer, so the 21 bytes suffice.

## Main definitions

* `numeral`, `signedNumeral`: the numeral of a number
* `Access.Fine`: the accesses a call should make

## Main results

* `kfmtUll_runs`, `kfmtLl_runs`: the functions write the numeral
-/

namespace WarkRune.Klib

/-- The numeral of a natural number. -/
def numeral (base : ℕ) (upper : Bool) (n : ℕ) : List UInt8 :=
  if n = 0 then [chr '0'] else ((Nat.digits base n).map (digitChar upper)).reverse

/-- The decimal numeral of an integer. -/
def signedNumeral (v : ℤ) : List UInt8 :=
  if v < 0 then chr '-' :: numeral 10 false v.natAbs else numeral 10 false v.natAbs

/-- The access stays before the NUL at `n`, in the `cap` bytes of the buffer and in the 21 bytes of
the digits, and no NUL of the format is put out. -/
def Access.Fine (cap : ℤ) (n : ℕ) : Access → Prop
  | .fmt i => i ≤ n
  | .buf i => i < cap
  | .tmp i => i < 21
  | .out i => i < 21
  | .copied ch => ch ≠ 0

variable {cap : ℤ} {n base : ℕ} {upper : Bool} {val : BitVec 64} {o : Out}

theorem length_digits_le (hb : 10 ≤ base) (val : BitVec 64) :
    (Nat.digits base val.toNat).length ≤ 20 := by
  rw [Nat.digits_length_le_iff (by omega)]
  calc val.toNat < 2 ^ 64 := val.isLt
    _ ≤ 10 ^ 20 := by decide
    _ ≤ base ^ 20 := Nat.pow_le_pow_left hb 20

/-- **The division loop** puts the digits of the number behind those that are there. -/
theorem divide_runs (hb : 10 ≤ base) (hb' : base ≤ 16) {tmp : List UInt8}
    (hlen : tmp.length + (Nat.digits base val.toNat).length ≤ 20) :
    (Traced.loop (divideRound base upper) (val, tmp)).Runs o (Access.Fine cap n) fun r o' =>
      o' = o ∧ r = tmp ++ (Nat.digits base val.toNat).map (digitChar upper) := by
  -- by induction on the number that is left
  induction hk : val.toNat using Nat.strongRecOn generalizing val tmp with
  | ind k ih =>
  subst hk
  refine .loop ?_
  by_cases hzero : val = 0
  · subst hzero
    simp [divideRound]
  · have hpos : 0 < val.toNat := Nat.pos_of_ne_zero fun h => hzero (BitVec.eq_of_toNat_eq h)
    have hbase : (BitVec.ofNat 64 base).toNat = base := by
      rw [BitVec.toNat_ofNat]
      exact Nat.mod_eq_of_lt (by omega)
    have hdiv : (val / .ofNat 64 base).toNat = val.toNat / base := by
      rw [BitVec.toNat_udiv, hbase]
    have hmod : (val % .ofNat 64 base).toNat = val.toNat % base := by
      rw [BitVec.toNat_umod, hbase]
    rw [Nat.digits_def' (by omega) hpos, List.length_cons] at hlen
    rw [divideRound, if_pos hzero]
    simp only [Traced.runs_bind, Traced.runs_emit, Traced.runs_pure, Traced.resumes_inl]
    have hfine : tmp.length < 21 := by omega
    have hlen' : (tmp ++ [digitChar upper (val % .ofNat 64 base).toNat]).length +
        (Nat.digits base (val / .ofNat 64 base).toNat).length ≤ 20 := by
      rw [hdiv, List.length_append, List.length_singleton]
      omega
    have hlt : (val / .ofNat 64 base).toNat < val.toNat := by
      rw [hdiv]
      exact Nat.div_lt_self hpos (by omega)
    refine ⟨hfine, (ih _ hlt hlen' rfl).mono fun r o' hr => ⟨hr.1, hr.2.trans ?_⟩⟩
    rw [hdiv, hmod, List.append_assoc, List.singleton_append, ← List.map_cons,
      ← Nat.digits_def' (by omega) hpos]

/-- The copying loop turns the digits round. -/
theorem copy_runs {off : ℕ} {tmp : List UInt8} (hoff : off + tmp.length ≤ 21) {i k : ℕ}
    (hi : i + k = tmp.length) :
    ((List.range' i k).foldlM (copyRound off tmp) (tmp.reverse.take i)).Runs o
      (Access.Fine cap n) fun r o' => o' = o ∧ r = tmp.reverse := by
  induction k generalizing i with
  | zero =>
    have htake : tmp.reverse.take i = tmp.reverse := by
      apply List.take_of_length_le
      rw [List.length_reverse]
      omega
    rw [htake]
    exact Traced.runs_pure.mpr ⟨rfl, rfl⟩
  | succ k ih =>
    have hnext : tmp.reverse.take i ++ [tmp.getD (tmp.length - 1 - i) 0] =
        tmp.reverse.take (i + 1) := by
      rw [List.take_add_one, List.getElem?_reverse (by omega), List.getD_eq_getElem?_getD,
        List.getElem?_eq_getElem (by omega)]
      rfl
    have hfine : off + i < 21 := by omega
    rw [List.range'_succ, List.foldlM_cons, copyRound]
    simp only [Traced.runs_bind, Traced.runs_emit, Traced.runs_pure]
    refine ⟨hfine, ?_⟩
    rw [hnext]
    exact ih (by omega)

/-- **`_kfmt_ull`** writes the numeral. -/
theorem kfmtUll_runs (hb : 10 ≤ base) (hb' : base ≤ 16) {off : ℕ} (hoff : off ≤ 1) :
    (kfmtUll off val base upper).Runs o (Access.Fine cap n) fun r o' =>
      o' = o ∧ r = numeral base upper val.toNat := by
  have hfine : off < 21 := by omega
  unfold kfmtUll
  by_cases hzero : val = 0
  · subst hzero
    rw [if_pos rfl]
    simp only [Traced.runs_bind, Traced.runs_emit, Traced.runs_pure]
    exact ⟨hfine, trivial, rfl⟩
  · have hne : val.toNat ≠ 0 := fun h => hzero (BitVec.eq_of_toNat_eq h)
    have hlen := length_digits_le hb val
    rw [if_neg hzero, Traced.runs_bind]
    refine (divide_runs hb hb' (by simpa using hlen)).mono fun tmp o' htmp => ?_
    obtain ⟨rfl, rfl⟩ := htmp
    rw [List.nil_append, numeral, if_neg hne, List.range_eq_range']
    refine copy_runs (i := 0) ?_ (Nat.zero_add _)
    rw [List.length_map]
    omega

/-- The number that `_kfmt_ll` passes on is the absolute value, that of the least number too. -/
theorem toNat_negate (h : val.toInt < 0) : (-(val + 1) + 1).toNat = val.toInt.natAbs := by
  have hneg : -(val + 1) + 1 = -val := by
    rw [BitVec.neg_add, BitVec.sub_eq_add_neg, BitVec.add_assoc]
    exact BitVec.add_zero _
  have hlt := val.isLt
  rw [hneg, BitVec.toNat_neg]
  rw [BitVec.toInt_eq_toNat_cond] at h ⊢
  split_ifs at h ⊢ <;> omega

/-- **`_kfmt_ll`** writes the numeral. -/
theorem kfmtLl_runs : (kfmtLl val).Runs o (Access.Fine cap n) fun r o' =>
    o' = o ∧ r = signedNumeral val.toInt := by
  unfold kfmtLl signedNumeral
  by_cases hneg : val.toInt < 0
  · rw [if_pos hneg, if_pos hneg]
    simp only [Traced.runs_bind, Traced.runs_emit, Traced.runs_pure]
    have hfine : 0 < 21 := by decide
    refine ⟨hfine, (kfmtUll_runs (by decide) (by decide) (Nat.le_refl 1)).mono fun r o' hr => ?_⟩
    rw [hr.2, toNat_negate hneg]
    exact ⟨hr.1, rfl⟩
  · have habs : val.toNat = val.toInt.natAbs := by
      rw [BitVec.toInt_eq_toNat_cond] at hneg ⊢
      split_ifs at hneg ⊢ <;> omega
    rw [if_neg hneg, if_neg hneg, ← habs]
    exact kfmtUll_runs (by decide) (by decide) (Nat.zero_le 1)

end WarkRune.Klib

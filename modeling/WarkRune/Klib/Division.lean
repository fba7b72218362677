import Mathlib.Data.BitVec
import Mathlib.Tactic.Ring
import WarkRune.Exec.Yields

/-!
# Division of 64-bit numbers

The kernel has its own division of 64-bit numbers, which the compiler calls on a 32-bit machine. The
divisor is shifted to the left until its top bit is set, a quotient bit beside it. Then both are
shifted back, and the divisor is subtracted wherever it fits. The divisor is never doubled past its
top bit, so no step overflows.

## Main definitions

* `udivmoddi4`: the quotient, and the remainder where the caller wants it
* `udivdi3`, `umoddi3`: the quotient, and the remainder

## Main results

* `normalise_yields`: the shifting to the left
* `subtract_yields`: the invariant of the subtractions
* `udivmoddi4_exact`: the three functions divide exactly
-/

namespace WarkRune.Klib

open Exec

/-- A state is what the pointer `rem_p` points to. -/
abbrev Div (α : Type) := Exec (BitVec 64) α

/-- A round of the loop that shifts `den` and `qbit` to the left. -/
def normaliseRound : BitVec 64 × BitVec 64 →
    Div ((BitVec 64 × BitVec 64) ⊕ (BitVec 64 × BitVec 64))
  | (den, qbit) =>
    if den.toInt ≥ 0 then return .inl (den <<< 1, qbit <<< 1)
    else return .inr (den, qbit)

/-- The local variables of the loop that subtracts. -/
structure Partial where
  num : BitVec 64
  den : BitVec 64
  quot : BitVec 64
  qbit : BitVec 64

/-- The subtraction in a round. -/
def Partial.subtract (p : Partial) : Partial :=
  if p.den ≤ p.num then { p with num := p.num - p.den, quot := p.quot + p.qbit } else p

/-- A round of the loop that subtracts. -/
def subtractRound (p : Partial) : Div (Partial ⊕ Partial) :=
  if p.qbit > 0 then
    let p := p.subtract
    return .inl { p with den := p.den >>> 1, qbit := p.qbit >>> 1 }
  else return .inr p

/-- `__udivmoddi4`; `remP` tells whether the pointer is not null. -/
def udivmoddi4 (num den : BitVec 64) (remP : Bool) : Div (BitVec 64) :=
  if den = 0 then do
    (if remP then set (0 : BitVec 64) else pure ())
    return 0
  else do
    let (den, qbit) ← Exec.loop normaliseRound (den, 1)
    let p ← Exec.loop subtractRound ⟨num, den, 0, qbit⟩
    (if remP then set p.num else pure ())
    return p.quot

/-- `__udivdi3`. -/
def udivdi3 (num den : BitVec 64) : Div (BitVec 64) := udivmoddi4 num den false

/-- `__umoddi3`; the local variable that the pointer points to is the state. -/
def umoddi3 (num den : BitVec 64) : Div (BitVec 64) := do
  let _ ← udivmoddi4 num den true
  get

variable {num den quot qbit s : BitVec 64}

/-! ## The shifting -/

/-- A number is not negative when doubling it does not overflow. -/
theorem toInt_nonneg_iff : den.toInt ≥ 0 ↔ 2 * den.toNat < 2 ^ 64 := by
  rw [BitVec.toInt_eq_toNat_cond]
  have := den.isLt
  split <;> omega

theorem toNat_double (h : 2 * den.toNat < 2 ^ 64) : (den <<< 1).toNat = 2 * den.toNat := by
  rw [BitVec.toNat_shiftLeft, Nat.shiftLeft_eq, pow_one, Nat.mul_comm]
  exact Nat.mod_eq_of_lt h

theorem toNat_half : (den >>> 1).toNat = den.toNat / 2 := by
  rw [BitVec.toNat_ushiftRight, Nat.shiftRight_eq_div_pow, pow_one]

/-- **The shifting** multiplies the divisor and the quotient bit by one power of two, and stops when
the top bit of the divisor is set. -/
theorem normalise_yields (n : ℕ) (hpos : 2 ^ 63 ≤ den.toNat * 2 ^ n)
    (hle : qbit.toNat ≤ den.toNat) :
    (loop normaliseRound (den, qbit)).Yields s fun r s' => s' = s ∧ 2 ^ 63 ≤ r.1.toNat ∧
      ∃ k, r.1.toNat = den.toNat * 2 ^ k ∧ r.2.toNat = qbit.toNat * 2 ^ k := by
  -- by induction on the number of shifts that set the top bit
  induction n generalizing den qbit with
  | zero =>
    rw [pow_zero, Nat.mul_one] at hpos
    have htop : ¬ den.toInt ≥ 0 := by
      rw [toInt_nonneg_iff]
      omega
    rw [yields_loop, normaliseRound, if_neg htop, yields_pure, resumes_inr]
    exact ⟨rfl, hpos, 0, by rw [pow_zero, Nat.mul_one], by rw [pow_zero, Nat.mul_one]⟩
  | succ n ih =>
    rw [yields_loop, normaliseRound]
    by_cases hsmall : 2 * den.toNat < 2 ^ 64
    · rw [if_pos (toInt_nonneg_iff.mpr hsmall), yields_pure, resumes_inl]
      have hden := toNat_double hsmall
      have hqbit : (qbit <<< 1).toNat = 2 * qbit.toNat := toNat_double (by omega)
      have hstep : den.toNat * 2 ^ (n + 1) = (den <<< 1).toNat * 2 ^ n := by
        rw [hden, pow_succ]
        ring
      refine (ih (hstep ▸ hpos) (by omega)).mono fun r s' hr => ?_
      obtain ⟨hs, htop, k, hr₁, hr₂⟩ := hr
      refine ⟨hs, htop, k + 1, ?_, ?_⟩
      · rw [hr₁, hden, pow_succ]
        ring
      · rw [hr₂, hqbit, pow_succ]
        ring
    · rw [if_neg (mt toInt_nonneg_iff.mp hsmall), yields_pure, resumes_inr]
      have htop : 2 ^ 63 ≤ den.toNat := by omega
      exact ⟨rfl, htop, 0, by rw [pow_zero, Nat.mul_one], by rw [pow_zero, Nat.mul_one]⟩

/-! ## The subtractions -/

/-- What holds before a round with the quotient bit `2 ^ j`: the divisor is `d` shifted by `j`, the
rest is below twice that, and it is what the quotient so far leaves of the number `n`. -/
structure Partial.At (p : Partial) (n d j : ℕ) : Prop where
  den : p.den.toNat = d * 2 ^ j
  qbit : p.qbit.toNat = 2 ^ j
  sum : n = p.quot.toNat * d + p.num.toNat
  small : p.num.toNat < 2 * p.den.toNat

variable {p : Partial} {n d j : ℕ}

/-- **The subtraction of a round** leaves a rest below the divisor. -/
theorem Partial.At.subtract (h : p.At n d j) (hd : 0 < d) (hn : n < 2 ^ 64) :
    p.subtract.den = p.den ∧ p.subtract.qbit = p.qbit ∧
      n = p.subtract.quot.toNat * d + p.subtract.num.toNat ∧
      p.subtract.num.toNat < p.den.toNat := by
  obtain ⟨hden, hqbit, hsum, hsmall⟩ := h
  unfold Partial.subtract
  split
  · rename_i hle
    rw [BitVec.le_def] at hle
    have hnum : (p.num - p.den).toNat = p.num.toNat - p.den.toNat := BitVec.toNat_sub_of_le hle
    -- the new quotient times the divisor is at most the number
    have hmul : (p.quot.toNat + p.qbit.toNat) * d = p.quot.toNat * d + p.den.toNat := by
      rw [hden, hqbit]
      ring
    have hbound : p.quot.toNat + p.qbit.toNat ≤ (p.quot.toNat + p.qbit.toNat) * d :=
      Nat.le_mul_of_pos_right _ hd
    have hquot : (p.quot + p.qbit).toNat = p.quot.toNat + p.qbit.toNat :=
      BitVec.toNat_add_of_lt (by omega)
    refine ⟨rfl, rfl, ?_, ?_⟩
    · dsimp only
      rw [hquot, hnum, hmul]
      omega
    · dsimp only
      omega
  · rename_i hlt
    rw [BitVec.le_def] at hlt
    exact ⟨rfl, rfl, hsum, by omega⟩

/-- **The loop that subtracts** ends with the quotient and the remainder. -/
theorem subtract_yields (h : p.At n d j) (hd : 0 < d) (hn : n < 2 ^ 64) :
    (loop subtractRound p).Yields s fun r s' => s' = s ∧
      n = r.quot.toNat * d + r.num.toNat ∧ r.num.toNat < d := by
  induction j generalizing p with
  | zero =>
    obtain ⟨hden, hqbit, hsum, hlt⟩ := h.subtract hd hn
    have hone : p.qbit.toNat = 1 := h.qbit
    have hd' : p.den.toNat = d := by rw [h.den, pow_zero, Nat.mul_one]
    have hpos : p.qbit > 0 := by
      rw [gt_iff_lt, BitVec.lt_def, hone]
      decide
    rw [yields_loop, subtractRound, if_pos hpos, yields_pure, resumes_inl, yields_loop,
      subtractRound]
    have hout : ¬ p.subtract.qbit >>> 1 > 0 := by
      rw [gt_iff_lt, BitVec.lt_def, toNat_half, hqbit, hone]
      decide
    rw [if_neg hout, yields_pure, resumes_inr]
    exact ⟨rfl, hsum, hlt.trans_eq hd'⟩
  | succ j ih =>
    obtain ⟨hden, hqbit, hsum, hlt⟩ := h.subtract hd hn
    have hpow : 2 ^ (j + 1) = 2 * 2 ^ j := pow_succ' 2 j
    have hpos : p.qbit > 0 := by
      rw [gt_iff_lt, BitVec.lt_def, h.qbit]
      exact Nat.two_pow_pos _
    have hd' : p.den.toNat = 2 * (d * 2 ^ j) := by
      rw [h.den, hpow]
      ring
    rw [yields_loop, subtractRound, if_pos hpos, yields_pure, resumes_inl]
    refine ih ⟨?_, ?_, hsum, ?_⟩
    · dsimp only
      rw [toNat_half, hden, hd', Nat.mul_div_cancel_left _ (by decide)]
    · dsimp only
      rw [toNat_half, hqbit, h.qbit, hpow, Nat.mul_div_cancel_left _ (by decide)]
    · dsimp only
      rw [toNat_half, hden, hd', Nat.mul_div_cancel_left _ (by decide), ← hd']
      exact hlt

/-! ## The division -/

/-- The two loops divide. -/
theorem udivmoddi4_yields (num s : BitVec 64) (hden : den ≠ 0) (remP : Bool) :
    (udivmoddi4 num den remP).Yields s fun q s' => ∃ r : BitVec 64,
      num.toNat = q.toNat * den.toNat + r.toNat ∧ r.toNat < den.toNat ∧
        s' = if remP then r else s := by
  have hpos : 0 < den.toNat := Nat.pos_of_ne_zero fun h0 => hden (BitVec.eq_of_toNat_eq h0)
  have hone : (1 : BitVec 64).toNat = 1 := rfl
  unfold udivmoddi4
  rw [if_neg hden]
  simp only [yields_bind]
  refine (normalise_yields 63 (Nat.le_mul_of_pos_left _ hpos) (by omega)).mono fun r₁ s₁ h₁ => ?_
  obtain ⟨rfl, htop, k, hr₁, hr₂⟩ := h₁
  -- where the shifting ends, the subtractions begin with quotient zero
  have hat : (⟨num, r₁.1, 0, r₁.2⟩ : Partial).At num.toNat den.toNat k := by
    refine ⟨hr₁, by rw [hr₂, hone, Nat.one_mul], by simp, ?_⟩
    have := num.isLt
    dsimp only
    omega
  refine (subtract_yields hat hpos num.isLt).mono fun r₂ s₂ h₂ => ?_
  obtain ⟨rfl, hsum, hlt⟩ := h₂
  cases remP with
  | true =>
    rw [if_pos rfl, yields_set]
    exact yields_pure.mpr ⟨r₂.num, hsum, hlt, rfl⟩
  | false =>
    rw [if_neg (by decide), yields_pure]
    exact yields_pure.mpr ⟨r₂.num, hsum, hlt, rfl⟩

/-- A quotient and a remainder are determined. -/
theorem div_unique {q r q' r' : BitVec 64} (h : num.toNat = q.toNat * den.toNat + r.toNat)
    (hr : r.toNat < den.toNat) (h' : num.toNat = q'.toNat * den.toNat + r'.toNat)
    (hr' : r'.toNat < den.toNat) : q' = q ∧ r' = r := by
  have hpos : 0 < den.toNat := Nat.zero_lt_of_lt hr
  rw [Nat.mul_comm] at h h'
  obtain ⟨hq, hm⟩ := (Nat.div_mod_unique hpos).mpr ⟨(Nat.add_comm _ _).trans h.symm, hr⟩
  obtain ⟨hq', hm'⟩ := (Nat.div_mod_unique hpos).mpr ⟨(Nat.add_comm _ _).trans h'.symm, hr'⟩
  exact ⟨BitVec.eq_of_toNat_eq (hq'.symm.trans hq), BitVec.eq_of_toNat_eq (hm'.symm.trans hm)⟩

/-- **The division is exact**: for every divisor but 0 `__udivmoddi4` returns the quotient and stores
the remainder where the pointer is not null, and `__udivdi3` and `__umoddi3` return them. -/
theorem udivmoddi4_exact (num : BitVec 64) {den : BitVec 64} (hden : den ≠ 0) :
    ∃ q r : BitVec 64, num.toNat = q.toNat * den.toNat + r.toNat ∧ r.toNat < den.toNat ∧
      ∀ s, (udivmoddi4 num den true).Returns s q r ∧ (udivmoddi4 num den false).Returns s q s ∧
        (udivdi3 num den).Returns s q s ∧ (umoddi3 num den).Returns s r r := by
  obtain ⟨q, -, -, r, hsum, hlt, -⟩ := udivmoddi4_yields num 0 hden true
  refine ⟨q, r, hsum, hlt, fun s => ?_⟩
  have hall (remP : Bool) :
      (udivmoddi4 num den remP).Returns s q (if remP then r else s) := by
    obtain ⟨q', s', hr', r', hsum', hlt', rfl⟩ :=
      udivmoddi4_yields num s hden remP
    obtain ⟨rfl, rfl⟩ := div_unique hsum hlt hsum' hlt'
    exact hr'
  refine ⟨hall true, hall false, hall false, ?_⟩
  exact returns_bind.mpr ⟨q, r, hall true, returns_get.mpr ⟨rfl, rfl⟩⟩

/-- The largest number by 3. -/
theorem udivmoddi4_exact_three : (3 : BitVec 64) ≠ 0 ∧
    ∃ q r : BitVec 64, (2 ^ 64 - 1 : BitVec 64).toNat = q.toNat * (3 : BitVec 64).toNat + r.toNat ∧
      r.toNat < (3 : BitVec 64).toNat ∧
      ∀ s, (udivmoddi4 (2 ^ 64 - 1) 3 true).Returns s q r ∧
        (udivmoddi4 (2 ^ 64 - 1) 3 false).Returns s q s ∧
        (udivdi3 (2 ^ 64 - 1) 3).Returns s q s ∧ (umoddi3 (2 ^ 64 - 1) 3).Returns s r r :=
  ⟨by decide, udivmoddi4_exact (2 ^ 64 - 1) (by decide)⟩

end WarkRune.Klib

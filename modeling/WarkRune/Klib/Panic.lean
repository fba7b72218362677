import WarkRune.Klib.ReadBack
import Mathlib.Tactic.NormNum

/-!
# The numbers of a panic

The screen of a panic has number printers of its own. `_panic_print_hex` prints eight digits, the
first one first. `_panic_print_int` divides a number by ten until nothing is left, as `_kfmt_ull`
does, but it puts the digits out in the order in which they come.

## Main definitions

* `panicPrintInt`, `panicPrintHex`: the texts of a number

## Main results

* `panicPrintHex_reads`: the hexadecimal text reads back as the number
* `panicPrintInt_iff`: the decimal text is the numeral of the number if and only if that is the same
  from both ends
-/

namespace WarkRune.Klib

/-- What the loop of `_panic_print_int` stores. -/
def panicDigits (val : ℕ) : List UInt8 :=
  if val = 0 then [] else (chr '0' + .ofNat (val % 10)) :: panicDigits (val / 10)
termination_by val
decreasing_by omega

/-- `_panic_print_int`. -/
def panicPrintInt (val : BitVec 32) : List UInt8 :=
  if val = 0 then [chr '0']
  else if val.toInt < 0 then
    chr '-' :: panicDigits (if val = BitVec.intMin 32 then 2147483647 else (-val).toNat)
  else panicDigits val.toNat

/-- `_panic_print_hex`. -/
def panicPrintHex (val : BitVec 32) : List UInt8 :=
  [chr '0', chr 'x'] ++ [7, 6, 5, 4, 3, 2, 1, 0].map fun i =>
    digitChar false (val >>> (i * 4) &&& 0xF).toNat

variable {val : BitVec 32} {n : ℕ}

theorem panicDigits_eq (n : ℕ) : panicDigits n = (Nat.digits 10 n).map (digitChar false) := by
  induction n using Nat.strongRecOn with
  | ind n ih =>
    rw [panicDigits]
    by_cases hn : n = 0
    · rw [if_pos hn, hn, Nat.digits_zero, List.map_nil]
    · have hpos : 0 < n := Nat.pos_of_ne_zero hn
      have hdigit : digitChar false (n % 10) = chr '0' + .ofNat (n % 10) :=
        if_pos (Nat.mod_lt n (by decide))
      rw [if_neg hn, Nat.digits_def' (by decide) hpos, List.map_cons, hdigit,
        ih (n / 10) (Nat.div_lt_self hpos (by decide))]

/-- The digits come out backwards. -/
theorem panicDigits_reverse (hn : n ≠ 0) : panicDigits n = (numeral 10 false n).reverse := by
  rw [panicDigits_eq, numeral, if_neg hn, List.reverse_reverse]

/-- The text of the least number has the digits of its neighbour. -/
theorem panicDigits_intMin : panicDigits 2147483647 ≠ numeral 10 false 2147483648 := by
  have hlow : Nat.digits 10 2147483647 = [7, 4, 6, 3, 8, 4, 7, 4, 1, 2] := by norm_num
  have hmin : Nat.digits 10 2147483648 = [8, 4, 6, 3, 8, 4, 7, 4, 1, 2] := by norm_num
  rw [panicDigits_eq, numeral, if_neg (by decide), hlow, hmin]
  decide

/-- **A panic prints a number backwards**: the text is the numeral of the number if and only if the
numeral is the same from both ends, and the number is not the least one. -/
theorem panicPrintInt_iff : panicPrintInt val = signedNumeral val.toInt ↔
    val ≠ BitVec.intMin 32 ∧
      (numeral 10 false val.toInt.natAbs).reverse = numeral 10 false val.toInt.natAbs := by
  unfold panicPrintInt
  by_cases hzero : val = 0
  · subst hzero
    exact iff_of_true rfl ⟨by decide, rfl⟩
  have hne : val.toInt ≠ 0 := fun h => hzero (BitVec.eq_of_toInt_eq h)
  have habs : val.toInt.natAbs ≠ 0 := Int.natAbs_ne_zero.mpr hne
  rw [if_neg hzero]
  by_cases hneg : val.toInt < 0
  · rw [if_pos hneg, signedNumeral, if_pos hneg, List.cons_inj_right]
    by_cases hmin : val = BitVec.intMin 32
    · subst hmin
      exact iff_of_false panicDigits_intMin fun h => h.1 rfl
    · have hminus : (-val).toNat = val.toInt.natAbs := by
        rw [BitVec.toInt_eq_toNat_cond] at hneg ⊢
        rw [BitVec.toNat_neg]
        split at hneg <;> omega
      rw [if_neg hmin, hminus, panicDigits_reverse habs]
      exact ⟨fun h => ⟨hmin, h⟩, fun h => h.2⟩
  · have htoNat : val.toNat = val.toInt.natAbs := by
      rw [BitVec.toInt_eq_toNat_cond] at hneg ⊢
      split at hneg <;> omega
    have hmin : val ≠ BitVec.intMin 32 := fun h => hneg (by rw [h]; decide)
    rw [if_neg hneg, signedNumeral, if_neg hneg, htoNat, panicDigits_reverse habs]
    exact ⟨fun h => ⟨hmin, h⟩, fun h => h.2⟩

theorem toNat_nibble (val : BitVec 32) (i : ℕ) :
    (val >>> (i * 4) &&& 0xF).toNat = val.toNat / 2 ^ (i * 4) % 16 := by
  rw [BitVec.toNat_and, BitVec.toNat_ushiftRight, Nat.shiftRight_eq_div_pow]
  exact Nat.and_two_pow_sub_one_eq_mod _ 4

/-- **The hexadecimal text reads back** as the number, with eight digits behind `0x`. -/
theorem panicPrintHex_reads (val : BitVec 32) : (panicPrintHex val).length = 10 ∧
    (panicPrintHex val).take 2 = [chr '0', chr 'x'] ∧
    IsNumeral 16 false ((panicPrintHex val).drop 2) val.toNat := by
  refine ⟨rfl, rfl, [7, 6, 5, 4, 3, 2, 1, 0].map fun i => (val >>> (i * 4) &&& 0xF).toNat,
    List.cons_ne_nil _ _, ?_, .inl ⟨?_, ?_⟩⟩
  · intro d hd
    obtain ⟨i, -, rfl⟩ := List.mem_map.mp hd
    rw [toNat_nibble]
    exact Nat.mod_lt _ (by decide)
  · rw [List.map_map]
    rfl
  · have hlt := val.isLt
    simp only [toNat_nibble, List.map_cons, List.map_nil, List.reverse_cons, List.reverse_nil,
      List.nil_append, List.cons_append, Nat.ofDigits_cons, Nat.ofDigits_nil]
    omega

end WarkRune.Klib

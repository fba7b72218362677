import Mathlib.Algebra.Group.Int.Defs
import Mathlib.Algebra.Group.Nat.Defs
import Mathlib.Algebra.GroupWithZero.Nat
import Mathlib.Data.Nat.Basic
import Mathlib.Logic.Function.Basic

/-!
# Paths and 8.3 names

A path is a NUL-terminated string, given as its bytes; the end of the list reads as NUL. A name
on disk has eight bytes of base and three of extension, padded with spaces.

## Main definitions

* `to83`, `from83`, `match83`: the name helpers of the driver
-/

namespace WarkRune.Fat12

/-- The bytes of a path; the string ends at the first NUL or at the end of the list. -/
abbrev Path := List UInt8

/-- The eleven bytes of an 8.3 name. -/
abbrev Name := Fin 11 → UInt8

instance neZero_eleven : NeZero 11 := ⟨Nat.succ_ne_zero 10⟩

/-- The byte of a dot. -/
def dot : UInt8 := 46

/-- The byte of a slash. -/
def slash : UInt8 := 47

/-- The byte of a space. -/
def space : UInt8 := 32

/-- Fold an ASCII lower-case letter to upper case. -/
def upper (c : UInt8) : UInt8 := if 97 ≤ c ∧ c ≤ 122 then c - 32 else c

/-- Letters are folded to letters. -/
theorem upper_toNat (c : UInt8) : (upper c).toNat =
    if 97 ≤ c.toNat ∧ c.toNat ≤ 122 then c.toNat - 32 else c.toNat := by
  have h97 : (97 : UInt8) ≤ c ↔ 97 ≤ c.toNat := UInt8.le_iff_toNat_le
  have h122 : c ≤ 122 ↔ c.toNat ≤ 122 := UInt8.le_iff_toNat_le
  rw [upper]
  split_ifs with h h' h'
  · have h32 : (32 : UInt8) ≤ c := by
      rw [UInt8.le_iff_toNat_le]
      exact Nat.le_trans (by decide) h'.1
    rw [UInt8.toNat_sub_of_le _ _ h32]
    rfl
  · exact absurd ⟨h97.mp h.1, h122.mp h.2⟩ h'
  · exact absurd ⟨h97.mpr h'.1, h122.mpr h'.2⟩ h
  · rfl

theorem upper_upper (c : UInt8) : upper (upper c) = upper c := by
  apply UInt8.toNat_inj.mp
  have := upper_toNat c
  rw [upper_toNat (upper c)]
  split_ifs at this ⊢ <;> omega

/-- Only the byte itself is folded to a byte before or behind the letters. -/
theorem upper_eq_iff {c x : UInt8} (hx : x.toNat < 65 ∨ 122 < x.toNat) : upper c = x ↔ c = x := by
  rw [← UInt8.toNat_inj, ← UInt8.toNat_inj, upper_toNat]
  split_ifs <;> omega

theorem upper_lt {c : UInt8} (h : c < 128) : upper c < 128 := by
  rw [UInt8.lt_iff_toNat_lt] at h ⊢
  have := upper_toNat c
  split_ifs at this <;> omega

/-- The string before the first NUL. -/
def cString (s : Path) : Path := s.takeWhile (· ≠ 0)

/-- `to_83`: the 8.3 form of a name, and whether it is valid. An invalid name leaves the eleven
spaces the function starts from. -/
def to83 (s : Path) : Bool × Name :=
  let c := cString s
  if c.headD 0 = 0 ∨ c.headD 0 = dot then (false, fun _ => space)
  else
    let base := (c.takeWhile (· ≠ dot)).take 8
    let ext := (c.dropWhile (· ≠ dot)).tail.take 3
    (true, fun i => upper (if i.val < 8 then base.getD i space else ext.getD (i - 8) space))

/-- `match_83`: equality of names up to the case of ASCII letters. -/
def match83 (entryName target : Name) : Bool :=
  decide (∀ i, upper (entryName i) = upper (target i))

/-- `from_83`: the display form of a name. -/
def from83 (raw : Name) : Path :=
  let bytes := List.ofFn raw
  let base := (bytes.take 8).takeWhile (· ≠ space)
  if raw 8 = space then base
  else base ++ dot :: (bytes.drop 8).takeWhile (· ≠ space)

end WarkRune.Fat12

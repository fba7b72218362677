import Mathlib.Order.Nat
import WarkRune.Bytes.Overlay

/-!
# Strings in arrays

A string in an array is the values before the first terminator. It is there when the array has its
values in order and the terminator behind them.

## Main definitions

* `HasString f w`: the array `f` holds the string `w` and its terminator

## Main results

* `hasString_overlay`: a string stored with its terminator
* `HasString.cut`: a terminator stored inside a string cuts it
-/

variable {α : Type} [Zero α] {f : ℕ → α} {w v : List α} {k : ℕ}

/-- The array `f` holds the string `w`, and the terminator behind it. -/
def HasString (f : ℕ → α) (w : List α) : Prop := 0 ∉ w ∧ ∀ k ≤ w.length, f k = w.getD k 0

namespace HasString

theorem end_eq (h : HasString f w) : f w.length = 0 := by
  rw [h.2 _ (Nat.le_refl _), List.getD_eq_default _ _ (Nat.le_refl _)]

theorem apply (h : HasString f w) (hk : k < w.length) : f k = w[k] := by
  rw [h.2 k hk.le, List.getD_eq_getElem _ _ hk]

/-- The terminator is behind the string only. -/
theorem eq_zero_iff (h : HasString f w) (hk : k ≤ w.length) : f k = 0 ↔ k = w.length := by
  constructor
  · intro hz
    by_contra hne
    rw [h.apply (Nat.lt_of_le_of_ne hk hne)] at hz
    exact h.1 (hz ▸ List.getElem_mem _)
  · rintro rfl
    exact h.end_eq

/-- **A terminator inside a string** cuts it. -/
theorem cut (h : HasString f w) (hk : k ≤ w.length) :
    HasString (Function.update f k 0) (w.take k) := by
  refine ⟨fun hz => h.1 (List.mem_of_mem_take hz), fun i hi => ?_⟩
  rw [List.length_take_of_le hk] at hi
  rcases Nat.lt_or_eq_of_le hi with hlt | rfl
  · rw [Function.update_of_ne hlt.ne, h.2 i (hlt.le.trans hk)]
    simp only [List.getD_eq_getElem?_getD, List.getElem?_take_of_lt hlt]
  · rw [Function.update_self, List.getD_eq_default _ _ (List.length_take_le ..)]

end HasString

/-- **A string stored with its terminator.** -/
theorem hasString_overlay (f : ℕ → α) (hw : 0 ∉ w) :
    HasString (Function.update (overlay f 0 w) w.length 0) w := by
  refine ⟨hw, fun k hk => ?_⟩
  rcases Nat.lt_or_eq_of_le hk with hlt | rfl
  · rw [Function.update_of_ne hlt.ne, List.getD_eq_getElem _ _ hlt]
    simpa only [Nat.zero_add] using overlay_apply (f := f) (p := 0) hlt
  · rw [Function.update_self, List.getD_eq_default _ _ (Nat.le_refl _)]

import Mathlib.Algebra.Group.Int.Defs
import Mathlib.Algebra.Group.Nat.Defs
import Mathlib.Data.List.GetD
import Mathlib.Logic.Function.Basic

/-!
# Storing a list in a function

A sequence given by its values at every position changes where a list is stored over it. Lists
stored one behind the other are one list.

## Main definitions

* `overlay f p xs`: the sequence `f` with the list `xs` stored from position `p` on

## Main results

* `overlay_append`: lists stored one behind the other
* `overlay_cons`: a value at the first position, and the rest behind it
* `overlay_apply`: the values at the positions of the list
-/

variable {α : Type} {f : ℕ → α} {p k : ℕ} {xs : List α}

/-- The sequence `f` with the list `xs` stored from position `p` on. -/
def overlay (f : ℕ → α) (p : ℕ) (xs : List α) : ℕ → α := fun k =>
  if p ≤ k then xs.getD (k - p) (f k) else f k

theorem overlay_of_lt (h : k < p) : overlay f p xs k = f k := if_neg (Nat.not_le.mpr h)

theorem overlay_of_ge (h : p + xs.length ≤ k) : overlay f p xs k = f k := by
  rw [overlay, if_pos (by omega), List.getD_eq_default _ _ (by omega)]

/-- **The values at the positions of the list.** -/
theorem overlay_apply (h : k < xs.length) : overlay f p xs (p + k) = xs[k] := by
  rw [overlay, if_pos (Nat.le_add_right p k), Nat.add_sub_cancel_left, List.getD_eq_getElem _ _ h]

@[simp] theorem overlay_nil : overlay f p [] = f := by
  funext k
  exact ite_self (f k)

/-- **Lists stored one behind the other** are one list. -/
theorem overlay_append (f : ℕ → α) (p : ℕ) (xs ys : List α) :
    overlay f p (xs ++ ys) = overlay (overlay f p xs) (p + xs.length) ys := by
  funext k
  rcases Nat.lt_or_ge k (p + xs.length) with hk | hk
  · rw [overlay_of_lt hk]
    rcases Nat.lt_or_ge k p with hp | hp
    · rw [overlay_of_lt hp, overlay_of_lt hp]
    · obtain ⟨i, rfl⟩ := Nat.exists_eq_add_of_le hp
      have hi : i < xs.length := by omega
      rw [overlay_apply hi, overlay_apply (by rw [List.length_append]; omega),
        List.getElem_append_left hi]
  · obtain ⟨i, rfl⟩ := Nat.exists_eq_add_of_le hk
    rcases Nat.lt_or_ge i ys.length with hi | hi
    · rw [overlay_apply hi, Nat.add_assoc, overlay_apply (by rw [List.length_append]; omega),
        List.getElem_append_right (Nat.le_add_right ..)]
      simp only [Nat.add_sub_cancel_left]
    · rw [overlay_of_ge (by rw [List.length_append]; omega), overlay_of_ge (by omega),
        overlay_of_ge (Nat.le_add_right ..)]

/-- **A list is stored value by value.** -/
theorem overlay_cons (f : ℕ → α) (p : ℕ) (x : α) (xs : List α) :
    overlay f p (x :: xs) = overlay (Function.update f p x) (p + 1) xs := by
  have hone : overlay f p [x] = Function.update f p x := by
    funext k
    rcases Nat.lt_trichotomy k p with hk | rfl | hk
    · rw [overlay_of_lt hk, Function.update_of_ne (Nat.ne_of_lt hk)]
    · rw [Function.update_self]
      exact overlay_apply (p := k) (show 0 < [x].length from Nat.one_pos)
    · rw [overlay_of_ge hk, Function.update_of_ne (Nat.ne_of_gt hk)]
  rw [← hone]
  exact overlay_append f p [x] xs

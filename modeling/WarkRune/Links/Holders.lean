import Mathlib.Algebra.Group.Int.Defs
import Mathlib.Algebra.Group.Nat.Defs
import Mathlib.Logic.Function.Basic
import Mathlib.Tactic.Common

/-!
# Holders

Each entry of a table holds one thing or nothing. A table is exclusive when no thing is held
twice; it stays exclusive when an entry takes a thing nobody holds, and when an entry lets go.

## Main definitions

* `Links.Held r t`: some entry of the table `r` holds `t`
* `Links.Exclusive r`: no two entries hold the same thing

## Main results

* `Exclusive.take`, `Exclusive.drop`: an entry takes a free thing, an entry lets go
* `held_take`, `Exclusive.held_drop`: what is held afterwards
-/

namespace Links

open Function (update update_self update_of_ne)

variable {ι τ : Type} {r : ι → Option τ} {i : ι} {t u : τ}

/-- Some entry holds `t`. -/
def Held (r : ι → Option τ) (t : τ) : Prop := ∃ i, r i = some t

/-- No two entries hold the same thing. -/
def Exclusive (r : ι → Option τ) : Prop := ∀ ⦃i j t⦄, r i = some t → r j = some t → i = j

theorem not_held_of_none (h : ∀ i, r i = none) : ¬ Held r t := by
  rintro ⟨i, hi⟩
  rw [h i] at hi
  cases hi

variable [DecidableEq ι]

/-- **An entry takes a thing that nobody holds.** -/
theorem Exclusive.take (h : Exclusive r) (ht : ¬ Held r t) : Exclusive (update r i (some t)) := by
  intro j k v hj hk
  by_cases hji : j = i
  · by_cases hki : k = i
    · rw [hji, hki]
    · rw [hji, update_self] at hj
      rw [update_of_ne hki, ← hj] at hk
      exact absurd ⟨k, hk⟩ ht
  · rw [update_of_ne hji] at hj
    by_cases hki : k = i
    · rw [hki, update_self] at hk
      exact absurd ⟨j, hj.trans hk.symm⟩ ht
    · rw [update_of_ne hki] at hk
      exact h hj hk

/-- **An entry lets go.** -/
theorem Exclusive.drop (h : Exclusive r) : Exclusive (update r i none) := by
  intro j k v hj hk
  by_cases hji : j = i
  · rw [hji, update_self] at hj
    cases hj
  · by_cases hki : k = i
    · rw [hki, update_self] at hk
      cases hk
    · rw [update_of_ne hji] at hj
      rw [update_of_ne hki] at hk
      exact h hj hk

/-- What is held once an empty entry has taken `t`. -/
theorem held_take (hi : r i = none) : Held (update r i (some t)) u ↔ u = t ∨ Held r u := by
  constructor
  · rintro ⟨j, hj⟩
    by_cases hji : j = i
    · rw [hji, update_self] at hj
      exact .inl (Option.some.inj hj).symm
    · rw [update_of_ne hji] at hj
      exact .inr ⟨j, hj⟩
  · rintro (rfl | ⟨j, hj⟩)
    · exact ⟨i, update_self ..⟩
    · have hji : j ≠ i := by
        rintro rfl
        rw [hi] at hj
        cases hj
      exact ⟨j, (update_of_ne hji ..).trans hj⟩

/-- What is held once the holder of `t` has let go. -/
theorem Exclusive.held_drop (h : Exclusive r) (hi : r i = some t) :
    Held (update r i none) u ↔ u ≠ t ∧ Held r u := by
  constructor
  · rintro ⟨j, hj⟩
    by_cases hji : j = i
    · rw [hji, update_self] at hj
      cases hj
    · rw [update_of_ne hji] at hj
      refine ⟨?_, j, hj⟩
      rintro rfl
      exact hji (h hj hi)
  · rintro ⟨hu, j, hj⟩
    have hji : j ≠ i := by
      rintro rfl
      exact hu (Option.some.inj (hj.symm.trans hi))
    exact ⟨j, (update_of_ne hji ..).trans hj⟩

/-- Letting go of nothing changes nothing. -/
theorem update_none_of_none (hi : r i = none) : update r i none = r := by
  rw [← hi, Function.update_eq_self]

end Links

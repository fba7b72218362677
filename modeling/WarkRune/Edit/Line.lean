import Mathlib.Algebra.Group.Nat.Defs
import Mathlib.Data.List.Basic
import WarkRune.Bytes.Terminated

/-!
# Editing a line at its end

A line of at most `cap` entries is typed and corrected at its end: a key adds an entry, if there is
room, or takes the last one away, if there is one. An editor keeps the line in an array, with its
length beside it, and stores the terminator when the line ends.

## Main definitions

* `LineEdit.Key α`: the keys
* `LineEdit.press cap`, `LineEdit.edit cap`: one key, and keys one after the other
* `LineEdit.strOf buf cap`: the string in an array
* `LineEdit.Holds cap w buf len`: an array and a length hold a line

## Main results

* `LineEdit.length_edit_le`: a line stays within its bound
* `LineEdit.edit_puts`: without corrections the line is the first `cap` entries
* `LineEdit.Holds.put`, `LineEdit.Holds.erase`: an entry stored, and one taken away
-/

namespace LineEdit

variable {α : Type} {cap : ℕ}

/-- A key of the editor. -/
inductive Key (α : Type)
  | put (a : α)
  | erase

/-- What a key makes of the line. -/
def press (cap : ℕ) (w : List α) : Key α → List α
  | .put a => if w.length < cap then w ++ [a] else w
  | .erase => w.dropLast

/-- What the keys make of the line. -/
def edit (cap : ℕ) (w : List α) (ks : List (Key α)) : List α := ks.foldl (press cap) w

@[simp] theorem edit_nil (w : List α) : edit cap w [] = w := rfl

@[simp] theorem edit_cons (w : List α) (k : Key α) (ks : List (Key α)) :
    edit cap w (k :: ks) = edit cap (press cap w k) ks := rfl

theorem length_press_le {w : List α} (h : w.length ≤ cap) (k : Key α) :
    (press cap w k).length ≤ cap := by
  cases k with
  | put a =>
    rw [press]
    split
    · rw [List.length_append, List.length_singleton]
      omega
    · exact h
  | erase =>
    rw [press, List.length_dropLast]
    omega

/-- **A line stays within its bound.** -/
theorem length_edit_le {w : List α} (h : w.length ≤ cap) (ks : List (Key α)) :
    (edit cap w ks).length ≤ cap := by
  induction ks generalizing w with
  | nil => exact h
  | cons k ks ih => exact ih (length_press_le h k)

/-- **Without corrections** the line is what was typed, as far as there is room. -/
theorem edit_puts {w : List α} (h : w.length ≤ cap) (u : List α) :
    edit cap w (u.map .put) = (w ++ u).take cap := by
  induction u generalizing w with
  | nil => rw [List.map_nil, edit_nil, List.append_nil, List.take_of_length_le h]
  | cons a u ih =>
    rw [List.map_cons, edit_cons, ih (length_press_le h (.put a)), press]
    split
    · rw [List.append_assoc, List.singleton_append]
    · have hlen : w.length = cap := by omega
      rw [← hlen, List.take_left, List.take_left]

/-! ## The line in an array -/

variable [Zero α] {w : List α} {buf : ℕ → α} {len : ℕ}

/-- The string in an array of `cap` entries. -/
def strOf [DecidableEq α] (buf : ℕ → α) (cap : ℕ) : List α :=
  ((List.range cap).map buf).takeWhile (· ≠ 0)

/-- The entries of a string. -/
theorem map_range_of_hasString (h : HasString buf w) : (List.range w.length).map buf = w := by
  apply List.ext_getElem
  · rw [List.length_map, List.length_range]
  · intro k hk hkw
    rw [List.getElem_map, List.getElem_range, h.apply hkw]

/-- **The string in an array** that has room for it and its terminator. -/
theorem strOf_eq [DecidableEq α] (h : HasString buf w) (hlt : w.length < cap) :
    strOf buf cap = w := by
  obtain ⟨k, rfl⟩ : ∃ k, cap = w.length + (k + 1) := ⟨cap - w.length - 1, by omega⟩
  have hpos : ∀ c ∈ w, decide (c ≠ 0) = true := fun c hc =>
    decide_eq_true fun h0 => h.1 (h0 ▸ hc)
  rw [strOf, List.range_add, List.map_append, map_range_of_hasString h,
    List.takeWhile_append_of_pos hpos, List.range_succ_eq_map, List.map_cons, List.map_cons,
    Nat.add_zero, h.end_eq, List.takeWhile_cons_of_neg (by simp), List.append_nil]

/-- A string is the entries up to its terminator. -/
theorem hasString_congr {f g : ℕ → α} (h : HasString f w) (hfg : ∀ k ≤ w.length, g k = f k) :
    HasString g w :=
  ⟨h.1, fun k hk => (hfg k hk).trans (h.2 k hk)⟩

/-- The array `buf` of `cap` entries and the length `len` hold the line `w`. -/
structure Holds (cap : ℕ) (w : List α) (buf : ℕ → α) (len : ℕ) : Prop where
  size : len = w.length
  lt : w.length < cap
  str : HasString (Function.update buf len 0) w

/-- An empty line. -/
theorem holds_nil (h : 0 < cap) (buf : ℕ → α) : Holds cap [] buf 0 := by
  refine ⟨rfl, h, List.not_mem_nil, fun k hk => ?_⟩
  obtain rfl : k = 0 := Nat.le_zero.mp hk
  exact Function.update_self ..

namespace Holds

variable (h : Holds cap w buf len)
include h

/-- **An entry is stored** behind the line. -/
theorem put {c : α} (hc : c ≠ 0) (hlen : len < cap - 1) :
    Holds cap (w ++ [c]) (Function.update buf len c) (len + 1) := by
  have hlen' := h.size
  have hadd : (w ++ [c]).length = len + 1 := by
    rw [List.length_append, List.length_singleton, hlen']
  refine ⟨hadd.symm, by omega, ?_, fun k hk => ?_⟩
  · rw [List.mem_append, List.mem_singleton, not_or]
    exact ⟨h.str.1, hc.symm⟩
  · rw [hadd] at hk
    rcases Nat.lt_or_eq_of_le hk with hlt | rfl
    · rw [Function.update_of_ne hlt.ne]
      rcases Nat.lt_or_eq_of_le (Nat.le_of_lt_succ hlt) with hlt' | rfl
      · have hold := h.str.2 k (by omega)
        rw [Function.update_of_ne hlt'.ne] at hold
        rw [Function.update_of_ne hlt'.ne, hold, List.getD_append _ _ _ _ (by omega)]
      · rw [Function.update_self, List.getD_append_right _ _ _ _ hlen'.ge, hlen', Nat.sub_self,
          List.getD_cons_zero]
    · rw [Function.update_self, List.getD_eq_default _ _ hadd.le]

/-- **The last entry is taken away**, with or without a terminator in its place. -/
theorem erase (hlen : 0 < len) (buf' : ℕ → α) (hbuf : ∀ k < len - 1, buf' k = buf k) :
    Holds cap w.dropLast buf' (len - 1) := by
  have hlen' := h.size
  have hlt := h.lt
  have hdrop : w.dropLast.length = len - 1 := by rw [List.length_dropLast, hlen']
  refine ⟨hdrop.symm, by omega, ?_⟩
  have hcut := h.str.cut (k := len - 1) (by omega)
  rw [hlen', ← List.dropLast_eq_take, ← hlen'] at hcut
  refine hasString_congr hcut fun k hk => ?_
  rw [hdrop] at hk
  rcases Nat.lt_or_eq_of_le hk with hk' | rfl
  · rw [Function.update_of_ne hk'.ne, Function.update_of_ne hk'.ne,
      Function.update_of_ne (by omega), hbuf k hk']
  · rw [Function.update_self, Function.update_self]

/-- The entries of the line. -/
theorem entries : (List.range len).map buf = w := by
  have hmap := map_range_of_hasString h.str
  rw [← h.size] at hmap
  rw [← hmap]
  apply List.map_congr_left
  intro k hk
  exact (Function.update_of_ne (List.mem_range.mp hk).ne ..).symm

/-- **The string that ends the line.** -/
theorem strOf_end [DecidableEq α] : strOf (Function.update buf len 0) cap = w :=
  strOf_eq h.str h.lt

end Holds

end LineEdit

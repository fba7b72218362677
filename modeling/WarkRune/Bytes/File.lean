import WarkRune.Bytes.Overlay
import Mathlib.Algebra.BigOperators.Group.List.Basic
import Mathlib.Algebra.GroupWithZero.Nat

/-!
# A file as an array with a position

A file is a list with a position. Writing at the position replaces what is there and extends the
file at its end; reading returns what follows the position, up to a length.

## Main definitions

* `splice xs p ys`: the list `xs` with `ys` in the place of what it holds from `p` on
* `ArrayFile`: a list with a position
* `ArrayFile.write`, `ArrayFile.read`, `ArrayFile.readAll`: the operations

## Main results

* `map_range_overlay`: a sequence stored over is a list spliced into
* `ArrayFile.readAll_eq`: reads one after the other are one read
-/

variable {α : Type}

/-- The list `xs` with `ys` in the place of what it holds from `p` on. -/
def splice (xs : List α) (p : ℕ) (ys : List α) : List α :=
  xs.take p ++ ys ++ xs.drop (p + ys.length)

@[simp] theorem splice_nil (xs : List α) (p : ℕ) : splice xs p [] = xs := by
  simp [splice]

/-- **A sequence stored over** begins with the list spliced into. -/
theorem map_range_overlay {f : ℕ → α} {n p : ℕ} {ys : List α} (h : p ≤ n) :
    (List.range (max n (p + ys.length))).map (overlay f p ys) =
      splice ((List.range n).map f) p ys := by
  have htake : (((List.range n).map f).take p).length = p := by
    rw [List.length_take, List.length_map, List.length_range, Nat.min_eq_left h]
  rw [splice]
  refine List.ext_getElem ?_ fun i hi hi' => ?_
  · simp only [List.length_append, htake, List.length_drop, List.length_map, List.length_range]
    omega
  rw [List.length_map, List.length_range] at hi
  rw [List.getElem_map, List.getElem_range]
  rcases Nat.lt_or_ge i p with hip | hip
  · rw [overlay_of_lt hip, List.getElem_append_left (by rw [List.length_append]; omega),
      List.getElem_append_left (by omega), List.getElem_take, List.getElem_map,
      List.getElem_range]
  rcases Nat.lt_or_ge i (p + ys.length) with hiy | hiy
  · obtain ⟨k, rfl⟩ := Nat.exists_eq_add_of_le hip
    rw [overlay_apply (by omega),
      List.getElem_append_left (by rw [List.length_append, htake]; omega),
      List.getElem_append_right (by omega)]
    simp only [htake, Nat.add_sub_cancel_left]
  · rw [overlay_of_ge hiy, List.getElem_append_right (by rw [List.length_append, htake]; omega)]
    simp only [List.length_append, htake, List.getElem_drop, List.getElem_map, List.getElem_range]
    congr 1
    omega

/-- A range of values in two parts. -/
theorem map_range_add (f : ℕ → α) (a b : ℕ) :
    (List.range (a + b)).map f =
      (List.range a).map f ++ (List.range b).map fun k => f (a + k) := by
  rw [List.range_add, List.map_append, List.map_map]
  rfl

/-- The values of a range from a position on, up to a length. -/
theorem take_drop_map_range (f : ℕ → α) (s p n : ℕ) :
    (((List.range s).map f).drop p).take n =
      (List.range (min n (s - p))).map fun k => f (p + k) := by
  refine List.ext_getElem ?_ fun i hi hi' => ?_
  · simp
  · simp

/-- A list with a position. -/
structure ArrayFile (α : Type) where
  data : List α
  pos : ℕ

namespace ArrayFile

variable (F : ArrayFile α)

/-- Write at the position. -/
def write (ys : List α) : ArrayFile α := ⟨splice F.data F.pos ys, F.pos + ys.length⟩

/-- Read up to `n` values from the position on. -/
def read (n : ℕ) : List α × ArrayFile α :=
  let out := (F.data.drop F.pos).take n
  (out, { F with pos := F.pos + out.length })

/-- Reads one after the other. -/
def readAll : ArrayFile α → List ℕ → List α × ArrayFile α
  | F, [] => ([], F)
  | F, n :: ns =>
    let r := F.read n
    let rs := readAll r.2 ns
    (r.1 ++ rs.1, rs.2)

@[simp] theorem write_nil : F.write [] = F := by
  simp [write]

/-- A read that is split in two. -/
theorem read_add (n m : ℕ) :
    F.read (n + m) = ((F.read n).1 ++ ((F.read n).2.read m).1, ((F.read n).2.read m).2) := by
  have hout : ((F.data.drop F.pos).take n ++
      (F.data.drop (F.pos + ((F.data.drop F.pos).take n).length)).take m) =
      (F.data.drop F.pos).take (n + m) := by
    rw [List.take_add, ← List.drop_drop]
    congr 2
    rw [List.length_take]
    rcases Nat.le_total n (F.data.drop F.pos).length with h | h
    · rw [Nat.min_eq_left h]
    · rw [Nat.min_eq_right h, List.drop_length, List.drop_eq_nil_of_le h]
  simp only [read, hout, Nat.add_assoc]
  rw [← List.length_append, hout]

/-- **Reads one after the other are one read** of their total length. -/
theorem readAll_eq (ns : List ℕ) : F.readAll ns = F.read ns.sum := by
  induction ns generalizing F with
  | nil => simp [readAll, read]
  | cons n ns ih => rw [readAll, List.sum_cons, read_add, ih]

end ArrayFile

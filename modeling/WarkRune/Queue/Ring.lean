import Mathlib.Algebra.Group.Int.Defs
import Mathlib.Algebra.Group.Nat.Defs
import Mathlib.Data.Int.ModEq
import Mathlib.Data.List.Basic
import Mathlib.Logic.Function.Basic
import Mathlib.Tactic.Common

/-!
# Ring buffers

A ring buffer keeps a bounded queue in a circular array: the position of the first entry, the
position behind the last one, and the number of entries. The queue is what an observer sees; the
positions agree with it modulo the capacity.

## Main definitions

* `RingBuffer α`: an array with its two positions and its count
* `RingBuffer.contents cap`: the queue, first entry first
* `RingBuffer.push`, `RingBuffer.pop`: add an entry at the end, remove the first one
* `RingBuffer.Ok cap`: the positions agree with the count
* `RingBuffer.between cap buf r w`: the ring of two positions, of which one cell stays empty
* `offer cap q xs`, `poll q n`: a bounded queue takes entries, and gives entries away

## Main results

* `RingBuffer.contents_push`, `RingBuffer.contents_pop`: the operations are those of the queue
* `RingBuffer.Ok.push`, `RingBuffer.Ok.pop`: the positions go on agreeing
* `RingBuffer.push_between`, `RingBuffer.pop_between`: the operations by the positions alone
* `offer_cons`, `poll_succ`: a queue takes and gives away entries one by one
-/

namespace Queue

/-- A circular array with the positions to read and to write next, and the number of entries. -/
structure RingBuffer (α : Type) where
  buf : ℕ → α
  readPos : ℕ
  writePos : ℕ
  count : ℕ

namespace RingBuffer

variable {α : Type} {cap : ℕ}

/-- The entries, first in first. -/
def contents (cap : ℕ) (r : RingBuffer α) : List α :=
  (List.range r.count).map fun i => r.buf ((r.readPos + i) % cap)

/-- Add an entry at the end. -/
def push (cap : ℕ) (x : α) (r : RingBuffer α) : RingBuffer α where
  buf := Function.update r.buf r.writePos x
  readPos := r.readPos
  writePos := (r.writePos + 1) % cap
  count := r.count + 1

/-- Remove the first entry. -/
def pop (cap : ℕ) (r : RingBuffer α) : RingBuffer α :=
  { r with readPos := (r.readPos + 1) % cap, count := r.count - 1 }

/-- The positions agree with the number of entries. -/
structure Ok (cap : ℕ) (r : RingBuffer α) : Prop where
  readPos_lt : r.readPos < cap
  count_le : r.count ≤ cap
  writePos_eq : r.writePos = (r.readPos + r.count) % cap

@[simp] theorem length_contents (r : RingBuffer α) : (r.contents cap).length = r.count := by
  simp [contents]

theorem contents_of_count_eq_zero {r : RingBuffer α} (h : r.count = 0) : r.contents cap = [] := by
  rw [contents, h]
  rfl

/-- Entries of a ring lie in different cells. -/
theorem add_mod_inj {p i j : ℕ} (hi : i < cap) (hj : j < cap) (h : (p + i) % cap = (p + j) % cap) :
    i = j := by
  have hij : i % cap = j % cap := Nat.ModEq.add_left_cancel' p h
  rwa [Nat.mod_eq_of_lt hi, Nat.mod_eq_of_lt hj] at hij

variable {r : RingBuffer α} (h : r.Ok cap)
include h

/-- **A pushed entry is the last one.** -/
theorem contents_push (hc : r.count < cap) (x : α) :
    (r.push cap x).contents cap = r.contents cap ++ [x] := by
  unfold contents push
  dsimp only
  rw [List.range_succ, List.map_append, List.map_singleton, h.writePos_eq, Function.update_self]
  congr 1
  apply List.map_congr_left
  intro i hi
  have hic : i < r.count := List.mem_range.mp hi
  apply Function.update_of_ne
  intro he
  exact absurd (add_mod_inj (hic.trans hc) hc he) hic.ne

/-- **The popped entry is the first one.** -/
theorem contents_pop (hc : 0 < r.count) :
    r.contents cap = r.buf r.readPos :: (r.pop cap).contents cap := by
  unfold contents pop
  dsimp only
  obtain ⟨n, hn⟩ := Nat.exists_eq_succ_of_ne_zero hc.ne'
  rw [hn, List.range_succ_eq_map, List.map_cons, List.map_map, Nat.add_zero,
    Nat.mod_eq_of_lt h.readPos_lt, Nat.succ_sub_one]
  congr 1
  apply List.map_congr_left
  intro i _
  simp only [Function.comp_apply, Nat.mod_add_mod, Nat.succ_eq_add_one]
  rw [Nat.add_assoc, Nat.add_comm 1 i]

theorem Ok.push (hc : r.count < cap) (x : α) : (r.push cap x).Ok cap where
  readPos_lt := h.readPos_lt
  count_le := hc
  writePos_eq := by
    change (r.writePos + 1) % cap = (r.readPos + (r.count + 1)) % cap
    rw [h.writePos_eq, Nat.mod_add_mod, Nat.add_assoc]

theorem Ok.pop (hc : 0 < r.count) : (r.pop cap).Ok cap where
  readPos_lt := Nat.mod_lt _ (Nat.zero_lt_of_lt h.readPos_lt)
  count_le := (Nat.sub_le _ _).trans h.count_le
  writePos_eq := by
    change r.writePos = ((r.readPos + 1) % cap + (r.count - 1)) % cap
    rw [h.writePos_eq, Nat.mod_add_mod, Nat.add_assoc, Nat.add_sub_cancel' hc]

end RingBuffer

/-! ## Rings without a count

Where the positions alone say how many entries there are, equal positions mean none, and a ring of
`cap` cells holds fewer than `cap` entries. -/

namespace RingBuffer

variable {α : Type} {cap r w : ℕ} {buf : ℕ → α}

/-- The ring whose entries lie from position `r` up to position `w`. -/
def between (cap : ℕ) (buf : ℕ → α) (r w : ℕ) : RingBuffer α where
  buf := buf
  readPos := r
  writePos := w
  count := if r ≤ w then w - r else w + cap - r

/-- The position behind another one. -/
theorem succ_mod (h : w < cap) : (w + 1) % cap = if w + 1 = cap then 0 else w + 1 := by
  split
  · next hw => rw [hw, Nat.mod_self]
  · next hw => exact Nat.mod_eq_of_lt (by omega)

theorem count_between_eq_zero_iff (hr : r < cap) :
    (between cap buf r w).count = 0 ↔ r = w := by
  simp only [between]
  split_ifs <;> omega

variable (hr : r < cap) (hw : w < cap)
include hr hw

theorem count_between_lt : (between cap buf r w).count < cap := by
  simp only [between]
  split_ifs <;> omega

/-- The position to write next is followed by that to read next exactly when the ring is full. -/
theorem succ_mod_eq_iff : (w + 1) % cap = r ↔ (between cap buf r w).count + 1 = cap := by
  rw [succ_mod hw]
  simp only [between]
  split_ifs <;> omega

theorem ok_between : (between cap buf r w).Ok cap where
  readPos_lt := hr
  count_le := (count_between_lt hr hw).le
  writePos_eq := by
    simp only [between]
    split_ifs with h
    · rw [Nat.add_sub_cancel' h, Nat.mod_eq_of_lt hw]
    · rw [Nat.add_sub_cancel' (by omega), Nat.add_mod_right, Nat.mod_eq_of_lt hw]

/-- **A pushed entry moves the second position.** -/
theorem push_between (hc : (between cap buf r w).count + 1 < cap) (x : α) :
    (between cap buf r w).push cap x =
      between cap (Function.update buf w x) r ((w + 1) % cap) := by
  simp only [between] at hc
  simp only [push, between, RingBuffer.mk.injEq, true_and, succ_mod hw]
  split_ifs at hc ⊢ <;> omega

/-- **A popped entry moves the first position.** -/
theorem pop_between (hc : 0 < (between cap buf r w).count) :
    (between cap buf r w).pop cap = between cap buf ((r + 1) % cap) w := by
  simp only [between] at hc
  simp only [pop, between, RingBuffer.mk.injEq, true_and, succ_mod hr]
  split_ifs at hc ⊢ <;> omega

end RingBuffer

section Bounded

variable {α : Type}

/-- A queue of at most `cap` entries takes as many of `xs` as fit: their number, and the queue. -/
def offer (cap : ℕ) (q xs : List α) : ℕ × List α :=
  (min xs.length (cap - q.length), q ++ xs.take (cap - q.length))

/-- A queue gives away at most `n` entries: these, and the queue. -/
def poll (q : List α) (n : ℕ) : List α × List α := (q.take n, q.drop n)

theorem offer_nil (cap : ℕ) (q : List α) : offer cap q [] = (0, q) := by
  simp [offer]

theorem offer_full {cap : ℕ} {q : List α} (h : cap ≤ q.length) (xs : List α) :
    offer cap q xs = (0, q) := by
  simp [offer, Nat.sub_eq_zero_of_le h]

/-- A queue with room takes the entries one by one. -/
theorem offer_cons {cap : ℕ} {q : List α} (h : q.length < cap) (x : α) (xs : List α) :
    offer cap q (x :: xs) = ((offer cap (q ++ [x]) xs).1 + 1, (offer cap (q ++ [x]) xs).2) := by
  obtain ⟨n, hn⟩ : ∃ n, cap - q.length = n + 1 := ⟨cap - q.length - 1, by omega⟩
  have hn' : cap - (q ++ [x]).length = n := by rw [List.length_append, List.length_singleton]; omega
  simp only [offer, hn, hn', List.length_cons, List.take_succ_cons, List.append_assoc,
    List.singleton_append]
  rw [Nat.add_min_add_right]

/-- A queue that holds the first `cap` entries goes on doing so. -/
theorem offer_take (cap : ℕ) (xs ys : List α) :
    (offer cap (xs.take cap) ys).2 = (xs ++ ys).take cap := by
  have hroom : cap - min cap xs.length = cap - xs.length := by omega
  rw [List.take_append, offer, List.length_take, hroom]

theorem poll_nil (n : ℕ) : poll ([] : List α) n = ([], []) := by simp [poll]

theorem poll_succ (x : α) (q : List α) (n : ℕ) :
    poll (x :: q) (n + 1) = (x :: (poll q n).1, (poll q n).2) := rfl

end Bounded

end Queue

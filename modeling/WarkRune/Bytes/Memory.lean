import Mathlib.Algebra.Group.Int.Defs
import Mathlib.Algebra.Group.Nat.Defs
import Mathlib.Data.Nat.Basic
import Mathlib.Logic.Function.Basic

/-!
# A memory of bytes with 32-bit addresses

A machine word is four bytes, the low one first. An address is a number modulo `2 ^ 32`: an access
across the end of the address space continues at address 0. A store changes the bytes of its range
and no others, and a load depends on the bytes of its range only; what ranges that do not meet
have to do with each other follows from these two.

## Main definitions

* `Memory`: the byte at every address
* `load8`, `load16`, `load32`, `store8`, `store32`, `storeBytes`: the accesses
* `SameOn m m' a n`: two memories have the same bytes from `a` on, `n` of them

## Main results

* `load32_inj`: a word determines its bytes
* `load32_store32`, `load8_store8`, `load8_storeBytes`: a load after a store to the same address
* `SameOn.load32`, `SameOn.load16`, `SameOn.load8`: what a load depends on
* `sameOn_store32`, `sameOn_store8`, `sameOn_storeBytes`: what a store leaves
-/

namespace Bytes

open Function (update)

/-- The bytes at the addresses below `2 ^ 32`. -/
abbrev Memory := ℕ → BitVec 8

namespace Memory

variable (m : Memory) (a v : ℕ)

def load8 : ℕ := (m (a % 2 ^ 32)).toNat

def load16 : ℕ := m.load8 a + 2 ^ 8 * m.load8 (a + 1)

def load32 : ℕ :=
  m.load8 a + 2 ^ 8 * m.load8 (a + 1) + 2 ^ 16 * m.load8 (a + 2) + 2 ^ 24 * m.load8 (a + 3)

def store8 : Memory := update m (a % 2 ^ 32) (BitVec.ofNat 8 v)

def store32 : Memory :=
  (((m.store8 a v).store8 (a + 1) (v / 2 ^ 8)).store8 (a + 2) (v / 2 ^ 16)).store8 (a + 3)
    (v / 2 ^ 24)

/-- The bytes stored from `a` on. -/
def storeBytes : Memory → ℕ → List (BitVec 8) → Memory
  | m, _, [] => m
  | m, a, b :: bs => storeBytes (m.store8 a b.toNat) (a + 1) bs

/-- The memories have the same bytes from `a` on, `n` of them. -/
def SameOn (m m' : Memory) (a n : ℕ) : Prop := ∀ b, a ≤ b → b < a + n → m' b = m b

variable {m a v} {m' m'' : Memory} {b n k : ℕ}

theorem load8_lt : m.load8 a < 2 ^ 8 := BitVec.isLt _

theorem load32_lt : m.load32 a < 2 ^ 32 := by
  have h₀ := @load8_lt m a
  have h₁ := @load8_lt m (a + 1)
  have h₂ := @load8_lt m (a + 2)
  have h₃ := @load8_lt m (a + 3)
  unfold load32
  omega

/-- A word determines its bytes. -/
theorem load32_inj {m' : Memory} {b : ℕ} :
    m.load32 a = m'.load32 b ↔ m.load8 a = m'.load8 b ∧ m.load8 (a + 1) = m'.load8 (b + 1) ∧
      m.load8 (a + 2) = m'.load8 (b + 2) ∧ m.load8 (a + 3) = m'.load8 (b + 3) := by
  have h₀ := @load8_lt m a
  have h₁ := @load8_lt m (a + 1)
  have h₂ := @load8_lt m (a + 2)
  have h₀' := @load8_lt m' b
  have h₁' := @load8_lt m' (b + 1)
  have h₂' := @load8_lt m' (b + 2)
  unfold load32
  omega

/-! ## Bytes that stay -/

theorem sameOn_refl : SameOn m m a n := fun _ _ _ => rfl

theorem SameOn.trans (h : SameOn m m' a n) (h' : SameOn m' m'' a n) : SameOn m m'' a n :=
  fun b hab hbn => (h' b hab hbn).trans (h b hab hbn)

theorem SameOn.mono (h : SameOn m m' a n) (hab : a ≤ b) (hbn : b + k ≤ a + n) :
    SameOn m m' b k :=
  fun c hbc hck => h c (Nat.le_trans hab hbc) (Nat.lt_of_lt_of_le hck hbn)

theorem SameOn.load8 (h : SameOn m m' a 1) (ha : a < 2 ^ 32) : m'.load8 a = m.load8 a := by
  unfold Memory.load8
  rw [Nat.mod_eq_of_lt ha, h a (Nat.le_refl _) (Nat.lt_succ_self _)]

theorem SameOn.load32 (h : SameOn m m' a 4) (ha : a + 4 ≤ 2 ^ 32) :
    m'.load32 a = m.load32 a := by
  unfold Memory.load32
  rw [(h.mono (by omega) (by omega) : SameOn m m' a 1).load8 (by omega),
    (h.mono (by omega) (by omega) : SameOn m m' (a + 1) 1).load8 (by omega),
    (h.mono (by omega) (by omega) : SameOn m m' (a + 2) 1).load8 (by omega),
    (h.mono (by omega) (by omega) : SameOn m m' (a + 3) 1).load8 (by omega)]

theorem SameOn.load16 (h : SameOn m m' a 2) (ha : a + 2 ≤ 2 ^ 32) :
    m'.load16 a = m.load16 a := by
  unfold Memory.load16
  rw [(h.mono (by omega) (by omega) : SameOn m m' a 1).load8 (by omega),
    (h.mono (by omega) (by omega) : SameOn m m' (a + 1) 1).load8 (by omega)]

/-! ## Stores -/

/-- A store at an address that wraps. -/
theorem sameOn_store8_mod (hout : a % 2 ^ 32 + 1 ≤ b ∨ b + n ≤ a % 2 ^ 32) :
    SameOn m (m.store8 a v) b n := by
  intro c hbc hcn
  unfold store8
  rw [Function.update_of_ne (by omega)]

theorem sameOn_store8 (ha : a < 2 ^ 32) (hout : a + 1 ≤ b ∨ b + n ≤ a) :
    SameOn m (m.store8 a v) b n := by
  apply sameOn_store8_mod
  rwa [Nat.mod_eq_of_lt ha]

theorem sameOn_store32 (ha : a + 4 ≤ 2 ^ 32) (hout : a + 4 ≤ b ∨ b + n ≤ a) :
    SameOn m (m.store32 a v) b n :=
  have h {m : Memory} {w i : ℕ} (hi : i < 4) : SameOn m (m.store8 (a + i) w) b n :=
    sameOn_store8 (by omega) (by omega)
  ((h (i := 0) (by decide)).trans (h (i := 1) (by decide))).trans
    ((h (i := 2) (by decide)).trans (h (i := 3) (by decide)))

theorem sameOn_storeBytes {bs : List (BitVec 8)} (ha : a + bs.length ≤ 2 ^ 32)
    (hout : a + bs.length ≤ b ∨ b + n ≤ a) : SameOn m (m.storeBytes a bs) b n := by
  induction bs generalizing m a with
  | nil => exact sameOn_refl
  | cons x bs ih =>
    rw [List.length_cons] at ha hout
    exact (sameOn_store8 (by omega) (by omega)).trans (ih (by omega) (by omega))

/-- Bytes stored behind one another. -/
theorem storeBytes_append (bs cs : List (BitVec 8)) :
    m.storeBytes a (bs ++ cs) = (m.storeBytes a bs).storeBytes (a + bs.length) cs := by
  induction bs generalizing m a with
  | nil => rfl
  | cons b bs ih =>
    rw [List.cons_append, storeBytes, storeBytes, ih, List.length_cons]
    congr 1
    omega

theorem load8_store8 : (m.store8 a v).load8 a = v % 2 ^ 8 := by
  unfold load8 store8
  rw [Function.update_self, BitVec.toNat_ofNat]

theorem load8_store8_of_ne (ha : a < 2 ^ 32) (hb : b < 2 ^ 32) (h : a ≠ b) :
    (m.store8 a v).load8 b = m.load8 b :=
  (sameOn_store8 ha (by omega)).load8 hb

/-- A load of a stored byte. -/
theorem load8_storeBytes {bs : List (BitVec 8)} {i : ℕ} (ha : a + bs.length ≤ 2 ^ 32)
    (hi : i < bs.length) : (m.storeBytes a bs).load8 (a + i) = bs[i].toNat := by
  induction bs generalizing m a i with
  | nil => cases hi
  | cons x bs ih =>
    rw [List.length_cons] at ha hi
    rw [storeBytes]
    cases i with
    | zero =>
      have hsame : SameOn (m.store8 a x.toNat) ((m.store8 a x.toNat).storeBytes (a + 1) bs) a 1 :=
        sameOn_storeBytes (by omega) (by omega)
      change ((m.store8 a x.toNat).storeBytes (a + 1) bs).load8 a = x.toNat
      rw [hsame.load8 (by omega), load8_store8]
      exact Nat.mod_eq_of_lt x.isLt
    | succ i =>
      have hadd : a + (i + 1) = a + 1 + i := by omega
      rw [hadd, ih (by omega) (by omega), List.getElem_cons_succ]

theorem load32_store32 (ha : a + 4 ≤ 2 ^ 32) : (m.store32 a v).load32 a = v % 2 ^ 32 := by
  -- each byte is the one stored last at its address
  have h₀ : (m.store32 a v).load8 a = v % 2 ^ 8 := by
    unfold store32
    rw [load8_store8_of_ne (by omega) (by omega) (by omega),
      load8_store8_of_ne (by omega) (by omega) (by omega),
      load8_store8_of_ne (by omega) (by omega) (by omega), load8_store8]
  have h₁ : (m.store32 a v).load8 (a + 1) = v / 2 ^ 8 % 2 ^ 8 := by
    unfold store32
    rw [load8_store8_of_ne (by omega) (by omega) (by omega),
      load8_store8_of_ne (by omega) (by omega) (by omega), load8_store8]
  have h₂ : (m.store32 a v).load8 (a + 2) = v / 2 ^ 16 % 2 ^ 8 := by
    unfold store32
    rw [load8_store8_of_ne (by omega) (by omega) (by omega), load8_store8]
  have h₃ : (m.store32 a v).load8 (a + 3) = v / 2 ^ 24 % 2 ^ 8 := load8_store8
  unfold load32
  rw [h₀, h₁, h₂, h₃]
  omega

end Memory

end Bytes

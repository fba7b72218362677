import Mathlib.Data.List.Induction
import WarkRune.Bytes.Memory
import WarkRune.Machine.Run

/-!
# The stack of an entry to ring 0

An interrupt in ring 3 goes on with the stack that the TSS names, and the processor finds the TSS
through its descriptor, where `gdt_set_tss_base` scatters the address over three places. `elf_exec`
and the scheduler set the stack with `tss_set_esp0`.

## Main definitions

* `gdtSetTssBase`, `tssInit`, `tssSetEsp0`: the functions on the descriptor and the TSS
* `entryStack`: what the processor reads at an entry to ring 0

## Main results

* `entryStack_last`: after `tss_init` and any calls of `tss_set_esp0` the processor takes the stack
  that was set last
-/

namespace WarkRune.Sched

open Bytes (Memory)
open Bytes.Memory (SameOn)

section Tss

/-- `gdt_set_tss_base`, with the descriptor at `gdtTss`. -/
def gdtSetTssBase (gdtTss : ℕ) (base : BitVec 32) (m : Memory) : Memory :=
  let m := m.storeBytes (gdtTss + 2) [base.setWidth 8, (base >>> 8).setWidth 8]
  let m := m.storeBytes (gdtTss + 4) [(base >>> 16).setWidth 8]
  m.storeBytes (gdtTss + 7) [(base >>> 16 >>> 8).setWidth 8]

/-- `tss_set_esp0`, with the TSS at `tss`. -/
def tssSetEsp0 (tss : ℕ) (m : Memory) (esp0 : BitVec 32) : Memory := m.store32 (tss + 4) esp0.toNat

/-- `tss_init`. -/
def tssInit (gdtTss : ℕ) (tss : BitVec 32) (m : Memory) : Memory :=
  let m := m.storeBytes tss.toNat (List.replicate 104 0)
  let m := m.store32 (tss.toNat + 8) 0x10
  let m := tssSetEsp0 tss.toNat m 0x9FFFC
  let m := m.storeBytes (tss.toNat + 102) [104, 0]
  gdtSetTssBase gdtTss tss m

/-- The base in the descriptor. -/
def tssBase (gdtTss : ℕ) (m : Memory) : ℕ :=
  m.load16 (gdtTss + 2) + 2 ^ 16 * m.load8 (gdtTss + 4) + 2 ^ 24 * m.load8 (gdtTss + 7)

/-- The segment and the stack pointer that the processor takes at an entry to ring 0. -/
def entryStack (gdtTss : ℕ) (m : Memory) : ℕ × ℕ :=
  (m.load32 (tssBase gdtTss m + 8), m.load32 (tssBase gdtTss m + 4))

variable {gdtTss : ℕ} {tss : BitVec 32} {m m' : Memory}

/-- The descriptor and the TSS lie in the memory and do not meet. -/
structure TssPlaced (gdtTss : ℕ) (tss : BitVec 32) : Prop where
  gdt : gdtTss + 8 ≤ 2 ^ 32
  inside : tss.toNat + 104 ≤ 2 ^ 32
  apart : gdtTss + 8 ≤ tss.toNat ∨ tss.toNat + 104 ≤ gdtTss

/-- What the processor reads is in the descriptor and in the first words of the TSS. -/
structure TssHolds (gdtTss : ℕ) (tss : BitVec 32) (esp0 : BitVec 32) (m : Memory) : Prop where
  base : tssBase gdtTss m = tss.toNat
  ss0 : m.load32 (tss.toNat + 8) = 0x10
  esp0 : m.load32 (tss.toNat + 4) = esp0.toNat

theorem TssHolds.entryStack {esp0 : BitVec 32} (h : TssHolds gdtTss tss esp0 m) :
    entryStack gdtTss m = (0x10, esp0.toNat) := by
  unfold Sched.entryStack
  rw [h.base, h.ss0, h.esp0]

theorem tssBase_congr (h : SameOn m m' gdtTss 8) (hgdt : gdtTss + 8 ≤ 2 ^ 32) :
    tssBase gdtTss m' = tssBase gdtTss m := by
  have hlow : SameOn m m' (gdtTss + 2) 2 := h.mono (by omega) (by omega)
  have hmid : SameOn m m' (gdtTss + 4) 1 := h.mono (by omega) (by omega)
  have hhigh : SameOn m m' (gdtTss + 7) 1 := h.mono (by omega) (by omega)
  unfold tssBase
  rw [hlow.load16 (by omega), hmid.load8 (by omega), hhigh.load8 (by omega)]

/-- **The address comes back from the descriptor.** -/
theorem tssBase_set (hgdt : gdtTss + 8 ≤ 2 ^ 32) (base : BitVec 32) (m : Memory) :
    tssBase gdtTss (gdtSetTssBase gdtTss base m) = base.toNat := by
  unfold gdtSetTssBase tssBase
  dsimp only
  generalize hm₁ : m.storeBytes (gdtTss + 2) [base.setWidth 8, (base >>> 8).setWidth 8] = m₁
  generalize hm₂ : m₁.storeBytes (gdtTss + 4) [(base >>> 16).setWidth 8] = m₂
  generalize hm₃ : m₂.storeBytes (gdtTss + 7) [(base >>> 16 >>> 8).setWidth 8] = m₃
  have hsame₂ : SameOn m₁ m₂ (gdtTss + 2) 2 := by
    rw [← hm₂]
    exact Bytes.Memory.sameOn_storeBytes (Nat.le_trans (by simp) hgdt) (.inr (by omega))
  have hsame₃ : SameOn m₂ m₃ (gdtTss + 2) 3 := by
    rw [← hm₃]
    exact Bytes.Memory.sameOn_storeBytes (Nat.le_trans (by simp) hgdt) (.inr (by omega))
  have h0 : m₁.load8 (gdtTss + 2) = (base.setWidth 8).toNat := by
    rw [← hm₁]
    exact Bytes.Memory.load8_storeBytes (i := 0) (Nat.le_trans (by simp) hgdt) (by simp)
  have h1 : m₁.load8 (gdtTss + 2 + 1) = ((base >>> 8).setWidth 8).toNat := by
    rw [← hm₁]
    exact Bytes.Memory.load8_storeBytes (i := 1) (Nat.le_trans (by simp) hgdt) (by simp)
  have h2 : m₂.load8 (gdtTss + 4) = ((base >>> 16).setWidth 8).toNat := by
    rw [← hm₂]
    exact Bytes.Memory.load8_storeBytes (i := 0) (Nat.le_trans (by simp) hgdt) (by simp)
  have h3 : m₃.load8 (gdtTss + 7) = ((base >>> 16 >>> 8).setWidth 8).toNat := by
    rw [← hm₃]
    exact Bytes.Memory.load8_storeBytes (i := 0) hgdt (by simp)
  have hlow : SameOn m₁ m₃ (gdtTss + 2) 2 := hsame₂.trans (hsame₃.mono (by omega) (by omega))
  have hmid : SameOn m₂ m₃ (gdtTss + 4) 1 := hsame₃.mono (by omega) (by omega)
  rw [hlow.load16 (by omega), hmid.load8 (by omega), Bytes.Memory.load16, h0, h1, h2, h3]
  simp only [BitVec.toNat_setWidth, BitVec.toNat_ushiftRight, Nat.shiftRight_eq_div_pow]
  have hlt := base.isLt
  omega

/-- The descriptor is stored in its own bytes. -/
theorem sameOn_gdtSetTssBase (hgdt : gdtTss + 8 ≤ 2 ^ 32) (base : BitVec 32) {b n : ℕ}
    (hout : gdtTss + 8 ≤ b ∨ b + n ≤ gdtTss) : SameOn m (gdtSetTssBase gdtTss base m) b n := by
  unfold gdtSetTssBase
  refine (Bytes.Memory.sameOn_storeBytes ?_ ?_).trans
    ((Bytes.Memory.sameOn_storeBytes ?_ ?_).trans (Bytes.Memory.sameOn_storeBytes ?_ ?_)) <;>
  simp only [List.length_cons, List.length_nil] <;> omega

/-- **A call of `tss_set_esp0`** changes the stack pointer only. -/
theorem TssHolds.set (hplaced : TssPlaced gdtTss tss) {esp0 : BitVec 32}
    (h : TssHolds gdtTss tss esp0 m) (new : BitVec 32) :
    TssHolds gdtTss tss new (tssSetEsp0 tss.toNat m new) := by
  obtain ⟨hgdt, htss, hapart⟩ := hplaced
  have hsame : SameOn m (tssSetEsp0 tss.toNat m new) gdtTss 8 :=
    Bytes.Memory.sameOn_store32 (by omega) (by omega)
  have hss : SameOn m (tssSetEsp0 tss.toNat m new) (tss.toNat + 8) 4 :=
    Bytes.Memory.sameOn_store32 (by omega) (by omega)
  refine ⟨(tssBase_congr hsame hgdt).trans h.base, (hss.load32 (by omega)).trans h.ss0, ?_⟩
  exact (Bytes.Memory.load32_store32 (by omega)).trans (Nat.mod_eq_of_lt new.isLt)

theorem tssHolds_init (hplaced : TssPlaced gdtTss tss) (m : Memory) :
    TssHolds gdtTss tss 0x9FFFC (tssInit gdtTss tss m) := by
  obtain ⟨hgdt, htss, hapart⟩ := hplaced
  unfold tssInit
  generalize m.storeBytes tss.toNat (List.replicate 104 0) = m₁
  -- the words of the stack are stored, and nothing is stored over them
  have hlast : ∀ (m : Memory) (b : ℕ), b + 4 ≤ tss.toNat + 102 → tss.toNat ≤ b →
      (gdtSetTssBase gdtTss tss (m.storeBytes (tss.toNat + 102) [104, 0])).load32 b =
        m.load32 b := by
    intro m b hb hb'
    have hiomap : SameOn m (m.storeBytes (tss.toNat + 102) [104, 0]) b 4 :=
      Bytes.Memory.sameOn_storeBytes htss (.inr hb)
    exact (hiomap.trans (sameOn_gdtSetTssBase hgdt tss (by omega))).load32 (by omega)
  refine ⟨tssBase_set hgdt tss _, ?_, ?_⟩
  · have hesp : SameOn (m₁.store32 (tss.toNat + 8) 0x10)
        (tssSetEsp0 tss.toNat (m₁.store32 (tss.toNat + 8) 0x10) 0x9FFFC) (tss.toNat + 8) 4 :=
      Bytes.Memory.sameOn_store32 (by omega) (by omega)
    rw [hlast _ _ (by omega) (by omega), hesp.load32 (by omega)]
    exact Bytes.Memory.load32_store32 (by omega)
  · rw [hlast _ _ (by omega) (by omega)]
    exact Bytes.Memory.load32_store32 (by omega)

/-- **The processor takes the stack that was set last**, after `tss_init` and every sequence of calls
of `tss_set_esp0`. -/
theorem entryStack_last (hplaced : TssPlaced gdtTss tss) (m : Memory) (es : List (BitVec 32)) :
    entryStack gdtTss (Machine.after (tssSetEsp0 tss.toNat) (tssInit gdtTss tss m) es) =
      (0x10, (es.getLast?.getD 0x9FFFC).toNat) := by
  suffices h : TssHolds gdtTss tss (es.getLast?.getD 0x9FFFC)
      (Machine.after (tssSetEsp0 tss.toNat) (tssInit gdtTss tss m) es) from h.entryStack
  induction es using List.reverseRecOn with
  | nil => exact tssHolds_init hplaced m
  | append_singleton es e ih =>
    rw [Machine.after_concat, List.getLast?_concat]
    exact ih.set hplaced e

/-- Two stacks, one after the other. -/
theorem entryStack_last_two :
    entryStack 0x10028 (Machine.after (tssSetEsp0 0x11000) (tssInit 0x10028 0x11000 fun _ => 0)
      [0x20000, 0x24000]) = (0x10, 0x24000) :=
  entryStack_last ⟨by decide, by decide, by decide⟩ _ [0x20000, 0x24000]

end Tss

end WarkRune.Sched

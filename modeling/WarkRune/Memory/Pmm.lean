import WarkRune.Machine.Run
import WarkRune.Memory.Map
import Mathlib.Logic.Function.Basic

/-!
# The physical frame allocator

`pmm_init` puts a bitmap at the start of the region it picks, one bit a frame, and reserves the
frames of the bitmap and 128 more for the kernel heap. `pmm_alloc` hands out the first frame whose
bit is clear, `pmm_free` clears the bit of the frame an address lies in.

Addresses and counters are `uint32_t`: numbers here, reduced modulo `2 ^ 32` where the C code can
wrap. The bitmap is the words at its addresses.

## Main definitions

* `Pmm`: the static variables of the allocator and the words of the bitmap
* `pmmInit`, `pmmAlloc`, `pmmFree`: the operations
* `Pmm.frameAddr`, `Pmm.frameOf`: the address of a frame, and the frame of an address
* `Pmm.step`: the operations as a machine

## Main results

* `pmmInit_tst`: `pmm_init` leaves the allocatable frames clear
* `pmmAlloc_cases`, `pmmFree_cases`: what the operations can do
-/

namespace WarkRune.Memory

open Function (update)

/-- `KMALLOC_RESERVED_PAGES`. -/
def kmallocReservedPages : ℕ := 128

/-- The static variables of the allocator and the words of the bitmap. -/
structure Pmm where
  bitmap : ℕ
  total : ℕ
  used : ℕ
  bmapSkip : ℕ
  words : ℕ → BitVec 32

namespace Pmm

/-- `set`. -/
def set (s : Pmm) (f : ℕ) : Pmm :=
  { s with words := update s.words (f / 32) (s.words (f / 32) ||| 1#32 <<< (f % 32)) }

/-- `clr`. -/
def clr (s : Pmm) (f : ℕ) : Pmm :=
  { s with words := update s.words (f / 32) (s.words (f / 32) &&& ~~~(1#32 <<< (f % 32))) }

/-- `tst`. -/
def tst (s : Pmm) (f : ℕ) : Bool := s.words (f / 32) >>> (f % 32) &&& 1#32 ≠ 0#32

/-- The address `pmm_alloc` returns for a frame. -/
def frameAddr (s : Pmm) (f : ℕ) : ℕ := (s.bitmap + f * pageSize) % 2 ^ 32

/-- The frame `pmm_free` computes from an address. -/
def frameOf (s : Pmm) (addr : ℕ) : ℕ := (addr + 2 ^ 32 - s.bitmap) % 2 ^ 32 / pageSize

/-- A frame `pmm_alloc` looks at. -/
def Allocatable (s : Pmm) (f : ℕ) : Prop := s.bmapSkip ≤ f ∧ f < s.total

instance (s : Pmm) (f : ℕ) : Decidable (s.Allocatable f) := inferInstanceAs (Decidable (_ ∧ _))

end Pmm

/-- `pmm_init`. Nothing changes when the map has no usable region at or above 1 MB. -/
def pmmInit (map : List E820Entry) (s : Pmm) : Pmm :=
  let (bestBase, bestLen) := bestRegion map
  if bestBase = 0 ∨ bestLen = 0 then s
  else
    let total := bestLen / pageSize % 2 ^ 32
    let bmapWords := (total + 31) % 2 ^ 32 / 32
    let bmapSkip := (bmapWords * 4 + pageSize - 1) / pageSize + kmallocReservedPages
    let words := fun i => if i < bmapWords then 0xFFFFFFFF#32 else s.words i
    -- the loop of `clr` over the allocatable frames
    (List.range' bmapSkip (total - bmapSkip)).foldl Pmm.clr
      { bitmap := bestBase % 2 ^ 32, total, used := bmapSkip, bmapSkip, words }

/-- `pmm_alloc`: the address of the first frame whose bit is clear, null when there is none. -/
def pmmAlloc (s : Pmm) : ℕ × Pmm :=
  match (List.range' s.bmapSkip (s.total - s.bmapSkip)).find? fun f => !s.tst f with
  | some f => (s.frameAddr f, { s.set f with used := (s.used + 1) % 2 ^ 32 })
  | none => (0, s)

/-- `pmm_free`; its argument is a 32-bit pointer. -/
def pmmFree (addr : ℕ) (s : Pmm) : Pmm :=
  if addr = 0 then s
  else
    let frame := s.frameOf addr
    if frame < s.bmapSkip ∨ frame ≥ s.total then s
    else if !s.tst frame then s
    else { s.clr frame with used := (s.used + 2 ^ 32 - 1) % 2 ^ 32 }

/-- A call of the allocator after `pmm_init`. -/
inductive PmmCall
  | alloc
  | free (addr : BitVec 32)

/-- The allocator as a machine. -/
def Pmm.step (s : Pmm) : PmmCall → Pmm
  | .alloc => (pmmAlloc s).2
  | .free addr => pmmFree addr.toNat s

/-! ## Bits -/

namespace Pmm

variable (s : Pmm) (f g : ℕ)

theorem tst_eq : s.tst f = (s.words (f / 32)).getLsbD (f % 32) := by
  unfold tst
  rw [BitVec.and_one_eq_setWidth_ofBool_getLsbD, BitVec.getLsbD_ushiftRight, Nat.add_zero]
  cases (s.words (f / 32)).getLsbD (f % 32) <;> decide

@[simp] theorem tst_set : (s.set f).tst g = (decide (g = f) || s.tst g) := by
  simp only [tst_eq, set]
  by_cases hw : g / 32 = f / 32
  · rw [hw, Function.update_self, BitVec.getLsbD_or, Bool.or_comm, ← hw]
    congr 1
    rw [BitVec.getLsbD_shiftLeft, BitVec.getLsbD_one]
    by_cases hg : g = f
    · subst hg
      simp [Nat.mod_lt]
    · simp [Nat.mod_lt, hg]
      omega
  · have hg : g ≠ f := by
      rintro rfl
      exact hw rfl
    rw [Function.update_of_ne hw]
    simp [hg]

@[simp] theorem tst_clr : (s.clr f).tst g = (decide (g ≠ f) && s.tst g) := by
  simp only [tst_eq, clr]
  by_cases hw : g / 32 = f / 32
  · rw [hw, Function.update_self, BitVec.getLsbD_and, Bool.and_comm, ← hw]
    congr 1
    rw [BitVec.getLsbD_not, BitVec.getLsbD_shiftLeft, BitVec.getLsbD_one]
    by_cases hg : g = f
    · subst hg
      simp [Nat.mod_lt]
    · simp [Nat.mod_lt, hg]
      omega
  · have hg : g ≠ f := by
      rintro rfl
      exact hw rfl
    rw [Function.update_of_ne hw]
    simp [hg]

@[simp] theorem set_bitmap : (s.set f).bitmap = s.bitmap := rfl

@[simp] theorem set_total : (s.set f).total = s.total := rfl

@[simp] theorem set_bmapSkip : (s.set f).bmapSkip = s.bmapSkip := rfl

@[simp] theorem clr_bitmap : (s.clr f).bitmap = s.bitmap := rfl

@[simp] theorem clr_total : (s.clr f).total = s.total := rfl

@[simp] theorem clr_used : (s.clr f).used = s.used := rfl

@[simp] theorem clr_bmapSkip : (s.clr f).bmapSkip = s.bmapSkip := rfl

theorem tst_used (s : Pmm) (n f : ℕ) : ({ s with used := n } : Pmm).tst f = s.tst f := rfl

/-- Clearing a bit that is set changes the state. -/
theorem clr_ne {s : Pmm} {f : ℕ} (h : s.tst f = true) (n : ℕ) : { s.clr f with used := n } ≠ s := by
  intro heq
  have hclear : ({ s.clr f with used := n } : Pmm).tst f = false := by
    rw [tst_used, tst_clr, decide_eq_false (not_not_intro rfl), Bool.false_and]
  rw [heq, h] at hclear
  cases hclear

/-- Clearing bits one after the other. -/
theorem foldl_clr (s : Pmm) (fs : List ℕ) :
    (fs.foldl clr s).bitmap = s.bitmap ∧ (fs.foldl clr s).total = s.total ∧
      (fs.foldl clr s).used = s.used ∧ (fs.foldl clr s).bmapSkip = s.bmapSkip ∧
      ∀ g, (fs.foldl clr s).tst g = (decide (g ∉ fs) && s.tst g) := by
  induction fs generalizing s with
  | nil => simp
  | cons f fs ih =>
    obtain ⟨hb, ht, hu, hk, hg⟩ := ih (s.clr f)
    refine ⟨hb, ht, hu, hk, fun g => ?_⟩
    rw [List.foldl_cons, hg, tst_clr]
    simp only [List.mem_cons, not_or, Bool.decide_and]
    rw [← Bool.and_assoc, Bool.and_comm (decide (g ∉ fs))]

/-! ## Frames -/

/-- The frames of the allocator are where they were. -/
def SameFrames (t : Pmm) : Prop :=
  t.bitmap = s.bitmap ∧ t.total = s.total ∧ t.bmapSkip = s.bmapSkip

theorem sameFrames_refl : s.SameFrames s := ⟨rfl, rfl, rfl⟩

variable {s f g}

theorem SameFrames.frameAddr {t : Pmm} (h : s.SameFrames t) (f : ℕ) :
    t.frameAddr f = s.frameAddr f := by
  rw [Pmm.frameAddr, Pmm.frameAddr, h.1]

theorem SameFrames.allocatable {t : Pmm} (h : s.SameFrames t) (f : ℕ) :
    t.Allocatable f ↔ s.Allocatable f := by
  rw [Allocatable, Allocatable, h.2.1, h.2.2]

theorem SameFrames.trans {t u : Pmm} (h : s.SameFrames t) (h' : t.SameFrames u) :
    s.SameFrames u :=
  ⟨h'.1.trans h.1, h'.2.1.trans h.2.1, h'.2.2.trans h.2.2⟩

end Pmm

/-! ## What the operations can do -/

section Operations

variable {s : Pmm}

/-- **What `pmm_alloc` can do**: it marks the first clear frame and returns its address, or every
frame is marked and it returns null. -/
theorem pmmAlloc_cases (s : Pmm) :
    (∃ f, s.Allocatable f ∧ s.tst f = false ∧ (∀ g, s.Allocatable g → s.tst g = false → f ≤ g) ∧
      pmmAlloc s = (s.frameAddr f, { s.set f with used := (s.used + 1) % 2 ^ 32 })) ∨
    (∀ g, s.Allocatable g → s.tst g = true) ∧ pmmAlloc s = (0, s) := by
  unfold pmmAlloc
  cases hf : (List.range' s.bmapSkip (s.total - s.bmapSkip)).find? fun f => !s.tst f with
  | none =>
    refine .inr ⟨fun g hg => ?_, rfl⟩
    have hmem : g ∈ List.range' s.bmapSkip (s.total - s.bmapSkip) := by
      rw [List.mem_range'_1]
      have := hg.1
      have := hg.2
      omega
    simpa using List.find?_eq_none.mp hf g hmem
  | some f =>
    left
    have hclear : s.tst f = false := by simpa using List.find?_some hf
    have hmem := List.mem_of_find?_eq_some hf
    rw [List.mem_range'_1] at hmem
    refine ⟨f, ⟨hmem.1, by omega⟩, hclear, fun g hg hgc => ?_, rfl⟩
    by_contra hlt
    -- an earlier clear frame would have been found first
    obtain ⟨-, as, bs, hsplit, has⟩ := List.find?_eq_some_iff_append.mp hf
    have hsorted : (List.range' s.bmapSkip (s.total - s.bmapSkip)).Pairwise (· < ·) :=
      List.pairwise_lt_range'
    have hgmem : g ∈ List.range' s.bmapSkip (s.total - s.bmapSkip) := by
      rw [List.mem_range'_1]
      have := hg.1
      have := hg.2
      omega
    rw [hsplit] at hsorted hgmem
    rcases List.mem_append.mp hgmem with hga | hgb
    · have := has g hga
      simp [hgc] at this
    · rcases List.mem_cons.mp hgb with rfl | hgb
      · omega
      · have := (List.pairwise_cons.mp (List.pairwise_append.mp hsorted).2.1).1 g hgb
        omega

/-- **What `pmm_free` can do**: it clears the frame of an address when that is an allocatable
frame that is marked, and nothing otherwise. -/
theorem pmmFree_cases (addr : ℕ) (s : Pmm) :
    (addr ≠ 0 ∧ s.Allocatable (s.frameOf addr) ∧ s.tst (s.frameOf addr) = true ∧
      pmmFree addr s =
        { s.clr (s.frameOf addr) with used := (s.used + 2 ^ 32 - 1) % 2 ^ 32 }) ∨
    (addr = 0 ∨ ¬ s.Allocatable (s.frameOf addr) ∨ s.tst (s.frameOf addr) = false) ∧
      pmmFree addr s = s := by
  unfold pmmFree
  by_cases h0 : addr = 0
  · exact .inr ⟨.inl h0, by rw [if_pos h0]⟩
  by_cases hr : s.frameOf addr < s.bmapSkip ∨ s.frameOf addr ≥ s.total
  · have hna : ¬ s.Allocatable (s.frameOf addr) := by
      rintro ⟨h₁, h₂⟩
      omega
    exact .inr ⟨.inr (.inl hna), by rw [if_neg h0, if_pos hr]⟩
  have ha : s.Allocatable (s.frameOf addr) := by
    rw [not_or] at hr
    exact ⟨by omega, by omega⟩
  cases ht : s.tst (s.frameOf addr) with
  | false => exact .inr ⟨.inr (.inr rfl), by rw [if_neg h0, if_neg hr, ht]; rfl⟩
  | true =>
    refine .inl ⟨h0, ha, rfl, ?_⟩
    rw [if_neg h0, if_neg hr, ht, Bool.not_true, if_neg Bool.false_ne_true]

/-- Every call leaves the frames where they are. -/
theorem Pmm.sameFrames_step (s : Pmm) (c : PmmCall) : s.SameFrames (s.step c) := by
  cases c with
  | alloc =>
    rcases pmmAlloc_cases s with ⟨f, -, -, -, h⟩ | ⟨-, h⟩ <;> rw [Pmm.step, h] <;>
      exact ⟨rfl, rfl, rfl⟩
  | free addr =>
    rcases pmmFree_cases addr.toNat s with ⟨-, -, -, h⟩ | ⟨-, h⟩ <;> rw [Pmm.step, h] <;>
      exact ⟨rfl, rfl, rfl⟩

theorem Pmm.sameFrames_after (s : Pmm) (cs : List PmmCall) :
    s.SameFrames (Machine.after Pmm.step s cs) :=
  Machine.invariant_of_forall (I := s.SameFrames) (fun _ c h => h.trans (sameFrames_step _ c))
    s.sameFrames_refl cs

/-- **`pmm_init` leaves every allocatable frame clear** when it finds a region. -/
theorem pmmInit_spec {map : List E820Entry} {base len : ℕ} (h : bestRegion map = (base, len))
    (hb : base ≠ 0) (hl : len ≠ 0) (s : Pmm) :
    (pmmInit map s).bitmap = base % 2 ^ 32 ∧ (pmmInit map s).total = len / pageSize % 2 ^ 32 ∧
      (pmmInit map s).bmapSkip =
        ((len / pageSize % 2 ^ 32 + 31) % 2 ^ 32 / 32 * 4 + pageSize - 1) / pageSize +
          kmallocReservedPages ∧
      (pmmInit map s).used = (pmmInit map s).bmapSkip ∧
      ∀ f, (pmmInit map s).Allocatable f → (pmmInit map s).tst f = false := by
  unfold pmmInit
  rw [h]
  dsimp only
  rw [if_neg (by rw [not_or]; exact ⟨hb, hl⟩)]
  set total := len / pageSize % 2 ^ 32
  set bmapWords := (total + 31) % 2 ^ 32 / 32
  set skip := (bmapWords * 4 + pageSize - 1) / pageSize + kmallocReservedPages
  set s₁ : Pmm := ⟨base % 2 ^ 32, total, skip, skip,
    fun i => if i < bmapWords then 0xFFFFFFFF#32 else s.words i⟩
  -- all bits are set first, then those of the frames on offer are cleared
  obtain ⟨hb', ht', hu', hk', hg'⟩ := Pmm.foldl_clr s₁ (List.range' skip (total - skip))
  refine ⟨hb', ht', hk', hu'.trans hk'.symm, fun f hf => ?_⟩
  rw [Pmm.Allocatable, hk', ht'] at hf
  have h₁ : skip ≤ f := hf.1
  have h₂ : f < total := hf.2
  have hmem : f ∈ List.range' skip (total - skip) := by
    rw [List.mem_range'_1]
    omega
  rw [hg']
  simp [hmem]

/-- `pmm_init` does nothing when it finds no region. -/
theorem pmmInit_none {map : List E820Entry} (h : bestRegion map = (0, 0)) (s : Pmm) :
    pmmInit map s = s := by
  unfold pmmInit
  rw [h]
  rfl

end Operations

end WarkRune.Memory

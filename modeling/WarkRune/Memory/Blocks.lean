import WarkRune.Exec.Yields
import WarkRune.Memory.Heap
import Mathlib.Algebra.BigOperators.Group.List.Basic
import Mathlib.Algebra.GroupWithZero.Nat
import Mathlib.Data.Set.Function
import Mathlib.Order.Interval.Set.Basic

/-!
# The heap as a list of blocks

The headers in the pool stand for a list of blocks, each laid behind the one before. On the list
`kmalloc` replaces the first free block that is large enough by the part it hands out and the
rest, and `merge_free_blocks` joins neighbours that are both free. The programs on the memory
compute these functions on the list.

## Main definitions

* `Block`: the size of a payload and whether it is free
* `Heap.Segment`: the headers of a list of blocks laid from an address
* `Heap.Holds h bs`: the pool of `h` holds the blocks `bs`, from its first byte to its last
* `carve`, `mergeInto`: what `kmalloc` and `kfree` do to the blocks

## Main results

* `Heap.Holds.replace`: changing the headers of a few blocks within their bytes
* `kmallocInit_returns`, `kmalloc_returns`, `kfree_returns`: the programs compute the functions
-/

namespace WarkRune.Memory

open Bytes (Memory)

/-- A block of the heap. -/
structure Block where
  size : ℕ
  free : Bool

namespace Block

/-- The bytes of a block: its header and its payload. -/
def span (b : Block) : ℕ := headerSize + b.size

end Block

/-- The bytes of a list of blocks. -/
def span (bs : List Block) : ℕ := (bs.map Block.span).sum

@[simp] theorem span_nil : span [] = 0 := rfl

@[simp] theorem span_cons (b : Block) (bs : List Block) : span (b :: bs) = b.span + span bs :=
  List.sum_cons

@[simp] theorem span_append (xs ys : List Block) : span (xs ++ ys) = span xs + span ys := by
  rw [span, List.map_append, List.sum_append, span, span]

/-- Where a list of blocks starts: at `a`, or at `z` when it is empty. -/
def start (z a : ℕ) (bs : List Block) : ℕ := if bs = [] then z else a

@[simp] theorem start_nil (z a : ℕ) : start z a [] = z := rfl

@[simp] theorem start_cons (z a : ℕ) (b : Block) (bs : List Block) : start z a (b :: bs) = a := rfl

theorem start_append {z a : ℕ} {xs ys : List Block} (h : xs ≠ []) :
    start z a (xs ++ ys) = a := by
  rw [start, if_neg]
  exact fun hnil => h (List.append_eq_nil_iff.mp hnil).1

/-! ## Headers -/

/-- The fields of a header. -/
@[ext] structure Header where
  magic : ℕ
  size : ℕ
  free : ℕ
  next : ℕ

namespace Heap

variable {h h' : Heap} {a b v : ℕ}

/-- The header at an address. -/
def header (h : Heap) (a : ℕ) : Header := ⟨h.magic a, h.size a, h.free a, h.next a⟩

/-- A header depends on its sixteen bytes. -/
theorem header_congr (hm : Memory.SameOn h.mem h'.mem a headerSize) (ha : a + headerSize ≤ 2 ^ 32) :
    h'.header a = h.header a := by
  unfold headerSize at hm ha
  unfold header magic size free next
  rw [(hm.mono (by omega) (by omega) : Memory.SameOn h.mem h'.mem a 4).load32 (by omega),
    (hm.mono (by omega) (by omega) : Memory.SameOn h.mem h'.mem (a + 4) 4).load32 (by omega),
    (hm.mono (by omega) (by omega) : Memory.SameOn h.mem h'.mem (a + 8) 1).load8 (by omega),
    (hm.mono (by omega) (by omega) : Memory.SameOn h.mem h'.mem (a + 12) 4).load32 (by omega)]

section Set

variable (ha : a + headerSize ≤ 2 ^ 32)
include ha

/-! Setting a field changes the header and no byte outside it. -/

theorem header_setMagic (hv : v < 2 ^ 32) :
    (h.setMagic a v).header a = { h.header a with magic := v } := by
  unfold headerSize at ha
  unfold header setMagic magic size free next
  rw [Memory.load32_store32 (by omega), Nat.mod_eq_of_lt hv,
    (Memory.sameOn_store32 (by omega) (.inl (by omega))).load32 (by omega),
    (Memory.sameOn_store32 (by omega) (.inl (by omega))).load8 (by omega),
    (Memory.sameOn_store32 (by omega) (.inl (by omega))).load32 (by omega)]

theorem header_setSize (hv : v < 2 ^ 32) :
    (h.setSize a v).header a = { h.header a with size := v } := by
  unfold headerSize at ha
  unfold header setSize magic size free next
  rw [Memory.load32_store32 (by omega), Nat.mod_eq_of_lt hv,
    (Memory.sameOn_store32 (by omega) (.inr (by omega))).load32 (by omega),
    (Memory.sameOn_store32 (by omega) (.inl (by omega))).load8 (by omega),
    (Memory.sameOn_store32 (by omega) (.inl (by omega))).load32 (by omega)]

theorem header_setFree (hv : v < 2 ^ 8) :
    (h.setFree a v).header a = { h.header a with free := v } := by
  unfold headerSize at ha
  unfold header setFree magic size free next
  rw [Memory.load8_store8, Nat.mod_eq_of_lt hv,
    (Memory.sameOn_store8 (by omega) (.inr (by omega))).load32 (by omega),
    (Memory.sameOn_store8 (by omega) (.inr (by omega))).load32 (by omega),
    (Memory.sameOn_store8 (by omega) (.inl (by omega))).load32 (by omega)]

theorem header_setNext (hv : v < 2 ^ 32) :
    (h.setNext a v).header a = { h.header a with next := v } := by
  unfold headerSize at ha
  unfold header setNext magic size free next
  rw [Memory.load32_store32 (by omega), Nat.mod_eq_of_lt hv,
    (Memory.sameOn_store32 (by omega) (.inr (by omega))).load32 (by omega),
    (Memory.sameOn_store32 (by omega) (.inr (by omega))).load32 (by omega),
    (Memory.sameOn_store32 (by omega) (.inr (by omega))).load8 (by omega)]

variable {n : ℕ} (hout : a + headerSize ≤ b ∨ b + n ≤ a)
include hout

theorem sameOn_setMagic : Memory.SameOn h.mem (h.setMagic a v).mem b n := by
  unfold headerSize at ha hout
  exact Memory.sameOn_store32 (by omega) (by omega)

theorem sameOn_setSize : Memory.SameOn h.mem (h.setSize a v).mem b n := by
  unfold headerSize at ha hout
  exact Memory.sameOn_store32 (by omega) (by omega)

theorem sameOn_setFree : Memory.SameOn h.mem (h.setFree a v).mem b n := by
  unfold headerSize at ha hout
  exact Memory.sameOn_store8 (by omega) (by omega)

theorem sameOn_setNext : Memory.SameOn h.mem (h.setNext a v).mem b n := by
  unfold headerSize at ha hout
  exact Memory.sameOn_store32 (by omega) (by omega)

end Set

/-! ## Blocks laid from an address -/

/-- The header at `a` is that of the block `b`, and the list goes on at `next`. -/
def HeaderAt (h : Heap) (a : ℕ) (b : Block) (next : ℕ) : Prop :=
  h.header a = ⟨blockMagic, b.size, b.free.toNat, next⟩

/-- The headers of blocks laid from `a`; after the last one the list goes on at `z`. -/
def Segment (h : Heap) (z : ℕ) : ℕ → List Block → Prop
  | _, [] => True
  | a, b :: bs => h.HeaderAt a b (start z (a + b.span) bs) ∧ h.Segment z (a + b.span) bs

@[simp] theorem segment_nil {z : ℕ} : h.Segment z a [] := trivial

@[simp] theorem segment_cons {z : ℕ} {b : Block} {bs : List Block} :
    h.Segment z a (b :: bs) ↔
      h.HeaderAt a b (start z (a + b.span) bs) ∧ h.Segment z (a + b.span) bs := Iff.rfl

theorem segment_append {z : ℕ} {xs ys : List Block} :
    h.Segment z a (xs ++ ys) ↔
      h.Segment (start z (a + span xs) ys) a xs ∧ h.Segment z (a + span xs) ys := by
  induction xs generalizing a with
  | nil => simp
  | cons b xs ih =>
    have hstart : start z (a + b.span) (xs ++ ys) =
        start (start z (a + b.span + span xs) ys) (a + b.span) xs := by
      cases xs <;> simp
    rw [List.cons_append, segment_cons, segment_cons, ih, hstart, span_cons, Nat.add_assoc,
      and_assoc]

/-- A segment depends on its bytes. -/
theorem Segment.congr {z : ℕ} {bs : List Block} (hs : h.Segment z a bs)
    (hm : Memory.SameOn h.mem h'.mem a (span bs)) (ha : a + span bs ≤ 2 ^ 32) :
    h'.Segment z a bs := by
  induction bs generalizing a with
  | nil => trivial
  | cons b bs ih =>
    rw [span_cons] at hm ha
    have hspan : b.span = headerSize + b.size := rfl
    refine ⟨?_, ih hs.2 (hm.mono (by omega) (by omega)) (by omega)⟩
    exact (header_congr (hm.mono (by omega) (by omega)) (by omega)).trans hs.1

/-- The pool holds the blocks, from its first byte to its last. -/
structure Holds (h : Heap) (bs : List Block) : Prop where
  ready : h.ready = true
  head : h.head = h.pool
  pos : 0 < h.pool
  fits : h.pool + kmallocHeapSize ≤ 2 ^ 32
  span_eq : span bs = kmallocHeapSize
  sizes : ∀ b ∈ bs, 8 ∣ b.size
  last : ∀ b ∈ bs.getLast?, 0 < b.size
  segment : h.Segment 0 h.pool bs

/-- The static variables are the same. -/
def SameStatics (h h' : Heap) : Prop :=
  h'.pool = h.pool ∧ h'.head = h.head ∧ h'.ready = h.ready ∧ h'.heapBase = h.heapBase

theorem sameStatics_refl : h.SameStatics h := ⟨rfl, rfl, rfl, rfl⟩

theorem SameStatics.trans {h'' : Heap} (h₁ : h.SameStatics h') (h₂ : h'.SameStatics h'') :
    h.SameStatics h'' :=
  ⟨h₂.1.trans h₁.1, h₂.2.1.trans h₁.2.1, h₂.2.2.1.trans h₁.2.2.1, h₂.2.2.2.trans h₁.2.2.2⟩

/-- **Changing the headers of a few blocks within their bytes** changes the list there. -/
theorem Holds.replace {xs ys : List Block} (old new : List Block)
    (hh : h.Holds (xs ++ (old ++ ys)))
    (hold : old ≠ []) (hnew : new ≠ []) (hspan : span new = span old)
    (hsizes : ∀ b ∈ new, 8 ∣ b.size)
    (hlast : (∀ b ∈ old.getLast?, 0 < b.size) → ∀ b ∈ new.getLast?, 0 < b.size)
    (hstat : h.SameStatics h')
    (hxs : Memory.SameOn h.mem h'.mem h.pool (span xs))
    (hys : Memory.SameOn h.mem h'.mem (h.pool + span xs + span old) (span ys))
    (hseg : h'.Segment (start 0 (h.pool + span xs + span old) ys) (h.pool + span xs) new) :
    h'.Holds (xs ++ (new ++ ys)) := by
  have hfits := hh.fits
  have heq := hh.span_eq
  rw [span_append, span_append] at heq
  obtain ⟨hsx, hsy⟩ := segment_append.mp hh.segment
  obtain ⟨-, hsy⟩ := segment_append.mp hsy
  rw [start_append hold] at hsx
  refine ⟨hstat.2.2.1.trans hh.ready, (hstat.2.1.trans hh.head).trans hstat.1.symm, ?_, ?_, ?_,
    ?_, ?_, ?_⟩
  · rw [hstat.1]
    exact hh.pos
  · rw [hstat.1]
    exact hfits
  · rw [span_append, span_append, hspan]
    exact heq
  · intro b hb
    rcases List.mem_append.mp hb with hb | hb
    · exact hh.sizes b (List.mem_append_left _ hb)
    rcases List.mem_append.mp hb with hb | hb
    · exact hsizes b hb
    · exact hh.sizes b (List.mem_append_right _ (List.mem_append_right _ hb))
  · have hl := hh.last
    rw [List.getLast?_append, List.getLast?_append] at hl ⊢
    cases hy : ys.getLast? with
    | some d => simpa [hy] using hl
    | none =>
      rw [hy, Option.none_or, List.getLast?_eq_some_getLast hold, Option.some_or] at hl
      rw [Option.none_or, List.getLast?_eq_some_getLast hnew, Option.some_or]
      rw [List.getLast?_eq_some_getLast hnew, List.getLast?_eq_some_getLast hold] at hlast
      exact hlast hl
  · rw [hstat.1, segment_append, start_append hnew, segment_append, hspan]
    exact ⟨hsx.congr hxs (by omega), hseg, hsy.congr hys (by omega)⟩

/-! ## Writing headers -/

/-- The bytes of the header at `a`. -/
def headerBytes (a : ℕ) : Set ℕ := Set.Ico a (a + headerSize)

/-- The bytes of the block at `a`: its header and its payload. -/
def blockBytes (h : Heap) (a : ℕ) : Set ℕ := Set.Ico a (a + headerSize + h.size a)

theorem mem_headerBytes {x : ℕ} : x ∈ headerBytes a ↔ a ≤ x ∧ x < a + headerSize := Iff.rfl

theorem mem_blockBytes {x : ℕ} :
    x ∈ h.blockBytes a ↔ a ≤ x ∧ x < a + headerSize + h.size a := Iff.rfl

theorem sameOn_of_eqOn {S : Set ℕ} {n : ℕ} (heq : Set.EqOn h'.mem h.mem S)
    (hS : Set.Ico a (a + n) ⊆ S) : Memory.SameOn h.mem h'.mem a n :=
  fun _ hle hlt => heq (hS ⟨hle, hlt⟩)

theorem headerBytes_subset : headerBytes a ⊆ h.blockBytes a :=
  Set.Ico_subset_Ico_right (Nat.le_add_right _ _)

/-- The header at `a` changes by `f`, and no byte outside it. -/
structure WroteAt (h h' : Heap) (a : ℕ) (f : Header → Header) : Prop where
  header : h'.header a = f (h.header a)
  outside : ∀ b n, a + headerSize ≤ b ∨ b + n ≤ a → Memory.SameOn h.mem h'.mem b n
  statics : h.SameStatics h'

namespace WroteAt

theorem trans {h'' : Heap} {f g : Header → Header} (h₁ : WroteAt h h' a f)
    (h₂ : WroteAt h' h'' a g) : WroteAt h h'' a (g ∘ f) :=
  ⟨by rw [h₂.header, h₁.header]; rfl, fun b n hout => (h₁.outside b n hout).trans (h₂.outside b n hout),
    h₁.statics.trans h₂.statics⟩

/-- The headers elsewhere are the same. -/
theorem header_ne {f : Header → Header} (hw : WroteAt h h' a f)
    (hout : a + headerSize ≤ b ∨ b + headerSize ≤ a) (hb : b + headerSize ≤ 2 ^ 32) :
    h'.header b = h.header b :=
  header_congr (hw.outside b _ hout) hb

/-- No byte outside the header changes. -/
theorem eqOn {f : Header → Header} {S : Set ℕ} (hw : WroteAt h h' a f) (hS : headerBytes a ⊆ S) :
    Set.EqOn h'.mem h.mem Sᶜ := by
  intro x hx
  have hout : x ∉ Set.Ico a (a + headerSize) := fun hin => hx (hS hin)
  rw [Set.mem_Ico] at hout
  exact hw.outside x 1 (by omega) x (Nat.le_refl x) (Nat.lt_succ_self x)

variable (ha : a + headerSize ≤ 2 ^ 32)
include ha

theorem setMagic (hv : v < 2 ^ 32) : WroteAt h (h.setMagic a v) a ({ · with magic := v }) :=
  ⟨header_setMagic ha hv, fun _ _ => sameOn_setMagic ha, sameStatics_refl⟩

theorem setSize (hv : v < 2 ^ 32) : WroteAt h (h.setSize a v) a ({ · with size := v }) :=
  ⟨header_setSize ha hv, fun _ _ => sameOn_setSize ha, sameStatics_refl⟩

theorem setFree (hv : v < 2 ^ 8) : WroteAt h (h.setFree a v) a ({ · with free := v }) :=
  ⟨header_setFree ha hv, fun _ _ => sameOn_setFree ha, sameStatics_refl⟩

theorem setNext (hv : v < 2 ^ 32) : WroteAt h (h.setNext a v) a ({ · with next := v }) :=
  ⟨header_setNext ha hv, fun _ _ => sameOn_setNext ha, sameStatics_refl⟩

end WroteAt

end Heap

end WarkRune.Memory

import WarkRune.Memory.Frames
import WarkRune.Memory.Heap
import Mathlib.Data.Set.Lattice
import Mathlib.Order.CompletePartialOrder
import Mathlib.Order.Interval.Set.Basic

/-!
# Where the allocators put things

Two modules derive a layout from the memory map. `kmalloc_init` places the heap eight pages into
the region; `pmm_init` places its bitmap at the start of the region, as many pages as the region
needs, and keeps the frames of the bitmap and 128 more. The frames the allocator can hand out are
the rest, by addresses cut to 32 bits. The page tables and the back buffer are elsewhere, at fixed
addresses.

## Main definitions

* `HandedOut`: a frame that `pmm_alloc` can return in some run
* `LayoutAgrees`: the bitmap, the heap and the frames are apart and in the region
* `SparesKernel`: no frame overlaps the page tables or the back buffer

## Main results

* `handedOut_iff`: the frames handed out are the allocatable ones
* `layoutAgrees_iff`: for which regions the two layouts agree
* `sparesKernel_iff`: for which regions the frames spare the kernel's memory
-/

namespace WarkRune.Memory

open Machine (after)

/-! ## The frames handed out -/

/-- A pointer that `pmm_alloc` returns in some run. -/
def HandedOut (s₀ : Pmm) (p : ℕ) : Prop :=
  ∃ cs, (pmmAlloc (after Pmm.step s₀ cs)).1 = p ∧ p ≠ 0

section HandedOut

variable {s₀ : Pmm} (hclear : ∀ f, s₀.Allocatable f → s₀.tst f = false)
include hclear

/-- After `k` allocations the first `k` frames are marked. -/
theorem tst_after_allocs (k : ℕ) : ∀ g, s₀.Allocatable g →
    ((after Pmm.step s₀ (.replicate k .alloc)).tst g = true ↔ g < s₀.bmapSkip + k) := by
  induction k with
  | zero =>
    intro g hg
    rw [List.replicate_zero, Machine.after_nil, hclear g hg]
    have := hg.1
    simpa using this
  | succ k ih =>
    intro g hg
    rw [List.replicate_succ', Machine.after_concat]
    have hsame := Pmm.sameFrames_after s₀ (.replicate k .alloc)
    generalize after Pmm.step s₀ (.replicate k .alloc) = t at *
    have hg' := hg.1
    rcases pmmAlloc_cases t with ⟨f, hf, hfc, hmin, he⟩ | ⟨hfull, he⟩
    · rw [hsame.allocatable] at hf
      have hfk : ¬ f < s₀.bmapSkip + k := by
        rw [← ih f hf, hfc]
        exact Bool.false_ne_true
      -- the frame behind the marked ones is clear, so it is the first
      have hle : f ≤ s₀.bmapSkip + k := by
        have hk : s₀.Allocatable (s₀.bmapSkip + k) := ⟨Nat.le_add_right _ _, by have := hf.2; omega⟩
        refine hmin _ ((hsame.allocatable _).mpr hk) (Bool.eq_false_iff.mpr ?_)
        rw [Ne, ih _ hk]
        exact Nat.lt_irrefl _
      rw [Pmm.step, he, Pmm.tst_used, Pmm.tst_set, Bool.or_eq_true, decide_eq_true_iff, ih g hg]
      omega
    · rw [Pmm.step, he, ih g hg]
      have := (ih g hg).mp (hfull g ((hsame.allocatable g).mpr hg))
      omega

/-- **The pointers handed out** are the addresses of the allocatable frames, null apart. -/
theorem handedOut_iff {p : ℕ} :
    HandedOut s₀ p ↔ p ≠ 0 ∧ ∃ f, s₀.Allocatable f ∧ s₀.frameAddr f = p := by
  constructor
  · rintro ⟨cs, hp, hne⟩
    refine ⟨hne, ?_⟩
    have hsame := Pmm.sameFrames_after s₀ cs
    rcases pmmAlloc_cases (after Pmm.step s₀ cs) with ⟨f, hf, -, -, he⟩ | ⟨-, he⟩
    · rw [he, hsame.frameAddr] at hp
      exact ⟨f, (hsame.allocatable f).mp hf, hp⟩
    · rw [he] at hp
      exact absurd hp.symm hne
  · -- once the frames below it are taken, the frame is the next one
    rintro ⟨hne, f, hf, hp⟩
    refine ⟨.replicate (f - s₀.bmapSkip) .alloc, ?_, hne⟩
    have hge := hf.1
    have hsame := Pmm.sameFrames_after s₀ (.replicate (f - s₀.bmapSkip) .alloc)
    have htst := tst_after_allocs hclear (f - s₀.bmapSkip)
    generalize after Pmm.step s₀ (.replicate (f - s₀.bmapSkip) .alloc) = t at *
    have hfc : t.tst f = false := by
      rw [Bool.eq_false_iff, Ne, htst f hf]
      omega
    rcases pmmAlloc_cases t with ⟨g, hg, hgc, hmin, he⟩ | ⟨hfull, -⟩
    · have hgf : g = f := by
        refine Nat.le_antisymm (hmin f ((hsame.allocatable f).mpr hf) hfc) ?_
        rw [hsame.allocatable] at hg
        have hgk : ¬ g < s₀.bmapSkip + (f - s₀.bmapSkip) := by
          rw [← htst g hg, hgc]
          exact Bool.false_ne_true
        omega
      rw [he, hgf, hsame.frameAddr]
      exact hp
    · have := hfull f ((hsame.allocatable f).mpr hf)
      rw [hfc] at this
      cases this

end HandedOut

/-! ## The region -/

/-- The number of frames of a region, as `pmm_init` computes it. -/
def regionTotal (len : ℕ) : ℕ := len / pageSize % 2 ^ 32

/-- The frames at the start of a region that `pmm_init` keeps. -/
def regionSkip (len : ℕ) : ℕ :=
  ((regionTotal len + 31) % 2 ^ 32 / 32 * 4 + pageSize - 1) / pageSize + kmallocReservedPages

/-- The addresses of the region that the search ends with. -/
def regionBytes (map : List E820Entry) : Set ℕ :=
  {x | (bestRegion map).1 ≤ x ∧ x < (bestRegion map).1 + (bestRegion map).2 ∧ x < 2 ^ 32}

/-- The words of the bitmap, a bit a frame. -/
def bitmapBytes (s : Pmm) : Set ℕ := Set.Ico s.bitmap (s.bitmap + (s.total + 31) / 32 * 4)

/-- The pool of the heap. -/
def heapBytes (heapBase : ℕ) : Set ℕ :=
  Set.Ico (heapPool heapBase) (heapPool heapBase + kmallocHeapSize)

/-- The bytes of the frames handed out. -/
def frameBytes (s₀ : Pmm) : Set ℕ := {x | ∃ p, HandedOut s₀ p ∧ InFrame p x}

/-- A byte handed out is one of an allocatable frame whose address is not null. -/
theorem mem_frameBytes_iff {s₀ : Pmm} (hclear : ∀ f, s₀.Allocatable f → s₀.tst f = false) {x : ℕ} :
    x ∈ frameBytes s₀ ↔
      ∃ f, s₀.Allocatable f ∧ s₀.frameAddr f ≠ 0 ∧ InFrame (s₀.frameAddr f) x := by
  constructor
  · rintro ⟨p, hp, hx⟩
    obtain ⟨hne, f, hf, rfl⟩ := (handedOut_iff hclear).mp hp
    exact ⟨f, hf, hne, hx⟩
  · rintro ⟨f, hf, hne, hx⟩
    exact ⟨_, (handedOut_iff hclear).mpr ⟨hne, f, hf, rfl⟩, hx⟩

/-! ## The two layouts -/

/-- **The layouts agree**: the two searches find one region, and the bitmap, the heap and the
frames handed out are parts of it that do not meet. -/
structure LayoutAgrees (map : List E820Entry) (words : ℕ → BitVec 32) : Prop where
  same : memoryInit map (0, 0) = bestRegion map
  bitmap_sub : bitmapBytes (pmmInit map (.boot words)) ⊆ regionBytes map
  heap_sub : heapBytes (memoryInit map (0, 0)).1 ⊆ regionBytes map
  frames_sub : frameBytes (pmmInit map (.boot words)) ⊆ regionBytes map
  bitmap_heap : Disjoint (bitmapBytes (pmmInit map (.boot words)))
    (heapBytes (memoryInit map (0, 0)).1)
  bitmap_frames : Disjoint (bitmapBytes (pmmInit map (.boot words)))
    (frameBytes (pmmInit map (.boot words)))
  heap_frames : Disjoint (heapBytes (memoryInit map (0, 0)).1)
    (frameBytes (pmmInit map (.boot words)))

/-- The region has room for the eight pages and the heap below 4 GiB, its bitmap takes the eight
pages that `kmalloc_init` leaves for it or the region has no frame to hand out, and no frame is
cut to an address other than null. -/
def LayoutFits (base len : ℕ) : Prop :=
  0x88000 ≤ len ∧ base + 0x88000 ≤ 2 ^ 32 ∧
    (regionTotal len ≤ 129 ∨ 229376 < regionTotal len ∧ regionTotal len ≤ 262144 ∧
      (base + regionTotal len * pageSize ≤ 2 ^ 32 ∨
        base + regionTotal len * pageSize = 2 ^ 32 + pageSize))

/-- The address of frame `f` of a region, cut to 32 bits. -/
def regionFrame (base f : ℕ) : ℕ := (base + f * pageSize) % 2 ^ 32

section Region

variable {map : List E820Entry} {base len x : ℕ} (words : ℕ → BitVec 32)
  (he : bestRegion map = (base, len)) (hbase : base ≠ 0) (hlen : len ≠ 0)

include he in
theorem mem_regionBytes : x ∈ regionBytes map ↔ base ≤ x ∧ x < base + len ∧ x < 2 ^ 32 := by
  unfold regionBytes
  rw [he]
  rfl

include he in
theorem mem_heapBytes : x ∈ heapBytes (memoryInit map (0, 0)).1 ↔
    heapPool base ≤ x ∧ x < heapPool base + kmallocHeapSize := by
  rw [memoryInit_eq_bestRegion, he]
  rfl

include he hbase hlen

theorem mem_bitmapBytes : x ∈ bitmapBytes (pmmInit map (.boot words)) ↔
    base % 2 ^ 32 ≤ x ∧ x < base % 2 ^ 32 + (regionTotal len + 31) / 32 * 4 := by
  obtain ⟨hb, ht, -⟩ := pmmInit_spec he hbase hlen (.boot words)
  unfold bitmapBytes
  rw [hb, ht]
  rfl

theorem mem_frameBytes : x ∈ frameBytes (pmmInit map (.boot words)) ↔
    ∃ f, regionSkip len ≤ f ∧ f < regionTotal len ∧ regionFrame base f ≠ 0 ∧
      InFrame (regionFrame base f) x := by
  obtain ⟨hb, ht, hk, -, hclear⟩ := pmmInit_spec he hbase hlen (.boot words)
  have haddr f : (pmmInit map (.boot words)).frameAddr f = regionFrame base f := by
    rw [Pmm.frameAddr, hb, Nat.mod_add_mod]
    rfl
  rw [mem_frameBytes_iff hclear]
  unfold Pmm.Allocatable
  rw [hk, ht]
  simp only [haddr, and_assoc]
  rfl

end Region

/-- The frames kept at the start of a region whose bitmap takes eight pages. -/
theorem regionSkip_large {len : ℕ} (h : 229376 < regionTotal len) (h' : regionTotal len ≤ 262144) :
    regionSkip len = 136 := by
  unfold regionSkip pageSize kmallocReservedPages
  omega

/-- A small region keeps all of its frames. -/
theorem regionSkip_small {len : ℕ} (h : regionTotal len ≤ 129) :
    regionTotal len ≤ regionSkip len := by
  unfold regionSkip pageSize kmallocReservedPages
  omega

/-- A bitmap of fewer than eight pages leaves frames between the bitmap and the end of the heap. -/
theorem regionSkip_middle {len : ℕ} (h : 129 < regionTotal len) (h' : regionTotal len ≤ 229376) :
    129 ≤ regionSkip len ∧ regionSkip len < regionTotal len ∧ regionSkip len < 136 := by
  unfold regionSkip pageSize kmallocReservedPages
  omega

theorem regionTotal_le (len : ℕ) : regionTotal len * pageSize ≤ len :=
  Nat.le_trans (Nat.mul_le_mul_right _ (Nat.mod_le _ _)) (Nat.div_mul_le_self _ _)

/-- The pool lies eight pages into a region above 1 MB. -/
theorem heapPool_of_le {base : ℕ} (hb : 0x100000 ≤ base) :
    heapPool base = (base + 0x8000) % 2 ^ 32 := by
  unfold heapPool
  rw [if_neg (by omega)]
  omega

section Agree

variable {map : List E820Entry} {words : ℕ → BitVec 32} {base len : ℕ}
  (he : bestRegion map = (base, len)) (hb : 0x100000 ≤ base)

section Fits

variable (h : LayoutAgrees map words)
include h he hb

/-- The heap is in the region, so its address is not cut. -/
theorem LayoutAgrees.room : 0x88000 ≤ len ∧ base + 0x88000 ≤ 2 ^ 32 := by
  have hpool := heapPool_of_le hb
  have hin : ∀ i < 0x80000, heapPool base + i ∈ regionBytes map := by
    intro i hi
    apply h.heap_sub
    refine (mem_heapBytes he).mpr ⟨Nat.le_add_right _ _, ?_⟩
    unfold kmallocHeapSize
    omega
  have hfirst := (mem_regionBytes he).mp (hin 0 (by omega))
  have hlast := (mem_regionBytes he).mp (hin 0x7FFFF (by omega))
  omega

theorem LayoutAgrees.mem_heap {x : ℕ} : x ∈ heapBytes (memoryInit map (0, 0)).1 ↔
    base + 0x8000 ≤ x ∧ x < base + 0x88000 := by
  have hroom := h.room he hb
  have hpool : heapPool base = base + 0x8000 := by
    rw [heapPool_of_le hb]
    exact Nat.mod_eq_of_lt (by omega)
  rw [mem_heapBytes he, hpool]
  unfold kmallocHeapSize
  omega

/-- The bitmap ends before the heap. -/
theorem LayoutAgrees.bitmap_le : regionTotal len ≤ 262144 := by
  have hroom := h.room he hb
  by_contra hbig
  have hin : base + 0x8000 ∈ bitmapBytes (pmmInit map (.boot words)) := by
    rw [mem_bitmapBytes words he (by omega) (by omega), Nat.mod_eq_of_lt (by omega)]
    omega
  exact Set.disjoint_left.mp h.bitmap_heap hin ((h.mem_heap he hb).mpr (by omega))

/-- With fewer frames the first one handed out would be one of the heap's pages. -/
theorem LayoutAgrees.bitmap_large (hsmall : ¬ regionTotal len ≤ 129) :
    229376 < regionTotal len := by
  have hroom := h.room he hb
  have htotal := regionTotal_le len
  by_contra hmiddle
  obtain ⟨h₁, h₂, h₃⟩ := @regionSkip_middle len (by omega) (by omega)
  have haddr : regionFrame base (regionSkip len) = base + regionSkip len * pageSize := by
    apply Nat.mod_eq_of_lt
    unfold pageSize
    omega
  unfold pageSize at *
  have hin : base + regionSkip len * 4096 ∈ heapBytes (memoryInit map (0, 0)).1 :=
    (h.mem_heap he hb).mpr (by omega)
  refine Set.disjoint_left.mp h.heap_frames hin
    ((mem_frameBytes words he (by omega) (by omega)).mpr
      ⟨regionSkip len, Nat.le_refl _, h₂, by omega, ?_⟩)
  rw [haddr]
  unfold InFrame pageSize
  omega

/-- Of the frames handed out at most the last is cut, to null. -/
theorem LayoutAgrees.frames_le (hlarge : 229376 < regionTotal len) :
    base + regionTotal len * pageSize ≤ 2 ^ 32 ∨
      base + regionTotal len * pageSize = 2 ^ 32 + pageSize := by
  have hroom := h.room he hb
  have htotal := regionTotal_le len
  have hskip := regionSkip_large hlarge (h.bitmap_le he hb)
  have hbits := h.bitmap_le he hb
  by_contra hbad
  rw [not_or] at hbad
  unfold pageSize at hbad htotal
  have haddr : regionFrame base (regionTotal len - 1) =
    (base + (regionTotal len - 1) * 4096) % 2 ^ 32 := rfl
  generalize regionFrame base (regionTotal len - 1) = a at haddr
  -- both ends of the last frame are in the region, unless it is cut to null
  have hin (hne : a ≠ 0) (i : ℕ) (hi : i < 4096) :
      base ≤ a + i ∧ a + i < base + len ∧ a + i < 2 ^ 32 := by
    refine (mem_regionBytes he).mp (h.frames_sub
      ((mem_frameBytes words he (by omega) (by omega)).mpr
        ⟨regionTotal len - 1, by omega, by omega, ?_, ?_⟩))
    · change (base + (regionTotal len - 1) * 4096) % 2 ^ 32 ≠ 0
      rwa [← haddr]
    · change InFrame ((base + (regionTotal len - 1) * 4096) % 2 ^ 32) _
      rw [← haddr]
      unfold InFrame pageSize
      omega
  by_cases hcross : base + (regionTotal len - 1) * 4096 < 2 ^ 32
  · rw [Nat.mod_eq_of_lt hcross] at haddr
    have := hin (by omega) 4095 (by decide)
    omega
  · have hsub : a = base + (regionTotal len - 1) * 4096 - 2 ^ 32 := by omega
    have := hin (by omega) 0 (by decide)
    omega

end Fits

/-- **Layouts that agree fit the region.** -/
theorem LayoutAgrees.fits (h : ∃ e ∈ map, e.Usable) (hagree : LayoutAgrees map words) :
    LayoutFits (bestRegion map).1 (bestRegion map).2 := by
  obtain ⟨e, -, ⟨-, hb, -⟩, he⟩ := bestRegion_usable h
  obtain ⟨hlen, hlow⟩ := hagree.room he hb
  rw [he]
  refine ⟨hlen, hlow, or_iff_not_imp_left.mpr fun hsmall => ?_⟩
  have hlarge := hagree.bitmap_large he hb hsmall
  exact ⟨hlarge, hagree.bitmap_le he hb, hagree.frames_le he hb hlarge⟩

include he hb in
/-- **Every frame handed out** of a region that fits lies behind the heap, below 4 GiB. -/
theorem LayoutFits.frame_behind (hfits : LayoutFits base len) {x : ℕ}
    (hx : x ∈ frameBytes (pmmInit map (.boot words))) :
    base + 0x88000 ≤ x ∧ x < base + len ∧ x < 2 ^ 32 := by
  obtain ⟨hroom, hlow, hcase⟩ := hfits
  have htotal := regionTotal_le len
  obtain ⟨f, hf₁, hf₂, hne, hin⟩ := (mem_frameBytes words he (by omega) (by omega)).mp hx
  rcases hcase with hsmall | ⟨hlarge, hbits, hfit⟩
  · have := regionSkip_small hsmall
    omega
  · rw [regionSkip_large hlarge hbits] at hf₁
    have haddr : regionFrame base f = (base + f * 4096) % 2 ^ 32 := rfl
    unfold InFrame at hin
    unfold pageSize at *
    by_cases hcross : base + f * 4096 < 2 ^ 32
    · rw [Nat.mod_eq_of_lt hcross] at haddr
      omega
    · -- the only frame that is cut is cut to null
      omega

/-- **Layouts that fit the region agree.** -/
theorem LayoutFits.agrees (h : ∃ e ∈ map, e.Usable)
    (hfits : LayoutFits (bestRegion map).1 (bestRegion map).2) : LayoutAgrees map words := by
  obtain ⟨e, -, ⟨-, hb, -⟩, he⟩ := bestRegion_usable h
  rw [he] at hfits
  dsimp only at hfits
  generalize e.base = base at *
  generalize e.length = len at *
  have hplace x (hx : x ∈ frameBytes (pmmInit map (.boot words))) :=
    hfits.frame_behind he hb hx
  obtain ⟨hroom, hlow, hcase⟩ := hfits
  have hregion x := mem_regionBytes (x := x) he
  have hbitmap x := mem_bitmapBytes (x := x) words he (by omega) (by omega)
  have hpool : heapPool base = base + 0x8000 := by
    rw [heapPool_of_le hb]
    exact Nat.mod_eq_of_lt (by omega)
  have hheap x : x ∈ heapBytes (memoryInit map (0, 0)).1 ↔
      base + 0x8000 ≤ x ∧ x < base + 0x88000 := by
    rw [mem_heapBytes he, hpool]
    unfold kmallocHeapSize
    omega
  have hcut : base % 2 ^ 32 = base := Nat.mod_eq_of_lt (by omega)
  have hbits : regionTotal len ≤ 262144 := by
    rcases hcase with hsmall | ⟨-, hbits, -⟩
    · omega
    · exact hbits
  refine ⟨memoryInit_eq_bestRegion map, fun x hx => (hregion x).mpr ?_,
    fun x hx => (hregion x).mpr ?_, fun x hx => (hregion x).mpr ?_,
    Set.disjoint_left.mpr fun x hx hx' => ?_, Set.disjoint_left.mpr fun x hx hx' => ?_,
    Set.disjoint_left.mpr fun x hx hx' => ?_⟩
  · have := (hbitmap x).mp hx
    omega
  · have := (hheap x).mp hx
    omega
  · have := hplace x hx
    omega
  · have := (hbitmap x).mp hx
    have := (hheap x).mp hx'
    omega
  · have := (hbitmap x).mp hx
    have := hplace x hx'
    omega
  · have := (hheap x).mp hx
    have := hplace x hx'
    omega

end Agree

/-- **The layouts agree exactly for the regions with room** for both, whose bitmap takes the pages
that the heap leaves for it. -/
theorem layoutAgrees_iff {map : List E820Entry} (h : ∃ e ∈ map, e.Usable)
    (words : ℕ → BitVec 32) :
    LayoutAgrees map words ↔ LayoutFits (bestRegion map).1 (bestRegion map).2 :=
  ⟨fun hagree => hagree.fits h, fun hfits => hfits.agrees h⟩

/-- The layouts agree on a machine with a gigabyte. -/
theorem layoutAgrees_gigabyte : LayoutAgrees (mapOf 0x3FF00000 (by decide)) fun _ => 0 := by
  refine (layoutAgrees_iff ⟨_, List.mem_singleton_self _, rfl, ?_, ?_⟩ _).mpr ⟨?_, ?_, .inr ?_⟩
  · decide
  · decide
  · decide
  · decide
  · exact ⟨by decide, by decide, .inl (by decide)⟩

/-- With half a gigabyte the bitmap takes four pages, and the frames begin inside the heap. -/
theorem layoutAgrees_halfGigabyte : ¬ LayoutAgrees (mapOf 0x20000000 (by decide)) fun _ => 0 := by
  intro hagree
  obtain ⟨-, -, hsmall | ⟨hlarge, -⟩⟩ :=
    hagree.fits ⟨_, List.mem_singleton_self _, rfl, by decide, by decide⟩
  · exact absurd hsmall (by decide)
  · exact absurd hlarge (by decide)

/-! ## The kernel's own memory -/

/-- The page tables and the page directory, in the section `.pagetab`. -/
def pageTableBytes : Set ℕ := Set.Ico 0x300000 (0x300000 + 1024 * 1024 * 4 + 1024 * 4)

/-- The back buffer at `BACKBUF_PHYS_ADDR`. -/
def backBufferBytes : Set ℕ := Set.Ico 0xA00000 (0xA00000 + 800 * 600 * 4)

/-- No frame handed out overlaps the page tables or the back buffer. -/
structure SparesKernel (map : List E820Entry) (words : ℕ → BitVec 32) : Prop where
  pageTables : Disjoint (frameBytes (pmmInit map (.boot words))) pageTableBytes
  backBuffer : Disjoint (frameBytes (pmmInit map (.boot words))) backBufferBytes

/-- The bytes of the frames a region hands out. -/
def regionFrameBytes (len : ℕ) : ℕ := (regionTotal len - regionSkip len) * pageSize

/-- The frames of the region are none, or end below the page tables, or lie between the page tables
and the back buffer, or lie above the back buffer (and what is cut ends below the page tables). -/
def RegionSpares (base len : ℕ) : Prop :=
  regionFrameBytes len = 0 ∨
    regionFrame base (regionSkip len) + regionFrameBytes len ≤ 0x300000 ∨
    0x701000 ≤ regionFrame base (regionSkip len) ∧
      regionFrame base (regionSkip len) + regionFrameBytes len ≤ 0xA00000 ∨
    0xBD4C00 ≤ regionFrame base (regionSkip len) ∧
      regionFrame base (regionSkip len) + regionFrameBytes len ≤ 2 ^ 32 + 0x300000

/-- Counting from the first frame, addresses are cut in the same way. -/
theorem regionFrame_add (base f i : ℕ) :
    regionFrame base (f + i) = (regionFrame base f + i * pageSize) % 2 ^ 32 := by
  unfold regionFrame
  rw [Nat.mod_add_mod, Nat.add_mul, Nat.add_assoc]

section Spare

variable {map : List E820Entry} {words : ℕ → BitVec 32} {base len : ℕ}
  (he : bestRegion map = (base, len)) (hbase : base ≠ 0) (hlen : len ≠ 0)
include he hbase hlen

/-- Every address from the first frame on is handed out, until the frames end; what lies behind
4 GiB comes out at the start of memory. -/
theorem mem_frameBytes_of_between {y : ℕ} (hy : regionFrame base (regionSkip len) ≤ y)
    (hy' : y < regionFrame base (regionSkip len) + regionFrameBytes len) (hlow : 4096 ≤ y % 2 ^ 32) :
    y % 2 ^ 32 ∈ frameBytes (pmmInit map (.boot words)) := by
  have hlt : regionFrame base (regionSkip len) < 2 ^ 32 := Nat.mod_lt _ (by decide)
  unfold regionFrameBytes at hy'
  have haddr :=
    regionFrame_add base (regionSkip len) ((y - regionFrame base (regionSkip len)) / 4096)
  generalize regionFrame base (regionSkip len) = first at *
  unfold pageSize at hy' haddr
  have hp : regionFrame base (regionSkip len + (y - first) / 4096) ≠ 0 ∧
      regionFrame base (regionSkip len + (y - first) / 4096) ≤ y % 2 ^ 32 ∧
      y % 2 ^ 32 < regionFrame base (regionSkip len + (y - first) / 4096) + 4096 := by
    rw [haddr]
    omega
  refine (mem_frameBytes words he hbase hlen).mpr ⟨_, Nat.le_add_right _ _, ?_, hp.1, hp.2⟩
  omega

theorem SparesKernel.region (hs : SparesKernel map words) : RegionSpares base len := by
  have hlt : regionFrame base (regionSkip len) < 2 ^ 32 := Nat.mod_lt _ (by decide)
  have hbetween (y : ℕ) := @mem_frameBytes_of_between map words base len he hbase hlen y
  -- no address of the page tables or of the back buffer lies between
  have htables (y : ℕ) (hy : y % 2 ^ 32 ∈ pageTableBytes) hy₁ hy₂ hy₃ : False :=
    Set.disjoint_left.mp hs.pageTables (hbetween y hy₁ hy₂ hy₃) hy
  have hbuffer (y : ℕ) (hy : y % 2 ^ 32 ∈ backBufferBytes) hy₁ hy₂ hy₃ : False :=
    Set.disjoint_left.mp hs.backBuffer (hbetween y hy₁ hy₂ hy₃) hy
  unfold RegionSpares
  simp only [pageTableBytes, backBufferBytes, Set.mem_Ico] at htables hbuffer
  generalize regionFrame base (regionSkip len) = first at *
  generalize regionFrameBytes len = bytes at *
  by_contra hno
  simp only [not_or, not_and, Nat.not_le] at hno
  by_cases h₁ : first < 0x300000
  · exact htables 0x300000 (by omega) (by omega) (by omega) (by omega)
  by_cases h₂ : first < 0x701000
  · exact htables first (by omega) (by omega) (by omega) (by omega)
  by_cases h₃ : first < 0xA00000
  · exact hbuffer 0xA00000 (by omega) (by omega) (by omega) (by omega)
  by_cases h₄ : first < 0xBD4C00
  · exact hbuffer first (by omega) (by omega) (by omega) (by omega)
  · exact htables (2 ^ 32 + 0x300000) (by omega) (by omega) (by omega) (by omega)

theorem RegionSpares.spares (hr : RegionSpares base len) : SparesKernel map words := by
  have hlt : regionFrame base (regionSkip len) < 2 ^ 32 := Nat.mod_lt _ (by decide)
  have hplace : ∀ x ∈ frameBytes (pmmInit map (.boot words)),
      x < 0x300000 ∨ 0x701000 ≤ x ∧ x < 0xA00000 ∨ 0xBD4C00 ≤ x := by
    intro x hx
    obtain ⟨f, hf₁, hf₂, -, hin⟩ := (mem_frameBytes words he hbase hlen).mp hx
    obtain ⟨i, rfl⟩ := Nat.exists_eq_add_of_le hf₁
    rw [regionFrame_add] at hin
    unfold RegionSpares regionFrameBytes at hr
    generalize regionFrame base (regionSkip len) = first at *
    unfold InFrame pageSize at *
    omega
  constructor
  · refine Set.disjoint_left.mpr fun x hx hx' => ?_
    have := hplace x hx
    simp only [pageTableBytes, Set.mem_Ico] at hx'
    omega
  · refine Set.disjoint_left.mpr fun x hx hx' => ?_
    have := hplace x hx
    simp only [backBufferBytes, Set.mem_Ico] at hx'
    omega

end Spare

/-- **The frames spare the kernel's memory exactly for the regions** whose frames lie beside it. -/
theorem sparesKernel_iff (map : List E820Entry) (words : ℕ → BitVec 32) :
    SparesKernel map words ↔ RegionSpares (bestRegion map).1 (bestRegion map).2 := by
  obtain ⟨hnone | ⟨e, -, hu, he⟩, -⟩ := bestRegion_spec map
  · rw [hnone]
    have hempty : frameBytes (pmmInit map (.boot words)) = ∅ := by
      rw [pmmInit_none hnone]
      refine Set.eq_empty_iff_forall_notMem.mpr fun x hx => ?_
      obtain ⟨f, hf, -⟩ := (mem_frameBytes_iff fun f hf => absurd hf.2 (Nat.not_lt_zero f)).mp hx
      exact Nat.not_lt_zero f hf.2
    refine iff_of_true ⟨?_, ?_⟩ (.inl rfl)
    · rw [hempty]
      exact Set.empty_disjoint _
    · rw [hempty]
      exact Set.empty_disjoint _
  · have hb := hu.2.1
    have hl := hu.2.2
    rw [he]
    have hbase : e.base ≠ 0 := by omega
    have hlen : e.length ≠ 0 := by omega
    exact ⟨fun hs => hs.region he hbase hlen, fun hr => hr.spares he hbase hlen⟩

/-- On a machine with a gigabyte frames overlap the page tables. -/
theorem sparesKernel_gigabyte : ¬ SparesKernel (mapOf 0x3FF00000 (by decide)) fun _ => 0 := by
  intro hs
  have hr := hs.region rfl (by decide) (by decide)
  exact absurd hr (by unfold RegionSpares; decide)

end WarkRune.Memory

import Mathlib.Algebra.Group.Int.Defs
import Mathlib.Algebra.Group.Nat.Defs
import Mathlib.Data.List.Induction
import Mathlib.Data.Nat.Basic

/-!
# The memory map of the firmware

The boot loader leaves the E820 map in low memory. `memory_init` picks the longest usable region
at or above 1 MB for the kernel heap; `pmm_init` makes the same search on its own for the frame
allocator.

## Main definitions

* `E820Entry`: an entry of the map
* `memoryInit`: the region `memory_init` keeps for `get_heap_base` and `get_heap_size`
* `bestRegion`: the region the search of `pmm_init` ends with

## Main results

* `memoryInit_eq_bestRegion`: the two searches agree
* `bestRegion_usable`: a region found is a usable one at or above 1 MB
-/

namespace WarkRune.Memory

/-- `PAGE_SIZE`. -/
def pageSize : ℕ := 4096

/-- An entry of the E820 map: two 64-bit numbers and the type. -/
structure E820Entry where
  base : ℕ
  length : ℕ
  type : ℕ
  base_lt : base < 2 ^ 64
  length_lt : length < 2 ^ 64

/-- `memory_init`, from the region kept so far. -/
def memoryInit (map : List E820Entry) (heap : ℕ × ℕ) : ℕ × ℕ :=
  map.foldl (fun (heapBase, heapSize) e =>
    if e.type = 1 ∧ e.base ≥ 0x100000 ∧ e.length > heapSize then (e.base, e.length)
    else (heapBase, heapSize)) heap

/-- The search of `pmm_init`: the base and the length of the region it ends with. -/
def bestRegion (map : List E820Entry) : ℕ × ℕ :=
  map.foldl (fun (bestBase, bestLen) e =>
    if e.type = 1 ∧ e.base ≥ 0x100000 ∧ e.length > bestLen then (e.base, e.length)
    else (bestBase, bestLen)) (0, 0)

/-- An entry is a usable region at or above 1 MB. -/
def E820Entry.Usable (e : E820Entry) : Prop := e.type = 1 ∧ e.base ≥ 0x100000 ∧ e.length > 0

/-- **The two searches agree**: at boot nothing has been kept yet. -/
theorem memoryInit_eq_bestRegion (map : List E820Entry) :
    memoryInit map (0, 0) = bestRegion map := rfl

/-- A region found is a usable one, and no usable one is longer. -/
theorem bestRegion_spec (map : List E820Entry) :
    (bestRegion map = (0, 0) ∨ ∃ e ∈ map, e.Usable ∧ bestRegion map = (e.base, e.length)) ∧
      ∀ e ∈ map, e.Usable → e.length ≤ (bestRegion map).2 := by
  unfold bestRegion
  induction map using List.reverseRecOn with
  | nil => exact ⟨.inl rfl, nofun⟩
  | append_singleton map e ih =>
    rw [List.foldl_append, List.foldl_cons, List.foldl_nil]
    obtain ⟨hfound, hmax⟩ := ih
    split
    next bestBase bestLen hbest =>
    rw [hbest] at hfound hmax
    split_ifs with he
    · -- the last entry is longer than all before it
      have hu : e.Usable := ⟨he.1, he.2.1, Nat.zero_lt_of_lt he.2.2⟩
      refine ⟨.inr ⟨e, by simp, hu, rfl⟩, fun f hf hfu => ?_⟩
      rcases List.mem_append.mp hf with hf | hf
      · exact Nat.le_trans (hmax f hf hfu) (Nat.le_of_lt he.2.2)
      · rw [List.mem_singleton.mp hf]
    · refine ⟨?_, fun f hf hfu => ?_⟩
      · refine hfound.imp_right ?_
        rintro ⟨f, hf, hfu, hfe⟩
        exact ⟨f, List.mem_append_left _ hf, hfu, hfe⟩
      · rcases List.mem_append.mp hf with hf | hf
        · exact hmax f hf hfu
        · obtain rfl := List.mem_singleton.mp hf
          by_contra hlen
          exact he ⟨hfu.1, hfu.2.1, Nat.lt_of_not_le hlen⟩

/-- **A region is found exactly when there is a usable one.** -/
theorem bestRegion_usable {map : List E820Entry} (h : ∃ e ∈ map, e.Usable) :
    ∃ e ∈ map, e.Usable ∧ bestRegion map = (e.base, e.length) := by
  obtain ⟨e, he, hu⟩ := h
  obtain ⟨hnone | hfound, hmax⟩ := bestRegion_spec map
  · have hlen := hmax e he hu
    have hpos := hu.2.2
    rw [hnone] at hlen
    omega
  · exact hfound

/-- The map of a machine with `n` bytes of memory from 1 MB on. -/
def mapOf (n : ℕ) (h : n < 2 ^ 64) : List E820Entry := [⟨0x100000, n, 1, by decide, h⟩]

end WarkRune.Memory

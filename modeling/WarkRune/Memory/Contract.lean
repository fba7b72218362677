import WarkRune.Memory.Owners

/-!
# The contract of `kmalloc`

A payload that `kmalloc` returns is aligned and has the bytes asked for to itself; null means that
no free block was large enough. The rounding of a size next to `2 ^ 32` wraps to 0, and the
alignment of the payloads is that of the pool, which is that of the region the firmware reports.

## Main definitions

* `Owns`: an aligned payload with bytes of its own
* `KmallocContract`: the contract of a call

## Main results

* `kmalloc_contract_iff`: a call keeps the contract exactly when no free block reaches the rounded
  size, or the rounding does not wrap and the pool is aligned
-/

namespace WarkRune.Memory

open Bytes (Memory)
open Exec

/-- The size rounded up to a multiple of 8. -/
def roundUp (size : ℕ) : ℕ := (size + 7) / 8 * 8

theorem alignUp_le_roundUp (size : ℕ) : alignUp size ≤ roundUp size :=
  Nat.mul_le_mul_right 8 (Nat.div_le_div_right (Nat.mod_le _ _))

/-- The rounding of `kmalloc` is large enough unless it wraps. -/
theorem le_alignUp {size : ℕ} (h : size + 8 ≤ 2 ^ 32) : size ≤ alignUp size := by
  unfold alignUp
  omega

/-- The `n` bytes at `p` are aligned, in the pool, and overlap neither a header nor a payload of
`live`. -/
structure Owns (h : Heap) (live : Finset ℕ) (p n : ℕ) : Prop where
  aligned : 8 ∣ p
  inPool : h.pool ≤ p ∧ p + n ≤ h.pool + kmallocHeapSize
  headers : ∀ as, h.Walk h.head as → ∀ a ∈ as, p + n ≤ a ∨ a + headerSize ≤ p
  payloads : ∀ q ∈ live, p + n ≤ q ∨ q + h.size (q - headerSize) ≤ p

/-- The contract of a call of `kmalloc` on `h` that returns `p` and leaves `h'`. -/
def KmallocContract (h : Heap) (live : Finset ℕ) (size p : ℕ) (h' : Heap) : Prop :=
  (p ≠ 0 → Owns h' live p size) ∧ (p = 0 → FreeBelow h (roundUp size))

variable {xs ys bs : List Block} {b : Block} {a n : ℕ} {h : Heap} {live : Finset ℕ}

theorem eight_dvd_span (hsizes : ∀ b ∈ bs, 8 ∣ b.size) : 8 ∣ span bs := by
  induction bs with
  | nil => exact Nat.dvd_zero 8
  | cons b bs ih =>
    rw [span_cons, Block.span]
    have hb := hsizes b (by simp)
    have hbs := ih fun c hc => hsizes c (by simp [hc])
    unfold headerSize
    omega

namespace Heap

variable {pool p m : ℕ} {h' : Heap}

/-- The payloads are aligned as the pool is. -/
theorem Holds.eight_dvd_iff (hh : h.Holds bs) (ha : a ∈ addrs h.pool bs) :
    8 ∣ a + headerSize ↔ 8 ∣ h.pool := by
  obtain ⟨xs, b, ys, rfl, rfl⟩ := mem_addrs_iff.mp ha
  have h8 : 8 ∣ span xs := eight_dvd_span fun c hc => hh.sizes c (by simp [hc])
  unfold headerSize
  omega

/-- **The payload just taken** is aligned as the pool is, and has its bytes to itself. -/
theorem Takes.owns (hb : h.Balanced live pool bs) (ht : h.Takes live pool bs n p h') (hm : m ≤ n)
    (h8 : 8 ∣ h.pool) : Owns h' live p m := by
  obtain ⟨bs', hb', -⟩ := ht.balanced
  have howns := hb'.owns (Finset.mem_insert_self p live) (Nat.le_trans hm ht.large)
  rw [Finset.erase_insert (ht.notMem hb)] at howns
  have halign := (hb.holds.eight_dvd_iff ht.mem).mpr h8
  rw [Nat.sub_add_cancel ht.payload] at halign
  exact ⟨halign, howns.inPool, howns.headers, howns.payloads⟩

/-- What keeps a call from breaking the contract is what the contract needs. -/
theorem Balanced.contract_iff (hb : h.Balanced live pool bs) {size : BitVec 32}
    (hsize : size ≠ 0) :
    (Memory.kmalloc size).Yields h (KmallocContract h live size.toNat) ↔
      FreeBelow h (alignUp size.toNat) ∨ size.toNat + 8 ≤ 2 ^ 32 ∧ 8 ∣ pool := by
  obtain ⟨p, h', hr, ht⟩ := hb.kmalloc_takes hsize
  have hcontract : (Memory.kmalloc size).Yields h (KmallocContract h live size.toNat) ↔
      KmallocContract h live size.toNat p h' :=
    ⟨fun hy => hy.of_returns hr, fun hc => ⟨p, h', hr, hc⟩⟩
  rw [hcontract]
  rcases ht with ⟨hp, -, hbelow⟩ | ⟨hne, ht⟩
  · refine iff_of_true ⟨fun hne => absurd hp hne, fun _ as has a ha hf => ?_⟩ (.inl hbelow)
    exact Nat.lt_of_lt_of_le (hbelow as has a ha hf) (alignUp_le_roundUp _)
  · rw [or_iff_right (ht.not_freeBelow hb), ← hb.pool_eq]
    constructor
    · rintro ⟨howns, -⟩
      obtain ⟨h8, hin, -, -⟩ := howns hne
      rw [← Nat.sub_add_cancel ht.payload] at h8
      refine ⟨?_, (hb.holds.eight_dvd_iff ht.mem).mp h8⟩
      unfold kmallocHeapSize at hin
      omega
    · rintro ⟨hlt, h8⟩
      exact ⟨fun _ => ht.owns hb (le_alignUp hlt) h8, fun h0 => absurd h0 hne⟩

end Heap

/-- **A call of `kmalloc` keeps its contract**, in every reachable state of a heap whose pool lies
below 4 GiB, exactly when no free block reaches the rounded size, or the rounding does not wrap and
the pool is aligned. -/
theorem kmalloc_contract_iff {h₀ : Heap} (hpos : 0 < heapPool h₀.heapBase)
    (hfits : heapPool h₀.heapBase + kmallocHeapSize ≤ 2 ^ 32) {s : Heap × Finset ℕ}
    (hs : HeapReachable h₀ s) {size : BitVec 32} (hsize : size ≠ 0) :
    (kmalloc size).Yields s.1 (KmallocContract s.1 s.2 size.toNat) ↔
      FreeBelow s.1 (alignUp size.toNat) ∨
        size.toNat + 8 ≤ 2 ^ 32 ∧ 8 ∣ heapPool h₀.heapBase := by
  obtain ⟨bs, hb⟩ := hs.balanced hpos hfits
  exact hb.contract_iff hsize

/-- A heap whose region starts at 1 MB, before `kmalloc_init`. -/
def lowHeap : Heap := ⟨fun _ => 0, 0x100000, 0, 0, false⟩

/-- The theorem for a hundred bytes of a fresh heap. -/
theorem kmalloc_contract_fresh : ∃ h, HeapReachable lowHeap (h, ∅) ∧
    (kmalloc 100).Yields h (KmallocContract h ∅ 100) := by
  obtain ⟨h, hr, -⟩ := exists_reachable_init lowHeap
  exact ⟨h, hr, (kmalloc_contract_iff (by decide) (by decide) hr (by decide)).mpr
    (.inr (by decide))⟩

/-- A size next to `2 ^ 32` is rounded to 0, and the fresh heap hands out a payload for it. -/
theorem kmalloc_contract_wraps : ∃ h, HeapReachable lowHeap (h, ∅) ∧
    ¬ (kmalloc 0xFFFFFFFF).Yields h (KmallocContract h ∅ 0xFFFFFFFF) := by
  obtain ⟨_, h, hr, hh, -⟩ := Heap.kmallocInit_yields (h := lowHeap) (by decide) (by decide)
  have hreach : HeapReachable lowHeap (h, ∅) := .init hr
  obtain ⟨bs, hb⟩ := hreach.balanced (by decide) (by decide)
  refine ⟨h, hreach, fun hy => ?_⟩
  have hsize : (0xFFFFFFFF : BitVec 32) ≠ 0 := by decide
  rcases (hb.contract_iff hsize).mp hy with hbelow | ⟨hlt, -⟩
  · have := hh.freeBelow_iff.mp hbelow _ (List.mem_singleton_self _) rfl
    exact absurd this (by decide)
  · revert hlt
    decide

end WarkRune.Memory

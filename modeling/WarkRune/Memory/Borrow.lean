import WarkRune.Memory.Contract

/-!
# Borrowing a payload

A caller that takes a payload, writes its bytes and gives it back leaves the heap with the
payloads it had before. Memory outside the headers of the blocks may change meanwhile.

## Main definitions

* `Heap.HasLive h live`: the payloads in use of a heap that is well formed
* `Heap.Borrowed h live p n`: `n` bytes at `p` are in use beside the payloads `live`
* `Heap.headers h`: the bytes of the headers of all blocks

## Main results

* `kmalloc_borrowed`, `Heap.Borrowed.storeBytes`, `Heap.Borrowed.kfree`: taking a payload, writing
  it, and giving it back, whatever has been stored outside the headers meanwhile
-/

namespace WarkRune.Memory

open Bytes (Memory)
open Exec

namespace Heap

/-- The pool holds blocks whose payloads in use are `live`. -/
def HasLive (h : Heap) (live : List (ℕ × ℕ)) : Prop :=
  ∃ bs, h.Holds bs ∧ payloads h.pool bs = live

/-- The `n` bytes at `p` belong to a payload in use; the others in use are `live`. -/
def Borrowed (h : Heap) (live : List (ℕ × ℕ)) (p n : ℕ) : Prop :=
  ∃ xs b ys, h.Holds (xs ++ b :: ys) ∧ p = h.pool + span xs + headerSize ∧ n ≤ b.size ∧
    payloads h.pool (xs ++ ⟨b.size, true⟩ :: ys) = live

variable {h : Heap} {live : List (ℕ × ℕ)} {p n : ℕ} {m : Memory}

/-- The bytes of the headers of all blocks. -/
def headers (h : Heap) : Set ℕ :=
  {a | ∃ bs, h.Holds bs ∧ ∃ x ∈ addrs h.pool bs, a ∈ headerBytes x}

theorem headers_subset : h.headers ⊆ Set.Ico h.pool (h.pool + kmallocHeapSize) := by
  rintro a ⟨bs, hh, x, hx, ha⟩
  obtain ⟨xs, b, ys, rfl, rfl⟩ := mem_addrs_iff.mp hx
  have hbounds := hh.bounds
  rw [mem_headerBytes] at ha
  exact ⟨by omega, by omega⟩

/-- The blocks depend on the bytes of the headers. -/
theorem Holds.congr_headers {bs : List Block} (hh : h.Holds bs) (hm : Set.EqOn m h.mem h.headers) :
    ({ h with mem := m } : Heap).Holds bs :=
  hh.of_headers sameStatics_refl fun x hx _ hle hlt => hm ⟨bs, hh, x, hx, hle, hlt⟩

/-- The bytes borrowed are in the pool. -/
theorem Borrowed.bounds (hb : h.Borrowed live p n) :
    h.pool ≤ p ∧ p + n ≤ h.pool + kmallocHeapSize ∧ h.pool + kmallocHeapSize ≤ 2 ^ 32 := by
  obtain ⟨xs, b, ys, hh, rfl, hn, -⟩ := hb
  have := hh.bounds
  have := hh.fits
  omega

/-- **Writing the bytes borrowed** changes no block. -/
theorem Borrowed.storeBytes {bytes : List (BitVec 8)} (hb : h.Borrowed live p n)
    (hlen : bytes.length ≤ n) :
    ({ h with mem := h.mem.storeBytes p bytes } : Heap).Borrowed live p n := by
  obtain ⟨xs, b, ys, hh, rfl, hn, hlive⟩ := hb
  have hbl := hh.block_le
  have hspan : span [b] = headerSize + b.size := by rw [span_cons, span_nil, Block.span]; rfl
  refine ⟨xs, b, ys, ?_, rfl, hn, hlive⟩
  -- the headers before, of and behind the block keep their bytes
  have hout {a k : ℕ} (hd : h.pool + span xs + headerSize + bytes.length ≤ a ∨
      a + k ≤ h.pool + span xs + headerSize) : Memory.SameOn h.mem
      (h.mem.storeBytes (h.pool + span xs + headerSize) bytes) a k :=
    Memory.sameOn_storeBytes (by omega) hd
  refine hh.replace [b] [b] (by simp) (by simp) rfl (fun c hc => ?_) (fun h => h)
    sameStatics_refl (hout (.inr (by omega))) (hout (.inl (by omega))) ⟨?_, trivial⟩
  · rw [List.mem_singleton.mp hc]
    exact hh.sizes b (by simp)
  · have hat := hh.headerAt
    unfold HeaderAt at hat ⊢
    rw [header_congr (hout (.inr (Nat.le_refl _))) (by omega), hat]
    rfl

/-- The bytes that merging writes once a block is freed are bytes of headers. -/
theorem joinBytes_subset_headers {xs ys : List Block} {b : Block} (hh : h.Holds (xs ++ b :: ys)) :
    joinBytes h.pool (xs ++ ⟨b.size, true⟩ :: ys) ⊆ h.headers := by
  rintro a ⟨zs, d, e, es, hsplit, -, -, ha⟩
  have haddrs : addrs h.pool (xs ++ b :: ys) = addrs h.pool (zs ++ d :: e :: es) := by
    rw [← hsplit, addrs_append, addrs_append]
    rfl
  exact ⟨_, hh, _, haddrs ▸ mem_addrs_iff.mpr ⟨zs, d, e :: es, rfl, rfl⟩, ha⟩

/-- **Giving the payload back** leaves the others in use and writes headers of blocks only, when
nothing has been stored to the headers meanwhile. -/
theorem Borrowed.kfree (hb : h.Borrowed live p n) (hm : Set.EqOn m h.mem h.headers) :
    (Memory.kfree p).Yields ({ h with mem := m } : Heap) fun _ h' =>
      h'.HasLive live ∧ Set.EqOn h'.mem m h.headersᶜ := by
  obtain ⟨xs, b, ys, hh, rfl, -, rfl⟩ := hb
  refine (kfree_writes (hh.congr_headers hm)).mono fun _ h' hspec => ⟨⟨_, hspec.2.1, ?_⟩, ?_⟩
  · rw [payloads_merge, hspec.1.1]
  · refine hspec.2.2.mono (Set.compl_subset_compl.mpr (Set.union_subset ?_ ?_))
    · exact fun a ha => ⟨_, hh, _, mem_addrs_iff.mpr ⟨xs, b, ys, rfl, rfl⟩, ha⟩
    · exact joinBytes_subset_headers hh

end Heap

/-- **Taking a payload** leaves the others in use, or nothing changes and the result is null. -/
theorem kmalloc_borrowed {h : Heap} {live : List (ℕ × ℕ)} (hl : h.HasLive live)
    {size : BitVec 32} (hsize : size ≠ 0) (hlt : size.toNat + 8 ≤ 2 ^ 32) :
    (kmalloc size).Yields h fun p h' =>
      p = 0 ∧ h' = h ∨ p ≠ 0 ∧ h'.pool = h.pool ∧ h'.Borrowed live p size.toNat := by
  obtain ⟨bs, hh, rfl⟩ := hl
  refine (Heap.kmalloc_yields hh hsize).mono fun p h' ht => ?_
  rcases ht with ⟨hp, he, -⟩ | ⟨as, b, cs, rfl, hfree, hle, -, hp, hstat, hh'⟩
  · exact .inl ⟨hp, he⟩
  rw [List.nil_append] at hp hh'
  refine .inr ⟨?_, hstat.1, ?_⟩
  · rw [hp]
    unfold headerSize
    omega
  have hlive := @payloads_carve cs b (h.pool + span as) (alignUp size.toNat)
  obtain ⟨ds, hds⟩ := carve_eq_cons (alignUp size.toNat) b
  rw [hds, List.append_assoc, List.cons_append] at hh'
  rw [hds, List.cons_append, payloads_used rfl, List.cons.injEq] at hlive
  refine ⟨as, _, ds ++ cs, hh', by rw [hp, hstat.1], ?_, ?_⟩
  · exact (le_alignUp hlt).trans (le_carved hle)
  · rw [hstat.1, payloads_append, payloads_append, payloads_free rfl, payloads_free hfree]
    exact congrArg _ hlive.2

end WarkRune.Memory

import WarkRune.Memory.Krealloc

/-!
# Freeing what is not handed out

`kfree` tells a payload by the magic word in front of it. The word is also in front of a payload
that has been freed, it stays behind when blocks are merged, and an owner may write it into its
payload. `kfree` then sets one byte to 1, the `free` field of a header that is not there. No two
neighbours are free, so nothing is merged, and the byte is all that changes: the call is harmless
exactly when that byte is 1 already or belongs to no header and to no payload.

## Main definitions

* `hdrOf`, `freeField`: the header that `kfree` takes to be in front of a pointer, and its `free`
* `Untouched`: the list of blocks and the payloads are as before
* `Spares`: the call sets no byte of a header or a payload
* `StrayReachable`: runs in which pointers that are not handed out are freed, and spare the heap

## Main results

* `Heap.Balanced.kfree_stray`: what such a call does
* `kfree_stray_iff`: it leaves the heap untouched exactly when it spares it
-/

namespace WarkRune.Memory

open Bytes (Memory)
open Exec

/-- `hdr` in `kfree`: the header in front of a pointer. -/
def hdrOf (p : BitVec 32) : ℕ := (p.toNat + 2 ^ 32 - headerSize) % 2 ^ 32

/-- The address of `hdr->free` in `kfree`. -/
def freeField (p : BitVec 32) : ℕ := (hdrOf p + 8) % 2 ^ 32

/-- The list of blocks is as before, header by header, and so is every payload of `live`. -/
structure Untouched (h : Heap) (live : Finset ℕ) (h' : Heap) : Prop where
  blocks : ∃ as, h.Walk h.head as ∧ h'.Walk h'.head as ∧ ∀ a ∈ as, h'.header a = h.header a
  payloads : ∀ q ∈ live, Memory.SameOn h.mem h'.mem q (h.size (q - headerSize))

/-- The address `x` is in no header of the list and in no payload of `live`. -/
def Unowned (h : Heap) (live : Finset ℕ) (x : ℕ) : Prop :=
  (∀ as, h.Walk h.head as → ∀ a ∈ as, x ∉ Heap.headerBytes a) ∧
    ∀ q ∈ live, x ∉ Set.Ico q (q + h.size (q - headerSize))

/-- Freeing the pointer `p` sets no byte of a header or a payload: `kfree` takes it for null or for
no payload, or the byte that it sets is 1 already or nobody's. -/
def Spares (h : Heap) (live : Finset ℕ) (p : BitVec 32) : Prop :=
  p = 0 ∨ h.magic (hdrOf p) ≠ blockMagic ∨ h.mem (freeField p) = 1#8 ∨ Unowned h live (freeField p)

namespace Heap

variable {h h' : Heap} {bs : List Block} {live : Finset ℕ} {pool a : ℕ} {p : BitVec 32}

/-! ## Nothing to merge -/

/-- `merge_free_blocks` changes nothing when no two neighbours of the list are free. -/
theorem mergeLoop_idle {as : List ℕ} (hw : h.Walk a as)
    (hn : as.IsChain fun a b => ¬ (h.free a ≠ 0 ∧ h.free b ≠ 0)) :
    (loop mergeRound a).Yields h fun _ h' => h' = h := by
  induction as generalizing a with
  | nil =>
    obtain rfl : a = 0 := hw
    rw [yields_loop]
    simp only [mergeRound, yields_bind, yields_get]
    rw [if_neg (fun hc => hc.1 rfl), yields_pure, resumes_inr]
  | cons b as ih =>
    obtain ⟨rfl, hne, hw⟩ := hw
    rw [yields_loop]
    simp only [mergeRound, yields_bind, yields_get]
    cases as with
    | nil =>
      have hnext : h.next a = 0 := hw
      rw [if_neg (fun hc => hc.2 hnext), yields_pure, resumes_inr]
    | cons c as =>
      obtain ⟨hapart, hn⟩ := List.isChain_cons_cons.mp hn
      have hrest := ih hw hn
      obtain ⟨rfl, hc, -⟩ := hw
      rw [if_pos ⟨hne, hc⟩, if_neg hapart, yields_pure, resumes_inl]
      exact hrest

theorem Walk.congr {as : List ℕ} (hw : h.Walk a as) (hnext : ∀ b ∈ as, h'.next b = h.next b) :
    h'.Walk a as := by
  induction as generalizing a with
  | nil => exact hw
  | cons b as ih =>
    refine ⟨hw.1, hw.2.1, ?_⟩
    rw [hnext b (List.mem_cons_self ..)]
    exact ih hw.2.2 fun c hc => hnext c (List.mem_cons_of_mem b hc)

/-! ## The byte that is set -/

theorem setFree_mem (h : Heap) (p : BitVec 32) :
    (h.setFree (hdrOf p) 1).mem = Function.update h.mem (freeField p) 1#8 := by
  unfold setFree Memory.store8 freeField
  rw [show BitVec.ofNat 8 1 = 1#8 from rfl]

/-- A magic word does not start inside the first two fields of a header. -/
theorem Holds.not_magic (hh : h.Holds bs) (ha : a ∈ addrs h.pool bs) {i : ℕ} (hi : 0 < i)
    (hi' : i < 8) : h.magic (a + i) ≠ blockMagic := by
  intro hmagic
  have hmagic' := hh.magic_at ha
  have hpool := hh.in_pool ha
  have hfits := hh.fits
  have hsize : h.size a < 2 ^ 20 := by
    unfold kmallocHeapSize at hpool
    omega
  unfold magic size blockMagic Memory.load32 at *
  -- the bytes of the word in the header, and those of the word that starts inside it
  have h₀ := @Memory.load8_lt h.mem a
  have h₁ := @Memory.load8_lt h.mem (a + 1)
  have h₂ := @Memory.load8_lt h.mem (a + 2)
  have h₃ := @Memory.load8_lt h.mem (a + 3)
  have h₄ := @Memory.load8_lt h.mem (a + 4)
  have h₅ := @Memory.load8_lt h.mem (a + 5)
  have h₆ := @Memory.load8_lt h.mem (a + 6)
  have h₇ := @Memory.load8_lt h.mem (a + 7)
  have h₈ := @Memory.load8_lt h.mem (a + 8)
  have h₉ := @Memory.load8_lt h.mem (a + 9)
  have h₁₀ := @Memory.load8_lt h.mem (a + 10)
  simp only [Nat.add_assoc, Nat.reduceAdd] at hsize
  obtain rfl | rfl | rfl | rfl | rfl | rfl | rfl : i = 1 ∨ i = 2 ∨ i = 3 ∨ i = 4 ∨ i = 5 ∨
      i = 6 ∨ i = 7 := by omega
  all_goals
    simp only [Nat.add_assoc, Nat.reduceAdd] at hmagic
    omega

/-- Two headers with the same fields have the same bytes in their first two. -/
theorem byte_eq_of_header {x : ℕ} (heq : h'.header a = h.header a) (ha : a + 8 ≤ 2 ^ 32)
    (hle : a ≤ x) (hlt : x < a + 8) : h'.mem x = h.mem x := by
  obtain ⟨h₀, h₁, h₂, h₃⟩ := Memory.load32_inj.mp (congrArg Header.magic heq)
  obtain ⟨h₄, h₅, h₆, h₇⟩ := Memory.load32_inj.mp (congrArg Header.size heq)
  have hbyte : h'.mem.load8 x = h.mem.load8 x := by
    obtain rfl | rfl | rfl | rfl | rfl | rfl | rfl | rfl : x = a ∨ x = a + 1 ∨ x = a + 2 ∨
        x = a + 3 ∨ x = a + 4 ∨ x = a + 4 + 1 ∨ x = a + 4 + 2 ∨ x = a + 4 + 3 := by omega
    all_goals assumption
  unfold Memory.load8 at hbyte
  rw [Nat.mod_eq_of_lt (by omega)] at hbyte
  exact BitVec.eq_of_toNat_eq hbyte

namespace Balanced

section Stray

variable (hb : h.Balanced live pool bs) (hp : p.toNat ∉ live)
include hb hp

/-- The `free` field of a header on the list that is no payload's in use is 1. -/
theorem free_of_stray (hmem : hdrOf p ∈ addrs h.pool bs) : h.mem (freeField p) = 1#8 := by
  have hpool := hb.holds.in_pool hmem
  have hfits := hb.holds.fits
  have hlt := p.isLt
  have hpos := hb.holds.pos
  obtain ⟨xs, b, ys, rfl, heq⟩ := mem_addrs_iff.mp hmem
  have hpayload := hb.holds.payload_lt
  have hat := hb.holds.headerAt
  rw [← heq] at hat hpayload
  have hfree : b.free = true := by
    by_contra hused
    refine hp (hb.mem_live_iff.mpr ⟨hdrOf p, hmem, ?_, ?_⟩)
    · by_contra hne
      exact hused (hat.free_iff.mp hne)
    · unfold hdrOf headerSize at *
      omega
  have hone : h.mem.load8 (hdrOf p + 8) = 1 := by
    have hfield : h.free (hdrOf p) = b.free.toNat := congrArg Header.free hat
    rwa [hfree] at hfield
  exact BitVec.eq_of_toNat_eq hone

/-- Where a header on the list and the byte that is set meet. -/
theorem freeField_lt (hmagic : h.magic (hdrOf p) = blockMagic) (hne : h.mem (freeField p) ≠ 1#8)
    (ha : a ∈ addrs h.pool bs) (hin : freeField p ∈ headerBytes a) : freeField p < a + 8 := by
  have hpool := hb.holds.in_pool ha
  have hfits := hb.holds.fits
  have hpos := hb.holds.pos
  rw [mem_headerBytes] at hin
  by_contra hge
  -- otherwise the magic word starts at the header or inside its first two fields
  obtain ⟨i, hi, heq⟩ : ∃ i, i < 8 ∧ hdrOf p = a + i := by
    refine ⟨hdrOf p - a, ?_⟩
    unfold freeField hdrOf headerSize at *
    omega
  rcases Nat.eq_zero_or_pos i with rfl | hpos'
  · exact hne (hb.free_of_stray hp (heq ▸ ha))
  · exact hb.holds.not_magic ha hpos' hi (heq ▸ hmagic)

/-- **What `kfree` does with a pointer that is not handed out**: it sets one byte, or nothing. -/
theorem kfree_stray : (Memory.kfree p.toNat).Yields h fun _ h' =>
    h' = if p = 0 ∨ h.magic (hdrOf p) ≠ blockMagic then h else h.setFree (hdrOf p) 1 := by
  have hhdr : (p.toNat + 2 ^ 32 - headerSize) % 2 ^ 32 = hdrOf p := rfl
  unfold Memory.kfree
  simp only [yields_bind, yields_get]
  rw [hhdr]
  by_cases hnull : p = 0
  · subst hnull
    rw [if_pos (by rfl), yields_pure, if_pos (.inl rfl)]
  have hne : p.toNat ≠ 0 := fun h0 => hnull (BitVec.eq_of_toNat_eq h0)
  rw [if_neg hne]
  by_cases hmagic : h.magic (hdrOf p) = blockMagic
  swap
  · rw [if_pos hmagic, yields_pure, if_pos (.inr hmagic)]
  rw [if_neg (not_not_intro hmagic), if_neg (not_or.mpr ⟨hnull, not_not_intro hmagic⟩)]
  simp only [yields_bind, yields_modify]
  unfold mergeFreeBlocks
  simp only [yields_bind, yields_get]
  -- the byte that is set may lie in a header, but in none of the fields the merge reads
  have hfields : ∀ a ∈ addrs h.pool bs, (h.setFree (hdrOf p) 1).next a = h.next a ∧
      (h.setFree (hdrOf p) 1).free a = h.free a := by
    intro a ha
    have hpool := hb.holds.in_pool ha
    have hfits := hb.holds.fits
    have hsame : Memory.SameOn h.mem (h.setFree (hdrOf p) 1).mem (a + 8) 8 := by
      intro x hle hlt
      rw [setFree_mem]
      by_cases hx : x = freeField p
      · rw [hx, Function.update_self]
        by_contra hne
        have hin : freeField p ∈ headerBytes a := mem_headerBytes.mpr (by unfold headerSize; omega)
        have := hb.freeField_lt hp hmagic (Ne.symm hne) ha hin
        omega
      · rw [Function.update_of_ne hx]
    unfold headerSize at hpool
    exact ⟨(hsame.mono (by omega) (by omega)).load32 (by omega),
      (hsame.mono (by omega) (by omega)).load8 (by omega)⟩
  refine mergeLoop_idle (hb.holds.walk.congr fun a ha => (hfields a ha).1) ?_
  -- no two neighbours are free, so the merge joins nothing
  have happ := (hb.holds.tiling hb.noTwoFree).apart
  refine happ.imp_of_mem_imp fun a c ha hc hno => ?_
  rwa [(hfields a ha).2, (hfields c hc).2]

/-- A call that spares the heap changes no byte of a header or a payload. -/
theorem kfree_spares (hs : Spares h live p) : (Memory.kfree p.toNat).Yields h fun _ h' =>
    h.SameStatics h' ∧ ∀ x, ¬ Unowned h live x → h'.mem x = h.mem x := by
  refine (hb.kfree_stray hp).mono fun _ h' heq => ?_
  rw [heq]
  split_ifs with hskip
  · exact ⟨sameStatics_refl, fun _ _ => rfl⟩
  refine ⟨sameStatics_refl, fun x hx => ?_⟩
  rw [setFree_mem]
  rcases hs with hnull | hmagic | hone | hfree
  · exact absurd (.inl hnull) hskip
  · exact absurd (.inr hmagic) hskip
  · rw [← hone, Function.update_eq_self]
  · refine Function.update_of_ne (fun he => hx ?_) _ _
    rwa [he]

/-- A call that leaves the heap untouched spares it. -/
theorem spares_of_untouched
    (hy : (Memory.kfree p.toNat).Yields h fun _ h' => Untouched h live h') :
    Spares h live p := by
  obtain ⟨_, h', hr, hun⟩ := hy
  have heq := (hb.kfree_stray hp).of_returns hr
  by_cases hskip : p = 0 ∨ h.magic (hdrOf p) ≠ blockMagic
  · exact hskip.elim .inl fun hmagic => .inr (.inl hmagic)
  rw [if_neg hskip] at heq
  have hmagic : h.magic (hdrOf p) = blockMagic := by
    by_contra hne
    exact hskip (.inr hne)
  subst heq
  -- if the byte was not 1, it has changed, so it is nobody's
  by_cases hone : h.mem (freeField p) = 1#8
  · exact .inr (.inr (.inl hone))
  have hset : (h.setFree (hdrOf p) 1).mem (freeField p) ≠ h.mem (freeField p) := by
    rw [setFree_mem, Function.update_self]
    exact Ne.symm hone
  refine .inr (.inr (.inr ⟨fun as has a ha hin => hset ?_, fun q hq hin => hset ?_⟩))
  · -- the byte is in one of the first two fields, and these are as before
    obtain ⟨cs, hcs, -, hsame⟩ := hun.blocks
    obtain rfl := has.det hcs
    have hmem := hb.holds.mem_walk_iff.mp ⟨as, has, ha⟩
    have hlt := hb.freeField_lt hp hmagic hone hmem hin
    have hpool := hb.holds.in_pool hmem
    have hfits := hb.holds.fits
    unfold headerSize at hpool
    rw [mem_headerBytes] at hin
    exact byte_eq_of_header (hsame a ha) (by omega) hin.1 hlt
  · exact hun.payloads q hq _ hin.1 hin.2

end Stray

/-- What changes no byte of a header or a payload leaves the heap untouched. -/
theorem untouched (hb : h.Balanced live pool bs) (hstat : h.SameStatics h')
    (heq : ∀ x, ¬ Unowned h live x → h'.mem x = h.mem x) :
    Untouched h live h' ∧ h'.Balanced live pool bs := by
  have hheader : ∀ a ∈ addrs h.pool bs, Memory.SameOn h.mem h'.mem a headerSize :=
    fun a ha x hle hlt => heq x fun hun => hun.1 _ hb.holds.walk a ha ⟨hle, hlt⟩
  have hholds := hb.holds.of_headers hstat hheader
  refine ⟨⟨⟨addrs h.pool bs, hb.holds.walk, ?_, fun a ha => ?_⟩, fun q hq x hle hlt => ?_⟩, ?_⟩
  · rw [← hstat.1]
    exact hholds.walk
  · have hpool := hb.holds.in_pool ha
    have hfits := hb.holds.fits
    exact header_congr (hheader a ha) (by omega)
  · exact heq x fun hun => hun.2 q hq ⟨hle, hlt⟩
  · exact ⟨hholds, hb.noTwoFree, hstat.1.trans hb.pool_eq, hb.live_iff⟩

end Balanced

end Heap

/-! ## Runs -/

/-- The states of the runs after `kmalloc_init` from `h₀` in which the owners use the heap and
pointers that are not handed out are freed, each sparing the heap. -/
inductive StrayReachable (h₀ : Heap) : Heap × Finset ℕ → Prop
  | init {h : Heap} : kmallocInit.Returns h₀ () h → StrayReachable h₀ (h, ∅)
  | owner {s s' : Heap × Finset ℕ} {c : OwnerCall} : StrayReachable h₀ s → c.Fits s.1 →
    OwnerStep s c s' → StrayReachable h₀ s'
  | stray {h h' : Heap} {live : Finset ℕ} {p : BitVec 32} : StrayReachable h₀ (h, live) →
    p.toNat ∉ live → Spares h live p → (kfree p.toNat).Returns h () h' →
    StrayReachable h₀ (h', live)

variable {h₀ : Heap} (hpos : 0 < heapPool h₀.heapBase)
  (hfits : heapPool h₀.heapBase + kmallocHeapSize ≤ 2 ^ 32)
include hpos hfits

/-- **The heap is balanced** in every state of a run whose stray calls spare it. -/
theorem StrayReachable.balanced {s : Heap × Finset ℕ} (hs : StrayReachable h₀ s) :
    ∃ bs, s.1.Balanced s.2 (heapPool h₀.heapBase) bs := by
  induction hs with
  | init hinit => exact (Heap.kmallocInit_balanced hpos hfits).of_returns hinit
  | owner _ hfit hstep ih =>
    obtain ⟨bs, hb⟩ := ih
    exact hb.ownerStep hfit hstep
  | stray _ hp hspares hr ih =>
    obtain ⟨bs, hb⟩ := ih
    obtain ⟨hstat, heq⟩ := (hb.kfree_spares hp hspares).of_returns hr
    exact ⟨bs, (hb.untouched hstat heq).2⟩

/-- **Freeing a pointer that is not handed out** leaves the list of blocks and every payload
untouched, in every state of a run whose stray calls spare the heap, exactly when it spares it. -/
theorem kfree_stray_iff {s : Heap × Finset ℕ} (hs : StrayReachable h₀ s) {p : BitVec 32}
    (hp : p.toNat ∉ s.2) :
    (kfree p.toNat).Yields s.1 (fun _ h' => Untouched s.1 s.2 h') ↔ Spares s.1 s.2 p := by
  obtain ⟨bs, hb⟩ := hs.balanced hpos hfits
  constructor
  · exact hb.spares_of_untouched hp
  · intro hspares
    exact (hb.kfree_spares hp hspares).mono fun _ _ hspec => (hb.untouched hspec.1 hspec.2).1

omit hpos hfits

/-- A first run: 64 bytes are taken, and bytes are written into them. -/
def firstWrite (bytes : List (BitVec 8)) : Exec Heap ℕ := do
  kmallocInit
  let p ← kmalloc 64
  modify fun h => { h with mem := h.mem.storeBytes p bytes }
  return p

theorem firstWrite_reachable {bytes : List (BitVec 8)} {h : Heap} {p : ℕ}
    (hr : (firstWrite bytes).Returns lowHeap p h) (hp : p ≠ 0) (hlen : bytes.length ≤ 64) :
    StrayReachable lowHeap (h, {p}) := by
  obtain ⟨_, h₁, hinit, hr⟩ := returns_bind.mp hr
  obtain ⟨q, h₂, htake, hr⟩ := returns_bind.mp hr
  obtain ⟨_, h₃, hwrite, hr⟩ := returns_bind.mp hr
  obtain ⟨rfl, rfl⟩ := returns_pure.mp hr
  obtain rfl := returns_modify.mp hwrite
  have hreach : StrayReachable lowHeap (h₁, ∅) := .init hinit
  obtain ⟨bs, hb⟩ := hreach.balanced (by decide) (by decide)
  have hstep : StrayReachable lowHeap _ :=
    .owner (c := .heap (.kmalloc 64)) hreach trivial (.heap (.kmalloc htake))
  rw [if_neg hp, insert_empty_eq] at hstep
  rcases (hb.kmalloc_takes (by decide)).of_returns htake with ⟨h0, -⟩ | ⟨-, ht⟩
  · exact absurd h0 hp
  have hround : alignUp (64 : BitVec 32).toNat = 64 := by decide
  have hlarge := ht.large
  rw [hround] at hlarge
  exact .owner (c := .write (p + 0) bytes) hstep trivial
    (.write (Finset.mem_singleton_self p) (by omega))

/-- The theorem for a pointer into a payload of zeros: there is no magic word in front of it. -/
theorem kfree_stray_zeros : ∃ h, StrayReachable lowHeap (h, {0x108010}) ∧
    (kfree (0x108020#32).toNat).Yields h fun _ h' => Untouched h {0x108010} h' := by
  have hrun : ((firstWrite [0, 0, 0, 0]).run 3 lowHeap).map
      (fun r => (r.1, decide (r.2.magic (hdrOf 0x108020) = blockMagic))) =
        some (0x108010, false) := by
    decide +kernel
  obtain ⟨⟨p, h⟩, hr, heq⟩ := Option.map_eq_some_iff.mp hrun
  obtain ⟨rfl, hmagic⟩ := Prod.mk.inj heq
  have hreach := firstWrite_reachable ⟨3, hr⟩ (by decide) (by decide)
  have hstray : (0x108020#32).toNat ∉ ({0x108010} : Finset ℕ) := by decide
  exact ⟨h, hreach, (kfree_stray_iff (by decide) (by decide) hreach hstray).mpr
    (.inr (.inl (of_decide_eq_false hmagic)))⟩

/-- An owner writes the magic word into its payload: freeing the pointer 16 bytes behind it changes
a byte of the payload. -/
theorem kfree_stray_forged : ∃ h, StrayReachable lowHeap (h, {0x108010}) ∧
    ¬ (kfree (0x108020#32).toNat).Yields h fun _ h' => Untouched h {0x108010} h' := by
  have hrun : ((firstWrite [0xEF, 0xBE, 0xAD, 0xDE]).run 3 lowHeap).map
      (fun r => (r.1, r.2.magic (hdrOf 0x108020), r.2.mem (freeField 0x108020),
        r.2.size (0x108010 - headerSize))) = some (0x108010, blockMagic, 0, 64) := by
    decide +kernel
  obtain ⟨⟨p, h⟩, hr, heq⟩ := Option.map_eq_some_iff.mp hrun
  obtain ⟨rfl, hrest⟩ := Prod.mk.inj heq
  obtain ⟨hmagic, hrest⟩ := Prod.mk.inj hrest
  obtain ⟨hzero, hsize⟩ := Prod.mk.inj hrest
  have hreach := firstWrite_reachable ⟨3, hr⟩ (by decide) (by decide)
  obtain ⟨bs, hb⟩ := hreach.balanced (by decide) (by decide)
  have hstray : (0x108020#32).toNat ∉ ({0x108010} : Finset ℕ) := by decide
  refine ⟨h, hreach, fun hy => ?_⟩
  rcases hb.spares_of_untouched hstray hy with hnull | hno | hone | hun
  · exact absurd hnull (by decide)
  · exact hno hmagic
  · exact absurd (hzero.symm.trans hone) (by decide)
  · refine hun.2 _ (Finset.mem_singleton_self _) (Set.mem_Ico.mpr ⟨by decide, ?_⟩)
    exact Nat.lt_of_lt_of_eq (by decide) (congrArg (0x108010 + ·) hsize).symm

end WarkRune.Memory

import WarkRune.Memory.Kmalloc
import WarkRune.Memory.Map
import Mathlib.Data.Finset.Basic
import Mathlib.Data.List.Chain

/-!
# Tiling of the heap's pool

The property of the heap is about its headers: the list from `heap_head` visits blocks that lie one
behind the other and fill the pool. It holds after every run of `kmalloc` and `kfree` when the pool
lies below 4 GiB, and `kmalloc_init` never checks that it does: the pool's address is a 64-bit sum
cut to 32 bits.

## Main definitions

* `Heap.Walk`, `Heap.Tiling`: the list of the headers, and what it promises
* `HeapCall`, `HeapStep`, `HeapReachable`: runs of the heap, with the payloads handed out
* `Heap.Balanced`: the invariant of the runs

## Main results

* `HeapReachable.balanced`: the invariant holds in every reachable state
* `heap_tiling_iff`: the headers tile the pool after every run exactly when the pool lies below
  4 GiB
-/

namespace WarkRune.Memory

open Bytes (Memory)
open Exec

/-! ## Lists of blocks -/

/-- No two neighbours are both free. -/
def NoTwoFree (bs : List Block) : Prop := bs.IsChain fun b c => ¬ (b.free = true ∧ c.free = true)

/-- The payloads in use of blocks laid from `a`: their addresses and sizes. -/
def payloads (a : ℕ) : List Block → List (ℕ × ℕ)
  | [] => []
  | b :: bs =>
    if b.free then payloads (a + b.span) bs
    else (a + headerSize, b.size) :: payloads (a + b.span) bs

variable {xs ys bs : List Block} {b c : Block} {a aligned : ℕ}

theorem payloads_append : payloads a (xs ++ ys) = payloads a xs ++ payloads (a + span xs) ys := by
  induction xs generalizing a with
  | nil => simp [payloads]
  | cons b xs ih =>
    have hspan : a + b.span + span xs = a + span (b :: xs) := by
      rw [span_cons]
      omega
    rw [List.cons_append, payloads, payloads, ih, hspan]
    split <;> simp

theorem payloads_free (hb : b.free = true) : payloads a (b :: bs) = payloads (a + b.span) bs := by
  rw [payloads, if_pos hb]

theorem payloads_used (hb : b.free = false) :
    payloads a (b :: bs) = (a + headerSize, b.size) :: payloads (a + b.span) bs := by
  rw [payloads, if_neg (by rw [hb]; exact Bool.false_ne_true)]

/-- Merging keeps the payloads in use. -/
theorem payloads_mergeInto : payloads a (mergeInto b ys) = payloads a (b :: ys) := by
  induction ys generalizing a b with
  | nil => rfl
  | cons c cs ih =>
    rw [mergeInto]
    split_ifs with hfree
    · rw [ih, payloads_free (by exact hfree.1), payloads_free hfree.1, payloads_free hfree.2]
      congr 1
      simp only [Block.span]
      omega
    · cases hb : b.free with
      | true => rw [payloads_free hb, payloads_free hb, ih]
      | false => rw [payloads_used hb, payloads_used hb, ih]

theorem payloads_merge : payloads a (merge bs) = payloads a bs := by
  cases bs with
  | nil => rfl
  | cons b bs => exact payloads_mergeInto

/-- Merging starts with a block as free as the first. -/
theorem mergeInto_head : ∃ d ds, mergeInto b ys = d :: ds ∧ d.free = b.free := by
  induction ys generalizing b with
  | nil => exact ⟨b, [], rfl, rfl⟩
  | cons c cs ih =>
    rw [mergeInto]
    split_ifs
    · obtain ⟨d, ds, hd, hfree⟩ := ih (b := ⟨b.size + (headerSize + c.size), b.free⟩)
      exact ⟨d, ds, hd, hfree⟩
    · exact ⟨b, _, rfl, rfl⟩

/-- **Merging leaves no two neighbours free.** -/
theorem noTwoFree_mergeInto : NoTwoFree (mergeInto b ys) := by
  induction ys generalizing b with
  | nil => exact .singleton b
  | cons c cs ih =>
    rw [mergeInto]
    split_ifs with hfree
    · exact ih
    · obtain ⟨d, ds, hd, hdfree⟩ := @mergeInto_head cs c
      have hrest := ih (b := c)
      rw [hd] at hrest ⊢
      exact .cons_cons (by rwa [hdfree]) hrest

theorem noTwoFree_merge : NoTwoFree (merge bs) := by
  cases bs with
  | nil => exact .nil
  | cons b bs => exact noTwoFree_mergeInto

/-- Carving keeps neighbours from being both free. -/
theorem NoTwoFree.carve (h : NoTwoFree (xs ++ b :: ys)) (hb : b.free = true) :
    NoTwoFree (xs ++ WarkRune.Memory.carve aligned b ++ ys) := by
  unfold NoTwoFree at h ⊢
  rw [List.append_assoc, List.isChain_append] at *
  obtain ⟨hxs, hbys, -⟩ := h
  rw [List.isChain_cons] at hbys
  unfold WarkRune.Memory.carve
  refine ⟨hxs, ?_, fun x _ y hy hboth => ?_⟩
  · split_ifs
    · refine .cons_cons (by simp) (List.isChain_cons.mpr ⟨fun y hy hboth => ?_, hbys.2⟩)
      exact hbys.1 y hy ⟨hb, hboth.2⟩
    · exact List.isChain_cons.mpr ⟨fun y hy hboth => by simp at hboth, hbys.2⟩
  · split_ifs at hy <;>
    · obtain rfl : _ = y := by simpa using hy
      simp at hboth

theorem used_add_free (bs : List Block) :
    usedBytes bs + freeBytes bs + headerSize * bs.length = span bs := by
  induction bs with
  | nil => rfl
  | cons b bs ih =>
    rw [span_cons, ← ih, List.length_cons, Nat.mul_succ, Block.span]
    simp only [usedBytes, freeBytes, List.map_cons, List.sum_cons]
    split <;> omega

/-- Blocks all of which are free are at most one. -/
theorem NoTwoFree.length_le_one (h : NoTwoFree bs) (hall : ∀ b ∈ bs, b.free = true) :
    bs.length ≤ 1 := by
  match bs, h with
  | [], _ => exact Nat.zero_le _
  | [b], _ => exact Nat.le_refl _
  | b :: c :: cs, h =>
    exact absurd ⟨hall b (by simp), hall c (by simp)⟩ (List.isChain_cons_cons.mp h).1

theorem payloads_eq_nil (h : payloads a bs = []) : ∀ b ∈ bs, b.free = true := by
  induction bs generalizing a with
  | nil => simp
  | cons b bs ih =>
    cases hb : b.free with
    | false => rw [payloads_used hb] at h; cases h
    | true =>
      rw [payloads_free hb] at h
      intro c hc
      rcases List.mem_cons.mp hc with rfl | hc
      · exact hb
      · exact ih h c hc

/-- A payload in use is that of a block. -/
theorem mem_payloads {p n : ℕ} : (p, n) ∈ payloads a bs ↔
    ∃ xs b ys, bs = xs ++ b :: ys ∧ b.free = false ∧ p = a + span xs + headerSize ∧
      n = b.size := by
  induction bs generalizing a with
  | nil => simp [payloads]
  | cons b bs ih =>
    constructor
    · intro h
      have hcase : (b.free = false ∧ (p, n) = (a + headerSize, b.size)) ∨
          (p, n) ∈ payloads (a + b.span) bs := by
        cases hb : b.free with
        | false =>
          rw [payloads_used hb] at h
          exact (List.mem_cons.mp h).imp_left fun he => ⟨rfl, he⟩
        | true =>
          rw [payloads_free hb] at h
          exact .inr h
      rcases hcase with ⟨hb, he⟩ | hmem
      · obtain ⟨rfl, rfl⟩ := Prod.mk.inj he
        exact ⟨[], b, bs, rfl, hb, rfl, rfl⟩
      · obtain ⟨xs, c, ys, rfl, hc, rfl, rfl⟩ := ih.mp hmem
        refine ⟨b :: xs, c, ys, rfl, hc, ?_, rfl⟩
        rw [span_cons]
        omega
    · rintro ⟨xs, c, ys, hsplit, hc, rfl, rfl⟩
      rw [hsplit, payloads_append, payloads_used hc]
      exact List.mem_append_right _ (by simp)

/-- A payload in use lies behind the header of its block. -/
theorem payloads_bounds {p n : ℕ} (h : (p, n) ∈ payloads a bs) :
    a + headerSize ≤ p ∧ p + n ≤ a + span bs := by
  obtain ⟨xs, b, ys, rfl, -, rfl, rfl⟩ := mem_payloads.mp h
  rw [span_append, span_cons, Block.span]
  omega

/-- The size of the payload that carving hands out. -/
def carved (aligned : ℕ) (b : Block) : ℕ :=
  if aligned + headerSize + 8 ≤ b.size then aligned else b.size

theorem le_carved (h : aligned ≤ b.size) : aligned ≤ carved aligned b := by
  unfold carved
  split
  · exact Nat.le_refl _
  · exact h

theorem carved_le (h : aligned ≤ b.size) : carved aligned b ≤ b.size := by
  unfold carved
  split
  · exact h
  · exact Nat.le_refl _

/-- Carving puts one payload in use. -/
theorem payloads_carve :
    payloads a (carve aligned b ++ ys) =
      (a + headerSize, carved aligned b) :: payloads (a + b.span) ys := by
  unfold carve carved
  split_ifs with hsplit
  · rw [List.cons_append, payloads_used rfl, List.cons_append, payloads_free rfl, List.nil_append]
    congr 2
    simp only [Block.span]
    omega
  · rw [List.cons_append, payloads_used rfl, List.nil_append]
    rfl

/-! ## The headers in memory -/

/-- The addresses of blocks laid from `a`. -/
def addrs (a : ℕ) : List Block → List ℕ
  | [] => []
  | b :: bs => a :: addrs (a + b.span) bs

@[simp] theorem addrs_append : addrs a (xs ++ ys) = addrs a xs ++ addrs (a + span xs) ys := by
  induction xs generalizing a with
  | nil => rfl
  | cons b xs ih => rw [List.cons_append, addrs, addrs, ih, span_cons, List.cons_append, Nat.add_assoc]

@[simp] theorem addrs_length : (addrs a bs).length = bs.length := by
  induction bs generalizing a with
  | nil => rfl
  | cons b bs ih => rw [addrs, List.length_cons, List.length_cons, ih]

theorem addrs_ge {x : ℕ} (h : x ∈ addrs a bs) : a ≤ x := by
  induction bs generalizing a with
  | nil => cases h
  | cons b bs ih =>
    rcases List.mem_cons.mp h with rfl | h
    · exact Nat.le_refl _
    · exact Nat.le_trans (Nat.le_add_right _ _) (ih h)

theorem addrs_pairwise : (addrs a bs).Pairwise (· < ·) := by
  induction bs generalizing a with
  | nil => exact .nil
  | cons b bs ih =>
    refine List.pairwise_cons.mpr ⟨fun x hx => ?_, ih⟩
    have := addrs_ge hx
    unfold Block.span headerSize at this
    omega

/-- The address of a block of the list. -/
theorem mem_addrs_iff {x : ℕ} :
    x ∈ addrs a bs ↔ ∃ xs b ys, bs = xs ++ b :: ys ∧ x = a + span xs := by
  constructor
  · intro h
    induction bs generalizing a with
    | nil => cases h
    | cons b bs ih =>
      rcases List.mem_cons.mp h with rfl | h
      · exact ⟨[], b, bs, rfl, rfl⟩
      · obtain ⟨xs, c, ys, rfl, rfl⟩ := ih h
        exact ⟨b :: xs, c, ys, rfl, by rw [span_cons, Nat.add_assoc]⟩
  · rintro ⟨xs, b, ys, rfl, rfl⟩
    rw [addrs_append]
    exact List.mem_append_right _ (List.mem_cons_self ..)

/-- Neighbours in the list of the addresses. -/
theorem isChain_addrs {R : ℕ → ℕ → Prop}
    (h : ∀ xs b c ys, bs = xs ++ b :: c :: ys → R (a + span xs) (a + span (xs ++ [b]))) :
    (addrs a bs).IsChain R := by
  induction bs generalizing a with
  | nil => exact .nil
  | cons b bs ih =>
    cases bs with
    | nil => exact .singleton a
    | cons c cs =>
      refine .cons_cons ?_ (ih fun xs d e ys hsplit => ?_)
      · simpa using h [] b c cs rfl
      · have := h (b :: xs) d e ys (by rw [hsplit]; rfl)
        rwa [List.cons_append, span_cons, span_cons, ← Nat.add_assoc, ← Nat.add_assoc] at this

namespace Heap

variable {h h' : Heap} {p : ℕ}

/-- Following the links from `p` visits the addresses and ends with null. -/
def Walk (h : Heap) : ℕ → List ℕ → Prop
  | p, [] => p = 0
  | p, a :: as => p = a ∧ a ≠ 0 ∧ h.Walk (h.next a) as

/-- A walk is determined by where it starts. -/
theorem Walk.det {as bs : List ℕ} (ha : h.Walk p as) (hb : h.Walk p bs) : as = bs := by
  induction as generalizing p bs with
  | nil =>
    cases bs with
    | nil => rfl
    | cons b bs => exact absurd (hb.1.symm.trans ha) hb.2.1
  | cons a as ih =>
    cases bs with
    | nil => exact absurd (ha.1.symm.trans hb) ha.2.1
    | cons b bs =>
      obtain rfl := ha.1
      obtain rfl := hb.1
      rw [ih ha.2.2 hb.2.2]

theorem Segment.walk (hs : h.Segment 0 a bs) (ha : 0 < a) : h.Walk (start 0 a bs) (addrs a bs) := by
  induction bs generalizing a with
  | nil => rfl
  | cons b bs ih =>
    refine ⟨rfl, Nat.pos_iff_ne_zero.mp ha, ?_⟩
    rw [hs.1.next_eq]
    exact ih hs.2 (Nat.lt_of_lt_of_le ha (Nat.le_add_right _ _))

theorem Holds.walk (hh : h.Holds bs) : h.Walk h.head (addrs h.pool bs) := by
  rw [hh.head_eq]
  exact hh.segment.walk hh.pos

/-- **The headers tile the pool**: the list from `heap_head` visits `as`, in address order, each
block is followed by the next and the last ends where the pool ends. -/
structure Tiling (h : Heap) (as : List ℕ) : Prop where
  walk : h.Walk h.head as
  first : as.head? = some h.pool
  order : as.Pairwise (· < ·)
  next : as.IsChain fun a b => b = a + headerSize + h.size a
  last : ∀ a ∈ as.getLast?, a + headerSize + h.size a = h.pool + kmallocHeapSize
  memory : h.pool + kmallocHeapSize ≤ 2 ^ 32
  magic : ∀ a ∈ as, h.magic a = blockMagic
  sizes : ∀ a ∈ as, 8 ∣ h.size a
  apart : as.IsChain fun a b => ¬ (h.free a ≠ 0 ∧ h.free b ≠ 0)
  info : kmemInfo.Yields h fun r h' =>
    h' = h ∧ r.1 + r.2 = kmallocHeapSize - headerSize * as.length

theorem Holds.tiling (hh : h.Holds bs) (hn : NoTwoFree bs) : h.Tiling (addrs h.pool bs) := by
  refine ⟨hh.walk, ?_, addrs_pairwise, ?_, ?_, hh.fits, ?_, ?_, ?_, ?_⟩
  · cases bs with
    | nil => cases hh.span_eq
    | cons b bs => rfl
  · refine isChain_addrs fun xs b c ys hsplit => ?_
    subst hsplit
    rw [hh.headerAt.size_eq, span_append, span_cons, span_nil, Block.span]
    omega
  · intro x hx
    obtain rfl | ⟨xs, b, rfl⟩ := List.eq_nil_or_concat' bs
    · cases hx
    · have hat := hh.headerAt
      have hb := hh.bounds
      rw [addrs_append] at hx
      obtain rfl : h.pool + span xs = x := by simpa [addrs] using hx
      rw [hat.size_eq]
      rw [span_nil] at hb
      omega
  · intro x hx
    obtain ⟨xs, b, ys, rfl, rfl⟩ := mem_addrs_iff.mp hx
    exact hh.headerAt.magic_eq
  · intro x hx
    obtain ⟨xs, b, ys, rfl, rfl⟩ := mem_addrs_iff.mp hx
    rw [hh.headerAt.size_eq]
    exact hh.sizes b (by simp)
  · refine isChain_addrs fun xs b c ys hsplit => ?_
    subst hsplit
    rw [hh.headerAt.free_iff, hh.behind.headerAt.free_iff]
    exact List.isChain_iff_forall_rel_of_append_cons_cons.mp hn rfl
  · refine (kmemInfo_yields hh).mono fun r h' hr => ⟨hr.1, ?_⟩
    rw [hr.2, addrs_length, ← hh.span_eq, ← used_add_free, Nat.add_sub_cancel]

end Heap

/-! ## Runs of the heap -/

/-- A call of the heap. -/
inductive HeapCall
  | kmalloc (size : BitVec 32)
  | kfree (ptr : ℕ)

/-- A call of the heap beside the payloads handed out: `kfree` is called on one of them. -/
inductive HeapStep : Heap × Finset ℕ → HeapCall → Heap × Finset ℕ → Prop
  | kmalloc {h h' : Heap} {live : Finset ℕ} {size : BitVec 32} {p : ℕ} :
    (kmalloc size).Returns h p h' →
    HeapStep (h, live) (.kmalloc size) (h', if p = 0 then live else insert p live)
  | kfree {h h' : Heap} {live : Finset ℕ} {p : ℕ} : p ∈ live → (kfree p).Returns h () h' →
    HeapStep (h, live) (.kfree p) (h', live.erase p)

/-- The states of the runs after `kmalloc_init` from `h₀`. -/
inductive HeapReachable (h₀ : Heap) : Heap × Finset ℕ → Prop
  | init {h : Heap} : kmallocInit.Returns h₀ () h → HeapReachable h₀ (h, ∅)
  | step {s s' : Heap × Finset ℕ} {c : HeapCall} : HeapReachable h₀ s → HeapStep s c s' →
    HeapReachable h₀ s'

namespace Heap

variable {h h₀ : Heap} {live : Finset ℕ}

/-- The pool at `pool` holds blocks no two of which are neighbours and free, and the payloads in
use are those handed out. -/
structure Balanced (h : Heap) (live : Finset ℕ) (pool : ℕ) (bs : List Block) : Prop where
  holds : h.Holds bs
  noTwoFree : NoTwoFree bs
  pool_eq : h.pool = pool
  live_iff : ∀ p, p ∈ live ↔ ∃ n, (p, n) ∈ payloads pool bs

namespace Balanced

variable {pool : ℕ} (hb : h.Balanced live pool bs)
include hb

/-- **`kmalloc` keeps the heap balanced**: the payload it returns is handed out. -/
theorem kmalloc (size : BitVec 32) : (Memory.kmalloc size).Yields h fun p h' =>
    ∃ bs', h'.Balanced (if p = 0 then live else insert p live) pool bs' := by
  by_cases hsize : size = 0
  · rw [hsize]
    refine (kmalloc_zero_yields hb.holds).mono fun p h' hp => ?_
    rw [hp.1, hp.2, if_pos rfl]
    exact ⟨bs, hb⟩
  refine (kmalloc_yields hb.holds hsize).mono fun p h' ht => ?_
  rcases ht with ⟨hp, hh, -⟩ | ⟨as, b, cs, hsplit, hfree, -, -, hp, hstat, hh⟩
  · rw [hp, hh, if_pos rfl]
    exact ⟨bs, hb⟩
  · subst hsplit
    rw [List.nil_append] at hp hh
    rw [hb.pool_eq] at hp
    have hne : p ≠ 0 := by
      rw [hp]
      unfold headerSize
      omega
    rw [if_neg hne]
    refine ⟨_, hh, hb.noTwoFree.carve hfree, hstat.1.trans hb.pool_eq, fun q => ?_⟩
    rw [Finset.mem_insert, hb.live_iff, List.append_assoc, payloads_append, payloads_append,
      payloads_carve, payloads_free hfree]
    -- the block taken has one payload more, and the rest of it none
    simp only [List.mem_append, List.mem_cons, Prod.mk.injEq]
    constructor
    · rintro (rfl | ⟨n, hn | hn⟩)
      · exact ⟨_, .inr (.inl ⟨hp, rfl⟩)⟩
      · exact ⟨n, .inl hn⟩
      · exact ⟨n, .inr (.inr hn)⟩
    · rintro ⟨n, hn | ⟨hq, -⟩ | hn⟩
      · exact .inr ⟨n, .inl hn⟩
      · exact .inl (hq.trans hp.symm)
      · exact .inr ⟨n, .inr hn⟩

/-- **`kfree` keeps the heap balanced**: the payload is no longer handed out. -/
theorem kfree {p : ℕ} (hp : p ∈ live) : (Memory.kfree p).Yields h fun _ h' =>
    ∃ bs', h'.Balanced (live.erase p) pool bs' := by
  obtain ⟨n, hn⟩ := (hb.live_iff p).mp hp
  obtain ⟨xs, b, ys, rfl, hused, rfl, rfl⟩ := mem_payloads.mp hn
  rw [← hb.pool_eq]
  refine (kfree_yields hb.holds).mono fun _ h' hspec => ?_
  refine ⟨_, hspec.2, noTwoFree_merge, hspec.1.1, fun q => ?_⟩
  rw [Finset.mem_erase, hb.live_iff, payloads_merge, payloads_append, payloads_append,
    payloads_used hused, payloads_free (b := ⟨b.size, true⟩) rfl, hb.pool_eq]
  simp only [List.mem_append, List.mem_cons, Prod.mk.injEq]
  constructor
  · rintro ⟨hne, n, hn | ⟨rfl, -⟩ | hn⟩
    · exact ⟨n, .inl hn⟩
    · exact absurd rfl hne
    · exact ⟨n, .inr hn⟩
  · rintro ⟨n, hn | hn⟩
    · have hbounds := payloads_bounds hn
      refine ⟨?_, n, .inl hn⟩
      unfold headerSize
      omega
    · have hbounds := payloads_bounds hn
      refine ⟨?_, n, .inr (.inr hn)⟩
      unfold Block.span headerSize at hbounds
      unfold headerSize
      omega

end Balanced

/-- `kmalloc_init` starts a balanced run. -/
theorem kmallocInit_balanced (hpos : 0 < heapPool h.heapBase)
    (hfits : heapPool h.heapBase + kmallocHeapSize ≤ 2 ^ 32) :
    kmallocInit.Yields h fun _ h' =>
      ∃ bs, h'.Balanced ∅ (heapPool h.heapBase) bs := by
  refine (kmallocInit_yields hpos hfits).mono fun _ h' hspec => ?_
  refine ⟨_, hspec.1, .singleton _, hspec.2, fun p => ?_⟩
  rw [payloads_free rfl]
  simp [payloads]

end Heap

/-- A call keeps the heap balanced. -/
theorem Heap.Balanced.step {s s' : Heap × Finset ℕ} {c : HeapCall} {pool : ℕ}
    (hb : s.1.Balanced s.2 pool bs) (hstep : HeapStep s c s') :
    ∃ bs', s'.1.Balanced s'.2 pool bs' := by
  cases hstep with
  | kmalloc hr => exact (hb.kmalloc _).of_returns hr
  | kfree hp hr => exact (hb.kfree hp).of_returns hr

/-- **The heap is balanced in every reachable state** when the pool lies below 4 GiB. -/
theorem HeapReachable.balanced {h₀ : Heap} (hpos : 0 < heapPool h₀.heapBase)
    (hfits : heapPool h₀.heapBase + kmallocHeapSize ≤ 2 ^ 32) {s : Heap × Finset ℕ}
    (hs : HeapReachable h₀ s) : ∃ bs, s.1.Balanced s.2 (heapPool h₀.heapBase) bs := by
  induction hs with
  | init hinit => exact (Heap.kmallocInit_balanced hpos hfits).of_returns hinit
  | step _ hstep ih =>
    obtain ⟨bs, hb⟩ := ih
    exact hb.step hstep

/-- What the heap promises in a state of a run: the headers tile the pool, with nothing handed out
it is one free block, and every call returns. -/
structure HeapSound (s : Heap × Finset ℕ) : Prop where
  tiling : ∃ as, s.1.Tiling as ∧ (s.2 = ∅ → as = [s.1.pool] ∧ s.1.free s.1.pool ≠ 0 ∧
    s.1.size s.1.pool = kmallocHeapSize - headerSize)
  kmalloc : ∀ size, (kmalloc size).Halts s.1
  kfree : ∀ p ∈ s.2, (kfree p).Halts s.1

theorem Heap.Balanced.sound {h : Heap} {live : Finset ℕ} {pool : ℕ}
    (hb : h.Balanced live pool bs) : HeapSound (h, live) := by
  refine ⟨⟨_, hb.holds.tiling hb.noTwoFree, fun hlive => ?_⟩,
    fun size => (hb.kmalloc size).halts, fun p hp => (hb.kfree hp).halts⟩
  -- nothing is handed out, so all blocks are free and there is only one
  have hnone : payloads pool bs = [] := by
    refine List.eq_nil_iff_forall_not_mem.mpr fun pn hpn => ?_
    have := (hb.live_iff pn.1).mpr ⟨pn.2, hpn⟩
    rw [show live = ∅ from hlive] at this
    exact Finset.notMem_empty _ this
  have hfree := payloads_eq_nil hnone
  have hlen := hb.noTwoFree.length_le_one hfree
  have hspan := hb.holds.span_eq
  match bs, hb, hfree, hlen, hspan with
  | [b], hb, hfree, _, hspan =>
    have hat := (show h.Holds ([] ++ [b]) from hb.holds).headerAt
    rw [span_nil, Nat.add_zero] at hat
    refine ⟨rfl, hat.free_iff.mpr (hfree b (by simp)), hat.size_eq.trans ?_⟩
    rw [span_cons, span_nil, Nat.add_zero, Block.span] at hspan
    omega

/-- A state that keeps the promise has its pool below 4 GiB. -/
theorem HeapSound.pool {s : Heap × Finset ℕ} (hs : HeapSound s) :
    0 < s.1.pool ∧ s.1.pool + kmallocHeapSize ≤ 2 ^ 32 := by
  obtain ⟨as, ht, -⟩ := hs.tiling
  refine ⟨?_, ht.memory⟩
  have hwalk := ht.walk
  cases as with
  | nil => cases ht.first
  | cons a as =>
    obtain rfl : a = s.1.pool := Option.some.inj ht.first
    exact Nat.pos_of_ne_zero hwalk.2.1

/-- `kmalloc_init` puts the pool where it computes. -/
theorem exists_reachable_init (h₀ : Heap) :
    ∃ h, HeapReachable h₀ (h, ∅) ∧ h.pool = heapPool h₀.heapBase := by
  have hinit : kmallocInit.Yields h₀ fun _ h => h.pool = heapPool h₀.heapBase := by
    unfold kmallocInit
    simp only [yields_bind, yields_modify]
    rfl
  obtain ⟨_, h, hr, hpool⟩ := hinit
  exact ⟨h, .init hr, hpool⟩

/-- **The headers tile the pool after every run** of `kmalloc` and `kfree`, every call returns, and
freeing everything leaves one block, exactly when the address of the pool is not cut so that the
pool starts at null or runs across 4 GiB. -/
theorem heap_tiling_iff (h₀ : Heap) : (∀ s, HeapReachable h₀ s → HeapSound s) ↔
    0 < heapPool h₀.heapBase ∧ heapPool h₀.heapBase + kmallocHeapSize ≤ 2 ^ 32 := by
  constructor
  · intro hall
    obtain ⟨h, hr, hpool⟩ := exists_reachable_init h₀
    rw [← hpool]
    exact (hall _ hr).pool
  · rintro ⟨hpos, hfits⟩ s hs
    obtain ⟨bs, hb⟩ := hs.balanced hpos hfits
    exact hb.sound

/-- A region at 32 KB below 4 GiB puts the pool at null. -/
theorem heap_tiling_nullPool : ¬ ∀ s,
    HeapReachable ⟨fun _ => 0, (memoryInit [⟨0xFFFF8000, 0x100000, 1, by decide, by decide⟩]
      (0, 0)).1, 0, 0, false⟩ s → HeapSound s := by
  intro hall
  obtain ⟨h, hr, hpool⟩ := exists_reachable_init _
  have hpos := (hall _ hr).pool.1
  rw [hpool] at hpos
  revert hpos
  decide

end WarkRune.Memory

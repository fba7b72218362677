import WarkRune.Memory.Tiling

/-!
# The owners of the payloads

Whoever has been handed out a payload writes its bytes. The blocks of a balanced heap lie apart, so
an owner that stays inside its payload changes no header and no other payload, and the bytes of a
heap can be spoken of block by block: what `kmalloc` writes is in the block it takes, what `kfree`
writes is in the header it frees and in the header of a free block right before it.

## Main definitions

* `OwnsBytes`: bytes in the pool, apart from the headers and from other payloads
* `InUse`: the payloads of the blocks in use on the list
* `Heap.FreeBefore`: a free block that ends where a block starts
* `Heap.Takes`, `Heap.FreesAt`: what `kmalloc` and `kfree` write

## Main results

* `Heap.Balanced.owns`: a payload handed out has its bytes to itself
* `Heap.Balanced.write`: what an owner writes changes no block
* `Heap.Balanced.kmalloc_takes`, `Heap.Balanced.kfree_writes`: what the calls write
-/

namespace WarkRune.Memory

open Bytes (Memory)
open Exec

/-- The `n` bytes at `p` are in the pool, and overlap neither a header nor a payload of `live`. -/
structure OwnsBytes (h : Heap) (live : Finset ℕ) (p n : ℕ) : Prop where
  inPool : h.pool ≤ p ∧ p + n ≤ h.pool + kmallocHeapSize
  headers : ∀ as, h.Walk h.head as → ∀ a ∈ as, p + n ≤ a ∨ a + headerSize ≤ p
  payloads : ∀ q ∈ live, p + n ≤ q ∨ q + h.size (q - headerSize) ≤ p

/-- Every free block on the list of `h` has fewer than `n` bytes. -/
def FreeBelow (h : Heap) (n : ℕ) : Prop :=
  ∀ as, h.Walk h.head as → ∀ a ∈ as, h.free a ≠ 0 → h.size a < n

/-- The payload at `p` is that of a block in use on the list. -/
def InUse (h : Heap) (p : ℕ) : Prop :=
  ∃ as, h.Walk h.head as ∧ ∃ a ∈ as, h.free a = 0 ∧ p = a + headerSize

/-- A header ends where its list of blocks ends, or before. -/
theorem addrs_le {a x : ℕ} {bs : List Block} (hx : x ∈ addrs a bs) : x + headerSize ≤ a + span bs := by
  obtain ⟨xs, b, ys, rfl, rfl⟩ := mem_addrs_iff.mp hx
  rw [span_append, span_cons, Block.span]
  omega

/-- The first block of a carving has the bytes carved. -/
theorem carve_eq_cons (aligned : ℕ) (b : Block) :
    ∃ ds, carve aligned b = ⟨carved aligned b, false⟩ :: ds := by
  unfold carve carved
  split_ifs
  · exact ⟨_, rfl⟩
  · exact ⟨_, rfl⟩

/-- Carving keeps the bytes of the block. -/
theorem span_carve {aligned : ℕ} {b : Block} : span (carve aligned b) = b.span := by
  unfold carve
  split_ifs
  · simp only [span_cons, span_nil, Block.span]
    omega
  · rfl

namespace Heap

variable {h h' : Heap} {bs : List Block} {live : Finset ℕ} {pool p a c n : ℕ}

/-! ## Blocks lie apart -/

section Apart

variable (hh : h.Holds bs)
include hh

theorem Holds.in_pool (ha : a ∈ addrs h.pool bs) :
    h.pool ≤ a ∧ a + headerSize + h.size a ≤ h.pool + kmallocHeapSize := by
  obtain ⟨xs, b, ys, rfl, rfl⟩ := mem_addrs_iff.mp ha
  have hbounds := hh.bounds
  rw [hh.headerAt.size_eq]
  omega

theorem Holds.magic_at (ha : a ∈ addrs h.pool bs) : h.magic a = blockMagic := by
  obtain ⟨xs, b, ys, rfl, rfl⟩ := mem_addrs_iff.mp ha
  exact hh.headerAt.magic_eq

/-- A block ends before the next one starts. -/
theorem Holds.le_of_lt (ha : a ∈ addrs h.pool bs) (hc : c ∈ addrs h.pool bs) (hlt : a < c) :
    a + headerSize + h.size a ≤ c := by
  obtain ⟨xs, b, ys, rfl, rfl⟩ := mem_addrs_iff.mp ha
  rw [hh.headerAt.size_eq]
  rw [addrs_append] at hc
  rcases List.mem_append.mp hc with hc | hc
  · have := addrs_le hc
    omega
  rcases List.mem_cons.mp hc with rfl | hc
  · omega
  · have := addrs_ge hc
    rw [Block.span] at this
    omega

theorem Holds.apart (ha : a ∈ addrs h.pool bs) (hc : c ∈ addrs h.pool bs) (hne : a ≠ c) :
    a + headerSize + h.size a ≤ c ∨ c + headerSize + h.size c ≤ a := by
  rcases Nat.lt_or_gt_of_ne hne with hlt | hlt
  · exact .inl (hh.le_of_lt ha hc hlt)
  · exact .inr (hh.le_of_lt hc ha hlt)

/-- The blocks on the list are those at the addresses. -/
theorem Holds.mem_walk_iff : (∃ as, h.Walk h.head as ∧ a ∈ as) ↔ a ∈ addrs h.pool bs := by
  constructor
  · rintro ⟨as, has, ha⟩
    rwa [← hh.walk.det has] at ha
  · intro ha
    exact ⟨_, hh.walk, ha⟩

end Apart

theorem Holds.freeBelow_iff (hh : h.Holds bs) :
    FreeBelow h n ↔ ∀ b ∈ bs, b.free = true → b.size < n := by
  constructor
  · intro hall b hb hfree
    obtain ⟨xs, ys, rfl⟩ := List.append_of_mem hb
    have hat := hh.headerAt
    rw [← hat.size_eq]
    refine hall _ hh.walk _ (mem_addrs_iff.mpr ⟨xs, b, ys, rfl, rfl⟩) ?_
    exact hat.free_iff.mpr hfree
  · intro hall as has x hx hfree
    obtain rfl := hh.walk.det has
    obtain ⟨xs, b, ys, rfl, rfl⟩ := mem_addrs_iff.mp hx
    have hat := hh.headerAt
    rw [hat.size_eq]
    exact hall b (by simp) (hat.free_iff.mp hfree)

/-- The blocks depend on the bytes of their headers. -/
theorem Segment.of_headers {z : ℕ} (hs : h.Segment z a bs)
    (hm : ∀ x ∈ addrs a bs, Memory.SameOn h.mem h'.mem x headerSize) (hle : a + span bs ≤ 2 ^ 32) :
    h'.Segment z a bs := by
  induction bs generalizing a with
  | nil => trivial
  | cons b bs ih =>
    rw [span_cons] at hle
    have hspan : b.span = headerSize + b.size := rfl
    refine ⟨(header_congr (hm a (by simp [addrs])) (by omega)).trans hs.1, ?_⟩
    exact ih hs.2 (fun x hx => hm x (List.mem_cons_of_mem a hx)) (by omega)

theorem Holds.of_headers (hh : h.Holds bs) (hstat : h.SameStatics h')
    (hm : ∀ x ∈ addrs h.pool bs, Memory.SameOn h.mem h'.mem x headerSize) : h'.Holds bs := by
  have hfits := hh.fits
  have heq := hh.span_eq
  refine ⟨hstat.2.2.1.trans hh.ready, (hstat.2.1.trans hh.head).trans hstat.1.symm, ?_, ?_,
    hh.span_eq, hh.sizes, hh.last, ?_⟩
  · rw [hstat.1]
    exact hh.pos
  · rw [hstat.1]
    exact hh.fits
  · rw [hstat.1]
    exact hh.segment.of_headers hm (by omega)

/-- What `kmalloc` does when it takes the block of the payload `q`: it writes into that block only,
and the headers it adds to the list lie in that block. -/
structure Takes (h : Heap) (live : Finset ℕ) (pool : ℕ) (bs : List Block) (n q : ℕ) (h' : Heap) :
    Prop where
  payload : headerSize ≤ q
  mem : q - headerSize ∈ addrs h.pool bs
  free : h.free (q - headerSize) ≠ 0
  large : n ≤ h'.size (q - headerSize)
  within : h'.size (q - headerSize) ≤ h.size (q - headerSize)
  statics : h.SameStatics h'
  eqOn : Set.EqOn h'.mem h.mem (h.blockBytes (q - headerSize))ᶜ
  balanced : ∃ bs', h'.Balanced (insert q live) pool bs' ∧ ∀ x ∈ addrs h'.pool bs',
    x ∈ addrs h.pool bs ∨ headerBytes x ⊆ h.blockBytes (q - headerSize)

/-- A free block on the list ends where the block of the payload `p` starts. -/
def FreeBefore (h : Heap) (a p : ℕ) : Prop :=
  (∃ as, h.Walk h.head as ∧ a ∈ as) ∧ h.free a ≠ 0 ∧ a + headerSize + h.size a + headerSize = p

/-- Only the header of the block of the payload `p` and that of a free block right before it are
written. -/
def FreesAt (h : Heap) (p : ℕ) (h' : Heap) : Prop :=
  ∀ x, x ∉ headerBytes (p - headerSize) → (∀ a, h.FreeBefore a p → x ∉ headerBytes a) →
    h'.mem x = h.mem x

namespace Balanced

/-! ## Payloads -/

section Payloads

variable (hb : h.Balanced live pool bs)
include hb

/-- The payloads handed out are those of the blocks in use. -/
theorem mem_live_iff :
    p ∈ live ↔ ∃ a ∈ addrs h.pool bs, h.free a = 0 ∧ p = a + headerSize := by
  rw [hb.live_iff, ← hb.pool_eq]
  constructor
  · rintro ⟨n, hn⟩
    obtain ⟨xs, b, ys, rfl, hused, rfl, rfl⟩ := mem_payloads.mp hn
    refine ⟨h.pool + span xs, mem_addrs_iff.mpr ⟨xs, b, ys, rfl, rfl⟩, ?_, rfl⟩
    by_contra hfree
    have := hb.holds.headerAt.free_iff.mp hfree
    rw [hused] at this
    cases this
  · rintro ⟨a, ha, hfree, rfl⟩
    obtain ⟨xs, b, ys, rfl, rfl⟩ := mem_addrs_iff.mp ha
    refine ⟨b.size, mem_payloads.mpr ⟨xs, b, ys, rfl, ?_, rfl, rfl⟩⟩
    by_contra hused
    exact hb.holds.headerAt.free_iff.mpr (Bool.eq_true_of_not_eq_false hused) hfree

theorem inUse_iff : InUse h p ↔ p ∈ live := by
  rw [hb.mem_live_iff]
  constructor
  · rintro ⟨as, has, a, ha, hfree, rfl⟩
    exact ⟨a, hb.holds.mem_walk_iff.mp ⟨as, has, ha⟩, hfree, rfl⟩
  · rintro ⟨a, ha, hfree, rfl⟩
    exact ⟨_, hb.holds.walk, a, ha, hfree, rfl⟩

/-- A payload handed out lies behind its header, which is on the list. -/
theorem header_of_live (hp : p ∈ live) :
    p - headerSize ∈ addrs h.pool bs ∧ h.free (p - headerSize) = 0 ∧ headerSize ≤ p := by
  obtain ⟨a, ha, hfree, rfl⟩ := hb.mem_live_iff.mp hp
  rw [Nat.add_sub_cancel]
  exact ⟨ha, hfree, Nat.le_add_left _ _⟩

theorem ne_zero (hp : p ∈ live) : p ≠ 0 := by
  have := (hb.header_of_live hp).2.2
  unfold headerSize at this
  omega

/-- A payload handed out overlaps no header. -/
theorem apart_header (hp : p ∈ live) (ha : a ∈ addrs h.pool bs) :
    p + h.size (p - headerSize) ≤ a ∨ a + headerSize ≤ p := by
  obtain ⟨hmem, -, hle⟩ := hb.header_of_live hp
  rcases eq_or_ne (p - headerSize) a with rfl | hne
  · omega
  · have := hb.holds.apart hmem ha hne
    omega

/-- Two payloads handed out do not overlap. -/
theorem apart_payload {q : ℕ} (hp : p ∈ live) (hq : q ∈ live) (hne : p ≠ q) :
    p + h.size (p - headerSize) ≤ q ∨ q + h.size (q - headerSize) ≤ p := by
  obtain ⟨hmem, -, hle⟩ := hb.header_of_live hp
  obtain ⟨hmem', -, hle'⟩ := hb.header_of_live hq
  have := hb.holds.apart hmem hmem' (by omega)
  omega

/-- **A payload handed out has its bytes to itself.** -/
theorem owns (hp : p ∈ live) (hn : n ≤ h.size (p - headerSize)) :
    OwnsBytes h (live.erase p) p n := by
  obtain ⟨hmem, -, hle⟩ := hb.header_of_live hp
  have hpool := hb.holds.in_pool hmem
  refine ⟨⟨by omega, by omega⟩, fun as has a ha => ?_, fun q hq => ?_⟩
  · have := hb.apart_header hp (hb.holds.mem_walk_iff.mp ⟨as, has, ha⟩)
    omega
  · obtain ⟨hne, hq⟩ := Finset.mem_erase.mp hq
    have := hb.apart_payload hp hq hne.symm
    omega

/-- What changes inside a payload handed out changes no block. -/
theorem of_payload (hp : p ∈ live) (hstat : h.SameStatics h') (hn : n ≤ h.size (p - headerSize))
    (heq : Set.EqOn h'.mem h.mem (Set.Ico p (p + n))ᶜ) :
    h'.Balanced live pool bs := by
  refine ⟨hb.holds.of_headers hstat fun x hx y hxy hyx => heq fun hin => ?_, hb.noTwoFree,
    hstat.1.trans hb.pool_eq, hb.live_iff⟩
  have hout := hb.apart_header hp hx
  rw [Set.mem_Ico] at hin
  omega

/-- **What an owner writes** into its payload changes no block. -/
theorem write {i : ℕ} {bytes : List (BitVec 8)} (hp : p ∈ live)
    (hlen : i + bytes.length ≤ h.size (p - headerSize)) :
    ({ h with mem := h.mem.storeBytes (p + i) bytes } : Heap).Balanced live pool bs := by
  obtain ⟨hmem, -, hle⟩ := hb.header_of_live hp
  have hpool := hb.holds.in_pool hmem
  have hfits := hb.holds.fits
  refine hb.of_payload hp sameStatics_refl hlen fun x hx => ?_
  rw [Set.mem_compl_iff, Set.mem_Ico] at hx
  exact Memory.sameOn_storeBytes (n := 1) (by omega) (by omega) x (Nat.le_refl x)
    (Nat.lt_succ_self x)

/-! ## What the calls write -/

/-- **`kmalloc` takes a block** whose bytes nobody had, or returns null when every free block is
too small. -/
theorem kmalloc_takes {size : BitVec 32} (hsize : size ≠ 0) :
    (Memory.kmalloc size).Yields h fun q h' =>
      q = 0 ∧ h' = h ∧ FreeBelow h (alignUp size.toNat) ∨
        q ≠ 0 ∧ h.Takes live pool bs (alignUp size.toNat) q h' := by
  refine ((kmalloc_writes hb.holds hsize).and (hb.kmalloc size)).mono fun q h' hspec => ?_
  obtain ⟨⟨ht, heq⟩, bs', hb'⟩ := hspec
  rcases ht with ⟨hq, hh, hsmall⟩ | ⟨as, b, cs, rfl, hfree, hle, -, hq, hstat, hh⟩
  · exact .inl ⟨hq, hh, hb.holds.freeBelow_iff.mpr hsmall⟩
  rw [List.nil_append] at hq hh
  have hne : q ≠ 0 := by
    rw [hq]
    unfold headerSize
    omega
  have hat := hb.holds.headerAt
  have haddr : q - headerSize = h.pool + span as := by rw [hq, Nat.add_sub_cancel]
  rw [if_neg hne] at hb'
  -- the first block of the carving is the one handed out
  have hsize' : h'.size (q - headerSize) = carved (alignUp size.toNat) b := by
    obtain ⟨ds, hds⟩ := carve_eq_cons (alignUp size.toNat) b
    rw [hds, List.append_assoc] at hh
    rw [haddr, ← hstat.1]
    exact hh.headerAt.size_eq
  refine .inr ⟨hne, ?_, ?_, ?_, ?_, ?_, hstat, heq hne, bs', hb', fun x hx => ?_⟩
  · rw [hq]
    exact Nat.le_add_left _ _
  · rw [haddr]
    exact mem_addrs_iff.mpr ⟨as, b, cs, rfl, rfl⟩
  · rw [haddr]
    exact hat.free_iff.mpr hfree
  · rw [hsize']
    exact le_carved hle
  · rw [hsize', haddr, hat.size_eq]
    exact carved_le hle
  · -- the list has been walked to one end, so its addresses are those of the carving
    have hsame : addrs h'.pool bs' = addrs h'.pool (as ++ carve (alignUp size.toNat) b ++ cs) :=
      hb'.holds.walk.det hh.walk
    rw [hsame, hstat.1, List.append_assoc, addrs_append, addrs_append, span_carve] at hx
    rw [haddr, addrs_append]
    rcases List.mem_append.mp hx with hx | hx
    · exact .inl (List.mem_append_left _ hx)
    rcases List.mem_append.mp hx with hx | hx
    · -- the headers of the carving are in the block that is carved
      refine .inr fun y hy => ?_
      have hge := addrs_ge hx
      have hle := addrs_le hx
      rw [span_carve] at hle
      unfold Block.span at hle
      rw [mem_headerBytes] at hy
      rw [mem_blockBytes, hat.size_eq]
      omega
    · exact .inl (List.mem_append_right _ (List.mem_cons_of_mem _ hx))

/-- **`kfree` writes the header it frees**, and the header of a free block right before it. -/
theorem kfree_writes (hp : p ∈ live) : (Memory.kfree p).Yields h fun _ h' => h.SameStatics h' ∧
    (∃ bs', h'.Balanced (live.erase p) pool bs') ∧ h.FreesAt p h' := by
  obtain ⟨n, hn⟩ := (hb.live_iff p).mp hp
  obtain ⟨xs, b, ys, rfl, hused, rfl, rfl⟩ := mem_payloads.mp hn
  rw [← hb.pool_eq] at hp ⊢
  refine ((Heap.kfree_writes hb.holds).and (hb.kfree hp)).mono fun _ h' hspec => ?_
  obtain ⟨⟨hstat, -, heq⟩, hb'⟩ := hspec
  refine ⟨hstat, hb.pool_eq ▸ hb', fun x hx hbefore => heq fun hin => ?_⟩
  rw [Nat.add_sub_cancel] at hx
  rcases hin with hin | ⟨zs, d, e, es, hsplit, hd, he, hin⟩
  · exact hx hin
  have hpairs := List.isChain_iff_forall_rel_of_append_cons_cons.mp hb.noTwoFree
  -- of two free neighbours one is the block freed, as before no two were
  rcases List.append_eq_append_iff.mp hsplit with ⟨as, rfl, hys⟩ | ⟨as, rfl, hys⟩
  · cases as with
    | nil => exact hx (by simpa using hin)
    | cons y as =>
      obtain ⟨-, rfl⟩ := List.cons.inj hys
      exact @hpairs d e (xs ++ b :: as) es (by simp) ⟨hd, he⟩
  · cases as with
    | nil => exact hx (by simpa using hin)
    | cons y as =>
      obtain ⟨rfl, htail⟩ := List.cons.inj hys
      cases as with
      | nil =>
        have hh : h.Holds (zs ++ d :: b :: ys) := by simpa using hb.holds
        refine hbefore (h.pool + span zs) ⟨⟨_, hh.walk, ?_⟩, hh.headerAt.free_iff.mpr hd, ?_⟩ hin
        · exact mem_addrs_iff.mpr ⟨zs, d, b :: ys, rfl, rfl⟩
        · rw [hh.headerAt.size_eq]
          simp only [span_append, span_cons, span_nil, Block.span]
          omega
      | cons z as =>
        obtain ⟨rfl, rfl⟩ := List.cons.inj htail
        exact @hpairs d e zs (as ++ b :: ys) (by simp) ⟨hd, he⟩

/-- **The blocks in use keep their bytes** when another is freed. -/
theorem eqOn_freed {q : ℕ} (hp : p ∈ live) (hq : q ∈ live) (hne : q ≠ p) (hf : h.FreesAt p h') :
    Set.EqOn h'.mem h.mem (h.blockBytes (q - headerSize)) := by
  obtain ⟨hmem, hused, hle⟩ := hb.header_of_live hq
  obtain ⟨hmem', -, hle'⟩ := hb.header_of_live hp
  intro x hx
  rw [mem_blockBytes] at hx
  refine hf x (fun hin => ?_) fun a ha hin => ?_
  · have := hb.holds.apart hmem hmem' (by omega)
    rw [mem_headerBytes] at hin
    omega
  · have hfree : q - headerSize ≠ a := fun he => ha.2.1 (he ▸ hused)
    have := hb.holds.apart hmem (hb.holds.mem_walk_iff.mp ha.1) hfree
    rw [mem_headerBytes] at hin
    omega

end Payloads

end Balanced

section Takes

variable {q : ℕ} (hb : h.Balanced live pool bs) (ht : h.Takes live pool bs n q h')
include hb ht

/-- Taking a block changes no byte of another. -/
theorem Takes.eqOn_block (ha : a ∈ addrs h.pool bs) (hne : a ≠ q - headerSize) :
    Set.EqOn h'.mem h.mem (h.blockBytes a) := by
  refine fun x hx => ht.eqOn fun hin => ?_
  have := hb.holds.apart ha ht.mem hne
  rw [mem_blockBytes] at hx hin
  omega

theorem Takes.header_eq (ha : a ∈ addrs h.pool bs) (hne : a ≠ q - headerSize) :
    h'.header a = h.header a := by
  have hpool := hb.holds.in_pool ha
  have hfits := hb.holds.fits
  exact header_congr (sameOn_of_eqOn (ht.eqOn_block hb ha hne) headerBytes_subset) (by omega)

/-- The payload of a block that is taken was not handed out. -/
theorem Takes.ne_of_live (hp : p ∈ live) : p - headerSize ≠ q - headerSize := by
  intro he
  refine ht.free ?_
  rw [← he]
  exact (hb.header_of_live hp).2.1

theorem Takes.notMem : q ∉ live := fun hq => ht.ne_of_live hb hq rfl

/-- A block is taken only when a free one is large enough. -/
theorem Takes.not_freeBelow : ¬ FreeBelow h n := by
  intro hbelow
  have hlt := hbelow _ hb.holds.walk _ ht.mem ht.free
  have hlarge := ht.large
  have hwithin := ht.within
  omega

end Takes

end Heap

end WarkRune.Memory

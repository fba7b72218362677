import WarkRune.Memory.Contract

/-!
# The contract of `krealloc`

`krealloc` returns the payload it is given when that is large enough. Otherwise it takes another
one, copies the bytes of the old one and frees the old one. The copy is as long as the old payload,
which is shorter than the size asked for, so it stays inside the payload just taken: unless the
rounding of `kmalloc` has wrapped, and that payload is shorter still.

## Main definitions

* `KreallocMoves`, `KreallocContract`: the contract of a call
* `OwnerCall`, `OwnerStep`, `OwnerReachable`: runs in which owners write and move their payloads
* `OwnerCall.Fits`: the rounding of a call of `krealloc` does not wrap, or no block is free

## Main results

* `OwnerReachable.balanced`: the heap is balanced in every state of a run whose calls fit
* `krealloc_contract_iff`: in these states a call keeps the contract exactly when it fits
-/

namespace WarkRune.Memory

open Bytes (Memory)
open Exec

/-! ## The copy -/

theorem store8_load8 {m : Memory} {a b : ℕ} (ha : a < 2 ^ 32) (hb : b < 2 ^ 32) :
    m.store8 a (m.load8 b) = Function.update m a (m b) := by
  unfold Memory.store8 Memory.load8
  rw [Nat.mod_eq_of_lt ha, Nat.mod_eq_of_lt hb, BitVec.ofNat_toNat, BitVec.setWidth_eq]

/-- **The copy** of bytes to others that do not overlap. -/
theorem copy_yields {h : Heap} {dst src n : ℕ} (hd : dst + n ≤ 2 ^ 32) (hs : src + n ≤ 2 ^ 32)
    (hapart : dst + n ≤ src ∨ src + n ≤ dst) :
    (forRange (copyByte dst src) 0 n).Yields h fun _ h' => h.SameStatics h' ∧
      Set.EqOn h'.mem h.mem (Set.Ico dst (dst + n))ᶜ ∧
      ∀ i < n, h'.mem (dst + i) = h.mem (src + i) := by
  -- after `k` rounds `k` bytes are copied, and nothing else is written
  have hrun := @yields_forRange Heap (copyByte dst src) (fun k h' => h.SameStatics h' ∧
    Set.EqOn h'.mem h.mem (Set.Ico dst (dst + k))ᶜ ∧ ∀ i < k, h'.mem (dst + i) = h.mem (src + i))
    n 0 h ⟨Heap.sameStatics_refl, Set.eqOn_refl _ _, fun i hi => absurd hi (Nat.not_lt_zero i)⟩ ?_
  · rwa [Nat.zero_add] at hrun
  intro k h₁ _ hk hI
  obtain ⟨hstat, heq, hcopied⟩ := hI
  have hsrc : h₁.mem (src + k) = h.mem (src + k) := heq fun hin => by
    rw [Set.mem_Ico] at hin
    omega
  unfold copyByte
  rw [yields_modify, store8_load8 (by omega) (by omega), hsrc]
  refine ⟨hstat, fun x hx => ?_, fun i hi => ?_⟩
  · rw [Set.mem_compl_iff, Set.mem_Ico] at hx
    have hold : h₁.mem x = h.mem x := heq fun hin => by
      rw [Set.mem_Ico] at hin
      omega
    dsimp only
    rw [Function.update_of_ne (by omega), hold]
  · dsimp only
    rcases Nat.lt_succ_iff_lt_or_eq.mp hi with hlt | rfl
    · rw [Function.update_of_ne (by omega), hcopied i hlt]
    · rw [Function.update_self]

/-! ## The contract -/

/-- What `krealloc` promises for the payload `q` it returns instead of the payload `p` of a heap
`h` with the payloads `live`: `q` has the bytes asked for to itself and starts with the bytes of
`p`; no other payload changes, and no header but those of the two blocks and of a free block right
before that of `p`; and `q` is in use instead of `p`. -/
structure KreallocMoves (h : Heap) (live : Finset ℕ) (p size q : ℕ) (h' : Heap) : Prop where
  owns : OwnsBytes h' (live.erase p) q size
  data : ∀ i < min (h.size (p - headerSize)) size, h'.mem (q + i) = h.mem (p + i)
  payloads : ∀ r ∈ live, r ≠ p → Memory.SameOn h.mem h'.mem r (h.size (r - headerSize))
  headers : ∀ as, h.Walk h.head as → ∀ a ∈ as, a + headerSize ≠ p → a + headerSize ≠ q →
    ¬ h.FreeBefore a p → h'.header a = h.header a
  inUse : ∀ r, InUse h' r ↔ r = q ∨ r ∈ live ∧ r ≠ p
  stays : q = p → h' = h

/-- The contract of a call of `krealloc` on `h` for the payload `p` that returns `q` and leaves
`h'`. -/
def KreallocContract (h : Heap) (live : Finset ℕ) (p size q : ℕ) (h' : Heap) : Prop :=
  (q ≠ 0 → KreallocMoves h live p size q h') ∧ (q = 0 → h' = h)

namespace Heap

variable {h h' h'' : Heap} {bs : List Block} {live : Finset ℕ} {pool p q a n k : ℕ}

section Takes

variable (hb : h.Balanced live pool bs) (ht : h.Takes live pool bs n q h')
include hb ht

/-- **Filling the payload just taken** leaves it taken. -/
theorem Takes.filled (hstat : h'.SameStatics h'') (hk : k ≤ n)
    (heq : Set.EqOn h''.mem h'.mem (Set.Ico q (q + k))ᶜ) : h.Takes live pool bs n q h'' := by
  obtain ⟨bs', hb', haddrs⟩ := ht.balanced
  have hq : q ∈ insert q live := Finset.mem_insert_self q live
  have hlarge := ht.large
  have hwithin := ht.within
  have hpayload := ht.payload
  have hbound := hb.holds.in_pool ht.mem
  have hfits := hb.holds.fits
  -- the payload does not reach its own header
  have hheader : h''.header (q - headerSize) = h'.header (q - headerSize) := by
    refine header_congr (sameOn_of_eqOn heq fun x hx hin => ?_) (by omega)
    rw [Set.mem_Ico] at hx hin
    omega
  have hsize : h''.size (q - headerSize) = h'.size (q - headerSize) :=
    congrArg Header.size hheader
  have hsub : Set.Ico q (q + k) ⊆ h.blockBytes (q - headerSize) :=
    Set.Ico_subset_Ico (by omega) (by omega)
  refine ⟨ht.payload, ht.mem, ht.free, hsize ▸ hlarge, hsize ▸ hwithin, ht.statics.trans hstat,
    (heq.mono (Set.compl_subset_compl.mpr hsub)).trans ht.eqOn, bs', ?_, ?_⟩
  · exact hb'.of_payload hq hstat (by omega) heq
  · rw [hstat.1]
    exact haddrs

end Takes

section Moves

variable (hb : h.Balanced live pool bs) (ht : h.Takes live pool bs n q h')
include hb ht

/-- A free block right before another in the heap that has taken a block was there before, or lies
in the block taken. -/
theorem Takes.freeBefore (hbefore : h'.FreeBefore a p) :
    headerBytes a ⊆ h.blockBytes (q - headerSize) ∨ a ∈ addrs h.pool bs ∧ h.FreeBefore a p := by
  obtain ⟨bs', hb', haddrs⟩ := ht.balanced
  obtain ⟨hmem, hfree, hends⟩ := hbefore
  rcases haddrs a (hb'.holds.mem_walk_iff.mp hmem) with ha | hsub
  · by_cases hne : a = q - headerSize
    · rw [hne]
      exact .inl headerBytes_subset
    · have hheader := ht.header_eq hb ha hne
      have hfree' : h'.free a = h.free a := congrArg Header.free hheader
      have hsize' : h'.size a = h.size a := congrArg Header.size hheader
      rw [hfree'] at hfree
      rw [hsize'] at hends
      exact .inr ⟨ha, hb.holds.mem_walk_iff.mpr ha, hfree, hends⟩
  · exact .inl hsub

variable (hp : p ∈ live) (hfreed : h'.FreesAt p h'')
include hp hfreed

omit hp in
/-- What the move leaves alone: the bytes off the block taken, the header freed and that of a free
block right before it. -/
theorem Takes.mem_eq {x : ℕ} (hblock : x ∉ h.blockBytes (q - headerSize))
    (hheader : x ∉ headerBytes (p - headerSize))
    (hbefore : ∀ a ∈ addrs h.pool bs, h.FreeBefore a p → x ∉ headerBytes a) :
    h''.mem x = h.mem x := by
  refine (hfreed x hheader fun a ha hx => ?_).trans (ht.eqOn hblock)
  rcases ht.freeBefore hb ha with hsub | ⟨hmem, ha'⟩
  · exact hblock (hsub hx)
  · exact hbefore a hmem ha' hx

/-- **The payload of another block** keeps its bytes. -/
theorem Takes.payload_eq {r : ℕ} (hr : r ∈ live) :
    Memory.SameOn h.mem h''.mem r (h.size (r - headerSize)) := by
  intro x hle hlt
  obtain ⟨hmem, -, hge⟩ := hb.header_of_live hr
  refine ht.mem_eq hb hfreed (fun hin => ?_) (fun hin => ?_) fun a ha _ hin => ?_
  · have := hb.holds.apart hmem ht.mem (ht.ne_of_live hb hr)
    rw [mem_blockBytes] at hin
    omega
  · have := hb.apart_header hr (hb.header_of_live hp).1
    rw [mem_headerBytes] at hin
    omega
  · have := hb.apart_header hr ha
    rw [mem_headerBytes] at hin
    omega

/-- **A header that takes no part** is unchanged. -/
theorem Takes.otherHeader_eq (ha : a ∈ addrs h.pool bs) (hap : a + headerSize ≠ p)
    (haq : a + headerSize ≠ q) (hno : ¬ h.FreeBefore a p) : h''.header a = h.header a := by
  have hpool := hb.holds.in_pool ha
  have hfits := hb.holds.fits
  obtain ⟨hmem, -, hge⟩ := hb.header_of_live hp
  have hpayload := ht.payload
  refine header_congr (fun x hle hlt => ?_) (by omega)
  refine ht.mem_eq hb hfreed (fun hin => ?_) (fun hin => ?_) fun c hc hbefore hin => ?_
  · have := hb.holds.apart ha ht.mem (by omega)
    rw [mem_blockBytes] at hin
    omega
  · have := hb.holds.apart ha hmem (by omega)
    rw [mem_headerBytes] at hin
    omega
  · have hne : a ≠ c := fun he => hno (he ▸ hbefore)
    have := hb.holds.apart ha hc hne
    rw [mem_headerBytes] at hin
    omega

/-- **The contract of a move**: the payload taken starts with the bytes of `p`, and `p` is freed. -/
theorem Takes.moves {size : ℕ} (hsize : size ≤ n) (hq : q ≠ 0)
    (hdata : ∀ i < h.size (p - headerSize), h'.mem (q + i) = h.mem (p + i))
    (hlt : h.size (p - headerSize) < size)
    (hfreed' : ∃ bs'', h''.Balanced ((insert q live).erase p) pool bs'') :
    KreallocMoves h live p size q h'' := by
  obtain ⟨bs', hb', -⟩ := ht.balanced
  obtain ⟨bs'', hb''⟩ := hfreed'
  have hqlive : q ∈ insert q live := Finset.mem_insert_self q live
  have hplive : p ∈ insert q live := Finset.mem_insert_of_mem hp
  have hnot := ht.notMem hb
  have hne : q ≠ p := fun he => hnot (he ▸ hp)
  have hlarge := ht.large
  have hpayload := ht.payload
  have hkept := hb'.eqOn_freed hplive hqlive hne hfreed
  have hmem := (hb'.header_of_live hqlive).1
  have hbound := hb'.holds.in_pool hmem
  have hfits := hb'.holds.fits
  have hsize' : h''.size (q - headerSize) = h'.size (q - headerSize) :=
    congrArg Header.size (header_congr (sameOn_of_eqOn hkept headerBytes_subset) (by omega))
  have hothers : ((insert q live).erase p).erase q = live.erase p := by
    rw [Finset.erase_right_comm, Finset.erase_insert hnot]
  refine ⟨?_, fun i hi => ?_, fun r hr _ => ht.payload_eq hb hp hfreed hr, ?_, fun r => ?_,
    fun he => absurd he hne⟩
  · rw [← hothers]
    exact hb''.owns (Finset.mem_erase.mpr ⟨hne, hqlive⟩) (by omega)
  · rw [hkept (mem_blockBytes.mpr (by omega)), hdata i (by omega)]
  · intro as has a ha hap haq hno
    exact ht.otherHeader_eq hb hp hfreed (hb.holds.mem_walk_iff.mp ⟨as, has, ha⟩) hap haq hno
  · rw [hb''.inUse_iff, Finset.mem_erase, Finset.mem_insert]
    constructor
    · rintro ⟨hrp, rfl | hr⟩
      · exact .inl rfl
      · exact .inr ⟨hr, hrp⟩
    · rintro (rfl | ⟨hr, hrp⟩)
      · exact ⟨hne, .inl rfl⟩
      · exact ⟨hrp, .inr hr⟩

end Moves

/-- **Moving a payload** into one just taken that has room for it: the copy and the freeing. -/
theorem Takes.move {size : ℕ} (hb : h.Balanced live pool bs)
    (ht : h.Takes live pool bs n q h') (hp : p ∈ live) (hq : q ≠ 0) (hsize : size ≤ n)
    (hlt : h.size (p - headerSize) < size) :
    (forRange (copyByte q p) 0 (h'.size (p - headerSize))).Yields h' fun _ h₂ =>
      (kfree p).Yields h₂ fun _ h₃ => KreallocMoves h live p size q h₃ ∧
        ∃ bs', h₃.Balanced (insert q (live.erase p)) pool bs' := by
  obtain ⟨bs', hb', -⟩ := ht.balanced
  have hqlive : q ∈ insert q live := Finset.mem_insert_self q live
  have hplive : p ∈ insert q live := Finset.mem_insert_of_mem hp
  have hne : q ≠ p := fun he => ht.notMem hb (he ▸ hp)
  obtain ⟨hmem, -, hle⟩ := hb.header_of_live hp
  have hold : h'.size (p - headerSize) = h.size (p - headerSize) :=
    congrArg Header.size (ht.header_eq hb hmem (ht.ne_of_live hb hp))
  rw [hold]
  have hlarge := ht.large
  have hpool := hb'.holds.in_pool (hb'.header_of_live hqlive).1
  have hpool' := hb.holds.in_pool hmem
  have hfits := hb.holds.fits
  have hfits' := hb'.holds.fits
  have hpayload := ht.payload
  have hapart := hb'.apart_payload hqlive hplive hne
  rw [hold] at hapart
  refine (copy_yields (by omega) (by omega) (by omega)).mono fun _ h₂ hcopy => ?_
  obtain ⟨hstat, heq, hcopied⟩ := hcopy
  have ht₂ := ht.filled hb hstat (by omega) heq
  obtain ⟨bs₂, hb₂, -⟩ := ht₂.balanced
  refine (hb₂.kfree_writes hplive).mono fun _ h₃ hfreed => ?_
  obtain ⟨-, hb₃, hfrees⟩ := hfreed
  refine ⟨ht₂.moves hb hp hfrees hsize hq (fun i hi => ?_) hlt hb₃, ?_⟩
  · -- taking the block has not changed the bytes of `p`
    rw [hcopied i hi]
    refine ht.eqOn_block hb hmem (ht.ne_of_live hb hp) (mem_blockBytes.mpr ?_)
    omega
  · rwa [Finset.erase_insert_of_ne hne] at hb₃

namespace Balanced

section Call

variable (hb : h.Balanced live pool bs) (hp : p ∈ live) {size : BitVec 32} (hsize : size ≠ 0)
include hb hp hsize

/-- The steps of `krealloc` for a payload handed out. -/
theorem yields_krealloc_iff {P : ℕ → Heap → Prop} : (Memory.krealloc p size).Yields h P ↔
    if size.toNat ≤ h.size (p - headerSize) then P p h
    else (Memory.kmalloc size).Yields h fun q h₁ =>
      if q = 0 then P 0 h₁
      else (forRange (copyByte q p) 0 (h₁.size (p - headerSize))).Yields h₁ fun _ h₂ =>
        (Memory.kfree p).Yields h₂ fun _ h₃ => P q h₃ := by
  obtain ⟨hmem, -, hle⟩ := hb.header_of_live hp
  have hpool := hb.holds.in_pool hmem
  have hfits := hb.holds.fits
  have hhdr : (p + 2 ^ 32 - headerSize) % 2 ^ 32 = p - headerSize := by
    unfold headerSize at *
    omega
  have hmagic := hb.holds.magic_at hmem
  unfold Memory.krealloc
  rw [if_neg (hb.ne_zero hp), if_neg hsize]
  simp only [yields_bind, yields_get, hhdr]
  rw [if_neg (not_not_intro hmagic)]
  simp only [yields_ite, yields_bind, yields_get, yields_pure, ge_iff_le]

/-- **A move that fits keeps the contract**, and the heap stays balanced. -/
theorem krealloc (hfit : size.toNat + 8 ≤ 2 ^ 32 ∨ FreeBelow h (alignUp size.toNat)) :
    (Memory.krealloc p size).Yields h fun q h' =>
      KreallocContract h live p size.toNat q h' ∧
        ∃ bs', h'.Balanced (if q = 0 then live else insert q (live.erase p)) pool bs' := by
  have hne := hb.ne_zero hp
  rw [hb.yields_krealloc_iff hp hsize]
  by_cases hlarge : size.toNat ≤ h.size (p - headerSize)
  · rw [if_pos hlarge]
    refine ⟨⟨fun _ => ⟨hb.owns hp hlarge, fun _ _ => rfl, fun _ _ _ => Memory.sameOn_refl,
      fun _ _ _ _ _ _ _ => rfl, fun r => ?_, fun _ => rfl⟩, fun h0 => absurd h0 hne⟩, bs, ?_⟩
    · rw [hb.inUse_iff]
      constructor
      · intro hr
        by_cases hrp : r = p
        · exact .inl hrp
        · exact .inr ⟨hr, hrp⟩
      · rintro (rfl | ⟨hr, -⟩)
        · exact hp
        · exact hr
    · rwa [if_neg hne, Finset.insert_erase hp]
  · rw [if_neg hlarge]
    refine (hb.kmalloc_takes hsize).mono fun q h₁ hq => ?_
    rcases hq with ⟨rfl, rfl, -⟩ | ⟨hq, ht⟩
    · rw [if_pos rfl, if_pos rfl]
      exact ⟨⟨fun h0 => absurd rfl h0, fun _ => rfl⟩, bs, hb⟩
    · -- a free block was large enough, so the rounding has not wrapped
      have hround : size.toNat ≤ alignUp size.toNat :=
        hfit.elim le_alignUp fun hbelow => absurd hbelow (ht.not_freeBelow hb)
      rw [if_neg hq]
      refine (ht.move hb hp hq hround (by omega)).mono fun _ h₂ hfree => ?_
      refine hfree.mono fun _ h₃ hspec => ?_
      rw [if_neg hq]
      exact ⟨⟨fun _ => hspec.1, fun h0 => absurd h0 hq⟩, hspec.2⟩

/-- **A move that does not fit breaks the contract**: it returns a payload, and nothing in the pool
is as large as the size asked for. -/
theorem fits_of_contract
    (hy : (Memory.krealloc p size).Yields h (KreallocContract h live p size.toNat)) :
    size.toNat + 8 ≤ 2 ^ 32 ∨ FreeBelow h (alignUp size.toNat) := by
  obtain ⟨hmem, -, hle⟩ := hb.header_of_live hp
  have hpool := hb.holds.in_pool hmem
  rw [hb.yields_krealloc_iff hp hsize] at hy
  by_cases hlarge : size.toNat ≤ h.size (p - headerSize)
  · refine .inl ?_
    unfold kmallocHeapSize at hpool
    omega
  rw [if_neg hlarge] at hy
  obtain ⟨q, h₁, hr, hy⟩ := hy
  rcases (hb.kmalloc_takes hsize).of_returns hr with ⟨-, -, hbelow⟩ | ⟨hq, -⟩
  · exact .inr hbelow
  rw [if_neg hq] at hy
  obtain ⟨-, h₂, -, -, h₃, -, hcontract⟩ := hy
  have hin := (hcontract.1 hq).owns.inPool
  refine .inl ?_
  unfold kmallocHeapSize at hin
  omega

end Call

end Balanced

end Heap

/-! ## Runs -/

/-- A call of the heap, or what the owner of a payload does with it. -/
inductive OwnerCall
  | heap (c : HeapCall)
  | krealloc (ptr : ℕ) (size : BitVec 32)
  | write (ptr : ℕ) (bytes : List (BitVec 8))

/-- A step of the owners beside the payloads handed out: each is written, moved and freed by its
owner only, and written inside its bytes. -/
inductive OwnerStep : Heap × Finset ℕ → OwnerCall → Heap × Finset ℕ → Prop
  | heap {s s' : Heap × Finset ℕ} {c : HeapCall} : HeapStep s c s' → OwnerStep s (.heap c) s'
  | krealloc {h h' : Heap} {live : Finset ℕ} {p q : ℕ} {size : BitVec 32} : p ∈ live →
    size ≠ 0 → (krealloc p size).Returns h q h' →
    OwnerStep (h, live) (.krealloc p size) (h', if q = 0 then live else insert q (live.erase p))
  | write {h : Heap} {live : Finset ℕ} {p i : ℕ} {bytes : List (BitVec 8)} : p ∈ live →
    i + bytes.length ≤ h.size (p - headerSize) →
    OwnerStep (h, live) (.write (p + i) bytes)
      ({ h with mem := h.mem.storeBytes (p + i) bytes }, live)

/-- The states of the runs after `kmalloc_init` from `h₀` all of whose calls are allowed. -/
inductive OwnerReachable (Allowed : Heap → OwnerCall → Prop) (h₀ : Heap) :
    Heap × Finset ℕ → Prop
  | init {h : Heap} : kmallocInit.Returns h₀ () h → OwnerReachable Allowed h₀ (h, ∅)
  | step {s s' : Heap × Finset ℕ} {c : OwnerCall} : OwnerReachable Allowed h₀ s →
    Allowed s.1 c → OwnerStep s c s' → OwnerReachable Allowed h₀ s'

/-- The rounding of a call of `krealloc` does not wrap, or no free block reaches what it gives. -/
def Fits (h : Heap) (size : BitVec 32) : Prop :=
  size.toNat + 8 ≤ 2 ^ 32 ∨ FreeBelow h (alignUp size.toNat)

/-- Every call of `krealloc` fits. -/
def OwnerCall.Fits (h : Heap) : OwnerCall → Prop
  | .krealloc _ size => WarkRune.Memory.Fits h size
  | _ => True

/-- `krealloc` of null is `kmalloc`. -/
theorem krealloc_null (size : BitVec 32) : krealloc 0 size = kmalloc size := if_pos rfl

/-- `krealloc` to no bytes is `kfree`. -/
theorem krealloc_zero {p : ℕ} (hp : p ≠ 0) : krealloc p 0 = do
    kfree p
    return 0 := by
  unfold krealloc
  rw [if_neg hp, if_pos rfl]

/-- What an owner does keeps the heap balanced when it fits. -/
theorem Heap.Balanced.ownerStep {s s' : Heap × Finset ℕ} {c : OwnerCall} {pool : ℕ}
    {bs : List Block} (hb : s.1.Balanced s.2 pool bs) (hfit : c.Fits s.1)
    (hstep : OwnerStep s c s') : ∃ bs', s'.1.Balanced s'.2 pool bs' := by
  cases hstep with
  | heap hcall => exact hb.step hcall
  | krealloc hp hsize hr => exact ((hb.krealloc hp hsize hfit).of_returns hr).2
  | write hp hlen => exact ⟨bs, hb.write hp hlen⟩

/-- **The heap is balanced** in every state of a run whose calls fit. -/
theorem OwnerReachable.balanced {h₀ : Heap} (hpos : 0 < heapPool h₀.heapBase)
    (hfits : heapPool h₀.heapBase + kmallocHeapSize ≤ 2 ^ 32) {s : Heap × Finset ℕ}
    (hs : OwnerReachable OwnerCall.Fits h₀ s) :
    ∃ bs, s.1.Balanced s.2 (heapPool h₀.heapBase) bs := by
  induction hs with
  | init hinit => exact (Heap.kmallocInit_balanced hpos hfits).of_returns hinit
  | step _ hfit hstep ih =>
    obtain ⟨bs, hb⟩ := ih
    exact hb.ownerStep hfit hstep

/-- **`krealloc` keeps its contract**, in every state of a run whose calls fit of a heap whose pool
lies below 4 GiB, exactly when it fits. -/
theorem krealloc_contract_iff {h₀ : Heap} (hpos : 0 < heapPool h₀.heapBase)
    (hfits : heapPool h₀.heapBase + kmallocHeapSize ≤ 2 ^ 32) {s : Heap × Finset ℕ}
    (hs : OwnerReachable OwnerCall.Fits h₀ s) {p : ℕ} (hp : p ∈ s.2) {size : BitVec 32}
    (hsize : size ≠ 0) :
    (krealloc p size).Yields s.1 (KreallocContract s.1 s.2 p size.toNat) ↔ Fits s.1 size := by
  obtain ⟨bs, hb⟩ := hs.balanced hpos hfits
  constructor
  · exact hb.fits_of_contract hp hsize
  · intro hfit
    exact (hb.krealloc hp hsize hfit).mono fun _ _ hspec => hspec.1

/-- A first run: sixteen bytes are taken, and moved. -/
def firstMove (size : BitVec 32) : Exec Heap (ℕ × ℕ) := do
  kmallocInit
  let p ← kmalloc 16
  let q ← krealloc p size
  return (p, q)

theorem firstMove_reachable {h₀ h' : Heap} {size : BitVec 32} {p q : ℕ}
    (hr : (firstMove size).Returns h₀ (p, q) h') (hp : p ≠ 0) :
    ∃ h, OwnerReachable OwnerCall.Fits h₀ (h, {p}) ∧ (krealloc p size).Returns h q h' := by
  obtain ⟨_, h₁, hinit, hr⟩ := returns_bind.mp hr
  obtain ⟨p', h₂, htake, hr⟩ := returns_bind.mp hr
  obtain ⟨q', h₃, hmove, hr⟩ := returns_bind.mp hr
  obtain ⟨heq, rfl⟩ := returns_pure.mp hr
  obtain ⟨rfl, rfl⟩ := Prod.mk.inj heq
  refine ⟨h₂, ?_, hmove⟩
  have hstep : OwnerReachable OwnerCall.Fits h₀ _ :=
    .step (c := .heap (.kmalloc 16)) (.init hinit) trivial (.heap (.kmalloc htake))
  rwa [if_neg hp, insert_empty_eq] at hstep

/-- The theorem for a payload of sixteen bytes that is moved to a hundred. -/
theorem krealloc_contract_first : ∃ h, OwnerReachable OwnerCall.Fits lowHeap (h, {0x108010}) ∧
    (krealloc 0x108010 100).Yields h (KreallocContract h {0x108010} 0x108010 100) := by
  have hrun : ((firstMove 100).run 3 lowHeap).map Prod.fst = some (0x108010, 0x108030) := by
    decide +kernel
  obtain ⟨⟨⟨p, q⟩, h'⟩, hr, heq⟩ := Option.map_eq_some_iff.mp hrun
  obtain ⟨rfl, rfl⟩ := Prod.mk.inj heq
  obtain ⟨h, hreach, -⟩ := firstMove_reachable ⟨3, hr⟩ (by decide)
  exact ⟨h, hreach, (krealloc_contract_iff (by decide) (by decide) hreach
    (Finset.mem_singleton_self _) (by decide)).mpr (.inl (by decide))⟩

/-- A size next to `2 ^ 32` is rounded to 0: the payload that `krealloc` returns for it has not even
the bytes that were copied. -/
theorem krealloc_contract_wraps : ∃ h h', OwnerReachable OwnerCall.Fits lowHeap (h, {0x108010}) ∧
    (krealloc 0x108010 0xFFFFFFFF).Returns h 0x108030 h' ∧
    ¬ KreallocContract h {0x108010} 0x108010 0xFFFFFFFF 0x108030 h' := by
  have hrun : ((firstMove 0xFFFFFFFF).run 3 lowHeap).map Prod.fst =
      some (0x108010, 0x108030) := by
    decide +kernel
  obtain ⟨⟨⟨p, q⟩, h'⟩, hr, heq⟩ := Option.map_eq_some_iff.mp hrun
  obtain ⟨rfl, rfl⟩ := Prod.mk.inj heq
  obtain ⟨h, hreach, hmove⟩ := firstMove_reachable ⟨3, hr⟩ (by decide)
  refine ⟨h, h', hreach, hmove, fun hcontract => ?_⟩
  have hin := (hcontract.1 (by decide)).owns.inPool
  unfold kmallocHeapSize at hin
  omega

end WarkRune.Memory

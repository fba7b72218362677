import WarkRune.Memory.Blocks

/-!
# What the heap's programs do to its blocks

The programs of the heap compute functions on the list of blocks. `kmalloc` carves the first free
block that is large enough; `kfree` frees a block and merges; `kmem_info` adds the sizes.

## Main definitions

* `carve`: the blocks a free block becomes when `kmalloc` takes it
* `mergeInto`, `merge`: the blocks after `merge_free_blocks`
* `joinBytes`: the bytes that `merge_free_blocks` writes
* `usedBytes`, `freeBytes`: the sums of `kmem_info`

## Main results

* `kmallocInit_yields`, `kmalloc_writes`, `kfree_writes`, `kmemInfo_yields`: what the programs do,
  and which bytes they write
-/

namespace WarkRune.Memory

open Bytes (Memory)
open Exec

/-- The blocks a free block becomes when `kmalloc` takes it. -/
def carve (aligned : ℕ) (b : Block) : List Block :=
  if aligned + headerSize + 8 ≤ b.size then
    [⟨aligned, false⟩, ⟨b.size - aligned - headerSize, true⟩]
  else [⟨b.size, false⟩]

/-- The blocks after `merge_free_blocks` when it has come to the block `b`. -/
def mergeInto (b : Block) : List Block → List Block
  | [] => [b]
  | c :: cs =>
    if b.free ∧ c.free then mergeInto ⟨b.size + (headerSize + c.size), b.free⟩ cs
    else b :: mergeInto c cs

/-- The blocks after `merge_free_blocks`. -/
def merge : List Block → List Block
  | [] => []
  | b :: bs => mergeInto b bs

/-- The bytes that `merge_free_blocks` writes in blocks laid from `a`: the headers of free blocks
with a free one behind. -/
def joinBytes (a : ℕ) (bs : List Block) : Set ℕ :=
  {x | ∃ xs b c ys, bs = xs ++ b :: c :: ys ∧ b.free = true ∧ c.free = true ∧
    x ∈ Heap.headerBytes (a + span xs)}

/-- The bytes of the payloads in use. -/
def usedBytes (bs : List Block) : ℕ := (bs.map fun b => if b.free then 0 else b.size).sum

/-- The bytes of the free payloads. -/
def freeBytes (bs : List Block) : ℕ := (bs.map fun b => if b.free then b.size else 0).sum

namespace Heap

variable {h h' : Heap} {xs ys : List Block} {b c : Block} {aligned a n : ℕ}

theorem HeaderAt.size_eq (hat : h.HeaderAt a b n) : h.size a = b.size := congrArg Header.size hat

theorem HeaderAt.next_eq (hat : h.HeaderAt a b n) : h.next a = n := congrArg Header.next hat

theorem HeaderAt.magic_eq (hat : h.HeaderAt a b n) : h.magic a = blockMagic :=
  congrArg Header.magic hat

theorem HeaderAt.free_iff (hat : h.HeaderAt a b n) : h.free a ≠ 0 ↔ b.free = true := by
  have hfree : h.free a = b.free.toNat := congrArg Header.free hat
  rw [hfree]
  cases b.free <;> decide

/-- The header of a block of the list. -/
theorem Holds.headerAt (hh : h.Holds (xs ++ b :: ys)) :
    h.HeaderAt (h.pool + span xs) b (start 0 (h.pool + span xs + b.span) ys) :=
  (segment_append.mp hh.segment).2.1

/-- The bytes of a block of the list are in the pool. -/
theorem Holds.bounds (hh : h.Holds (xs ++ b :: ys)) :
    h.pool + span xs + (headerSize + b.size) + span ys = h.pool + kmallocHeapSize := by
  have heq := hh.span_eq
  rw [span_append, span_cons] at heq
  have hspan : b.span = headerSize + b.size := rfl
  omega

theorem Holds.block_le (hh : h.Holds (xs ++ b :: ys)) :
    h.pool + span xs + (headerSize + b.size) ≤ 2 ^ 32 := by
  have hb := hh.bounds
  have hf := hh.fits
  omega

theorem Holds.head_eq {bs : List Block} (hh : h.Holds bs) :
    h.head = start 0 (h.pool + span []) bs := by
  rw [hh.head, span_nil, Nat.add_zero]
  cases bs with
  | nil => cases hh.span_eq
  | cons b bs => rfl

/-- One field of one header changes. -/
theorem Holds.rewrite {f : Header → Header} {d : Block} (hh : h.Holds (xs ++ b :: ys))
    (hw : WroteAt h h' (h.pool + span xs) f) (hsize : d.size = b.size)
    (hf : ∀ n, f ⟨blockMagic, b.size, b.free.toNat, n⟩ = ⟨blockMagic, b.size, d.free.toNat, n⟩) :
    h'.Holds (xs ++ d :: ys) := by
  have hat := hh.headerAt
  have hspan : d.span = b.span := by rw [Block.span, Block.span, hsize]
  refine hh.replace [b] [d] (by simp) (by simp) (by simp [hspan]) ?_
    ?_ hw.statics (hw.outside _ _ (.inr (Nat.le_refl _))) (hw.outside _ _ (.inl ?_)) ?_
  · intro c hc
    rw [List.mem_singleton.mp hc, hsize]
    exact hh.sizes b (by simp)
  · simp [hsize]
  · rw [span_cons, span_nil, Block.span]
    omega
  · refine ⟨?_, trivial⟩
    rw [HeaderAt] at hat
    rw [HeaderAt, hw.header, hat, hf, hsize]
    rfl

/-! ## Splitting -/

/-- `kmalloc` fills the header of the rest of the block, and then shortens the block. -/
theorem kmallocSplit_wrote (hat : h.HeaderAt a b n) (hle : a + headerSize + b.size ≤ 2 ^ 32)
    (hal : aligned + headerSize + 8 ≤ b.size) :
    (kmallocSplit aligned a).Yields h fun _ h' => ∃ h₁,
      WroteAt h h₁ (a + headerSize + aligned)
        (fun _ => ⟨blockMagic, b.size - aligned - headerSize, 1, n⟩) ∧
      WroteAt h₁ h' a ({ · with size := aligned, next := a + headerSize + aligned }) := by
  have hsplit : (a + headerSize + aligned) % 2 ^ 32 = a + headerSize + aligned :=
    Nat.mod_eq_of_lt (by unfold headerSize at *; omega)
  unfold kmallocSplit
  rw [hsplit]
  simp only [yields_bind, yields_modify]
  generalize hs : a + headerSize + aligned = s
  have hsle : s + headerSize ≤ 2 ^ 32 := by omega
  have hale : a + headerSize ≤ 2 ^ 32 := by omega
  have w₁ := WroteAt.setMagic (h := h) (v := blockMagic) hsle (by decide)
  generalize h.setMagic s blockMagic = h₁ at w₁ ⊢
  have hsize₁ : h₁.size a = b.size :=
    (congrArg Header.size (w₁.header_ne (.inr (by omega)) hale)).trans hat.size_eq
  have hrest : (b.size + 2 ^ 32 - aligned - headerSize) % 2 ^ 32 =
      b.size - aligned - headerSize := by
    unfold headerSize at *
    omega
  rw [hsize₁, hrest]
  have w₂ := w₁.trans (WroteAt.setSize (v := b.size - aligned - headerSize) hsle (by omega))
  generalize h₁.setSize s (b.size - aligned - headerSize) = h₂ at w₂ ⊢
  have w₃ := w₂.trans (WroteAt.setFree (v := 1) hsle (by decide))
  generalize h₂.setFree s 1 = h₃ at w₃ ⊢
  have hnext₃ : h₃.next a = n :=
    (congrArg Header.next (w₃.header_ne (.inr (by omega)) hale)).trans hat.next_eq
  have hnextlt : h₃.next a < 2 ^ 32 := Memory.load32_lt
  have w₄ := w₃.trans (WroteAt.setNext hsle hnextlt)
  rw [hnext₃] at w₄ ⊢
  generalize h₃.setNext s n = h₄ at w₄ ⊢
  have w₅ := WroteAt.setSize (h := h₄) (v := aligned) hale (by omega)
  generalize h₄.setSize a aligned = h₅ at w₅ ⊢
  have w₆ := w₅.trans (WroteAt.setNext (v := s) hale (by unfold headerSize at hsle; omega))
  exact ⟨h₄, w₄, w₆⟩

/-- **A block cut in two** leaves two blocks. -/
theorem Holds.split {h₁ : Heap} (hh : h.Holds (xs ++ b :: ys)) (h8 : 8 ∣ aligned)
    (hal : aligned + headerSize + 8 ≤ b.size)
    (w : WroteAt h h₁ (h.pool + span xs + headerSize + aligned) (fun _ =>
      ⟨blockMagic, b.size - aligned - headerSize, 1, start 0 (h.pool + span xs + b.span) ys⟩))
    (w' : WroteAt h₁ h' (h.pool + span xs)
      ({ · with size := aligned, next := h.pool + span xs + headerSize + aligned })) :
    h'.Holds (xs ++ ⟨aligned, b.free⟩ :: ⟨b.size - aligned - headerSize, true⟩ :: ys) := by
  have hle := hh.block_le
  have hat := hh.headerAt
  have h8b := hh.sizes b (by simp)
  have hspan : b.span = headerSize + b.size := rfl
  refine hh.replace [b] [⟨aligned, b.free⟩, ⟨b.size - aligned - headerSize, true⟩] (by simp)
    (by simp) ?_ ?_ ?_ (w.statics.trans w'.statics) ?_ ?_ ?_
  · simp only [span_cons, span_nil, Block.span]
    omega
  · intro d hd
    simp only [List.mem_cons, List.not_mem_nil, or_false] at hd
    rcases hd with rfl | rfl
    · exact h8
    · unfold headerSize
      dsimp only
      omega
  · intro _ d hd
    obtain rfl : _ = d := by simpa using hd
    dsimp only
    omega
  · exact (w.outside _ _ (.inr (by omega))).trans (w'.outside _ _ (.inr (by omega)))
  · rw [span_cons, span_nil, hspan]
    exact (w.outside _ _ (.inl (by omega))).trans (w'.outside _ _ (.inl (by omega)))
  · rw [segment_cons, segment_cons, start_cons, span_cons, span_nil, Nat.add_zero]
    have hfirst : h.pool + span xs + (⟨aligned, b.free⟩ : Block).span =
        h.pool + span xs + headerSize + aligned := (Nat.add_assoc _ _ _).symm
    have hsecond : h.pool + span xs + headerSize + aligned +
        (⟨b.size - aligned - headerSize, true⟩ : Block).span = h.pool + span xs + b.span := by
      rw [Block.span, hspan]
      dsimp only
      omega
    rw [hfirst, hsecond]
    refine ⟨?_, ?_, trivial⟩
    · rw [HeaderAt] at hat
      rw [HeaderAt, w'.header, w.header_ne (.inr (by omega)) (by omega), hat]
    · rw [HeaderAt, w'.header_ne (.inl (by omega)) (by omega), w.header]
      rfl

theorem kmallocSplit_yields (hh : h.Holds (xs ++ b :: ys))
    (hal : aligned + headerSize + 8 ≤ b.size) (h8 : 8 ∣ aligned) :
    (kmallocSplit aligned (h.pool + span xs)).Yields h fun _ h' => h.SameStatics h' ∧
      h'.Holds (xs ++ ⟨aligned, b.free⟩ :: ⟨b.size - aligned - headerSize, true⟩ :: ys) ∧
      Set.EqOn h'.mem h.mem (h.blockBytes (h.pool + span xs))ᶜ := by
  have hle := hh.block_le
  have hat := hh.headerAt
  refine (kmallocSplit_wrote hat (by omega) hal).mono ?_
  rintro - h' ⟨h₁, w, w'⟩
  -- both headers are in the block that is cut
  have hsub : headerBytes (h.pool + span xs + headerSize + aligned) ⊆
      h.blockBytes (h.pool + span xs) := by
    unfold headerBytes blockBytes
    rw [hat.size_eq]
    exact Set.Ico_subset_Ico (by omega) (by omega)
  exact ⟨w.statics.trans w'.statics, hh.split h8 hal w w',
    (w'.eqOn headerBytes_subset).trans (w.eqOn hsub)⟩

/-! ## `kmalloc` -/

/-- What `kmalloc` does to blocks `ys` behind `xs`: no free one is large enough, or it carves the
first that is. -/
def Took (h : Heap) (aligned : ℕ) (xs ys : List Block) (p : ℕ) (h' : Heap) : Prop :=
  (p = 0 ∧ h' = h ∧ ∀ b ∈ ys, b.free = true → b.size < aligned) ∨
    ∃ as b bs, ys = as ++ b :: bs ∧ b.free = true ∧ aligned ≤ b.size ∧
      (∀ c ∈ as, c.free = true → c.size < aligned) ∧
      p = h.pool + span (xs ++ as) + headerSize ∧ h.SameStatics h' ∧
      h'.Holds (xs ++ as ++ carve aligned b ++ bs)

theorem Took.cons (hb : b.free = true → b.size < aligned) {p : ℕ}
    (ht : Took h aligned (xs ++ [b]) ys p h') : Took h aligned xs (b :: ys) p h' := by
  rcases ht with ⟨hp, hh, hall⟩ | ⟨as, c, cs, rfl, hc, hle, hall, hp, hstat, hh⟩
  · refine .inl ⟨hp, hh, fun c hc => ?_⟩
    rcases List.mem_cons.mp hc with rfl | hc
    · exact hb
    · exact hall c hc
  · refine .inr ⟨b :: as, c, cs, rfl, hc, hle, fun d hd => ?_, ?_, hstat, ?_⟩
    · rcases List.mem_cons.mp hd with rfl | hd
      · exact hb
      · exact hall d hd
    · rw [hp, List.append_assoc, List.singleton_append]
    · rwa [List.append_assoc xs, List.singleton_append] at hh

/-- A payload starts below the end of the address space. -/
theorem Holds.payload_lt (hh : h.Holds (xs ++ b :: ys)) :
    h.pool + span xs + headerSize < 2 ^ 32 := by
  have hb := hh.bounds
  have hf := hh.fits
  cases ys with
  | nil =>
    have hpos := hh.last b (by simp)
    omega
  | cons c cs =>
    rw [span_cons, Block.span] at hb
    unfold headerSize at hb ⊢
    omega

/-- The round of `kmalloc` at a block it takes. -/
theorem kmallocRound_take (hh : h.Holds (xs ++ b :: ys)) (hfree : b.free = true)
    (hle : aligned ≤ b.size) (h8 : 8 ∣ aligned) :
    (kmallocRound aligned (h.pool + span xs)).Yields h fun x h' =>
      x = .inr (h.pool + span xs + headerSize) ∧ h.SameStatics h' ∧
        h'.Holds (xs ++ carve aligned b ++ ys) ∧
        Set.EqOn h'.mem h.mem (h.blockBytes (h.pool + span xs))ᶜ := by
  have hat := hh.headerAt
  have hpos := hh.pos
  have hlt := hh.payload_lt
  have hbl := hh.block_le
  have hb := hh.bounds
  have hsum : (aligned + headerSize + 8) % 2 ^ 32 = aligned + headerSize + 8 := by
    apply Nat.mod_eq_of_lt
    unfold headerSize kmallocHeapSize at *
    omega
  have hptr : (h.pool + span xs + headerSize) % 2 ^ 32 = h.pool + span xs + headerSize :=
    Nat.mod_eq_of_lt hlt
  unfold kmallocRound
  simp only [yields_bind, yields_get]
  rw [if_neg (by omega), if_pos ⟨hat.free_iff.mpr hfree, hat.size_eq.ge.trans' hle⟩, hat.size_eq,
    hsum, hptr]
  simp only [yields_bind]
  unfold carve
  -- the block is split where the rest holds a header and eight bytes
  split_ifs with hsplit
  · refine (kmallocSplit_yields hh hsplit h8).mono fun _ h₁ h₁spec => ?_
    obtain ⟨hstat, hh₁, heq⟩ := h₁spec
    rw [yields_modify, yields_pure, ← hstat.1]
    have hw := WroteAt.setFree (h := h₁) (a := h₁.pool + span xs) (v := 0)
      (by rw [hstat.1]; omega) (by decide)
    rw [← hstat.1] at heq
    refine ⟨rfl, hstat.trans hw.statics, ?_, (hw.eqOn headerBytes_subset).trans heq⟩
    rw [List.append_assoc]
    exact hh₁.rewrite hw rfl fun n => rfl
  · rw [yields_pure, yields_modify, yields_pure]
    have hw := WroteAt.setFree (h := h) (a := h.pool + span xs) (v := 0) (by omega) (by decide)
    refine ⟨rfl, hw.statics, ?_, hw.eqOn headerBytes_subset⟩
    rw [List.append_assoc]
    exact hh.rewrite hw rfl fun n => rfl

/-- The round of `kmalloc` at a block it passes over. -/
theorem kmallocRound_skip (hh : h.Holds (xs ++ b :: ys))
    (hno : ¬ (b.free = true ∧ aligned ≤ b.size)) :
    (kmallocRound aligned (h.pool + span xs)).Yields h fun x h' =>
      x = .inl (start 0 (h.pool + span (xs ++ [b])) ys) ∧ h' = h := by
  have hat := hh.headerAt
  have hpos := hh.pos
  have hskip : ¬ (h.free (h.pool + span xs) ≠ 0 ∧ h.size (h.pool + span xs) ≥ aligned) := by
    rw [hat.free_iff, hat.size_eq]
    exact hno
  have hspan : span xs + b.span = span (xs ++ [b]) := by simp
  unfold kmallocRound
  simp only [yields_bind, yields_get]
  rw [if_neg (by omega), if_neg hskip, yields_pure, hat.next_eq, Nat.add_assoc, hspan]
  exact ⟨rfl, rfl⟩

/-- The loop of `kmalloc` from any block on: it writes into the block it takes only. -/
theorem kmallocLoop_yields (h8 : 8 ∣ aligned) :
    ∀ {xs ys : List Block}, h.Holds (xs ++ ys) →
      (loop (kmallocRound aligned) (start 0 (h.pool + span xs) ys)).Yields h fun p h' =>
        h.Took aligned xs ys p h' ∧
          (p ≠ 0 → Set.EqOn h'.mem h.mem (h.blockBytes (p - headerSize))ᶜ)
  | xs, [], hh => by
    rw [yields_loop, start_nil]
    simp only [kmallocRound, yields_bind, yields_get, if_pos, yields_pure, resumes_inr]
    exact ⟨.inl ⟨rfl, rfl, by simp⟩, fun hne => absurd rfl hne⟩
  | xs, b :: ys, hh => by
    rw [yields_loop, start_cons]
    by_cases htake : b.free = true ∧ aligned ≤ b.size
    · refine (kmallocRound_take hh htake.1 htake.2 h8).mono fun x h' hx => ?_
      obtain ⟨rfl, hstat, hh', heq⟩ := hx
      refine ⟨.inr ⟨[], b, ys, rfl, htake.1, htake.2, by simp, ?_, hstat, ?_⟩, fun _ => ?_⟩
      · rw [List.append_nil]
      · rwa [List.append_nil]
      · rwa [Nat.add_sub_cancel]
    · have hsmall : b.free = true → b.size < aligned := fun hf =>
        Nat.lt_of_not_le fun hle => htake ⟨hf, hle⟩
      refine (kmallocRound_skip hh htake).mono fun x h' hx => ?_
      rw [hx.1, hx.2, resumes_inl]
      have hh' : h.Holds ((xs ++ [b]) ++ ys) := by rwa [List.append_assoc, List.singleton_append]
      exact (kmallocLoop_yields h8 hh').mono fun p h' hspec => ⟨hspec.1.cons hsmall, hspec.2⟩

theorem eight_dvd_alignUp (size : ℕ) : 8 ∣ alignUp size := Nat.dvd_mul_left _ _

/-- **`kmalloc` carves the first free block that is large enough**, if there is one, and writes
into that block only. -/
theorem kmalloc_writes {bs : List Block} (hh : h.Holds bs) {size : BitVec 32} (hsize : size ≠ 0) :
    (kmalloc size).Yields h fun p h' => h.Took (alignUp size.toNat) [] bs p h' ∧
      (p ≠ 0 → Set.EqOn h'.mem h.mem (h.blockBytes (p - headerSize))ᶜ) := by
  have hhead := hh.head_eq
  unfold kmalloc
  simp only [yields_bind, yields_get]
  rw [if_pos hh.ready, yields_pure, if_neg hsize]
  simp only [yields_bind, yields_get]
  rw [hhead]
  exact kmallocLoop_yields (eight_dvd_alignUp _) (show h.Holds ([] ++ bs) from hh)

theorem kmalloc_yields {bs : List Block} (hh : h.Holds bs) {size : BitVec 32} (hsize : size ≠ 0) :
    (kmalloc size).Yields h (h.Took (alignUp size.toNat) [] bs) :=
  (kmalloc_writes hh hsize).mono fun _ _ hspec => hspec.1

theorem kmalloc_zero_yields {bs : List Block} (hh : h.Holds bs) :
    (kmalloc 0).Yields h fun p h' => p = 0 ∧ h' = h := by
  unfold kmalloc
  simp only [yields_bind, yields_get]
  rw [if_pos hh.ready, yields_pure, if_pos trivial, yields_pure]
  exact ⟨rfl, rfl⟩

/-! ## `kmalloc_init` -/

/-- `kmalloc_init` makes the pool one free block, where the pool is below 4 GiB. -/
theorem kmallocInit_yields (hpos : 0 < heapPool h.heapBase)
    (hfits : heapPool h.heapBase + kmallocHeapSize ≤ 2 ^ 32) :
    kmallocInit.Yields h fun _ h' => h'.Holds [⟨kmallocHeapSize - headerSize, true⟩] ∧
      h'.pool = heapPool h.heapBase := by
  unfold kmallocInit
  simp only [yields_bind, yields_modify]
  generalize heapPool h.heapBase = p at *
  have hple : p + headerSize ≤ 2 ^ 32 := by
    unfold headerSize kmallocHeapSize at *
    omega
  generalize e₀ : ({ h with pool := p, head := p } : Heap) = h₀
  have hpool : h₀.pool = p := by rw [← e₀]
  have hhead : h₀.head = p := by rw [← e₀]
  -- the four stores fill the header of the block, and nothing else
  have w₁ := WroteAt.setMagic (h := h₀) (v := blockMagic) hple (by decide)
  generalize h₀.setMagic p blockMagic = h₁ at w₁ ⊢
  rw [w₁.statics.2.1, hhead]
  have w₂ := w₁.trans (WroteAt.setSize (v := kmallocHeapSize - headerSize) hple (by decide))
  generalize h₁.setSize p (kmallocHeapSize - headerSize) = h₂ at w₂ ⊢
  rw [w₂.statics.2.1, hhead]
  have w₃ := w₂.trans (WroteAt.setFree (v := 1) hple (by decide))
  generalize h₂.setFree p 1 = h₃ at w₃ ⊢
  rw [w₃.statics.2.1, hhead]
  have w₄ := w₃.trans (WroteAt.setNext (v := 0) hple (by decide))
  generalize h₃.setNext p 0 = h₄ at w₄ ⊢
  have hpool₄ : h₄.pool = p := w₄.statics.1.trans hpool
  have hhead₄ : h₄.head = p := w₄.statics.2.1.trans hhead
  refine ⟨⟨rfl, hhead₄.trans hpool₄.symm, ?_, ?_, rfl, ?_, ?_, ?_⟩, hpool₄⟩
  · exact hpool₄ ▸ hpos
  · exact hpool₄ ▸ hfits
  · intro b hb
    rw [List.mem_singleton.mp hb]
    decide
  · intro b hb
    obtain rfl : _ = b := by simpa using hb
    decide
  · rw [hpool₄]
    exact ⟨w₄.header, trivial⟩

/-! ## `kfree` -/

/-- The round of `merge_free_blocks` at the last block. -/
theorem mergeRound_last (hh : h.Holds (xs ++ [b])) :
    (mergeRound (h.pool + span xs)).Yields h fun x h' => x = .inr () ∧ h' = h := by
  have hnext := hh.headerAt.next_eq
  rw [start_nil] at hnext
  unfold mergeRound
  simp only [yields_bind, yields_get]
  rw [if_neg (by rw [hnext]; exact fun hc => hc.2 rfl), yields_pure]
  exact ⟨rfl, rfl⟩

section Round

variable {cs : List Block} (hh : h.Holds (xs ++ b :: c :: cs))
include hh

theorem Holds.behind : h.Holds ((xs ++ [b]) ++ c :: cs) := by
  rwa [List.append_assoc, List.singleton_append]

theorem Holds.next_eq : h.next (h.pool + span xs) = h.pool + span (xs ++ [b]) := by
  have hspan : span xs + b.span = span (xs ++ [b]) := by simp
  rw [hh.headerAt.next_eq, start_cons, Nat.add_assoc, hspan]

theorem Holds.next_ne : h.pool + span xs ≠ 0 ∧ h.next (h.pool + span xs) ≠ 0 := by
  have hpos := hh.pos
  rw [hh.next_eq]
  constructor <;> omega

/-- The round of `merge_free_blocks` at a block with nothing to merge. -/
theorem mergeRound_skip (hno : ¬ (b.free = true ∧ c.free = true)) :
    (mergeRound (h.pool + span xs)).Yields h fun x h' =>
      x = .inl (h.pool + span (xs ++ [b])) ∧ h' = h := by
  have hskip : ¬ (h.free (h.pool + span xs) ≠ 0 ∧ h.free (h.pool + span (xs ++ [b])) ≠ 0) := by
    rw [hh.headerAt.free_iff, hh.behind.headerAt.free_iff]
    exact hno
  unfold mergeRound
  simp only [yields_bind, yields_get]
  rw [if_pos hh.next_ne, hh.next_eq, if_neg hskip, yields_pure]
  exact ⟨rfl, rfl⟩

/-- The round of `merge_free_blocks` at a block that takes in the one behind it. -/
theorem mergeRound_join (hfree : b.free = true ∧ c.free = true) :
    (mergeRound (h.pool + span xs)).Yields h fun x h' => x = .inl (h.pool + span xs) ∧
      h.SameStatics h' ∧ h'.Holds (xs ++ ⟨b.size + (headerSize + c.size), b.free⟩ :: cs) ∧
      Set.EqOn h'.mem h.mem (headerBytes (h.pool + span xs))ᶜ := by
  have hat := hh.headerAt
  have hatc := hh.behind.headerAt
  have hnext := hh.next_eq
  have hbl := hh.block_le
  have hblc := hh.behind.block_le
  have hb := hh.bounds
  have hspan : span xs + b.span = span (xs ++ [b]) := by simp
  have hyes : h.free (h.pool + span xs) ≠ 0 ∧ h.free (h.pool + span (xs ++ [b])) ≠ 0 :=
    ⟨hat.free_iff.mpr hfree.1, hatc.free_iff.mpr hfree.2⟩
  unfold mergeRound
  simp only [yields_bind, yields_get]
  rw [if_pos hh.next_ne, hnext, if_pos hyes]
  simp only [yields_bind, yields_modify, yields_pure]
  rw [hat.size_eq, hnext, hatc.size_eq]
  have hsum : (b.size + (headerSize + c.size)) % 2 ^ 32 = b.size + (headerSize + c.size) := by
    apply Nat.mod_eq_of_lt
    rw [span_cons, Block.span] at hb
    unfold headerSize kmallocHeapSize at *
    omega
  rw [hsum]
  have hcle : h.pool + span xs + headerSize ≤ 2 ^ 32 := by omega
  have w₁ := WroteAt.setSize (h := h) (v := b.size + (headerSize + c.size)) hcle (by omega)
  generalize h.setSize (h.pool + span xs) (b.size + (headerSize + c.size)) = h₁ at w₁ ⊢
  have hnext₁ : h₁.next (h.pool + span xs) = h.pool + span (xs ++ [b]) :=
    (congrArg Header.next w₁.header).trans hnext
  have hapart : h.pool + span xs + headerSize ≤ h.pool + span (xs ++ [b]) := by
    rw [← hspan, Block.span]
    omega
  have hnextc : h₁.next (h.pool + span (xs ++ [b])) =
      start 0 (h.pool + span (xs ++ [b]) + c.span) cs :=
    (congrArg Header.next (w₁.header_ne (.inl hapart) (by omega))).trans hatc.next_eq
  have hltc : h₁.next (h.pool + span (xs ++ [b])) < 2 ^ 32 := Memory.load32_lt
  rw [hnext₁]
  -- the second store: the link of the block behind, which the first has left as it was
  have w₂ := w₁.trans (WroteAt.setNext hcle hltc)
  generalize h₁.setNext (h.pool + span xs) (h₁.next (h.pool + span (xs ++ [b]))) = h₂ at w₂ ⊢
  refine ⟨trivial, w₂.statics, hh.replace [b, c] [⟨b.size + (headerSize + c.size), b.free⟩]
    (by simp) (by simp) ?_ ?_ ?_ w₂.statics
    ?_ ?_ ?_, w₂.eqOn subset_rfl⟩
  · simp only [span_cons, span_nil, Block.span]
    omega
  · intro d hd
    have h8b := hh.sizes b (by simp)
    have h8c := hh.sizes c (by simp)
    rw [List.mem_singleton.mp hd]
    unfold headerSize
    dsimp only
    omega
  · intro _ d hd
    obtain rfl : _ = d := by simpa using hd
    unfold headerSize
    dsimp only
    omega
  · exact w₂.outside _ _ (.inr (Nat.le_refl _))
  · refine w₂.outside _ _ (.inl ?_)
    simp only [span_cons, span_nil, Block.span]
    omega
  · refine ⟨?_, trivial⟩
    have hend : h.pool + span (xs ++ [b]) + c.span = h.pool + span xs + span [b, c] := by
      rw [← hspan]
      simp only [span_cons, span_nil]
      omega
    rw [HeaderAt] at hat
    rw [HeaderAt, w₂.header, hat, hnextc, hend]
    rfl

end Round

/-- What a block that took in the one behind it joins, the two blocks joined before. -/
theorem joinBytes_join {cs : List Block} (hfree : b.free = true ∧ c.free = true) :
    joinBytes a (⟨b.size + (headerSize + c.size), b.free⟩ :: cs) ⊆ joinBytes a (b :: c :: cs) := by
  rintro x ⟨xs, d, e, ys, hsplit, hd, he, hx⟩
  cases xs with
  | nil => exact ⟨[], b, c, cs, rfl, hfree.1, hfree.2, hx⟩
  | cons y xs =>
    obtain ⟨rfl, rfl⟩ := List.cons.inj hsplit
    refine ⟨b :: c :: xs, d, e, ys, rfl, hd, he, ?_⟩
    have hspan : span (⟨b.size + (headerSize + c.size), b.free⟩ :: xs) = span (b :: c :: xs) := by
      simp only [span_cons, Block.span]
      omega
    rwa [hspan] at hx

theorem joinBytes_cons {bs : List Block} : joinBytes (a + b.span) bs ⊆ joinBytes a (b :: bs) := by
  rintro x ⟨xs, d, e, ys, rfl, hd, he, hx⟩
  refine ⟨b :: xs, d, e, ys, rfl, hd, he, ?_⟩
  rwa [span_cons, ← Nat.add_assoc]

/-- The loop of `merge_free_blocks` from a block on. -/
theorem mergeLoop_yields :
    ∀ {ys xs : List Block} {b : Block} {h : Heap}, h.Holds (xs ++ b :: ys) →
      (loop mergeRound (h.pool + span xs)).Yields h fun _ h' =>
        h.SameStatics h' ∧ h'.Holds (xs ++ mergeInto b ys) ∧
          Set.EqOn h'.mem h.mem (joinBytes (h.pool + span xs) (b :: ys))ᶜ
  | [], xs, b, h, hh => by
    rw [yields_loop]
    refine (mergeRound_last hh).mono fun x h' hx => ?_
    obtain ⟨rfl, rfl⟩ := hx
    exact ⟨sameStatics_refl, hh, Set.eqOn_refl _ _⟩
  | c :: cs, xs, b, h, hh => by
    rw [yields_loop, mergeInto]
    split_ifs with hfree
    · -- the next block is joined, and the loop stays at this one
      refine (mergeRound_join hh hfree).mono fun x h' hx => ?_
      obtain ⟨rfl, hstat, hh', heq⟩ := hx
      rw [resumes_inl, ← hstat.1]
      refine (mergeLoop_yields hh').mono fun _ h'' hspec => ?_
      obtain ⟨hstat', hh'', heq'⟩ := hspec
      rw [hstat.1] at heq' ⊢
      have hfirst : headerBytes (h.pool + span xs) ⊆
          joinBytes (h.pool + span xs) (b :: c :: cs) := fun x hx =>
        ⟨[], b, c, cs, rfl, hfree.1, hfree.2, hx⟩
      exact ⟨hstat.trans hstat', hh'', (heq'.mono (Set.compl_subset_compl.mpr
        (joinBytes_join hfree))).trans (heq.mono (Set.compl_subset_compl.mpr hfirst))⟩
    · refine (mergeRound_skip hh hfree).mono fun x h' hx => ?_
      obtain ⟨rfl, rfl⟩ := hx
      refine (mergeLoop_yields hh.behind).mono fun _ h' hspec => ?_
      obtain ⟨hstat, hh', heq⟩ := hspec
      rw [List.append_assoc, List.singleton_append] at hh'
      refine ⟨hstat, hh', heq.mono (Set.compl_subset_compl.mpr ?_)⟩
      rw [span_append, span_cons, span_nil, ← Nat.add_assoc, Nat.add_zero]
      exact joinBytes_cons

theorem mergeFreeBlocks_yields {bs : List Block} (hh : h.Holds bs) :
    mergeFreeBlocks.Yields h fun _ h' => h.SameStatics h' ∧ h'.Holds (merge bs) ∧
      Set.EqOn h'.mem h.mem (joinBytes h.pool bs)ᶜ := by
  cases bs with
  | nil => cases hh.span_eq
  | cons b bs =>
    unfold mergeFreeBlocks
    simp only [yields_bind, yields_get]
    have hhead : h.head = h.pool + span [] := by rw [hh.head, span_nil, Nat.add_zero]
    rw [hhead]
    exact mergeLoop_yields (show h.Holds ([] ++ b :: bs) from hh)

/-- **`kfree` of a payload** frees its block and merges, and writes the headers of its block and of
the blocks that take in the next one only. -/
theorem kfree_writes (hh : h.Holds (xs ++ b :: ys)) :
    (kfree (h.pool + span xs + headerSize)).Yields h fun _ h' =>
      h.SameStatics h' ∧ h'.Holds (merge (xs ++ ⟨b.size, true⟩ :: ys)) ∧
        Set.EqOn h'.mem h.mem
          (headerBytes (h.pool + span xs) ∪ joinBytes h.pool (xs ++ ⟨b.size, true⟩ :: ys))ᶜ := by
  have hat := hh.headerAt
  have hbl := hh.block_le
  have hptr : (h.pool + span xs + headerSize + 2 ^ 32 - headerSize) % 2 ^ 32 =
      h.pool + span xs := by
    unfold headerSize at *
    omega
  unfold kfree
  simp only [yields_bind, yields_get]
  rw [hptr, if_neg (by unfold headerSize; omega), if_neg (not_not_intro hat.magic_eq)]
  simp only [yields_bind, yields_modify]
  have hw := WroteAt.setFree (h := h) (a := h.pool + span xs) (v := 1) (by omega) (by decide)
  refine (mergeFreeBlocks_yields (hh.rewrite hw (d := ⟨b.size, true⟩) rfl fun n => rfl)).mono ?_
  intro _ h' hspec
  obtain ⟨hstat, hh', heq⟩ := hspec
  refine ⟨hw.statics.trans hstat, hh', ?_⟩
  exact (heq.mono (Set.compl_subset_compl.mpr Set.subset_union_right)).trans
    (hw.eqOn Set.subset_union_left)

theorem kfree_yields (hh : h.Holds (xs ++ b :: ys)) :
    (kfree (h.pool + span xs + headerSize)).Yields h fun _ h' =>
      h.SameStatics h' ∧ h'.Holds (merge (xs ++ ⟨b.size, true⟩ :: ys)) :=
  (kfree_writes hh).mono fun _ _ hspec => ⟨hspec.1, hspec.2.1⟩

/-! ## `kmem_info` -/

/-- The loop of `kmem_info` from a block on: the sizes are added, and do not wrap. -/
theorem kmemInfoLoop_yields :
    ∀ {ys xs : List Block} {u f : ℕ}, h.Holds (xs ++ ys) → u + f + span ys < 2 ^ 32 →
      (loop kmemInfoRound ((u, f), start 0 (h.pool + span xs) ys)).Yields h fun r h' =>
        h' = h ∧ r = (u + usedBytes ys, f + freeBytes ys)
  | [], xs, u, f, hh, _ => by
    rw [yields_loop, start_nil]
    simp only [kmemInfoRound, yields_bind, yields_get, if_pos, yields_pure, resumes_inr]
    exact ⟨trivial, rfl⟩
  | b :: ys, xs, u, f, hh, hlt => by
    have hat := hh.headerAt
    have hpos := hh.pos
    have hh' : h.Holds ((xs ++ [b]) ++ ys) := by rwa [List.append_assoc, List.singleton_append]
    have hspan : span xs + b.span = span (xs ++ [b]) := by simp
    rw [span_cons, Block.span] at hlt
    -- one round adds the size of the block to one of the two sums
    have hround : (kmemInfoRound ((u, f), h.pool + span xs)).Yields h fun x h' =>
        x = .inl ((u + usedBytes [b], f + freeBytes [b]),
          start 0 (h.pool + span (xs ++ [b])) ys) ∧ h' = h := by
      unfold kmemInfoRound
      simp only [yields_bind, yields_get]
      rw [if_neg (by omega)]
      by_cases hfree : b.free = true
      · rw [if_pos (hat.free_iff.mpr hfree), yields_pure, hat.next_eq, hat.size_eq, Nat.add_assoc,
          hspan, Nat.mod_eq_of_lt (by omega)]
        simp [usedBytes, freeBytes, hfree]
      · rw [if_neg (mt hat.free_iff.mp hfree), yields_pure, hat.next_eq, hat.size_eq, Nat.add_assoc,
          hspan, Nat.mod_eq_of_lt (by omega)]
        simp [usedBytes, freeBytes, hfree]
    rw [yields_loop, start_cons]
    refine hround.mono fun x h' hx => ?_
    rw [hx.1, hx.2, resumes_inl]
    have hone : usedBytes [b] + freeBytes [b] = b.size := by
      cases hfree : b.free <;> simp [usedBytes, freeBytes, hfree]
    refine (kmemInfoLoop_yields hh' (by omega)).mono fun r h'' hr => ⟨hr.1, ?_⟩
    rw [hr.2]
    simp [usedBytes, freeBytes, Nat.add_assoc]

/-- **`kmem_info` adds the sizes** of the used and of the free blocks. -/
theorem kmemInfo_yields {bs : List Block} (hh : h.Holds bs) :
    kmemInfo.Yields h fun r h' => h' = h ∧ r = (usedBytes bs, freeBytes bs) := by
  have hhead := hh.head_eq
  have heq := hh.span_eq
  unfold kmemInfo
  simp only [yields_bind, yields_get]
  rw [hhead]
  refine (kmemInfoLoop_yields (show h.Holds ([] ++ bs) from hh) ?_).mono fun r h' hr => ⟨hr.1, ?_⟩
  · rw [heq]
    decide
  · rw [hr.2, Nat.zero_add, Nat.zero_add]

end Heap

end WarkRune.Memory

import WarkRune.Elf.Load
import WarkRune.Fat12.Flush
import WarkRune.Fat12.Session
import WarkRune.Memory.Borrow

/-!
# A load that fails

The exits of `elf_load` give the file's descriptor, the buffer and the frames back. The pages are
another matter: once a page is mapped, no exit unmaps it or restores what was mapped there, so a
load that fails is clean only if it maps no page, or the pages had these very mappings before.

## Main definitions

* `Clean s s'`: translations, frames, payloads and descriptors are the same
* `Unmoved path s`: the pages the load maps have their mappings already
* `Confined path s`: the segments that are placed stay away from the buffer and the heap's headers
* `PlaceExit`: how the loop over the segments ends, by the headers it has placed

## Main results

* `elfRead_spec`, `elfPlace_exit`: what the steps of `elf_load` do
* `elfLoad_clean`: a load that fails is clean exactly when the pages it maps are unmoved, unless
  segments are stored over the buffer or the heap's headers
-/

namespace WarkRune.Elf

open Bytes (Memory)
open Exec
open Fat12 (Driver Path Opened SameUsed maxFds)
open Function (update)
open WarkRune.Memory (Heap Pmm PageTables kmalloc_borrowed mapWord kmallocHeapSize kfree pageOf
  pageOf_eq_iff mapWord_present)

/-- The pages and the depth of `elf_exec` are the same. -/
def SameSpace (s s' : Kernel) : Prop := s'.space = s.space ∧ s'.execDepth = s.execDepth

/-! ## Reading the file -/

/-- What reading the file leaves: a buffer beside the payloads in use, or an error. -/
def Buffered (live : List (ℕ × ℕ)) (pool : ℕ) (r : String ⊕ (ℕ × BitVec 32)) (h : Heap) : Prop :=
  match r with
  | .inl _ => h.HasLive live
  | .inr (buf, size) => h.pool = pool ∧ h.Borrowed live buf size.toNat

section Read

variable {path : Path} {s s' : Kernel} {r : String ⊕ (ℕ × BitVec 32)}

/-- Closing the descriptor the call has taken leaves the descriptors as they were. -/
theorem used_close {t t₁ t₂ : Driver} {k : ℕ} (hk : k < maxFds) (hfree : t.used k = false)
    (h₁ : t₁.used = update t.used k true) {u : Unit}
    (h₂ : (Fat12.fat12Close k).Returns t₁ u t₂) : t₂.used = t.used := by
  rw [Fat12.fat12Close_used hk h₂, h₁, Function.update_idem, ← hfree, Function.update_eq_self]

/-- The first name that opens gives the descriptor. -/
theorem open_either {fd : ℤ} {t : Driver} (ht : (Fat12.fat12Open (pathToUpper path)).Returns s.fat fd t)
    {fd' : ℤ} (h : (if fd < 0 then (Fat12.fat12Open path).on Kernel.fatPart else pure fd).Returns
      { s with fat := t } fd' s') :
    ∃ t', s' = { s with fat := t' } ∧ Opened s.fat fd' t' := by
  have hfirst := Fat12.fat12Open_used ht
  split_ifs at h with hneg
  · obtain ⟨t', ht', rfl⟩ := returns_on.mp h
    refine ⟨t', rfl, ?_⟩
    have hsecond := Fat12.fat12Open_used ht'
    rcases hfirst with ⟨-, hused⟩ | ⟨k, -, rfl, -⟩
    · unfold Opened at hsecond ⊢
      rwa [show (Kernel.fatPart.get { s with fat := t }).used = s.fat.used from hused] at hsecond
    · omega
  · obtain ⟨rfl, rfl⟩ := returns_pure.mp h
    exact ⟨t, rfl, hfirst⟩

/-- The size of an open file as an `int` is positive or refused. -/
theorem ofInt_size {n : ℕ} (hn : n < 2 ^ 32) {size : ℤ} (h : size = -1 ∨ size = Fat12.asInt n)
    (hpos : 0 < size) : (BitVec.ofInt 32 size) ≠ 0 ∧
      (BitVec.ofInt 32 size).toNat = size.toNat ∧ size.toNat < 2 ^ 31 := by
  have hlt : 0 < size ∧ size < 2 ^ 31 := by
    unfold Fat12.asInt at h
    split_ifs at h <;> omega
  have hto : (BitVec.ofInt 32 size).toNat = size.toNat := by
    rw [BitVec.toNat_ofInt, Int.emod_eq_of_lt (by omega) (by omega)]
  refine ⟨fun h0 => ?_, hto, by omega⟩
  rw [h0] at hto
  have : (0 : BitVec 32).toNat = 0 := rfl
  omega

/-- **Reading the file** leaves the pages and the descriptors as they were. -/
theorem elfRead_spec (h : (elfRead path).Returns s r s') :
    SameSpace s s' ∧ s'.fat.used = s.fat.used ∧
      ∀ live, s.heap.HasLive live → Buffered live s.heap.pool r s'.heap := by
  obtain ⟨fd₁, s₁, h₁, h⟩ := returns_bind.mp h
  obtain ⟨t₁, ht₁, rfl⟩ := returns_on.mp h₁
  obtain ⟨fd, s₂, h₂, h⟩ := returns_bind.mp h
  obtain ⟨t₂, rfl, hopen⟩ := open_either ht₁ h₂
  split_ifs at h with hneg
  · obtain ⟨rfl, rfl⟩ := returns_pure.mp h
    rcases hopen with ⟨-, hused⟩ | ⟨k, -, rfl, -⟩
    · exact ⟨⟨rfl, rfl⟩, hused, fun live hl => hl⟩
    · omega
  rcases hopen with ⟨hlt, -⟩ | ⟨k, hk, rfl, hfree, hused, hfits⟩
  · exact absurd hlt hneg
  obtain ⟨size, s₃, h₃, h⟩ := returns_bind.mp h
  obtain ⟨t₃, ht₃, rfl⟩ := returns_on.mp h₃
  obtain ⟨rfl, hsize⟩ := Fat12.fat12Size_returns ht₃
  split_ifs at h with hle
  · obtain ⟨u, s₄, h₄, h⟩ := returns_bind.mp h
    obtain ⟨t₄, ht₄, rfl⟩ := returns_on.mp h₄
    obtain ⟨rfl, rfl⟩ := returns_pure.mp h
    exact ⟨⟨rfl, rfl⟩, used_close hk hfree hused ht₄, fun live hl => hl⟩
  -- the size is positive, so the heap is asked for as many bytes as are read
  obtain ⟨hne, hto⟩ := ofInt_size hfits hsize (by omega)
  obtain ⟨buf, s₄, h₄, h⟩ := returns_bind.mp h
  obtain ⟨heap, hheap, rfl⟩ := returns_on.mp h₄
  have hkmalloc (live : List (ℕ × ℕ)) (hl : s.heap.HasLive live) :=
    (kmalloc_borrowed hl hne (by omega)).of_returns hheap
  split_ifs at h with hbuf
  · obtain ⟨u, s₅, h₅, h⟩ := returns_bind.mp h
    obtain ⟨t₅, ht₅, rfl⟩ := returns_on.mp h₅
    obtain ⟨rfl, rfl⟩ := returns_pure.mp h
    refine ⟨⟨rfl, rfl⟩, used_close hk hfree hused ht₅, fun live hl => ?_⟩
    rcases hkmalloc live hl with ⟨-, rfl⟩ | ⟨hpos, -⟩
    · exact hl
    · exact absurd hbuf hpos
  obtain ⟨⟨n, bytes⟩, s₅, h₅, h⟩ := returns_bind.mp h
  obtain ⟨t₅, ht₅, rfl⟩ := returns_on.mp h₅
  obtain ⟨u, s₆, h₆, h⟩ := returns_bind.mp h
  obtain rfl := returns_modify.mp h₆
  obtain ⟨v, s₇, h₇, h⟩ := returns_bind.mp h
  obtain ⟨t₇, ht₇, rfl⟩ := returns_on.mp h₇
  obtain ⟨rfl, rfl⟩ := returns_pure.mp h
  have hused₅ : t₅.used = update s.fat.used k true :=
    (Fat12.fat12Read_used _ _ _ _ ht₅ : SameUsed _ _).trans hused
  refine ⟨⟨rfl, rfl⟩, used_close hk hfree hused₅ ht₇, fun live hl => ?_⟩
  rcases hkmalloc live hl with ⟨hnull, -⟩ | ⟨-, hpool, hb⟩
  · exact absurd hnull hbuf
  · refine ⟨hpool, hb.storeBytes ?_⟩
    have hlen := Fat12.fat12Read_length ht₅
    rw [List.length_map]
    omega

end Read

/-! ## Placing the image -/

/-- The memory once the segments are in place, or the first bad one was met. -/
def placedMem (buf : ℕ) (size : BitVec 32) (m : Memory) : Memory :=
  (loadSegments buf (phdrs m buf) size 0 (2 ^ 16) m).2

/-- The pages after a load that fails once the file is in the buffer. -/
def failedSpace (buf : ℕ) (size : BitVec 32) (s : Kernel) : Space :=
  if elfCheck s.mem buf size = none then
    let base := (loadBounds s.mem buf).1
    let n := pagesOf (loadTotal s.mem buf)
    let acquired := acquirePages base 0 n s.space
    releaseFrames base 0 (acquired.1.getD n) acquired.2
  else s.space

/-- What a load does that succeeds once the file is in the buffer. -/
structure Placed (buf : ℕ) (size : BitVec 32) (s : Kernel) (r : ElfLoadResult) (s' : Kernel) :
    Prop where
  check : elfCheck s.mem buf size = none
  base : r.base = (loadBounds s.mem buf).1
  size : r.size = loadTotal s.mem buf
  acquired : acquirePages r.base 0 (pagesOf r.size) s.space = (none, s'.space)

/-- The pages of the image taken, one after the other. -/
def acquiredPages (buf : ℕ) (s : Kernel) : Option ℕ × Space :=
  acquirePages (loadBounds s.mem buf).1 0 (pagesOf (loadTotal s.mem buf)) s.space

/-- The exits of `elf_load` once the file is in the buffer, each with what it leaves: a check fails,
the frames are not enough, a segment is bad, or the image is in place. -/
inductive PlaceExit (buf : ℕ) (size : BitVec 32) (s : Kernel) : ElfLoadResult → Kernel → Prop
  | check {error : String} {u : Unit} {heap : Heap} : elfCheck s.mem buf size = some error →
    (kfree buf).Returns s.heap u heap →
    PlaceExit buf size s (failed error) { s with heap }
  | frames {p : ℕ} {u : Unit} {heap : Heap} : elfCheck s.mem buf size = none →
    (acquiredPages buf s).1 = some p → (kfree buf).Returns s.heap u heap →
    PlaceExit buf size s (failed "pmm out of frames") { s with
      heap
      space := releaseFrames (loadBounds s.mem buf).1 0 p (acquiredPages buf s).2 }
  | segment {error : String} {u : Unit} {heap : Heap} : elfCheck s.mem buf size = none →
    (acquiredPages buf s).1 = none →
    (loadSegments buf (phdrs s.mem buf) size 0 (2 ^ 16) s.mem).1 = some error →
    (kfree buf).Returns { s.heap with mem := placedMem buf size s.mem } u heap →
    PlaceExit buf size s (failed error) { s with
      heap
      space := releaseFrames (loadBounds s.mem buf).1 0 (pagesOf (loadTotal s.mem buf))
        (acquiredPages buf s).2 }
  | placed {u : Unit} {heap : Heap} : elfCheck s.mem buf size = none →
    (acquiredPages buf s).1 = none →
    (loadSegments buf (phdrs s.mem buf) size 0 (2 ^ 16) s.mem).1 = none →
    (kfree buf).Returns { s.heap with mem := placedMem buf size s.mem } u heap →
    PlaceExit buf size s ⟨true, entry (placedMem buf size s.mem) buf, (loadBounds s.mem buf).1,
      loadTotal s.mem buf, ""⟩ { s with heap, space := (acquiredPages buf s).2 }

section Place

variable {buf : ℕ} {size : BitVec 32} {s s' : Kernel} {r : ElfLoadResult}

theorem reject_returns {error : String} (h : (reject buf error).Returns s r s') :
    r = failed error ∧
      ∃ heap u, (kfree buf).Returns s.heap u heap ∧ s' = { s with heap } := by
  obtain ⟨u, s₁, h₁, h⟩ := returns_bind.mp h
  obtain ⟨heap, hheap, rfl⟩ := returns_on.mp h₁
  obtain ⟨rfl, rfl⟩ := returns_pure.mp h
  exact ⟨rfl, heap, u, hheap, rfl⟩

/-- **The exits of `elf_load`** once the file is in the buffer. -/
theorem elfPlace_exit (h : (elfPlace buf size).Returns s r s') : PlaceExit buf size s r s' := by
  rw [elfPlace, returns_bind] at h
  obtain ⟨s₁, s₂, h₁, h⟩ := h
  obtain ⟨rfl, rfl⟩ := returns_get.mp h₁
  -- one exit for each test of the source, in its order
  cases hcheck : elfCheck s₂.mem buf size with
  | some error =>
    rw [hcheck] at h
    obtain ⟨rfl, heap, u, hheap, rfl⟩ := reject_returns h
    exact .check hcheck hheap
  | none =>
    rw [hcheck] at h
    obtain ⟨u₁, s₃, h₁, h⟩ := returns_bind.mp h
    obtain rfl := returns_set.mp h₁
    dsimp only at h
    cases hacq : (acquiredPages buf s₂).1 with
    | some p =>
      rw [show (acquirePages _ _ _ _).1 = some p from hacq] at h
      obtain ⟨u₂, s₄, h₂, h⟩ := returns_bind.mp h
      obtain rfl := returns_modify.mp h₂
      obtain ⟨rfl, heap, u, hheap, rfl⟩ := reject_returns h
      exact .frames hcheck hacq hheap
    | none =>
      rw [show (acquirePages _ _ _ _).1 = none from hacq] at h
      obtain ⟨u₂, s₄, h₂, h⟩ := returns_bind.mp h
      obtain rfl := returns_modify.mp h₂
      cases hload : (loadSegments buf (phdrs s₂.mem buf) size 0 (2 ^ 16) s₂.mem).1 with
      | some error =>
        rw [hload] at h
        obtain ⟨u₃, s₅, h₃, h⟩ := returns_bind.mp h
        obtain rfl := returns_modify.mp h₃
        obtain ⟨rfl, heap, u, hheap, rfl⟩ := reject_returns h
        exact .segment hcheck hacq hload hheap
      | none =>
        rw [hload] at h
        obtain ⟨s₅, s₆, h₃, h⟩ := returns_bind.mp h
        obtain ⟨rfl, rfl⟩ := returns_get.mp h₃
        obtain ⟨u, s₇, h₄, h⟩ := returns_bind.mp h
        obtain ⟨heap, hheap, rfl⟩ := returns_on.mp h₄
        obtain ⟨rfl, rfl⟩ := returns_pure.mp h
        exact .placed hcheck hacq hload hheap

/-- **What `elf_load` does once the file is in the buffer**: the buffer is given back; a failure
leaves the pages mapped whose frames it releases. -/
theorem elfPlace_returns (h : (elfPlace buf size).Returns s r s') :
    s'.fat = s.fat ∧ s'.execDepth = s.execDepth ∧
      (∃ m u, (m = s.mem ∨ elfCheck s.mem buf size = none ∧ (acquiredPages buf s).1 = none ∧
          m = placedMem buf size s.mem) ∧
        (kfree buf).Returns { s.heap with mem := m } u s'.heap) ∧
      (r.ok = false ∧ s'.space = failedSpace buf size s ∨
        r.ok = true ∧ Placed buf size s r s') := by
  have hfailed (hcheck : elfCheck s.mem buf size = none) : failedSpace buf size s =
      releaseFrames (loadBounds s.mem buf).1 0
        ((acquiredPages buf s).1.getD (pagesOf (loadTotal s.mem buf))) (acquiredPages buf s).2 :=
    if_pos hcheck
  cases elfPlace_exit h with
  | check hcheck hheap =>
    refine ⟨rfl, rfl, ⟨s.mem, _, .inl rfl, hheap⟩, .inl ⟨rfl, ?_⟩⟩
    rw [failedSpace, if_neg (by rw [hcheck]; exact Option.some_ne_none _)]
  | frames hcheck hacq hheap =>
    refine ⟨rfl, rfl, ⟨s.mem, _, .inl rfl, hheap⟩, .inl ⟨rfl, ?_⟩⟩
    rw [hfailed hcheck, hacq, Option.getD_some]
  | segment hcheck hacq _ hheap =>
    refine ⟨rfl, rfl, ⟨_, _, .inr ⟨hcheck, hacq, rfl⟩, hheap⟩, .inl ⟨rfl, ?_⟩⟩
    rw [hfailed hcheck, hacq, Option.getD_none]
  | placed hcheck hacq _ hheap =>
    refine ⟨rfl, rfl, ⟨_, _, .inr ⟨hcheck, hacq, rfl⟩, hheap⟩, .inr ⟨rfl, ?_⟩⟩
    exact ⟨hcheck, rfl, rfl, Prod.ext hacq rfl⟩

/-- A load that succeeds has placed every segment before it gives the buffer back. -/
theorem elfPlace_ok (h : (elfPlace buf size).Returns s r s') (hr : r.ok = true) :
    (loadSegments buf (phdrs s.mem buf) size 0 (2 ^ 16) s.mem).1 = none ∧
      ∃ u, (kfree buf).Returns { s.heap with mem := placedMem buf size s.mem } u s'.heap := by
  cases elfPlace_exit h with
  | check => cases hr
  | frames => cases hr
  | segment => cases hr
  | placed _ _ hload hheap => exact ⟨hload, _, hheap⟩

end Place

/-! ## The pages of a load that fails -/

section Space

variable {s₀ : Pmm} {o : Finset ℕ} {buf : ℕ} {size : BitVec 32} {s : Kernel}

theorem pagesOf_lt (size : BitVec 32) : pagesOf size < 2 ^ 20 := by
  have hlt := (size + 0xFFF).isLt
  rw [pagesOf, BitVec.toNat_udiv]
  exact Nat.div_lt_of_lt_mul hlt

/-- The frames that a load takes. -/
def takenFrames (buf : ℕ) (size : BitVec 32) (s : Kernel) : List ℕ :=
  if elfCheck s.mem buf size = none then
    s.space.pmm.freeFrames.take (pagesOf (loadTotal s.mem buf))
  else []

theorem takenFrames_length : (takenFrames buf size s).length ≤ 2 ^ 20 := by
  have hlt := pagesOf_lt (loadTotal s.mem buf)
  unfold takenFrames
  split_ifs
  · rw [List.length_take]
    omega
  · exact Nat.zero_le _

/-- Every page gets a frame when there are as many free frames as pages. -/
theorem acquirePages_eq_none (hp : s₀.Placed) (hacc : Pmm.Accounts s₀ s.space.pmm o)
    (base : BitVec 32) (n : ℕ) :
    (acquirePages base 0 n s.space).1 = none ↔ n ≤ s.space.pmm.freeFrames.length := by
  obtain ⟨pmm, heq, -⟩ := acquirePages_spec hp hacc base 0 n
  rw [heq]
  split_ifs with hn
  · exact iff_of_true rfl hn
  · exact iff_of_false not_false hn

/-- **A load that fails** gives its frames back, and leaves the pages mapped to them. -/
theorem failedSpace_spec (hp : s₀.Placed) (ha : s₀.bitmap % 4096 = 0)
    (hl : s.space.pages.Linked) (hacc : Pmm.Accounts s₀ s.space.pmm o) (buf : ℕ)
    (size : BitVec 32) : ∃ pmm, Pmm.Accounts s₀ pmm o ∧ failedSpace buf size s =
      ⟨pmm, mapAll (loadBounds s.mem buf).1 0 (takenFrames buf size s) s.space.pages⟩ := by
  have hlen := @takenFrames_length buf size s
  unfold failedSpace takenFrames at *
  split_ifs at * with hcheck
  · generalize pagesOf (loadTotal s.mem buf) = n at *
    generalize (loadBounds s.mem buf).1 = base
    obtain ⟨pmm, heq, hacc', hspare⟩ := acquirePages_spec hp hacc base 0 n
    dsimp only
    rw [heq]
    have hcount : ((if n ≤ s.space.pmm.freeFrames.length then none
        else some (0 + s.space.pmm.freeFrames.length)).getD n) =
        (s.space.pmm.freeFrames.take n).length := by
      rw [List.length_take]
      split_ifs
      · rw [Option.getD_none]
        omega
      · rw [Option.getD_some]
        omega
    rw [hcount]
    have hrelease : ∃ pmm', releaseFrames base 0 (s.space.pmm.freeFrames.take n).length
        ⟨pmm, mapAll base 0 (s.space.pmm.freeFrames.take n) s.space.pages⟩ =
          ⟨pmm', mapAll base 0 (s.space.pmm.freeFrames.take n) s.space.pages⟩ ∧
        Pmm.Accounts s₀ pmm' o :=
      releaseFrames_spec hp ha (linked_mapAll hl) (fun j f hf => entry_mapAll hlen hf rfl) hspare
        hacc'
    obtain ⟨pmm', heq', hacc''⟩ := hrelease
    exact ⟨pmm', hacc'', heq'⟩
  · exact ⟨s.space.pmm, hacc, rfl⟩

/-- A mapping depends on the page of the address. -/
theorem mapping_page {t : PageTables} {virt virt' : BitVec 32}
    (h : pageOf virt = pageOf virt') :
    t.mapping virt = t.mapping virt' := by
  obtain ⟨hd, ht⟩ := pageOf_eq_iff.mp h
  unfold PageTables.mapping PageTables.entry
  rw [hd, ht]

/-- **Mapping pages changes no mapping** exactly when they have these mappings already. -/
theorem mapping_mapAll_iff {t : PageTables} (hl : t.Linked) {fs : List ℕ}
    (hn : fs.length ≤ 2 ^ 20) (base : BitVec 32) :
    (∀ virt, (mapAll base 0 fs t).mapping virt = t.mapping virt) ↔
      ∀ j f, fs[j]? = some f →
        t.mapping (pageAt base j) = some (mapWord (.ofNat 32 f) userFlags) := by
  have hnew (virt : BitVec 32) {j f : ℕ} (hf : fs[j]? = some f)
      (hpage : pageOf virt = pageOf (pageAt base (0 + j))) :
      (mapAll base 0 fs t).mapping virt = some (mapWord (.ofNat 32 f) userFlags) := by
    rw [(linked_mapAll hl).mapping_eq, entry_mapAll hn hf hpage,
      if_neg mapWord_present]
  constructor
  · intro hall j f hf
    rw [← hall, hnew _ hf (by rw [Nat.zero_add])]
  · intro hall virt
    by_cases hin : ∃ j < fs.length,
        pageOf virt = pageOf (pageAt base (0 + j))
    · obtain ⟨j, hj, hpage⟩ := hin
      have hf : fs[j]? = some fs[j] := List.getElem?_eq_getElem hj
      rw [hnew virt hf hpage, mapping_page hpage, Nat.zero_add, hall j _ hf]
    · push Not at hin
      exact hl.mapping_congr (linked_mapAll hl) (entry_mapAll_of_ne hin)

end Space

/-! ## The heap while the segments are placed -/

/-- How many bytes the loader stores for a segment. -/
def ElfProgramHeader.extent (ph : ElfProgramHeader) : ℕ := max ph.filesz.toNat ph.memsz.toNat

/-- The `n` bytes from `a` on, across the end of the address space, are outside `S`. -/
def Spares (S : Set ℕ) (a n : ℕ) : Prop := ∀ b < n, (a + b) % 2 ^ 32 ∉ S

/-- Every segment that the loader places has `P`: its checks, and those of the segments in front of
it, pass. -/
def EachPlaced (m : Memory) (buf : ℕ) (size : BitVec 32) (P : ElfProgramHeader → Prop) : Prop :=
  ∀ i < phnum m buf, (programHeader m (phdrs m buf) i).type = ptLoad →
    (∀ j < i, (programHeader m (phdrs m buf) j).type = ptLoad →
      segmentCheck size (programHeader m (phdrs m buf) j) = none) →
    segmentCheck size (programHeader m (phdrs m buf) i) = none →
      P (programHeader m (phdrs m buf) i)

/-- The bytes of the buffer. -/
def bufferBytes (buf : ℕ) (size : BitVec 32) : Set ℕ := Set.Ico buf (buf + size.toNat)

/-- The bytes of the buffer and of the headers of the heap's blocks. -/
def guarded (h : Heap) (buf : ℕ) (size : BitVec 32) : Set ℕ := bufferBytes buf size ∪ h.headers

/-- These bytes are in the pool. -/
theorem guarded_subset {h : Heap} {live : List (ℕ × ℕ)} {buf : ℕ} {size : BitVec 32}
    (hb : h.Borrowed live buf size.toNat) :
    guarded h buf size ⊆ Set.Ico h.pool (h.pool + kmallocHeapSize) := by
  have hbounds := hb.bounds
  exact Set.union_subset (Set.Ico_subset_Ico hbounds.1 hbounds.2.1) Heap.headers_subset

/-- The headers are in the file, and no segment that the loader places stores a byte in `S`. -/
structure FileConfined (S : Set ℕ) (buf : ℕ) (size : BitVec 32) (m : Memory) : Prop where
  header : 46 ≤ size.toNat
  inFile : (phoff m buf).toNat + 32 * phnum m buf ≤ size.toNat
  segments : EachPlaced m buf size fun ph => Spares S ph.vaddr.toNat ph.extent

section Heap

variable {S : Set ℕ} {buf : ℕ} {size : BitVec 32} {m m' : Memory} {ph : ElfProgramHeader}

/-- A loop of stores outside `S`. -/
theorem eqOn_foldl {a : ℕ} {v : Memory → ℕ → ℕ} (bs : List ℕ)
    (h : ∀ b ∈ bs, (a + b) % 2 ^ 32 ∉ S) :
    Set.EqOn (bs.foldl (fun (m : Memory) b => m.store8 (a + b) (v m b)) m) m S := by
  induction bs generalizing m with
  | nil => exact Set.eqOn_refl m S
  | cons b bs ih =>
    refine (ih fun c hc => h c (List.mem_cons_of_mem _ hc)).trans fun x hx => ?_
    refine Function.update_of_ne ?_ _ _
    rintro rfl
    exact h b (List.mem_cons_self ..) hx

theorem eqOn_placeSegment (h : Spares S ph.vaddr.toNat ph.extent) :
    Set.EqOn (placeSegment buf ph m) m S := by
  unfold placeSegment copyBytes clearBytes
  refine (eqOn_foldl (v := fun _ _ => 0) _ ?_).trans
    (eqOn_foldl (v := fun m b => m.load8 (buf + ph.offset.toNat + b)) _ ?_)
  · intro b hb
    rw [List.mem_range'_1] at hb
    exact h b (lt_max_of_lt_right (by omega))
  · intro b hb
    exact h b (lt_max_of_lt_left (List.mem_range.mp hb))

/-- The file in the buffer depends on the bytes of the buffer. -/
theorem sameOn_buffer (hS : bufferBytes buf size ⊆ S) (hm : Set.EqOn m' m S) :
    Memory.SameOn m m' buf size.toNat :=
  fun _ hle hlt => hm (hS ⟨hle, hlt⟩)

variable (hS : bufferBytes buf size ⊆ S) (hin : buf + size.toNat ≤ 2 ^ 32)
include hS hin

/-- The headers depend on the bytes of the buffer. -/
theorem phnum_congr (hlen : 46 ≤ size.toNat) (hm : Set.EqOn m' m S) :
    phnum m' buf = phnum m buf :=
  ((sameOn_buffer hS hm).mono (by omega) (by omega) :
    Memory.SameOn m m' (buf + 44) 2).load16 (by omega)

theorem programHeader_congr (hle : (phoff m buf).toNat + 32 * phnum m buf ≤ size.toNat)
    (hm : Set.EqOn m' m S) {i : ℕ} (hi : i < phnum m buf) :
    programHeader m' (phdrs m buf) i = programHeader m (phdrs m buf) i := by
  have hword (k : ℕ) (hk : k ≤ 20) : word m' (phdrs m buf + 32 * i + k) =
      word m (phdrs m buf + 32 * i + k) := by
    unfold word phdrs
    rw [((sameOn_buffer hS hm).mono (by omega) (by omega) :
      Memory.SameOn m m' (buf + (phoff m buf).toNat + 32 * i + k) 4).load32 (by omega)]
  have h0 := hword 0 (by omega)
  rw [Nat.add_zero] at h0
  unfold programHeader
  dsimp only
  rw [h0, hword 4 (by omega), hword 8 (by omega), hword 16 (by omega), hword 20 (by omega)]

/-- **Placing the segments** changes no byte of `S`, when none of those placed does. -/
theorem eqOn_loadSegments (hc : FileConfined S buf size m) (n : ℕ) {i : ℕ}
    (hbefore : ∀ j < i, (programHeader m (phdrs m buf) j).type = ptLoad →
      segmentCheck size (programHeader m (phdrs m buf) j) = none) (hm : Set.EqOn m' m S) :
    Set.EqOn (loadSegments buf (phdrs m buf) size i n m').2 m S := by
  induction n generalizing i m' with
  | zero => exact hm
  | succ n ih =>
    rw [loadSegments, phnum_congr hS hin hc.header hm]
    split_ifs with hi
    · exact hm
    have hlt : i < phnum m buf := Nat.lt_of_not_le hi
    rw [programHeader_congr hS hin hc.inFile hm hlt]
    dsimp only
    split_ifs with htype
    · refine ih (fun j hj hload => ?_) hm
      rcases Nat.lt_succ_iff_lt_or_eq.mp hj with hj | rfl
      · exact hbefore j hj hload
      · exact absurd hload htype
    · cases hcheck : segmentCheck size (programHeader m (phdrs m buf) i) with
      | some error => exact hm
      | none =>
        have hspares := hc.segments i hlt (not_not.mp htype) hbefore hcheck
        refine ih (fun j hj hload => ?_) ((eqOn_placeSegment hspares).trans hm)
        rcases Nat.lt_succ_iff_lt_or_eq.mp hj with hj | rfl
        · exact hbefore j hj hload
        · exact hcheck

end Heap

/-! ## Failing cleanly -/

/-- **What a load that fails leaves as it was**: every translation, the number of frames in use,
the payloads in use and the descriptors in use. -/
structure Clean (s s' : Kernel) : Prop where
  mapping : ∀ virt, s'.space.pages.mapping virt = s.space.pages.mapping virt
  used : s'.space.pmm.used = s.space.pmm.used
  live : ∀ live, s.heap.HasLive live → s'.heap.HasLive live
  fds : s'.fat.used = s.fat.used

/-- Once the file at `path` is in a buffer, `P` holds of the buffer, its size and the memory. -/
def OnceRead (path : Path) (s : Kernel) (P : ℕ → BitVec 32 → Kernel → Prop) : Prop :=
  ∀ buf size s₁, (elfRead path).Returns s (.inr (buf, size)) s₁ →
    elfCheck s₁.mem buf size = none → P buf size s₁

/-- The pages that the load of `path` maps have the very mappings that it gives them: there are
none, or they are left from a load before. -/
def Unmoved (path : Path) (s : Kernel) : Prop :=
  OnceRead path s fun buf _ s₁ => ∀ j < pagesOf (loadTotal s₁.mem buf), ∀ f,
    s.space.pmm.freeFrames[j]? = some f →
      s.space.pages.mapping (pageAt (loadBounds s₁.mem buf).1 j) =
        some (mapWord (.ofNat 32 f) userFlags)

/-- Where there are frames for the image of `path`, its headers are in the file, and the segments
that the loader places stay away from the buffer and from the headers of the heap. -/
def Confined (path : Path) (s : Kernel) : Prop :=
  OnceRead path s fun buf size s₁ =>
    pagesOf (loadTotal s₁.mem buf) ≤ s₁.space.pmm.freeFrames.length →
      FileConfined (guarded s₁.heap buf size) buf size s₁.mem

/-- The pages are as `paging_init` and the operations leave them, and the accounts of the frame
allocator balance on a region on page boundaries below 4 GiB. -/
structure SpaceSound (s₀ : Pmm) (o : Finset ℕ) (s : Space) : Prop where
  linked : s.pages.Linked
  placed : s₀.Placed
  aligned : s₀.bitmap % 4096 = 0
  accounts : Pmm.Accounts s₀ s.pmm o

section Clean

variable {path : Path} {s s' : Kernel} {r : ElfLoadResult} {s₀ : Pmm} {o : Finset ℕ}

/-- What a load does: reading the file fails, or the image is placed. -/
theorem elfLoad_returns (h : (elfLoad path).Returns s r s') :
    (∃ error, (elfRead path).Returns s (.inl error) s' ∧ r = failed error) ∨
      ∃ buf size s₁, (elfRead path).Returns s (.inr (buf, size)) s₁ ∧
        (elfPlace buf size).Returns s₁ r s' := by
  obtain ⟨x, s₁, h₁, h⟩ := returns_bind.mp h
  rcases x with error | ⟨buf, size⟩
  · obtain ⟨rfl, rfl⟩ := returns_pure.mp h
    exact .inl ⟨error, h₁, rfl⟩
  · exact .inr ⟨buf, size, s₁, h₁, h⟩

/-- The condition on the pages, once the file has been read. -/
theorem unmoved_iff {buf : ℕ} {size : BitVec 32} {s₁ : Kernel}
    (hread : (elfRead path).Returns s (.inr (buf, size)) s₁) (hspace : s₁.space = s.space) :
    Unmoved path s ↔ ∀ j f, (takenFrames buf size s₁)[j]? = some f →
      s.space.pages.mapping (pageAt (loadBounds s₁.mem buf).1 j) =
        some (mapWord (.ofNat 32 f) userFlags) := by
  unfold takenFrames
  constructor
  · intro hmoved j f hf
    split_ifs at hf with hcheck
    · rw [List.getElem?_take] at hf
      split_ifs at hf with hj
      rw [hspace] at hf
      exact hmoved buf size s₁ hread hcheck j hj f hf
    · cases hf
  · intro hall buf' size' s₂ hread' hcheck j hj f hf
    obtain ⟨heq, rfl⟩ := hread.det hread'
    obtain ⟨rfl, rfl⟩ := Prod.mk.inj (Sum.inr.inj heq)
    refine hall j f ?_
    rwa [if_pos hcheck, List.getElem?_take_of_lt hj, hspace]

/-- What is left of a load that fails once the file is in the buffer. -/
theorem failed_after_read (hs : SpaceSound s₀ o s.space) {buf : ℕ} {size : BitVec 32} {s₁ : Kernel}
    (hread : (elfRead path).Returns s (.inr (buf, size)) s₁)
    (hplace : (elfPlace buf size).Returns s₁ r s') (hr : r.ok = false) :
    s'.fat.used = s.fat.used ∧ s'.execDepth = s.execDepth ∧ SpaceSound s₀ o s'.space ∧
      ((∀ virt, s'.space.pages.mapping virt = s.space.pages.mapping virt) ↔ Unmoved path s) ∧
      (Confined path s → ∀ live, s.heap.HasLive live → s'.heap.HasLive live) := by
  obtain ⟨hspace, hused, hheap⟩ := elfRead_spec hread
  obtain ⟨hfat, hdepth, ⟨m, u, hm, hfree⟩, hfail | ⟨hok, -⟩⟩ := elfPlace_returns hplace
  swap
  · rw [hr] at hok
    cases hok
  obtain ⟨pmm, hacc, hfailed⟩ := failedSpace_spec (s := s₁) hs.placed hs.aligned
    (by rw [hspace.1]; exact hs.linked) (by rw [hspace.1]; exact hs.accounts) buf size
  have hspace' := hfail.2.trans hfailed
  rw [hspace.1] at hspace'
  refine ⟨by rw [hfat, hused], hdepth.trans hspace.2, ?_, ?_, fun hconf live hl => ?_⟩
  · rw [hspace']
    exact ⟨linked_mapAll hs.linked, hs.placed, hs.aligned, hacc⟩
  · rw [unmoved_iff hread hspace.1, hspace']
    exact mapping_mapAll_iff hs.linked (@takenFrames_length buf size s₁) _
  · obtain ⟨hpool, hb⟩ := hheap live hl
    have hbounds := hb.bounds
    have hsame : Set.EqOn m s₁.mem (guarded s₁.heap buf size) := by
      rcases hm with rfl | ⟨hcheck, hacq, rfl⟩
      · exact Set.eqOn_refl _ _
      · have hfree := (acquirePages_eq_none hs.placed (hspace.1.symm ▸ hs.accounts) _ _).mp hacq
        exact eqOn_loadSegments Set.subset_union_left (by omega)
          (hconf buf size s₁ hread hcheck hfree) _ (fun _ hj => absurd hj (Nat.not_lt_zero _))
          (Set.eqOn_refl _ _)
    exact ((hb.kfree (hsame.mono Set.subset_union_right)).of_returns hfree).1

theorem Clean.unmoved (hs : SpaceSound s₀ o s.space) (h : (elfLoad path).Returns s r s')
    (hr : r.ok = false) (hclean : Clean s s') : Unmoved path s := by
  rcases elfLoad_returns h with ⟨error, hread, rfl⟩ | ⟨buf, size, s₁, hread, hplace⟩
  · intro buf size s₁ h₁
    cases (hread.det h₁).1
  · exact (failed_after_read hs hread hplace hr).2.2.2.1.mp hclean.mapping

theorem Unmoved.clean (hs : SpaceSound s₀ o s.space) (h : (elfLoad path).Returns s r s')
    (hr : r.ok = false) (hmoved : Unmoved path s) (hconf : Confined path s) : Clean s s' := by
  rcases elfLoad_returns h with ⟨error, hread, rfl⟩ | ⟨buf, size, s₁, hread, hplace⟩
  · obtain ⟨hspace, hused, hheap⟩ := elfRead_spec hread
    exact ⟨fun virt => by rw [hspace.1], by rw [hspace.1], hheap, hused⟩
  · obtain ⟨hfds, -, hsound, hmapping, hheap⟩ := failed_after_read hs hread hplace hr
    refine ⟨hmapping.mpr hmoved, ?_, hheap hconf, hfds⟩
    rw [hsound.accounts.used, hs.accounts.used]

end Clean

/-! ## A program with one segment -/

/-- The bytes of a word. -/
def wordBytes (v : ℕ) : List UInt8 :=
  [.ofNat v, .ofNat (v / 2 ^ 8), .ofNat (v / 2 ^ 16), .ofNat (v / 2 ^ 24)]

/-- An ELF file of 84 bytes with one segment at `vaddr`. -/
def oneSegment (vaddr filesz memsz : ℕ) : List UInt8 :=
  [0x7F, 0x45, 0x4C, 0x46, 1, 1, 1, 0, 0, 0, 0, 0, 0, 0, 0, 0, 2, 0, 3, 0, 1, 0, 0, 0] ++
    wordBytes vaddr ++ wordBytes 52 ++ wordBytes 0 ++ wordBytes 0 ++
    [52, 0, 32, 0, 1, 0, 0, 0, 0, 0, 0, 0] ++
    wordBytes 1 ++ wordBytes 0 ++ wordBytes vaddr ++ wordBytes vaddr ++ wordBytes filesz ++
    wordBytes memsz ++ wordBytes 7 ++ wordBytes 0x1000

open Fat12 (Volume smallGeometry letterEntry attrArch DirEntry) in
/-- The file `A` with the given bytes, at most a sector of them, in cluster 2. -/
def fileVolume (bytes : List UInt8) : Volume :=
  .build smallGeometry (fun c => if c = 2 then 0xFFF else 0)
    (fun i => if i = 0 then (letterEntry 65 attrArch 2).setFileSize bytes.length else .zero)
    fun _ _ o => bytes.getD o 0

open WarkRune.Memory (kmallocInit lowHeap smallBoot) in
/-- The kernel after its start, with the file `A`. -/
def bootKernel (bytes : List UInt8) : Kernel where
  fat := (fileVolume bytes).driver
  heap := ((kmallocInit.run 0 lowHeap).map Prod.snd).getD lowHeap
  space := ⟨(smallBoot 0).pmm, (smallBoot 0).pages⟩
  execDepth := 0

open WarkRune.Memory (Fresh fresh_boot smallBoot) in
theorem fresh_smallBoot : Fresh 0 (smallBoot 0) := fresh_boot _ _ _ (by decide) (by decide)

theorem bootKernel_space (bytes : List UInt8) : (bootKernel bytes).space =
    ⟨(WarkRune.Memory.smallBoot 0).pmm, (WarkRune.Memory.smallBoot 0).pages⟩ := rfl

theorem bootKernel_sound (bytes : List UInt8) :
    SpaceSound (bootKernel bytes).space.pmm ∅ (bootKernel bytes).space := by
  have hf := fresh_smallBoot
  rw [bootKernel_space]
  -- the loops of the boot are not to be unfolded
  generalize WarkRune.Memory.smallBoot 0 = v at *
  exact ⟨hf.linked, hf.placed, hf.aligned, hf.accounts⟩

open WarkRune.Memory (kmallocInit lowHeap) in
/-- The heap of the kernel after its start. -/
theorem bootKernel_live (bytes : List UInt8) : ∃ live, (bootKernel bytes).heap.HasLive live := by
  obtain ⟨u, h, hr, hh, -⟩ := Heap.kmallocInit_yields (h := lowHeap) (by decide) (by decide)
  have hrun : ∃ h', kmallocInit.run 0 lowHeap = some ((), h') := ⟨_, rfl⟩
  obtain ⟨h', hrun⟩ := hrun
  have hheap : (bootKernel bytes).heap = h' := by
    change ((kmallocInit.run 0 lowHeap).map Prod.snd).getD lowHeap = h'
    rw [hrun, Option.map_some, Option.getD_some]
  obtain ⟨-, rfl⟩ := hr.det ⟨0, hrun⟩
  exact ⟨_, _, hheap ▸ hh, rfl⟩

/-- A page that the start of the kernel leaves unmapped. -/
theorem bootKernel_mapping (bytes : List UInt8) {virt : BitVec 32} (h : 0xD0000 ≤ pageOf virt) :
    (bootKernel bytes).space.pages.mapping virt = none := by
  have hf := fresh_smallBoot
  have hentry := (hf.upper virt h).2 fun hin => absurd hin.1 (by decide)
  rw [bootKernel_space, hf.linked.mapping_eq, hentry]
  exact if_pos (by decide)

/-- The start of the kernel maps the first 64 MB. -/
theorem bootKernel_low (bytes : List UInt8) {virt : BitVec 32} (h : pageOf virt < 0x4000) :
    (bootKernel bytes).space.pages.mapping virt ≠ none := by
  have hl := fresh_smallBoot.linked
  rw [WarkRune.Memory.smallBoot_pages] at hl
  obtain ⟨a, flags, hentry⟩ := WarkRune.Memory.pagingInit_low 0 ⟨fun _ => 0, fun _ _ => 0⟩ h
  rw [bootKernel_space, WarkRune.Memory.smallBoot_pages]
  generalize WarkRune.Memory.pagingInit 0 ⟨fun _ => 0, fun _ _ => 0⟩ = pages at *
  rw [hl.mapping_eq, hentry, if_neg mapWord_present]
  exact Option.some_ne_none _

/-- A file whose segment has more bytes than the file. -/
def shortFile : Kernel := bootKernel (oneSegment 0xE0000000 0x1000 0x1000)

theorem shortFile_run : ∃ r s', (elfLoad [65]).Returns shortFile r s' ∧ r.ok = false := by
  have h : ((elfLoad [65]).run 40 shortFile).map (fun p => p.1.ok) = some false := by
    decide +kernel
  obtain ⟨⟨r, s'⟩, hr, hok⟩ := Option.map_eq_some_iff.mp h
  exact ⟨r, s', ⟨40, hr⟩, hok⟩

end WarkRune.Elf

import WarkRune.Elf.Exec
import WarkRune.Elf.Inside

/-!
# A load that succeeds

The loader counts the pages of an image from its first to its last byte, wherever in a page it
begins, maps a fresh frame at each of them, and stores the bytes of the segments at the addresses
the file names. So an image that begins in the middle of a page can end behind its last page, and
a page whose mapping creates the directory entry, and that is the only one under it, is not for the
user.

## Main definitions

* `segments`: the headers of the segments that are loaded
* `OnImage`: the address is on a page of the image that a result tells of
* `CorrectImage`: every byte of a segment is on a page for the user with a frame of its own, no byte
  outside these pages is stored, the bytes are those of the file, and unloading gives back the
  pages and the frames
* `Loadable`: the condition on the headers and on the page directory

## Main results

* `elfLoad_correct_iff`: a load that succeeds has left a correct image exactly when the headers are
  such that the pages hold the segments, the user reaches them, and no end of a segment in the file
  wraps
-/

namespace WarkRune.Elf

open Bytes (Memory)
open Exec
open Fat12 (Path)
open WarkRune.Memory (Heap Pmm PageTables kmallocHeapSize kfree mapWord pageOf dirIdx pagePresent
  pageUser mapWord_present mapWord_frame mapWord_user)

/-- The headers of the segments that are loaded, from the program header `i` on. -/
def segmentsBehind (m : Memory) (buf i : ℕ) : List ElfProgramHeader :=
  ((List.range' i (phnum m buf - i)).map (programHeader m (phdrs m buf))).filter (·.type = ptLoad)

/-- The headers of the segments that are loaded. -/
def segments (m : Memory) (buf : ℕ) : List ElfProgramHeader := segmentsBehind m buf 0

/-- No byte is stored for both segments. -/
def Apart (ph qh : ElfProgramHeader) : Prop :=
  ∀ b < ph.extent, ∀ c < qh.extent,
    (ph.vaddr.toNat + b) % 2 ^ 32 ≠ (qh.vaddr.toNat + c) % 2 ^ 32

/-- The address is on a page of the image that the result tells of. -/
def OnImage (r : ElfLoadResult) (a : ℕ) : Prop :=
  ∃ j < pagesOf r.size, a / 4096 = pageOf (pageAt r.base j)

/-- The bytes of a segment are in place in the memory `m'`: those of the file, which is in the
buffer in the memory `m`, then zeros. -/
def InPlace (m : Memory) (buf : ℕ) (ph : ElfProgramHeader) (m' : Memory) : Prop :=
  (∀ b < ph.filesz.toNat,
    m'.load8 (ph.vaddr.toNat + b) = m.load8 (buf + ph.offset.toNat + b)) ∧
  ∀ b, ph.filesz.toNat ≤ b → b < ph.memsz.toNat → m'.load8 (ph.vaddr.toNat + b) = 0

/-- The frame was free before the load and is taken after it. -/
def TakenFrame (s s' : Kernel) (f : ℕ) : Prop :=
  f ∈ s.space.pmm.freeFrames ∧ f ∉ s'.space.pmm.freeFrames

/-- **The result tells of the pages that the load has mapped**, and unloading them unmaps them and
gives back the frames that the load took. -/
structure Covers (s : Kernel) (r : ElfLoadResult) (s' : Kernel) : Prop where
  mapped : ∀ virt : BitVec 32, OnImage r virt.toNat → ∃ f, TakenFrame s s' f ∧
    s'.space.pages.mapping virt = some (mapWord (.ofNat 32 f) userFlags)
  others : ∀ virt : BitVec 32, ¬ OnImage r virt.toNat →
    s'.space.pages.mapping virt = s.space.pages.mapping virt
  unmapped : ∀ virt : BitVec 32, OnImage r virt.toNat →
    (elfUnload r.base r.size s'.space).pages.mapping virt = none
  kept : ∀ virt : BitVec 32, ¬ OnImage r virt.toNat →
    (elfUnload r.base r.size s'.space).pages.mapping virt = s'.space.pages.mapping virt
  frames : ∀ f, f ∈ (elfUnload r.base r.size s'.space).pmm.freeFrames ↔
    f ∈ s.space.pmm.freeFrames

/-- **A correct image** of the file at `path`, which was in the buffer in the memory `m`. -/
structure CorrectImage (path : Path) (s : Kernel) (buf : ℕ) (size : BitVec 32) (m : Memory)
    (r : ElfLoadResult) (s' : Kernel) : Prop where
  backed : ∀ ph ∈ segments m buf, ∀ b < ph.memsz.toNat, ∃ t,
    s'.space.pages.walk (ph.vaddr + .ofNat 32 b) = some t ∧ t.user = true ∧
      TakenFrame s s' t.frame.toNat
  stores : ∀ a, (elfLoadTraced path).Emits s (.write a) → OnImage r a
  bytes : (segments m buf).Pairwise Apart → ∀ ph ∈ segments m buf,
    (∀ b < ph.filesz.toNat, ph.offset.toNat + b < size.toNat) ∧ InPlace m buf ph s'.mem
  covers : Covers s r s'

/-- Over every page with a byte of a segment, the directory entry is there before the load, or the
image has another page under it. -/
def UserReaches (m : Memory) (buf : ℕ) (pages : PageTables) : Prop :=
  ∀ ph ∈ segments m buf, ∀ b < ph.memsz.toNat, ∀ j < pagesOf (loadTotal m buf),
    pageOf (ph.vaddr + .ofNat 32 b) = pageOf (pageAt (loadBounds m buf).1 j) →
      pages.directory (dirIdx (pageAt (loadBounds m buf).1 j)) &&& pagePresent ≠ 0 ∨
        ∃ i < pagesOf (loadTotal m buf), i ≠ j ∧
          dirIdx (pageAt (loadBounds m buf).1 i) = dirIdx (pageAt (loadBounds m buf).1 j)

/-- **The headers and the page directory suit the loader**: the user reaches the segments, the pages
reach the end of every segment, and where the segments are apart, no end in the file wraps. -/
structure Loadable (m : Memory) (buf : ℕ) (pages : PageTables) : Prop where
  user : UserReaches m buf pages
  reach : ∀ ph ∈ segments m buf, 0 < ph.extent → ph.vaddr.toNat + ph.extent ≤
    ((loadBounds m buf).1.toNat / 4096 + pagesOf (loadTotal m buf)) * 4096
  file : (segments m buf).Pairwise Apart →
    ∀ ph ∈ segments m buf, ph.offset.toNat + ph.filesz.toNat < 2 ^ 32

/-! ## The extent of the image -/

section Extent

variable {m : Memory} {buf i : ℕ} {size : BitVec 32} {r : ElfLoadResult} {ph : ElfProgramHeader}

theorem mem_segmentsBehind : ph ∈ segmentsBehind m buf i ↔
    ∃ j, i ≤ j ∧ j < phnum m buf ∧ programHeader m (phdrs m buf) j = ph ∧ ph.type = ptLoad := by
  unfold segmentsBehind
  simp only [List.mem_filter, List.mem_map, List.mem_range'_1, decide_eq_true_eq]
  constructor
  · rintro ⟨⟨j, ⟨hij, hj⟩, hph⟩, htype⟩
    exact ⟨j, hij, by omega, hph, htype⟩
  · rintro ⟨j, hij, hj, hph, htype⟩
    exact ⟨⟨j, ⟨hij, by omega⟩, hph⟩, htype⟩

theorem mem_segments : ph ∈ segments m buf ↔
    ∃ j < phnum m buf, programHeader m (phdrs m buf) j = ph ∧ ph.type = ptLoad := by
  rw [segments, mem_segmentsBehind]
  simp only [Nat.zero_le, true_and]

/-- The end of a segment that passes its checks does not wrap. -/
theorem end_lt (hcheck : segmentCheck size ph = none) :
    ph.vaddr.toNat + ph.memsz.toNat < 2 ^ 32 := by
  have hover := (segmentCheck_eq_none.mp hcheck).2
  have hlt := ph.vaddr.isLt
  rw [gt_iff_lt, BitVec.not_lt, BitVec.le_def, BitVec.toNat_sub,
    show (0xFFFFFFFF : BitVec 32).toNat = 2 ^ 32 - 1 from rfl] at hover
  omega

/-- The rounds that compute `load_base` and `load_end`: the base is at or below every segment, and
not behind the end. -/
theorem foldl_stretch (phs : List ElfProgramHeader) {b : BitVec 32 × BitVec 32}
    (hfit : ∀ ph ∈ phs, ph.type = ptLoad → ph.vaddr.toNat + ph.memsz.toNat < 2 ^ 32)
    (hb : b.1 = 0xFFFFFFFF ∨ b.1.toNat ≤ b.2.toNat) :
    (phs.foldl stretch b).1.toNat ≤ b.1.toNat ∧
      ((phs.foldl stretch b).1 = 0xFFFFFFFF ∨
        (phs.foldl stretch b).1.toNat ≤ (phs.foldl stretch b).2.toNat) ∧
      ∀ ph ∈ phs, ph.type = ptLoad → (phs.foldl stretch b).1.toNat ≤ ph.vaddr.toNat := by
  induction phs generalizing b with
  | nil => exact ⟨Nat.le_refl _, hb, fun _ h => (List.not_mem_nil h).elim⟩
  | cons ph phs ih =>
    rw [List.foldl_cons]
    have hrest : ∀ qh ∈ phs, qh.type = ptLoad → qh.vaddr.toNat + qh.memsz.toNat < 2 ^ 32 :=
      fun qh h => hfit qh (List.mem_cons_of_mem _ h)
    by_cases htype : ph.type = ptLoad
    · have hend := hfit ph (List.mem_cons_self ..) htype
      have hfirst : (stretch b ph).1.toNat ≤ b.1.toNat ∧
          (stretch b ph).1.toNat ≤ ph.vaddr.toNat ∧
          ph.vaddr.toNat + ph.memsz.toNat ≤ (stretch b ph).2.toNat := by
        rw [stretch, if_neg (not_not.mpr htype)]
        have hsum : (ph.vaddr + ph.memsz).toNat = ph.vaddr.toNat + ph.memsz.toNat := by
          rw [BitVec.toNat_add, Nat.mod_eq_of_lt hend]
        simp only [BitVec.lt_def, hsum]
        split_ifs <;> omega
      obtain ⟨hle, hor, hall⟩ := ih (b := stretch b ph) hrest (.inr (by omega))
      refine ⟨hle.trans hfirst.1, hor, fun qh hq hload => ?_⟩
      rcases List.mem_cons.mp hq with rfl | hq
      · exact hle.trans hfirst.2.1
      · exact hall qh hq hload
    · have hskip : stretch b ph = b := if_pos htype
      rw [hskip]
      obtain ⟨hle, hor, hall⟩ := ih hrest hb
      refine ⟨hle, hor, fun qh hq hload => ?_⟩
      rcases List.mem_cons.mp hq with rfl | hq
      · exact absurd hload htype
      · exact hall qh hq hload

/-- **The extent of an image** whose segments pass their checks: it begins at or below every segment
and ends in the address space. -/
theorem loadBounds_spec (hcheck : ∀ ph ∈ segments m buf, segmentCheck size ph = none)
    (hbase : (loadBounds m buf).1 ≠ 0xFFFFFFFF) :
    (loadBounds m buf).1.toNat + (loadTotal m buf).toNat < 2 ^ 32 ∧
      ∀ ph ∈ segments m buf, (loadBounds m buf).1.toNat ≤ ph.vaddr.toNat := by
  have hheader {ph : ElfProgramHeader} :
      ph ∈ (List.range (phnum m buf)).map (programHeader m (phdrs m buf)) ∧ ph.type = ptLoad ↔
        ph ∈ segments m buf := by
    rw [mem_segments, List.mem_map]
    simp only [List.mem_range]
    tauto
  obtain ⟨-, hor, hall⟩ := foldl_stretch
    ((List.range (phnum m buf)).map (programHeader m (phdrs m buf))) (b := (0xFFFFFFFF, 0))
    (fun ph h htype => end_lt (hcheck ph (hheader.mp ⟨h, htype⟩))) (.inl rfl)
  have hle : (loadBounds m buf).1.toNat ≤ (loadBounds m buf).2.toNat := hor.resolve_left hbase
  refine ⟨?_, fun ph h => hall ph (hheader.mpr h).1 (hheader.mpr h).2⟩
  have hlt := (loadBounds m buf).2.isLt
  rw [loadTotal, BitVec.toNat_sub]
  omega

theorem toNat_pagesOf (size : BitVec 32) : pagesOf size = (size.toNat + 0xFFF) % 2 ^ 32 / 4096 := by
  rw [pagesOf, BitVec.toNat_udiv, BitVec.toNat_add]
  rfl

/-- The pages of an image that ends in the address space are counted up from that of its base. -/
theorem onImage_iff (hr : r.base.toNat + r.size.toNat < 2 ^ 32) {a : ℕ} :
    OnImage r a ↔
      r.base.toNat / 4096 ≤ a / 4096 ∧ a / 4096 < r.base.toNat / 4096 + pagesOf r.size := by
  have hpages := toNat_pagesOf r.size
  unfold OnImage
  simp only [pageOf_pageAt]
  unfold pageOf
  constructor
  · rintro ⟨j, hj, ha⟩
    omega
  · rintro ⟨hle, hlt⟩
    exact ⟨a / 4096 - r.base.toNat / 4096, by omega, by omega⟩

end Extent

/-! ## The bytes of the image -/

section Stores

variable {S : Set ℕ} {m m' : Memory} {buf a c k : ℕ} {ph : ElfProgramHeader}

theorem write_mem_placeAccesses :
    .write a ∈ placeAccesses ph ↔ ∃ b < ph.extent, a = (ph.vaddr.toNat + b) % 2 ^ 32 := by
  simp only [placeAccesses, List.mem_append, List.mem_flatMap, List.mem_range, List.mem_cons,
    reduceCtorEq, false_or, List.not_mem_nil, or_false, List.mem_map, List.mem_range'_1,
    Access.write.injEq, ElfProgramHeader.extent]
  constructor
  · rintro (⟨b, hb, rfl⟩ | ⟨b, hb, rfl⟩)
    · exact ⟨b, lt_max_of_lt_left hb, rfl⟩
    · exact ⟨b, lt_max_of_lt_right (by omega), rfl⟩
  · rintro ⟨b, hb, rfl⟩
    by_cases hfile : b < ph.filesz.toNat
    · exact .inl ⟨b, hfile, rfl⟩
    · have hmem := (lt_max_iff.mp hb).resolve_left hfile
      exact .inr ⟨b, by omega, rfl⟩

theorem load8_store8_mod {v : ℕ} (h : c % 2 ^ 32 ≠ a % 2 ^ 32) :
    (m.store8 a v).load8 c = m.load8 c := by
  unfold Memory.load8 Memory.store8
  rw [Function.update_of_ne h]

/-- A loop of stores leaves the bytes at other addresses. -/
theorem load8_foldl_of_ne {v : Memory → ℕ → ℕ} (bs : List ℕ)
    (h : ∀ b ∈ bs, c % 2 ^ 32 ≠ (a + b) % 2 ^ 32) :
    (bs.foldl (fun m b => m.store8 (a + b) (v m b)) m).load8 c = m.load8 c := by
  induction bs generalizing m with
  | nil => rfl
  | cons b bs ih =>
    rw [List.foldl_cons, ih fun x hx => h x (List.mem_cons_of_mem _ hx),
      load8_store8_mod (h b (List.mem_cons_self ..))]

/-- A loop that clears bytes. -/
theorem load8_foldl_zero (bs : List ℕ)
    (h : m.load8 c = 0 ∨ ∃ b ∈ bs, c % 2 ^ 32 = (a + b) % 2 ^ 32) :
    (bs.foldl (fun m b => m.store8 (a + b) 0) m).load8 c = 0 := by
  induction bs generalizing m with
  | nil => exact h.resolve_right fun ⟨b, hb, _⟩ => List.not_mem_nil hb
  | cons b bs ih =>
    rw [List.foldl_cons]
    apply ih
    by_cases hb : c % 2 ^ 32 = (a + b) % 2 ^ 32
    · left
      unfold Memory.load8 Memory.store8
      rw [hb, Function.update_self]
      rfl
    · rw [load8_store8_mod hb]
      refine h.imp_right fun ⟨x, hx, he⟩ => ⟨x, ?_, he⟩
      rcases List.mem_cons.mp hx with rfl | hx
      · exact absurd he hb
      · exact hx

/-- **A copy** of bytes that are not stored to. -/
theorem load8_copyBytes {dst src n : ℕ} (hn : n ≤ 2 ^ 32)
    (hsrc : ∀ b < n, ∀ c < n, (src + b) % 2 ^ 32 ≠ (dst + c) % 2 ^ 32) {b : ℕ} (hb : b < n) :
    (copyBytes dst src n m).load8 (dst + b) = m.load8 (src + b) := by
  induction n with
  | zero => omega
  | succ n ih =>
    have hround : copyBytes dst src (n + 1) m =
        (copyBytes dst src n m).store8 (dst + n) ((copyBytes dst src n m).load8 (src + n)) := by
      rw [copyBytes, List.range_succ, List.foldl_append]
      rfl
    rw [hround]
    rcases Nat.lt_succ_iff_lt_or_eq.mp hb with hlt | rfl
    · rw [load8_store8_mod (by omega)]
      exact ih (by omega) (fun b hb c hc => hsrc b (by omega) c (by omega)) hlt
    · rw [Memory.load8_store8, Nat.mod_eq_of_lt Memory.load8_lt]
      apply load8_foldl_of_ne
      intro c hc
      rw [List.mem_range] at hc
      exact hsrc _ (by omega) c (by omega)

/-- Placing a segment leaves the bytes at other addresses. -/
theorem placeSegment_other
    (h : ∀ b < ph.extent, c % 2 ^ 32 ≠ (ph.vaddr.toNat + b) % 2 ^ 32) :
    (placeSegment buf ph m).load8 c = m.load8 c := by
  unfold placeSegment clearBytes copyBytes
  rw [load8_foldl_of_ne (v := fun _ _ => 0), load8_foldl_of_ne
    (v := fun m b => m.load8 (buf + ph.offset.toNat + b))]
  · exact fun b hb => h b (lt_max_of_lt_left (List.mem_range.mp hb))
  · intro b hb
    rw [List.mem_range'_1] at hb
    exact h b (lt_max_of_lt_right (by omega))

/-- **A segment is put in place** when none of its bytes is stored over those of the file. -/
theorem inPlace_placeSegment (hsrc : ∀ b < ph.filesz.toNat, ∀ c < ph.extent,
    (buf + ph.offset.toNat + b) % 2 ^ 32 ≠ (ph.vaddr.toNat + c) % 2 ^ 32) :
    InPlace m buf ph (placeSegment buf ph m) := by
  have hfilesz := ph.filesz.isLt
  have hmemsz := ph.memsz.isLt
  unfold placeSegment clearBytes
  refine ⟨fun b hb => ?_, fun b hle hlt => ?_⟩
  · rw [load8_foldl_of_ne (v := fun _ _ => 0) _ fun c hc => ?_]
    · exact load8_copyBytes (by omega)
        (fun b hb c hc => hsrc b hb c (lt_max_of_lt_left hc)) hb
    · rw [List.mem_range'_1] at hc
      omega
  · apply load8_foldl_zero
    exact .inr ⟨b, List.mem_range'_1.mpr (by omega), rfl⟩

theorem foldl_placeSegment_other (phs : List ElfProgramHeader)
    (h : ∀ ph ∈ phs, ∀ b < ph.extent, c % 2 ^ 32 ≠ (ph.vaddr.toNat + b) % 2 ^ 32) :
    (phs.foldl (fun m ph => placeSegment buf ph m) m).load8 c = m.load8 c := by
  induction phs generalizing m with
  | nil => rfl
  | cons ph phs ih =>
    rw [List.foldl_cons, ih fun qh hq => h qh (List.mem_cons_of_mem _ hq),
      placeSegment_other (h ph (List.mem_cons_self ..))]

/-- **Segments that are apart are put in place**, one after the other, when the file is in `S` and
they are not. -/
theorem inPlace_foldl (phs : List ElfProgramHeader) (hapart : phs.Pairwise Apart)
    (hspares : ∀ ph ∈ phs, Spares S ph.vaddr.toNat ph.extent)
    (hfile : ∀ ph ∈ phs, ∀ b < ph.filesz.toNat, buf + ph.offset.toNat + b < 2 ^ 32 ∧
      buf + ph.offset.toNat + b ∈ S) (hm : Set.EqOn m' m S) :
    ∀ ph ∈ phs, InPlace m buf ph (phs.foldl (fun m ph => placeSegment buf ph m) m') := by
  induction phs generalizing m' with
  | nil => exact fun _ h => (List.not_mem_nil h).elim
  | cons ph phs ih =>
    rw [List.foldl_cons]
    obtain ⟨hfirst, hrest⟩ := List.pairwise_cons.mp hapart
    have hsame : Set.EqOn (placeSegment buf ph m') m S :=
      (eqOn_placeSegment (hspares ph (List.mem_cons_self ..))).trans hm
    intro qh hq
    rcases List.mem_cons.mp hq with rfl | hq
    swap
    · exact ih hrest (fun x hx => hspares x (List.mem_cons_of_mem _ hx))
        (fun x hx => hfile x (List.mem_cons_of_mem _ hx)) hsame qh hq
    have hsrc := hfile qh (List.mem_cons_self ..)
    have hout := hspares qh (List.mem_cons_self ..)
    have hplace : InPlace m' buf qh (placeSegment buf qh m') := by
      refine inPlace_placeSegment fun b hb c hc he => hout c hc ?_
      rw [← he, Nat.mod_eq_of_lt (hsrc b hb).1]
      exact (hsrc b hb).2
    have hlater {b : ℕ} (hb : b < qh.extent) {v : ℕ}
        (hv : (placeSegment buf qh m').load8 (qh.vaddr.toNat + b) = v) :
        (phs.foldl (fun m ph => placeSegment buf ph m) (placeSegment buf qh m')).load8
          (qh.vaddr.toNat + b) = v := by
      rw [foldl_placeSegment_other phs fun x hx c hc => hfirst x hx b hb c hc, hv]
    refine ⟨fun b hb => hlater (lt_max_of_lt_left hb) ?_,
      fun b hle hlt => hlater (lt_max_of_lt_right hlt) (hplace.2 b hle hlt)⟩
    rw [hplace.1 b hb]
    unfold Memory.load8
    rw [Nat.mod_eq_of_lt (hsrc b hb).1, hm (hsrc b hb).2]

end Stores

section Segments

variable {S : Set ℕ} {m m' : Memory} {buf : ℕ} {size : BitVec 32} {i a : ℕ}

theorem segmentsBehind_skip (hi : i < phnum m buf)
    (htype : (programHeader m (phdrs m buf) i).type ≠ ptLoad) :
    segmentsBehind m buf i = segmentsBehind m buf (i + 1) := by
  have hcount : phnum m buf - i = phnum m buf - (i + 1) + 1 := by omega
  rw [segmentsBehind, hcount, List.range'_succ, List.map_cons,
    List.filter_cons_of_neg (by simpa using htype)]
  rfl

theorem segmentsBehind_load (hi : i < phnum m buf)
    (htype : (programHeader m (phdrs m buf) i).type = ptLoad) :
    segmentsBehind m buf i =
      programHeader m (phdrs m buf) i :: segmentsBehind m buf (i + 1) := by
  have hcount : phnum m buf - i = phnum m buf - (i + 1) + 1 := by omega
  rw [segmentsBehind, hcount, List.range'_succ, List.map_cons,
    List.filter_cons_of_pos (by simpa using htype)]
  rfl

theorem segmentsBehind_end (hi : i ≥ phnum m buf) : segmentsBehind m buf i = [] := by
  rw [segmentsBehind, Nat.sub_eq_zero_of_le hi]
  rfl

/-- Where all segments pass their checks, all are placed. -/
theorem EachPlaced.all {P : ElfProgramHeader → Prop} (h : EachPlaced m buf size P)
    (hchecks : ∀ ph ∈ segments m buf, segmentCheck size ph = none) :
    ∀ ph ∈ segments m buf, P ph := by
  intro ph hp
  obtain ⟨i, hi, rfl, htype⟩ := mem_segments.mp hp
  exact h i hi htype (fun j hj hload => hchecks _ (mem_segments.mpr ⟨j, by omega, rfl, hload⟩))
    (hchecks _ hp)

theorem not_write_mem_readsAt {i k : ℕ} : ¬ .write a ∈ readsAt i k := fun h => by
  obtain ⟨b, -, he⟩ := mem_readsAt.mp h
  cases he

/-- **The loop over the segments**, when it ends without an error: all pass their checks, all are
placed one after the other, and what is stored is their bytes. -/
theorem loadSegments_placed (hS : bufferBytes buf size ⊆ S) (hin : buf + size.toNat ≤ 2 ^ 32)
    (hc : FileConfined S buf size m) (n : ℕ) {i : ℕ}
    (hbefore : ∀ j < i, (programHeader m (phdrs m buf) j).type = ptLoad →
      segmentCheck size (programHeader m (phdrs m buf) j) = none) (hm : Set.EqOn m' m S)
    (hn : phnum m buf ≤ i + n)
    (hnone : (loadSegments buf (phdrs m buf) size i n m').1 = none) :
    (∀ ph ∈ segmentsBehind m buf i, segmentCheck size ph = none) ∧
      (loadSegments buf (phdrs m buf) size i n m').2 =
        (segmentsBehind m buf i).foldl (fun m ph => placeSegment buf ph m) m' ∧
      ∀ a, .write a ∈ segmentAccesses buf (phoff m buf).toNat size i n m' ↔
        ∃ ph ∈ segmentsBehind m buf i, ∃ b < ph.extent, a = (ph.vaddr.toNat + b) % 2 ^ 32 := by
  induction n generalizing i m' with
  | zero =>
    rw [segmentsBehind_end (i := i) hn]
    exact ⟨fun _ h => (List.not_mem_nil h).elim, rfl, fun a => by simp [segmentAccesses]⟩
  | succ n ih =>
    have hnum := phnum_congr hS hin hc.header hm
    rw [loadSegments, hnum] at hnone ⊢
    simp only [segmentAccesses, hnum, List.mem_append, not_write_mem_readsAt,
      false_or]
    by_cases hi : i ≥ phnum m buf
    · rw [if_pos hi, segmentsBehind_end hi]
      exact ⟨fun _ h => (List.not_mem_nil h).elim, rfl, fun a => by simp [hi]⟩
    have hlt : i < phnum m buf := Nat.lt_of_not_le hi
    have hph : programHeader m' (buf + (phoff m buf).toNat) i =
        programHeader m (phdrs m buf) i := programHeader_congr hS hin hc.inFile hm hlt
    simp only [if_neg hi, hph, List.mem_append, not_write_mem_readsAt, false_or]
    rw [if_neg hi, programHeader_congr hS hin hc.inFile hm hlt] at hnone
    rw [programHeader_congr hS hin hc.inFile hm hlt]
    dsimp only at hnone ⊢
    by_cases htype : (programHeader m (phdrs m buf) i).type = ptLoad
    swap
    · rw [if_pos htype] at hnone
      simp only [if_pos htype]
      rw [segmentsBehind_skip hlt htype]
      refine ih (fun j hj hload => ?_) hm (by omega) hnone
      rcases Nat.lt_succ_iff_lt_or_eq.mp hj with hj | rfl
      · exact hbefore j hj hload
      · exact absurd hload htype
    rw [if_neg (not_not.mpr htype)] at hnone
    simp only [if_neg (not_not.mpr htype)]
    rw [segmentsBehind_load hlt htype]
    cases hcheck : segmentCheck size (programHeader m (phdrs m buf) i) with
    | some error =>
      rw [hcheck] at hnone
      cases hnone
    | none =>
      rw [hcheck] at hnone
      obtain ⟨hend, hover⟩ := segmentCheck_eq_none.mp hcheck
      have hsame : Set.EqOn (placeSegment buf (programHeader m (phdrs m buf) i) m') m S :=
        (eqOn_placeSegment (hc.segments i hlt htype hbefore hcheck)).trans hm
      have hnext : ∀ j < i + 1, (programHeader m (phdrs m buf) j).type = ptLoad →
          segmentCheck size (programHeader m (phdrs m buf) j) = none := fun j hj hload => by
        rcases Nat.lt_succ_iff_lt_or_eq.mp hj with hj | rfl
        · exact hbefore j hj hload
        · exact hcheck
      obtain ⟨hall, hmem, hstores⟩ := ih hnext hsame (by omega) hnone
      refine ⟨fun ph h => ?_, hmem, fun a => ?_⟩
      · rcases List.mem_cons.mp h with rfl | h
        · exact hcheck
        · exact hall ph h
      · simp only [if_neg hend, if_neg hover, List.mem_append, not_write_mem_readsAt, false_or,
          write_mem_placeAccesses, hstores, List.exists_mem_cons_iff]

end Segments

/-! ## The pages of the image -/

section Pages

variable {s s' : Kernel} {r : ElfLoadResult} {s₀ : Pmm} {o : Finset ℕ} {base virt : BitVec 32}
  {n j : ℕ} {σ τ : Space}

/-- The frames of an image were free before, and are taken. -/
theorem takenFrame_of_mem {fs : List ℕ} {f : ℕ} (hs : SpaceSound s₀ o s.space)
    (hspare : Spare s₀ o fs) (hs' : SpaceSound s₀ (o ∪ fs.toFinset) s'.space) (hf : f ∈ fs) :
    TakenFrame s s' f := by
  rw [TakenFrame, hs.accounts.mem_freeFrames, hs'.accounts.mem_freeFrames]
  exact ⟨⟨hspare.addrs f hf, hspare.spare f hf⟩, fun hfree => hfree.2
    (Finset.mem_union_right _ (List.mem_toFinset.mpr hf))⟩

variable (hs : SpaceSound s₀ o s.space)
  (h : acquirePages r.base 0 (pagesOf r.size) s.space = (none, s'.space))
include hs h

/-- **A page of the image** has a frame of its own, and the user reaches it when the directory entry
over it was there before or there is another page of the image under it. -/
theorem walk_acquired (hj : j < pagesOf r.size) (hpage : pageOf virt = pageOf (pageAt r.base j)) :
    ∃ t, s'.space.pages.walk virt = some t ∧ TakenFrame s s' t.frame.toNat ∧
      (t.user = true ↔
        s.space.pages.directory (dirIdx (pageAt r.base j)) &&& pagePresent ≠ 0 ∨
          ∃ i < pagesOf r.size, i ≠ j ∧
            dirIdx (pageAt r.base i) = dirIdx (pageAt r.base j)) := by
  obtain ⟨fs, hlen, hpages, hsound, hspare⟩ := acquired_frames hs h
  have hlt := pagesOf_lt r.size
  rw [← hlen] at hj ⊢
  have hf : fs[j]? = some fs[j] := List.getElem?_eq_getElem hj
  have hmem : fs[j] ∈ fs := List.getElem_mem hj
  obtain ⟨haligned, -, hfits⟩ := hs.placed.aligned hs.aligned (hspare.addrs _ hmem)
  have hentry : s'.space.pages.entry virt = mapWord (.ofNat 32 fs[j]) userFlags := by
    rw [hpages]
    exact entry_mapAll (by omega) hf (by rw [Nat.zero_add, hpage])
  have huser : (mapAll r.base 0 fs s.space.pages).directory
      (dirIdx (pageAt r.base (0 + j))) &&& pageUser ≠ 0 ↔ _ := user_mapAll_iff hj
  simp only [Nat.zero_add] at huser
  have hto := WarkRune.Memory.toNat_frame hfits
  have hframe : BitVec.ofNat 32 fs[j] &&& 0xFFFFF000#32 = .ofNat 32 fs[j] :=
    WarkRune.Memory.frame_of_aligned (by rw [hto]; exact haligned)
  refine ⟨_, by rw [hsound.linked.walk_eq, hentry, if_neg mapWord_present], ?_, ?_⟩
  · rw [mapWord_frame, hframe, hto]
    exact takenFrame_of_mem hs hspare hsound hmem
  · -- the entry of the page itself has the user bit
    rw [← huser, decide_eq_true_eq, (WarkRune.Memory.pageOf_eq_iff.mp hpage).1, hpages]
    refine and_iff_left fun hno => ?_
    exact absurd (mapWord_user.mp hno) (by decide)

/-- **The result tells of the pages that were mapped**, and these are unloaded. -/
theorem covers_acquired : Covers s r s' := by
  obtain ⟨fs, hlen, hpages, hsound, hspare⟩ := acquired_frames hs h
  have hlt := pagesOf_lt r.size
  have hentry {virt : BitVec 32} {j : ℕ} (hj : j < fs.length)
      (hpage : pageOf virt = pageOf (pageAt r.base j)) :
      s'.space.pages.entry virt = mapWord (.ofNat 32 fs[j]) userFlags := by
    rw [hpages]
    exact entry_mapAll (by omega) (List.getElem?_eq_getElem hj) (by rw [Nat.zero_add, hpage])
  have hentries (j f : ℕ) (hf : fs[j]? = some f) :
      s'.space.pages.entry (pageAt r.base (0 + j)) = mapWord (.ofNat 32 f) userFlags := by
    obtain ⟨hj, rfl⟩ := List.getElem?_eq_some_iff.mp hf
    exact hentry hj (by rw [Nat.zero_add])
  obtain ⟨pmm, hunload, hacc⟩ := unmapPages_spec hs.placed hs.aligned (by omega) hsound.linked
    hentries hspare hsound.accounts
  rw [hlen] at hunload
  -- the image is unloaded by clearing the entries of its pages
  have hclear : (clearAll r.base 0 (pagesOf r.size) s'.space.pages).Linked :=
    linked_clearAll hsound.linked
  refine ⟨fun virt hon => ?_, fun virt hoff => ?_, fun virt hon => ?_, fun virt hoff => ?_,
    fun f => ?_⟩
  · obtain ⟨j, hj, hpage⟩ := hon
    rw [← hlen] at hj
    refine ⟨fs[j], takenFrame_of_mem hs hspare hsound (List.getElem_mem hj), ?_⟩
    rw [hsound.linked.mapping_eq, hentry hj hpage, if_neg mapWord_present]
  · refine hs.linked.mapping_congr hsound.linked ?_
    rw [hpages]
    refine entry_mapAll_of_ne fun j hj hpage => hoff ⟨j, by omega, ?_⟩
    rwa [Nat.zero_add] at hpage
  · obtain ⟨j, hj, hpage⟩ := hon
    rw [elfUnload, hunload]
    dsimp only
    rw [hclear.mapping_eq, entry_clearAll hsound.linked hj (by rw [Nat.zero_add]; exact hpage)]
    exact if_pos (by decide)
  · rw [elfUnload, hunload]
    refine hsound.linked.mapping_congr hclear ?_
    refine entry_clearAll_of_ne hsound.linked fun j hj hpage => hoff ⟨j, hj, ?_⟩
    rwa [Nat.zero_add] at hpage
  · rw [elfUnload, hunload, hacc.mem_freeFrames, hs.accounts.mem_freeFrames]

end Pages

/-! ## A load that succeeds -/

section Correct

variable {m m' m'' : Memory} {path : Path} {buf a : ℕ} {size : BitVec 32} {s s₁ s' : Kernel}
  {r : ElfLoadResult} {ph : ElfProgramHeader} {s₀ : Pmm} {o : Finset ℕ} {live : List (ℕ × ℕ)}

theorem not_write_mem_checkReads : ¬ .write a ∈ checkReads m buf size := by
  simp only [checkReads, validReads, boundsReads, List.mem_append, List.mem_ite_nil_left,
    List.mem_flatMap, not_write_mem_readsAt, or_self, and_false, exists_false, not_false_eq_true]

theorem InPlace.congr (h : InPlace m buf ph m') (hsame : ∀ b < ph.extent,
    m''.load8 (ph.vaddr.toNat + b) = m'.load8 (ph.vaddr.toNat + b)) : InPlace m buf ph m'' :=
  ⟨fun b hb => (hsame b (lt_max_of_lt_left hb)).trans (h.1 b hb),
    fun b hle hlt => (hsame b (lt_max_of_lt_right hlt)).trans (h.2 b hle hlt)⟩

/-- **The bytes of a segment** are on the image exactly when its pages reach the end. -/
theorem onImage_extent_iff (hr : r.base.toNat + r.size.toNat < 2 ^ 32)
    (hle : r.base.toNat ≤ ph.vaddr.toNat) :
    (∀ b < ph.extent, OnImage r ((ph.vaddr.toNat + b) % 2 ^ 32)) ↔
      (0 < ph.extent →
        ph.vaddr.toNat + ph.extent ≤ (r.base.toNat / 4096 + pagesOf r.size) * 4096) := by
  have hpages := toNat_pagesOf r.size
  have hvaddr := ph.vaddr.isLt
  simp only [onImage_iff hr]
  constructor
  · intro hall hpos
    by_contra hno
    -- the first byte behind the pages, at address 0 if they end the address space
    have hbehind := hall (max ph.vaddr.toNat
      ((r.base.toNat / 4096 + pagesOf r.size) * 4096) - ph.vaddr.toNat) (by omega)
    omega
  · intro hend b hb
    have hend' := hend (by omega)
    omega

/-- The bytes of a segment are in the file exactly when its end does not wrap. -/
theorem inFile_iff (hcheck : segmentCheck size ph = none) :
    (∀ b < ph.filesz.toNat, ph.offset.toNat + b < size.toNat) ↔
      ph.offset.toNat + ph.filesz.toNat < 2 ^ 32 := by
  have hend := (segmentCheck_eq_none.mp hcheck).1
  have hoffset := ph.offset.isLt
  have hsize := size.isLt
  rw [gt_iff_lt, BitVec.not_lt, BitVec.le_def, BitVec.toNat_add] at hend
  constructor
  · intro hall
    by_contra hno
    have hlast := hall (max ph.offset.toNat size.toNat - ph.offset.toNat) (by omega)
    omega
  · intro hlt b hb
    omega

/-- What a load that succeeds has done, where the file was in the buffer in the memory `m`. -/
structure Done (path : Path) (s : Kernel) (buf : ℕ) (size : BitVec 32) (m : Memory)
    (r : ElfLoadResult) (s' : Kernel) : Prop where
  checks : ∀ ph ∈ segments m buf, segmentCheck size ph = none
  base : r.base = (loadBounds m buf).1
  size : r.size = loadTotal m buf
  fits : r.base.toNat + r.size.toNat < 2 ^ 32
  low : ∀ ph ∈ segments m buf, r.base.toNat ≤ ph.vaddr.toNat
  acquired : acquirePages r.base 0 (pagesOf r.size) s.space = (none, s'.space)
  emits : ∀ a, (elfLoadTraced path).Emits s (.write a) ↔
    ∃ ph ∈ segments m buf, ∃ b < ph.extent, a = (ph.vaddr.toNat + b) % 2 ^ 32
  bytes : ∀ ph ∈ segments m buf, ∀ b < ph.extent, s'.mem.load8 (ph.vaddr.toNat + b) =
    ((segments m buf).foldl (fun m ph => placeSegment buf ph m) m).load8 (ph.vaddr.toNat + b)

/-- **What a load does** when it succeeds and the image stays off the buffer and the headers. -/
theorem done_of_returns (hl : s.heap.HasLive live)
    (hread : (elfRead path).Returns s (.inr (buf, size)) s₁)
    (hplace : (elfPlace buf size).Returns s₁ r s') (hr : r.ok = true)
    (hheaders : HeadersIn s₁.mem buf size)
    (hclear : Clear (guarded s₁.heap buf size) buf size s₁.mem) :
    Done path s buf size s₁.mem r s' := by
  obtain ⟨⟨hspace, -⟩, -, hheap⟩ := elfRead_spec hread
  obtain ⟨-, hb⟩ := hheap live hl
  obtain ⟨-, -, -, ⟨hfail, -⟩ | ⟨-, hplaced⟩⟩ := elfPlace_returns hplace
  · rw [hr] at hfail
    cases hfail
  obtain ⟨hnone, u, hfree⟩ := elfPlace_ok hplace hr
  obtain ⟨hcheck, hbase, hsize, hacq⟩ := hplaced
  rw [hspace] at hacq
  obtain ⟨hlen, hle⟩ := hheaders.bounds hcheck
  have hnum := phnum_lt s₁.mem buf
  have hbounds := hb.bounds
  have hS : bufferBytes buf size ⊆ guarded s₁.heap buf size := Set.subset_union_left
  have hin : buf + size.toNat ≤ 2 ^ 32 := by omega
  have hc : FileConfined (guarded s₁.heap buf size) buf size s₁.mem :=
    ⟨hlen, hle, hclear.segments⟩
  have hbefore : ∀ j < 0, (programHeader s₁.mem (phdrs s₁.mem buf) j).type = ptLoad →
      segmentCheck size (programHeader s₁.mem (phdrs s₁.mem buf) j) = none :=
    fun _ hj => absurd hj (Nat.not_lt_zero _)
  obtain ⟨hchecks, hmem, hstores⟩ := loadSegments_placed hS hin hc (2 ^ 16) hbefore
    (Set.eqOn_refl _ _) (by omega) hnone
  obtain ⟨hfit, hlow⟩ := loadBounds_spec hchecks (elfCheck_eq_none.mp hcheck).2.2
  refine ⟨hchecks, hbase, hsize, hbase ▸ hsize ▸ hfit, hbase ▸ hlow, hacq, fun a => ?_,
    fun ph hp b hlt => ?_⟩
  · rw [emits_elfLoadTraced, segments, ← hstores]
    constructor
    · rintro ⟨buf', size', s₂, hread', h⟩
      obtain ⟨heq, rfl⟩ := hread.det hread'
      obtain ⟨rfl, rfl⟩ := Prod.mk.inj (Sum.inr.inj heq)
      rcases emits_elfPlaceTraced.mp h with h | ⟨-, -, h | ⟨-, h⟩⟩
      · exact absurd h not_write_mem_checkReads
      · exact h
      · exact absurd h not_write_mem_readsAt
    · intro h
      refine ⟨buf, size, s₁, hread, emits_elfPlaceTraced.mpr (.inr ⟨hcheck, ?_, .inl h⟩)⟩
      rw [← hbase, ← hsize, hspace, hacq]
  · have hsame := eqOn_loadSegments hS hin hc (2 ^ 16) hbefore (Set.eqOn_refl _ _)
    have hout := ((hb.kfree (hsame.mono Set.subset_union_right)).of_returns hfree).2
    rw [segments, ← hmem]
    exact congrArg BitVec.toNat (hout fun hin => hclear.segments.all hchecks ph hp b hlt
      (Set.subset_union_right hin))

namespace Done

variable (h : Done path s buf size m r s')
include h

/-- Nothing is stored beside the image exactly when its pages reach the end of every segment. -/
theorem stores_iff : (∀ a, (elfLoadTraced path).Emits s (.write a) → OnImage r a) ↔
    ∀ ph ∈ segments m buf, 0 < ph.extent → ph.vaddr.toNat + ph.extent ≤
      ((loadBounds m buf).1.toNat / 4096 + pagesOf (loadTotal m buf)) * 4096 := by
  rw [← h.base, ← h.size]
  simp only [h.emits]
  constructor
  · intro hon ph hp
    refine (onImage_extent_iff h.fits (h.low ph hp)).mp fun b hb => hon _ ⟨ph, hp, b, hb, rfl⟩
  · rintro hend a ⟨ph, hp, b, hb, rfl⟩
    exact (onImage_extent_iff h.fits (h.low ph hp)).mpr (hend ph hp) b hb

/-- **Every byte is on a page for the user** exactly when the directory entries allow it. -/
theorem backed_iff (hs : SpaceSound s₀ o s.space)
    (hon : ∀ a, (elfLoadTraced path).Emits s (.write a) → OnImage r a) :
    (∀ ph ∈ segments m buf, ∀ b < ph.memsz.toNat, ∃ t,
      s'.space.pages.walk (ph.vaddr + .ofNat 32 b) = some t ∧ t.user = true ∧
        TakenFrame s s' t.frame.toNat) ↔ UserReaches m buf s.space.pages := by
  unfold UserReaches
  rw [← h.base, ← h.size]
  constructor
  · intro hbacked ph hp b hlt j hj hpage
    obtain ⟨t, hwalk, huser, -⟩ := hbacked ph hp b hlt
    obtain ⟨t', hwalk', -, hiff⟩ := walk_acquired hs h.acquired hj hpage
    obtain rfl := Option.some.inj (hwalk.symm.trans hwalk')
    exact hiff.mp huser
  · intro huser ph hp b hlt
    have hbyte := hon _ ((h.emits _).mpr ⟨ph, hp, b, lt_max_of_lt_right hlt, rfl⟩)
    have haddr : (ph.vaddr + .ofNat 32 b).toNat = (ph.vaddr.toNat + b) % 2 ^ 32 := by
      rw [BitVec.toNat_add, BitVec.toNat_ofNat, Nat.add_mod_mod]
    rw [← haddr] at hbyte
    obtain ⟨j, hj, hpage⟩ := hbyte
    obtain ⟨t, hwalk, htaken, hiff⟩ := walk_acquired hs h.acquired hj hpage
    exact ⟨t, hwalk, hiff.mpr (huser ph hp b hlt j hj hpage), htaken⟩

/-- **The bytes are those of the file** exactly when no end in the file wraps. -/
theorem bytes_iff (hin : buf + size.toNat ≤ 2 ^ 32)
    (hspares : ∀ ph ∈ segments m buf, Spares (bufferBytes buf size) ph.vaddr.toNat ph.extent)
    (hapart : (segments m buf).Pairwise Apart) :
    (∀ ph ∈ segments m buf,
      (∀ b < ph.filesz.toNat, ph.offset.toNat + b < size.toNat) ∧ InPlace m buf ph s'.mem) ↔
      ∀ ph ∈ segments m buf, ph.offset.toNat + ph.filesz.toNat < 2 ^ 32 := by
  constructor
  · exact fun hall ph hp => (inFile_iff (h.checks ph hp)).mp (hall ph hp).1
  · intro hfile ph hp
    have hinFile (qh) (hq : qh ∈ segments m buf) :=
      (inFile_iff (h.checks qh hq)).mpr (hfile qh hq)
    refine ⟨hinFile ph hp, InPlace.congr ?_ (h.bytes ph hp)⟩
    refine inPlace_foldl _ hapart hspares (fun qh hq b hlt => ?_) (Set.eqOn_refl _ _) ph hp
    have hlast := hinFile qh hq b hlt
    exact ⟨by omega, by omega, by omega⟩

end Done

/-- **A correct image** exactly when the headers and the page directory suit the loader. -/
theorem Done.correct_iff (h : Done path s buf size m r s') (hs : SpaceSound s₀ o s.space)
    {S : Set ℕ} (hS : bufferBytes buf size ⊆ S) (hin : buf + size.toNat ≤ 2 ^ 32)
    (hclear : Clear S buf size m) :
    CorrectImage path s buf size m r s' ↔ Loadable m buf s.space.pages := by
  have hspares : ∀ ph ∈ segments m buf, Spares (bufferBytes buf size) ph.vaddr.toNat ph.extent :=
    fun ph hp b hlt hmem => hclear.segments.all h.checks ph hp b hlt (hS hmem)
  constructor
  · intro hc
    refine ⟨(h.backed_iff hs hc.stores).mp hc.backed, h.stores_iff.mp hc.stores, fun hapart => ?_⟩
    exact (h.bytes_iff hin hspares hapart).mp (hc.bytes hapart)
  · rintro ⟨huser, hreach, hfile⟩
    have hon := h.stores_iff.mpr hreach
    refine ⟨(h.backed_iff hs hon).mpr huser, hon, fun hapart => ?_, covers_acquired hs h.acquired⟩
    exact (h.bytes_iff hin hspares hapart).mpr (hfile hapart)

/-- The load of `path` from `s`, with the result `r` in the state `s'`, has left a correct image. -/
def LoadsCorrectly (path : Path) (s : Kernel) (r : ElfLoadResult) (s' : Kernel) : Prop :=
  OnceRead path s fun buf size s₁ => CorrectImage path s buf size s₁.mem r s'

/-- Where there are frames for the image of `path`, it stays off the buffer and the headers of the
heap. -/
def OffHeaders (path : Path) (s : Kernel) : Prop :=
  OnceRead path s fun buf size s₁ =>
    pagesOf (loadTotal s₁.mem buf) ≤ s₁.space.pmm.freeFrames.length →
      Clear (guarded s₁.heap buf size) buf size s₁.mem

/-- The headers of `path` and the page directory suit the loader. -/
def FileLoadable (path : Path) (s : Kernel) : Prop :=
  OnceRead path s fun buf _ s₁ => Loadable s₁.mem buf s.space.pages

/-- A load that succeeds has done what it does in the buffer that the file is read to. -/
theorem loaded_done (hs : SpaceSound s₀ o s.space) (hl : s.heap.HasLive live)
    (h : (elfLoad path).Returns s r s') (hr : r.ok = true) (hheaders : HeadersInFile path s)
    (hclear : OffHeaders path s) :
    ∃ buf size s₁, (elfRead path).Returns s (.inr (buf, size)) s₁ ∧
      elfCheck s₁.mem buf size = none ∧ Clear (guarded s₁.heap buf size) buf size s₁.mem ∧
      s₁.heap.Borrowed live buf size.toNat ∧ Done path s buf size s₁.mem r s' := by
  rcases elfLoad_returns h with ⟨error, -, rfl⟩ | ⟨buf, size, s₁, hread, hplace⟩
  · cases hr
  obtain ⟨⟨hspace, -⟩, -, hheap⟩ := elfRead_spec hread
  obtain ⟨-, -, -, ⟨hfail, -⟩ | ⟨-, hplaced⟩⟩ := elfPlace_returns hplace
  · rw [hr] at hfail
    cases hfail
  have hsound := hspace.symm ▸ hs
  have hfree := (acquirePages_eq_none hsound.placed hsound.accounts r.base (pagesOf r.size)).mp
    (congrArg Prod.fst hplaced.acquired)
  have hc := hclear buf size s₁ hread hplaced.check (hplaced.size ▸ hfree)
  exact ⟨buf, size, s₁, hread, hplaced.check, hc, (hheap live hl).2,
    done_of_returns hl hread hplace hr (hheaders buf size s₁ hread) hc⟩

end Correct

/-! ## Programs with one segment -/

section One

variable {path : Path} {s s' : Kernel} {r : ElfLoadResult} {vaddr filesz memsz size : BitVec 32}
  {buf : ℕ}

theorem HoldsOne.segments_eq (h : HoldsOne vaddr filesz memsz buf size s) :
    segments s.mem buf = [programHeader s.mem (phdrs s.mem buf) 0] := by
  obtain ⟨-, -, -, -, hphnum, -, -, htype, -⟩ := h
  rw [segments, segmentsBehind_load (by rw [hphnum]; decide) htype,
    segmentsBehind_end (by rw [hphnum])]

/-- A file that is loaded in a run. -/
theorem returns_of_run (fuel : ℕ) (h : ((elfLoad path).run fuel s).map (fun p => p.1.ok) =
    some true) : ∃ r s', (elfLoad path).Returns s r s' ∧ r.ok = true := by
  obtain ⟨⟨r, s'⟩, hr, hok⟩ := Option.map_eq_some_iff.mp h
  exact ⟨r, s', ⟨fuel, hr⟩, hok⟩

end One

/-- A segment of two bytes at the start of a page. -/
def alignedFile : Kernel := bootKernel (oneSegment 0x3000000 1 2)

/-- A segment of two bytes, the second of which is on the next page. -/
def straddlingFile : Kernel := bootKernel (oneSegment 0x3000FFF 2 2)

end WarkRune.Elf

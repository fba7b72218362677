import WarkRune.Elf.Clean
import WarkRune.Elf.Trace

/-!
# Reads inside the file

The buffer of `elf_load` has as many bytes as the file. The loader looks at the header before it
knows that the file has one, and compares sums with the size that wrap: the end of the program
headers, and the end of a segment in the file. Where a sum wraps, or the file ends inside the
header, it reads behind the end of the file.

## Main definitions

* `ReadsInside`: every byte read from the buffer has an index below the size of the file
* `headerBytes`: how many bytes of the header the checks look at
* `HeadersInFile`, `SegmentsInFile`: the file has the header, and no sum wraps
* `OffBuffer`: the image stays off the buffer

## Main results

* `elfLoad_reads_inside_iff`: the loader reads inside the file exactly when the file has the header
  and no sum wraps, unless the image is laid over the buffer
-/

namespace WarkRune.Elf

open Bytes (Memory)
open Exec
open Fat12 (Path)
open WarkRune.Memory (Heap Pmm kmallocHeapSize pageOf)

/-- Every byte that is read has an index below `n`. -/
def Inside (n : ℕ) (es : List Access) : Prop := ∀ i, .read i ∈ es → i < n

section Inside

variable {n i k : ℕ} {es fs : List Access}

@[simp] theorem inside_nil : Inside n [] := fun _ h => (List.not_mem_nil h).elim

@[simp] theorem inside_append : Inside n (es ++ fs) ↔ Inside n es ∧ Inside n fs := by
  constructor
  · exact fun h => ⟨fun i hi => h i (List.mem_append_left _ hi),
      fun i hi => h i (List.mem_append_right _ hi)⟩
  · rintro ⟨he, hf⟩ i hi
    rcases List.mem_append.mp hi with hi | hi
    · exact he i hi
    · exact hf i hi

@[simp] theorem inside_ite {c : Prop} [Decidable c] :
    Inside n (if c then [] else es) ↔ (¬ c → Inside n es) := by
  split_ifs with hc
  · exact iff_of_true inside_nil fun h => absurd hc h
  · exact ⟨fun h _ => h, fun h => h hc⟩

theorem inside_flatMap {l : List ℕ} {f : ℕ → List Access} :
    Inside n (l.flatMap f) ↔ ∀ a ∈ l, Inside n (f a) := by
  constructor
  · exact fun h a ha i hi => h i (List.mem_flatMap.mpr ⟨a, ha, hi⟩)
  · intro h i hi
    obtain ⟨a, ha, hi⟩ := List.mem_flatMap.mp hi
    exact h a ha i hi

theorem mem_readsAt {e : Access} :
    e ∈ readsAt i k ↔ ∃ b < k, e = .read ((i + b) % 2 ^ 32) := by
  unfold readsAt
  simp only [List.mem_map, List.mem_range, eq_comm]

theorem inside_readsAt (h : i + k ≤ 2 ^ 32) (hk : 0 < k) : Inside n (readsAt i k) ↔ i + k ≤ n := by
  constructor
  · intro hall
    have hlast := hall ((i + (k - 1)) % 2 ^ 32) (mem_readsAt.mpr ⟨k - 1, by omega, rfl⟩)
    omega
  · intro hle j hj
    obtain ⟨b, hb, he⟩ := mem_readsAt.mp hj
    rw [Access.read.injEq] at he
    omega

end Inside

/-! ## The header -/

/-- How many bytes of the header the checks look at: they stop at the first that fails. -/
def headerBytes (m : Memory) (buf : ℕ) : ℕ :=
  if m.load8 buf ≠ 0x7F then 1
  else if m.load8 (buf + 1) ≠ 0x45 then 2
  else if m.load8 (buf + 2) ≠ 0x4C then 3
  else if m.load8 (buf + 3) ≠ 0x46 then 4
  else if bits m buf ≠ elfClass32 then 5
  else if machine m buf ≠ elfX86 ∨ fileType m buf ≠ elfExecutable then 20
  else 46

/-- The file has the bytes of the header that the checks look at. Where these pass, and the end of
the program headers is accepted, it has not wrapped. -/
structure HeadersIn (m : Memory) (buf : ℕ) (size : BitVec 32) : Prop where
  header : headerBytes m buf ≤ size.toNat
  table : headerBytes m buf = 46 → phoff m buf + .ofNat 32 (phnum m buf * 32) ≤ size →
    phnum m buf = 0 ∨ (phoff m buf).toNat + 32 * phnum m buf < 2 ^ 32

/-- The end in the file of a segment that the loader places does not wrap. -/
def SegmentsIn (m : Memory) (buf : ℕ) (size : BitVec 32) : Prop :=
  EachPlaced m buf size fun ph => ph.offset.toNat + ph.filesz.toNat < 2 ^ 32

section Header

variable {m : Memory} {buf : ℕ} {size : BitVec 32}

theorem phnum_lt (m : Memory) (buf : ℕ) : phnum m buf < 2 ^ 16 := by
  have h₀ := @Memory.load8_lt m (buf + 44)
  have h₁ := @Memory.load8_lt m (buf + 44 + 1)
  unfold phnum Memory.load16
  omega

theorem toNat_tableEnd (m : Memory) (buf : ℕ) :
    (phoff m buf + .ofNat 32 (phnum m buf * 32)).toNat =
      ((phoff m buf).toNat + 32 * phnum m buf) % 2 ^ 32 := by
  rw [BitVec.toNat_add, BitVec.toNat_ofNat, Nat.add_mod_mod, Nat.mul_comm]

/-- What is left of the checks when the header is accepted. -/
theorem headerBytes_eq : headerBytes m buf = 46 ↔ ElfValid m buf ∧ bits m buf = elfClass32 ∧
    machine m buf = elfX86 ∧ fileType m buf = elfExecutable := by
  unfold headerBytes ElfValid
  split_ifs with h₀ h₁ h₂ h₃ h₄ h₅ <;> simp_all
  tauto

/-- The end of the program headers is in the file when it is accepted and does not wrap. -/
theorem table_le (hend : phoff m buf + .ofNat 32 (phnum m buf * 32) ≤ size)
    (hwrap : (phoff m buf).toNat + 32 * phnum m buf < 2 ^ 32) :
    (phoff m buf).toNat + 32 * phnum m buf ≤ size.toNat := by
  rw [BitVec.le_def, toNat_tableEnd] at hend
  omega

/-- **The program headers** are read inside the file exactly when their end does not wrap. -/
theorem inside_boundsReads (hlen : 46 ≤ size.toNat) (hsize : size.toNat ≤ kmallocHeapSize)
    (hend : phoff m buf + .ofNat 32 (phnum m buf * 32) ≤ size) :
    Inside size.toNat (boundsReads m buf) ↔
      phnum m buf = 0 ∨ (phoff m buf).toNat + 32 * phnum m buf < 2 ^ 32 := by
  have hnum := phnum_lt m buf
  rw [boundsReads, inside_flatMap]
  constructor
  · intro hall
    by_contra hno
    rw [not_or] at hno
    have hfirst := hall 0 (List.mem_range.mpr (Nat.pos_of_ne_zero hno.1))
    simp only [inside_append] at hfirst
    have hindex := hfirst.1.2 _ (mem_readsAt.mpr ⟨0, by decide, rfl⟩)
    have hlt := (phoff m buf).isLt
    unfold kmallocHeapSize at hsize
    omega
  · intro hwrap i hi
    have hi : i < phnum m buf := List.mem_range.mp hi
    have hle := table_le hend (hwrap.resolve_left (by omega))
    have hlt := size.isLt
    simp (disch := omega) only [inside_append, inside_ite, inside_readsAt]
    omega

/-- What the checks look at, one after the other. -/
theorem headerBytes_le_iff {n : ℕ} : headerBytes m buf ≤ n ↔
    (1 ≤ n ∧ (m.load8 buf = 0x7F → 2 ≤ n ∧ (m.load8 (buf + 1) = 0x45 → 3 ≤ n ∧
      (m.load8 (buf + 2) = 0x4C → 4 ≤ n)))) ∧
    (ElfValid m buf → 5 ≤ n ∧ (bits m buf = elfClass32 → 20 ≤ n ∧
      (machine m buf = elfX86 → fileType m buf = elfExecutable → 46 ≤ n))) := by
  unfold headerBytes ElfValid
  split_ifs <;> simp_all <;> omega

/-- **The checks** read inside the file exactly when it has the bytes they look at. -/
theorem inside_checkReads (hsize : size.toNat ≤ kmallocHeapSize) :
    Inside size.toNat (checkReads m buf size) ↔ HeadersIn m buf size := by
  have hreads : Inside size.toNat (checkReads m buf size) ↔
      headerBytes m buf ≤ size.toNat ∧ (headerBytes m buf = 46 →
        phoff m buf + .ofNat 32 (phnum m buf * 32) ≤ size →
          Inside size.toNat (boundsReads m buf)) := by
    unfold checkReads validReads
    simp (disch := omega) only [inside_append, inside_ite, inside_readsAt, not_not]
    rw [headerBytes_le_iff, headerBytes_eq, BitVec.not_lt]
    simp only [Nat.zero_add, Nat.reduceAdd]
    grind
  rw [hreads]
  constructor
  · rintro ⟨hheader, htable⟩
    refine ⟨hheader, fun h46 hend => ?_⟩
    exact (inside_boundsReads (h46 ▸ hheader) hsize hend).mp (htable h46 hend)
  · rintro ⟨hheader, htable⟩
    refine ⟨hheader, fun h46 hend => ?_⟩
    exact (inside_boundsReads (h46 ▸ hheader) hsize hend).mpr (htable h46 hend)

end Header

/-! ## The segments -/

section Segments

variable {S : Set ℕ} {m m' : Memory} {buf : ℕ} {size : BitVec 32} {i n : ℕ}

theorem segmentCheck_eq_none {ph : ElfProgramHeader} : segmentCheck size ph = none ↔
    ¬ ph.offset + ph.filesz > size ∧ ¬ ph.memsz > 0xFFFFFFFF - ph.vaddr := by
  unfold segmentCheck
  split_ifs <;> simp_all

/-- **The bytes of a segment** are read inside the file exactly when its end does not wrap. -/
theorem inside_placeAccesses {ph : ElfProgramHeader} (hend : ¬ ph.offset + ph.filesz > size) :
    Inside size.toNat (placeAccesses ph) ↔ ph.offset.toNat + ph.filesz.toNat < 2 ^ 32 := by
  have hsize := size.isLt
  have hoffset := ph.offset.isLt
  rw [gt_iff_lt, BitVec.not_lt, BitVec.le_def, BitVec.toNat_add] at hend
  have hmem (x : ℕ) : .read x ∈ placeAccesses ph ↔
      ∃ b < ph.filesz.toNat, x = (ph.offset.toNat + b) % 2 ^ 32 := by
    simp [placeAccesses]
  constructor
  · intro hall
    by_contra hwrap
    have hlast := hall (max ph.offset.toNat size.toNat) ((hmem _).mpr
      ⟨max ph.offset.toNat size.toNat - ph.offset.toNat, by omega, by omega⟩)
    omega
  · intro hwrap x hx
    obtain ⟨b, hb, rfl⟩ := (hmem x).mp hx
    omega

/-- The condition on the segments from `i` on, `n` of them. -/
def SegmentsFrom (m : Memory) (buf : ℕ) (size : BitVec 32) (i n : ℕ) : Prop :=
  ∀ k, i ≤ k → k < i + n → k < phnum m buf → (programHeader m (phdrs m buf) k).type = ptLoad →
    (∀ j, i ≤ j → j < k → (programHeader m (phdrs m buf) j).type = ptLoad →
      segmentCheck size (programHeader m (phdrs m buf) j) = none) →
    segmentCheck size (programHeader m (phdrs m buf) k) = none →
    (programHeader m (phdrs m buf) k).offset.toNat +
      (programHeader m (phdrs m buf) k).filesz.toNat < 2 ^ 32

theorem segmentsFrom_skip (htype : (programHeader m (phdrs m buf) i).type ≠ ptLoad) :
    SegmentsFrom m buf size i (n + 1) ↔ SegmentsFrom m buf size (i + 1) n := by
  constructor
  · intro h k hik hkn hk hload hbefore hcheck
    refine h k (by omega) (by omega) hk hload (fun j hij hjk hj => ?_) hcheck
    have hne : i ≠ j := by
      rintro rfl
      exact htype hj
    exact hbefore j (by omega) hjk hj
  · intro h k hik hkn hk hload hbefore hcheck
    have hne : i ≠ k := by
      rintro rfl
      exact htype hload
    exact h k (by omega) (by omega) hk hload (fun j hij => hbefore j (by omega)) hcheck

theorem segmentsFrom_stop (htype : (programHeader m (phdrs m buf) i).type = ptLoad)
    (hcheck : segmentCheck size (programHeader m (phdrs m buf) i) ≠ none) :
    SegmentsFrom m buf size i n := by
  intro k hik _ _ _ hbefore hk
  rcases Nat.eq_or_lt_of_le hik with rfl | hlt
  · exact absurd hk hcheck
  · exact absurd (hbefore i (Nat.le_refl i) hlt htype) hcheck

theorem segmentsFrom_place (hi : i < phnum m buf)
    (htype : (programHeader m (phdrs m buf) i).type = ptLoad)
    (hcheck : segmentCheck size (programHeader m (phdrs m buf) i) = none) :
    SegmentsFrom m buf size i (n + 1) ↔
      (programHeader m (phdrs m buf) i).offset.toNat +
        (programHeader m (phdrs m buf) i).filesz.toNat < 2 ^ 32 ∧
      SegmentsFrom m buf size (i + 1) n := by
  constructor
  · intro h
    refine ⟨h i (Nat.le_refl i) (by omega) hi htype (fun j hij hji => by omega) hcheck, ?_⟩
    intro k hik hkn hk hload hbefore hk'
    refine h k (by omega) (by omega) hk hload (fun j hij hjk hj => ?_) hk'
    rcases Nat.eq_or_lt_of_le hij with rfl | hlt
    · exact hcheck
    · exact hbefore j hlt hjk hj
  · rintro ⟨hfirst, hrest⟩ k hik hkn hk hload hbefore hk'
    rcases Nat.eq_or_lt_of_le hik with rfl | hlt
    · exact hfirst
    · exact hrest k hlt (by omega) hk hload (fun j hij => hbefore j (by omega)) hk'

/-- **The segments** are read inside the file exactly when the end of none that is placed wraps. -/
theorem inside_segmentAccesses (hS : bufferBytes buf size ⊆ S) (hin : buf + size.toNat ≤ 2 ^ 32)
    (hc : FileConfined S buf size m) (n : ℕ) {i : ℕ}
    (hbefore : ∀ j < i, (programHeader m (phdrs m buf) j).type = ptLoad →
      segmentCheck size (programHeader m (phdrs m buf) j) = none) (hm : Set.EqOn m' m S) :
    Inside size.toNat (segmentAccesses buf (phoff m buf).toNat size i n m') ↔
      SegmentsFrom m buf size i n := by
  have hsize := size.isLt
  have hlen := hc.header
  have hle := hc.inFile
  induction n generalizing i m' with
  | zero => exact iff_of_true inside_nil fun k hik hkn => by omega
  | succ n ih =>
    have hnum : Inside size.toNat (readsAt 44 2) := (inside_readsAt (by omega) (by omega)).mpr hlen
    rw [segmentAccesses, phnum_congr hS hin hlen hm]
    by_cases hi : i ≥ phnum m buf
    · rw [if_pos hi, inside_append, and_iff_right hnum]
      exact iff_of_true inside_nil fun k hik hkn hk => by omega
    have hlt : i < phnum m buf := Nat.lt_of_not_le hi
    -- the headers are in the buffer, and the segments placed so far are not
    have hph : programHeader m' (buf + (phoff m buf).toNat) i =
        programHeader m (phdrs m buf) i := programHeader_congr hS hin hle hm hlt
    have hreads {k : ℕ} (hk : k ≤ 28) :
        Inside size.toNat (readsAt ((phoff m buf).toNat + 32 * i + k) 4) :=
      (inside_readsAt (by omega) (by omega)).mpr (by omega)
    have htype₀ := hreads (k := 0) (by omega)
    rw [Nat.add_zero] at htype₀
    rw [if_neg hi, inside_append, and_iff_right hnum, hph]
    dsimp only
    rw [inside_append, and_iff_right htype₀]
    by_cases htype : (programHeader m (phdrs m buf) i).type = ptLoad
    swap
    · rw [if_pos htype, segmentsFrom_skip htype]
      refine ih (fun j hj hload => ?_) hm
      rcases Nat.lt_succ_iff_lt_or_eq.mp hj with hj | rfl
      · exact hbefore j hj hload
      · exact absurd hload htype
    rw [if_neg (not_not.mpr htype), inside_append, inside_append,
      and_iff_right ⟨hreads (by omega), hreads (by omega)⟩]
    cases hcheck : segmentCheck size (programHeader m (phdrs m buf) i) with
    | some error =>
      refine iff_of_true ?_ (segmentsFrom_stop htype (by rw [hcheck]; exact Option.some_ne_none _))
      have hno : ¬ (_ ∧ _) := fun h => Option.some_ne_none error
        (hcheck.symm.trans (segmentCheck_eq_none.mpr h))
      rw [inside_ite]
      intro hend
      rw [inside_append, inside_append, inside_ite]
      exact ⟨⟨hreads (by omega), hreads (by omega)⟩, fun hover => absurd ⟨hend, hover⟩ hno⟩
    | none =>
      obtain ⟨hend, hover⟩ := segmentCheck_eq_none.mp hcheck
      rw [if_neg hend, if_neg hover, inside_append, inside_append,
        and_iff_right ⟨hreads (by omega), hreads (by omega)⟩, inside_append,
        inside_placeAccesses hend, segmentsFrom_place hlt htype hcheck]
      have hspares := hc.segments i hlt htype hbefore hcheck
      refine and_congr Iff.rfl (ih (fun j hj hload => ?_) ((eqOn_placeSegment hspares).trans hm))
      rcases Nat.lt_succ_iff_lt_or_eq.mp hj with hj | rfl
      · exact hbefore j hj hload
      · exact hcheck

end Segments

/-! ## The load -/

/-- Once the file at `path` is in a buffer, `P` holds of the buffer, its size and the state. -/
def OnceBuffered (path : Path) (s : Kernel) (P : ℕ → BitVec 32 → Kernel → Prop) : Prop :=
  ∀ buf size s₁, (elfRead path).Returns s (.inr (buf, size)) s₁ → P buf size s₁

/-- **The load of `path` reads inside the file**: every byte of its buffer that it reads has an
index below the size of the file. -/
def ReadsInside (path : Path) (s : Kernel) : Prop :=
  OnceBuffered path s fun _ size _ =>
    ∀ i, (elfLoadTraced path).Emits s (.read i) → i < size.toNat

/-- The file has the header, as far as the loader looks at it, and the end of the program headers
does not wrap. -/
def HeadersInFile (path : Path) (s : Kernel) : Prop :=
  OnceBuffered path s fun buf size s₁ => HeadersIn s₁.mem buf size

/-- Where there are frames for the image, the ends of its segments in the file do not wrap. -/
def SegmentsInFile (path : Path) (s : Kernel) : Prop :=
  OnceRead path s fun buf size s₁ =>
    pagesOf (loadTotal s₁.mem buf) ≤ s₁.space.pmm.freeFrames.length → SegmentsIn s₁.mem buf size

/-- No byte of `S` is on a page of the image or stored for a segment that the loader places: the
kernel sees these bytes as before. -/
structure Clear (S : Set ℕ) (buf : ℕ) (size : BitVec 32) (m : Memory) : Prop where
  pages : ∀ j < pagesOf (loadTotal m buf), ∀ a ∈ S,
    a / 4096 ≠ pageOf (pageAt (loadBounds m buf).1 j)
  segments : EachPlaced m buf size fun ph => Spares S ph.vaddr.toNat ph.extent

/-- Where there are frames for the image of `path`, it stays off the buffer. -/
def OffBuffer (path : Path) (s : Kernel) : Prop :=
  OnceRead path s fun buf size s₁ =>
    pagesOf (loadTotal s₁.mem buf) ≤ s₁.space.pmm.freeFrames.length →
      Clear (bufferBytes buf size) buf size s₁.mem

/-! ### A file with one segment -/

section One

variable {path : Path} {s : Kernel} {vaddr filesz memsz size : BitVec 32} {buf : ℕ}

/-- The buffer holds a file of 84 bytes with one segment, whose image has one page. -/
def HoldsOne (vaddr filesz memsz : BitVec 32) (buf : ℕ) (size : BitVec 32) (s : Kernel) : Prop :=
  size = 84 ∧ s.heap.pool = 0x108000 ∧ headerBytes s.mem buf = 46 ∧ phoff s.mem buf = 52 ∧
    phnum s.mem buf = 1 ∧ (loadBounds s.mem buf).1 = vaddr ∧
    pagesOf (loadTotal s.mem buf) = 1 ∧
    (programHeader s.mem (phdrs s.mem buf) 0).type = ptLoad ∧
    (programHeader s.mem (phdrs s.mem buf) 0).offset = 0 ∧
    (programHeader s.mem (phdrs s.mem buf) 0).vaddr = vaddr ∧
    (programHeader s.mem (phdrs s.mem buf) 0).filesz = filesz ∧
    (programHeader s.mem (phdrs s.mem buf) 0).memsz = memsz

instance (vaddr filesz memsz : BitVec 32) (buf : ℕ) (size : BitVec 32) (s : Kernel) :
    Decidable (HoldsOne vaddr filesz memsz buf size s) := inferInstanceAs (Decidable (_ ∧ _))

/-- What a run of `elfRead` leaves in the buffer. -/
theorem onceBuffered_of_run (fuel : ℕ) {P : ℕ → BitVec 32 → Kernel → Prop}
    [∀ buf size s, Decidable (P buf size s)] (h : ((elfRead path).run fuel s).any (fun p =>
      p.1.elim (fun _ => true) fun x => decide (P x.1 x.2 p.2)) = true) :
    OnceBuffered path s P := by
  intro buf size s₁ hread
  obtain ⟨⟨x, s₂⟩, hrun, hp⟩ := (Option.any_eq_true _ _).mp h
  obtain ⟨rfl, rfl⟩ := hread.det ⟨fuel, hrun⟩
  exact of_decide_eq_true hp

theorem HoldsOne.headersIn (h : HoldsOne vaddr filesz memsz buf size s) :
    HeadersIn s.mem buf size := by
  obtain ⟨rfl, -, hheader, hphoff, hphnum, -⟩ := h
  refine ⟨by rw [hheader]; decide, fun _ _ => .inr ?_⟩
  rw [hphoff, hphnum]
  decide

/-- An image of one page that is above the pool. -/
theorem HoldsOne.clear {S : Set ℕ} {live : List (ℕ × ℕ)}
    (h : HoldsOne vaddr filesz memsz buf size s) (hb : s.heap.Borrowed live buf size.toNat)
    (hS : S ⊆ guarded s.heap buf size) (hlow : 0x200000 ≤ vaddr.toNat)
    (hend : vaddr.toNat + max filesz.toNat memsz.toNat ≤ 2 ^ 32) : Clear S buf size s.mem := by
  have hpool {a : ℕ} (ha : a ∈ S) : a < s.heap.pool + kmallocHeapSize :=
    (guarded_subset hb (hS ha)).2
  obtain ⟨-, heap, -, -, hphnum, hbase, hpages, -, -, hvaddr, hfilesz, hmemsz⟩ := h
  have hsize : kmallocHeapSize = 0x80000 := by decide
  rw [heap, hsize] at hpool
  constructor
  · intro j hj a ha
    have hlt := hpool ha
    rw [hpages] at hj
    obtain rfl := Nat.lt_one_iff.mp hj
    rw [hbase, pageOf_pageAt]
    unfold pageOf
    omega
  · intro i hi _ _ _
    rw [hphnum] at hi
    obtain rfl := Nat.lt_one_iff.mp hi
    rw [ElfProgramHeader.extent, hvaddr, hfilesz, hmemsz]
    intro b hb hin
    have hlt := hpool hin
    omega

end One

/-! ### The condition -/

section Load

variable {path : Path} {s : Kernel} {s₀ : Pmm} {o : Finset ℕ} {live : List (ℕ × ℕ)} {buf : ℕ}
  {size : BitVec 32}

theorem elfCheck_eq_none {m : Memory} : elfCheck m buf size = none ↔ headerBytes m buf = 46 ∧
    phoff m buf + .ofNat 32 (phnum m buf * 32) ≤ size ∧ (loadBounds m buf).1 ≠ 0xFFFFFFFF := by
  rw [headerBytes_eq]
  unfold elfCheck
  split_ifs <;> simp_all

/-- The headers of a file that passes the checks are in the file. -/
theorem HeadersIn.bounds {m : Memory} (hh : HeadersIn m buf size)
    (hcheck : elfCheck m buf size = none) :
    46 ≤ size.toNat ∧ (phoff m buf).toNat + 32 * phnum m buf ≤ size.toNat := by
  obtain ⟨h46, hend, hbase⟩ := elfCheck_eq_none.mp hcheck
  refine ⟨h46 ▸ hh.header, ?_⟩
  refine table_le hend ((hh.table h46 hend).resolve_left fun hzero => hbase ?_)
  rw [loadBounds, hzero, List.range_zero, List.map_nil, List.foldl_nil]

theorem segmentsFrom_zero {m : Memory} :
    SegmentsFrom m buf size 0 (2 ^ 16) ↔ SegmentsIn m buf size := by
  have hnum := phnum_lt m buf
  constructor
  · intro h i hi hload hbefore hcheck
    exact h i (Nat.zero_le i) (by omega) hi hload (fun j _ hj => hbefore j hj) hcheck
  · intro h i _ _ hi hload hbefore hcheck
    exact h i hi hload (fun j hj => hbefore j (Nat.zero_le j) hj) hcheck

/-- The load once the file is in the buffer. -/
theorem elfPlace_inside_iff (hs : SpaceSound s₀ o s.space)
    (hb : s.heap.Borrowed live buf size.toNat) :
    ((∀ i, (elfPlaceTraced buf size).Emits s (.read i) → i < size.toNat) →
      HeadersIn s.mem buf size) ∧
    ((elfCheck s.mem buf size = none →
        pagesOf (loadTotal s.mem buf) ≤ s.space.pmm.freeFrames.length →
          Clear (bufferBytes buf size) buf size s.mem) →
      ((∀ i, (elfPlaceTraced buf size).Emits s (.read i) → i < size.toNat) ↔
        HeadersIn s.mem buf size ∧ (elfCheck s.mem buf size = none →
          pagesOf (loadTotal s.mem buf) ≤ s.space.pmm.freeFrames.length →
            SegmentsIn s.mem buf size))) := by
  have hbounds := hb.bounds
  have hchecks : Inside size.toNat (checkReads s.mem buf size) ↔ HeadersIn s.mem buf size :=
    inside_checkReads (by omega)
  have hheaders : (∀ i, (elfPlaceTraced buf size).Emits s (.read i) → i < size.toNat) →
      HeadersIn s.mem buf size := fun hall =>
    hchecks.mp fun i hi => hall i (emits_elfPlaceTraced.mpr (.inl hi))
  refine ⟨hheaders, fun hclear => ?_⟩
  have hsegments (hh : HeadersIn s.mem buf size) (hcheck : elfCheck s.mem buf size = none)
      (hframes : pagesOf (loadTotal s.mem buf) ≤ s.space.pmm.freeFrames.length) :
      46 ≤ size.toNat ∧ (Inside size.toNat
        (segmentAccesses buf (phoff s.mem buf).toNat size 0 (2 ^ 16) s.mem) ↔
          SegmentsIn s.mem buf size) := by
    obtain ⟨hlen, hle⟩ := hh.bounds hcheck
    refine ⟨hlen, ?_⟩
    rw [inside_segmentAccesses subset_rfl (by omega)
      ⟨hlen, hle, (hclear hcheck hframes).segments⟩ _ (fun _ hj => absurd hj (Nat.not_lt_zero _))
      (Set.eqOn_refl _ _), segmentsFrom_zero]
  constructor
  · intro hall
    refine ⟨hheaders hall, fun hcheck hfree => ?_⟩
    refine (hsegments (hheaders hall) hcheck hfree).2.mp fun i hi => hall i ?_
    refine emits_elfPlaceTraced.mpr (.inr ⟨hcheck, ?_, .inl hi⟩)
    exact (acquirePages_eq_none hs.placed hs.accounts _ _).mpr hfree
  · rintro ⟨hh, hsegs⟩ i hi
    rcases emits_elfPlaceTraced.mp hi with hi | ⟨hcheck, hacq, hi⟩
    · exact hchecks.mpr hh i hi
    have hfree := (acquirePages_eq_none hs.placed hs.accounts _ _).mp hacq
    obtain ⟨hlen, hiff⟩ := hsegments hh hcheck hfree
    rcases hi with hi | ⟨-, hi⟩
    · exact hiff.mpr (hsegs hcheck hfree) i hi
    · have hentry : Inside size.toNat (readsAt 24 4) :=
        (inside_readsAt (by omega) (by omega)).mpr (by omega)
      exact hentry i hi

end Load

end WarkRune.Elf

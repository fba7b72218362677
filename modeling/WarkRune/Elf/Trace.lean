import WarkRune.Elf.Load
import WarkRune.Exec.Traced

/-!
# What a load reads and writes

The loader reads its buffer in three places: the checks of the header, the loop that finds the
extent of the image, and the loop that places the segments. Here the load leaves a trace of these
reads and of the bytes it stores for the image. Without the trace it is the load.

A read has the index of the byte in the buffer: the difference of two addresses, modulo `2 ^ 32`. A
field that a loop reads again and again is listed once a round.

## Main definitions

* `Access`: a byte that is read or stored
* `checkReads`, `segmentAccesses`: the accesses of the checks and of the segments
* `elfLoadTraced`: the load with its trace

## Main results

* `erase_elfLoadTraced`: without the trace it is `elf_load`
* `emits_elfPlaceTraced`: the accesses of a load once the file is in the buffer
-/

namespace WarkRune.Elf

open Bytes (Memory)
open Exec
open Fat12 (Path)
open WarkRune.Memory (kfree)

/-- A byte of the buffer that is read, or a byte of the image that is stored. -/
inductive Access
  | read (index : ℕ)
  | write (addr : ℕ)

/-- Bytes of the buffer from the index `i` on, `n` of them. -/
def readsAt (i n : ℕ) : List Access := (List.range n).map fun b => .read ((i + b) % 2 ^ 32)

/-! ## The checks -/

/-- The reads of the loop that computes `load_base` and `load_end`. -/
def boundsReads (m : Memory) (buf : ℕ) : List Access :=
  (List.range (phnum m buf)).flatMap fun i =>
    let ph := (phoff m buf).toNat + 32 * i
    readsAt 44 2 ++ readsAt ph 4 ++
      if (programHeader m (phdrs m buf) i).type ≠ ptLoad then []
      else readsAt (ph + 8) 4 ++ readsAt (ph + 20) 4

/-- The reads of `elf_valid`: it stops at the first byte that differs. -/
def validReads (m : Memory) (data : ℕ) : List Access :=
  readsAt 0 1 ++
    if m.load8 data ≠ 0x7F then []
    else readsAt 1 1 ++
      if m.load8 (data + 1) ≠ 0x45 then []
      else readsAt 2 1 ++
        if m.load8 (data + 2) ≠ 0x4C then []
        else readsAt 3 1

/-- The reads of the checks before a page is mapped. -/
def checkReads (m : Memory) (buf : ℕ) (size : BitVec 32) : List Access :=
  validReads m buf ++
    if ¬ ElfValid m buf then []
    else readsAt 4 1 ++
      if bits m buf ≠ elfClass32 then []
      else readsAt 18 2 ++
        if machine m buf ≠ elfX86 then []
        else readsAt 16 2 ++
          if fileType m buf ≠ elfExecutable then []
          else readsAt 28 4 ++ readsAt 44 2 ++
            if phoff m buf + .ofNat 32 (phnum m buf * 32) > size then []
            else boundsReads m buf ++ readsAt 44 2

/-! ## The segments -/

/-- The accesses of the two loops that place a segment. -/
def placeAccesses (ph : ElfProgramHeader) : List Access :=
  (List.range ph.filesz.toNat).flatMap (fun b =>
    [.read ((ph.offset.toNat + b) % 2 ^ 32), .write ((ph.vaddr.toNat + b) % 2 ^ 32)]) ++
  (List.range' ph.filesz.toNat (ph.memsz.toNat - ph.filesz.toNat)).map fun b =>
    .write ((ph.vaddr.toNat + b) % 2 ^ 32)

/-- The accesses of `loadSegments`, where the program headers begin at the index `off`. -/
def segmentAccesses (buf off : ℕ) (size : BitVec 32) : ℕ → ℕ → Memory → List Access
  | _, 0, _ => []
  | i, n + 1, m =>
    readsAt 44 2 ++
      if i ≥ phnum m buf then []
      else
        let ph := programHeader m (buf + off) i
        readsAt (off + 32 * i) 4 ++
          if ph.type ≠ ptLoad then segmentAccesses buf off size (i + 1) n m
          else readsAt (off + 32 * i + 4) 4 ++ readsAt (off + 32 * i + 16) 4 ++
            if ph.offset + ph.filesz > size then []
            else readsAt (off + 32 * i + 20) 4 ++ readsAt (off + 32 * i + 8) 4 ++
              if ph.memsz > 0xFFFFFFFF - ph.vaddr then []
              else placeAccesses ph ++
                segmentAccesses buf off size (i + 1) n (placeSegment buf ph m)

/-! ## The load -/

/-- `elfPlace` with its accesses. -/
def elfPlaceTraced (buf : ℕ) (size : BitVec 32) : Traced Kernel Access ElfLoadResult := do
  let s ← get
  Traced.emitAll (checkReads s.mem buf size)
  match elfCheck s.mem buf size with
  | some error => Traced.lift (reject buf error)
  | none => do
    let base := (loadBounds s.mem buf).1
    let total := loadTotal s.mem buf
    let acquired := acquirePages base 0 (pagesOf total) s.space
    set { s with space := acquired.2 }
    match acquired.1 with
    | some p => do
      modify fun s => { s with space := releaseFrames base 0 p s.space }
      Traced.lift (reject buf "pmm out of frames")
    | none => do
      let placed := loadSegments buf (phdrs s.mem buf) size 0 (2 ^ 16) s.mem
      Traced.emitAll (segmentAccesses buf (phoff s.mem buf).toNat size 0 (2 ^ 16) s.mem)
      modify fun s => s.setMem placed.2
      match placed.1 with
      | some error => do
        modify fun s => { s with space := releaseFrames base 0 (pagesOf total) s.space }
        Traced.lift (reject buf error)
      | none => do
        let s ← get
        Traced.emitAll (readsAt 24 4)
        let result : ElfLoadResult := ⟨true, entry s.mem buf, base, total, ""⟩
        Traced.lift ((kfree buf).on Kernel.heapPart)
        return result

/-- `elf_load` with its accesses to the buffer and the image. -/
def elfLoadTraced (path : Path) : Traced Kernel Access ElfLoadResult := do
  match ← Traced.lift (elfRead path) with
  | .inl error => return failed error
  | .inr (buf, size) => elfPlaceTraced buf size

/-- Without its trace, placing the image is `elfPlace`. -/
theorem erase_elfPlaceTraced (buf : ℕ) (size : BitVec 32) :
    (elfPlaceTraced buf size).erase = elfPlace buf size := by
  unfold elfPlaceTraced elfPlace
  rw [Traced.erase_bind, Traced.erase_get]
  congr 1
  funext s
  rw [Traced.erase_bind, Traced.erase_emitAll, pure_bind]
  cases elfCheck s.mem buf size with
  | some error => rfl
  | none =>
    dsimp only
    rw [Traced.erase_bind]
    congr 1
    funext u
    cases (acquirePages (loadBounds s.mem buf).1 0 (pagesOf (loadTotal s.mem buf)) s.space).1 with
    | some p => rfl
    | none =>
      dsimp only
      rw [Traced.erase_bind, Traced.erase_emitAll, pure_bind, Traced.erase_bind,
        Traced.erase_modify]
      congr 1
      funext u
      cases (loadSegments buf (phdrs s.mem buf) size 0 (2 ^ 16) s.mem).1 with
      | some error => rfl
      | none =>
        dsimp only
        rw [Traced.erase_bind, Traced.erase_get]
        congr 1
        funext s'
        simp only [Traced.erase_bind, Traced.erase_emitAll, pure_bind, Traced.erase_lift,
          Traced.erase_pure]

/-- **Without its trace, the load is `elf_load`.** -/
theorem erase_elfLoadTraced (path : Path) : (elfLoadTraced path).erase = elfLoad path := by
  unfold elfLoadTraced elfLoad
  rw [Traced.erase_bind, Traced.erase_lift]
  congr 1
  funext x
  rcases x with error | ⟨buf, size⟩
  · rfl
  · exact erase_elfPlaceTraced buf size

/-! ## The accesses of a load -/

section Emits

variable {buf : ℕ} {size : BitVec 32} {s : Kernel} {e : Access}

/-- **The accesses of a load once the file is in the buffer**: those of the checks; when these pass
and there is a frame for every page, those of the segments; and when these are placed, those of
the entry point. -/
theorem emits_elfPlaceTraced : (elfPlaceTraced buf size).Emits s e ↔
    e ∈ checkReads s.mem buf size ∨ elfCheck s.mem buf size = none ∧
      (acquirePages (loadBounds s.mem buf).1 0 (pagesOf (loadTotal s.mem buf)) s.space).1 = none ∧
      (e ∈ segmentAccesses buf (phoff s.mem buf).toNat size 0 (2 ^ 16) s.mem ∨
        (loadSegments buf (phdrs s.mem buf) size 0 (2 ^ 16) s.mem).1 = none ∧
          e ∈ readsAt 24 4) := by
  have hreject {error : String} {s' : Kernel} :
      ¬ (Traced.lift (reject buf error) : Traced Kernel Access ElfLoadResult).Emits s' e :=
    Traced.not_emits_lift
  unfold elfPlaceTraced
  rw [Traced.emits_get_bind, Traced.emits_emitAll_bind]
  refine or_congr Iff.rfl ?_
  cases hcheck : elfCheck s.mem buf size with
  | some error => simp only [hreject, reduceCtorEq, false_and]
  | none =>
    dsimp only
    rw [Traced.emits_set_bind]
    cases (acquirePages (loadBounds s.mem buf).1 0 (pagesOf (loadTotal s.mem buf)) s.space).1 with
    | some p =>
      dsimp only
      simp only [Traced.emits_modify_bind, hreject, reduceCtorEq, false_and, and_false]
    | none =>
      dsimp only
      rw [Traced.emits_emitAll_bind, Traced.emits_modify_bind, and_iff_right rfl,
        and_iff_right rfl]
      refine or_congr Iff.rfl ?_
      cases (loadSegments buf (phdrs s.mem buf) size 0 (2 ^ 16) s.mem).1 with
      | some error =>
        dsimp only
        simp only [Traced.emits_modify_bind, hreject, reduceCtorEq, false_and]
      | none =>
        dsimp only
        rw [Traced.emits_get_bind, Traced.emits_emitAll_bind, and_iff_right rfl]
        refine or_iff_left fun h => ?_
        -- giving the buffer back is no access to it
        rcases Traced.emits_bind.mp h with h | ⟨u, s', -, h⟩
        · exact Traced.not_emits_lift h
        · exact Traced.not_emits_pure h

theorem emits_elfLoadTraced {path : Path} : (elfLoadTraced path).Emits s e ↔
    ∃ buf size s₁, (elfRead path).Returns s (.inr (buf, size)) s₁ ∧
      (elfPlaceTraced buf size).Emits s₁ e := by
  unfold elfLoadTraced
  rw [Traced.emits_bind]
  constructor
  · rintro (h | ⟨x, s₁, hr, h⟩)
    · exact absurd h Traced.not_emits_lift
    · rcases x with error | ⟨buf, size⟩
      · exact absurd h Traced.not_emits_pure
      · exact ⟨buf, size, s₁, hr, h⟩
  · rintro ⟨buf, size, s₁, hr, h⟩
    exact .inr ⟨.inr (buf, size), s₁, hr, h⟩

end Emits

end WarkRune.Elf

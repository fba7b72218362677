import WarkRune.Elf.Pages
import WarkRune.Exec.StatePart
import WarkRune.Fat12.File
import WarkRune.Memory.Heap

/-!
# Loading a program

`elf_load` reads a file into a buffer of the kernel heap, checks its headers, maps fresh frames at
the pages its segments ask for and copies the segments there. Every exit on the way answers with
the text of an error.

The heap's memory is what the kernel sees at its addresses: the headers are read from the buffer,
and the segments are stored at the addresses they name. Words of the headers are 32 bits wide and
their sums wrap as in the C code.

## Main definitions

* `Kernel`: the driver, the heap, the pages and the depth of `elf_exec`
* `elfRead`, `elfCheck`, `loadSegments`, `elfPlace`: the steps of `elf_load`
* `elfLoad`, `elfUnload`: the operations
-/

namespace WarkRune.Elf

open Bytes (Memory)
open Fat12 (Driver Path fat12Open fat12Size fat12Read fat12Close)
open WarkRune.Memory (Heap kmalloc kfree)

/-- The state that a load acts on. -/
structure Kernel where
  fat : Driver
  heap : Heap
  space : Space
  /-- `exec_ctx_depth`. -/
  execDepth : ℕ

namespace Kernel

/-- The driver as a part of the kernel. -/
def fatPart : StatePart Kernel Driver := ⟨Kernel.fat, fun t s => { s with fat := t }⟩

/-- The heap as a part of the kernel. -/
def heapPart : StatePart Kernel Heap := ⟨Kernel.heap, fun t s => { s with heap := t }⟩

/-- The bytes the kernel sees. -/
def mem (s : Kernel) : Memory := s.heap.mem

def setMem (m : Memory) (s : Kernel) : Kernel := { s with heap := { s.heap with mem := m } }

end Kernel

/-- `ElfLoadResult`. -/
structure ElfLoadResult where
  ok : Bool
  entry : BitVec 32
  base : BitVec 32
  size : BitVec 32
  error : String

/-- The result of a load that failed. -/
def failed (error : String) : ElfLoadResult := ⟨false, 0, 0, 0, error⟩

/-- `path_to_upper`: the first 255 bytes of the string in upper case. -/
def pathToUpper (path : Path) : Path := ((Fat12.cString path).take 255).map Fat12.upper

/-! ## Reading the file -/

/-- The start of `elf_load`: the file in a buffer, and its size. -/
def elfRead (path : Path) : Exec Kernel (String ⊕ (ℕ × BitVec 32)) := do
  let fd ← (fat12Open (pathToUpper path)).on Kernel.fatPart
  let fd ← (if fd < 0 then (fat12Open path).on Kernel.fatPart else pure fd)
  if fd < 0 then return .inl "file not found"
  else do
    let size ← (fat12Size fd).on Kernel.fatPart
    if size ≤ 0 then do
      (fat12Close fd).on Kernel.fatPart
      return .inl "empty file"
    else do
      let buf ← (kmalloc (.ofInt 32 size)).on Kernel.heapPart
      if buf = 0 then do
        (fat12Close fd).on Kernel.fatPart
        return .inl "out of memory"
      else do
        let r ← (fat12Read fd size.toNat).on Kernel.fatPart
        modify fun s => s.setMem (s.mem.storeBytes buf (r.2.map UInt8.toBitVec))
        (fat12Close fd).on Kernel.fatPart
        return .inr (buf, .ofInt 32 size)

/-! ## The headers -/

/-- A word of memory. -/
def word (m : Memory) (a : ℕ) : BitVec 32 := .ofNat 32 (m.load32 a)

/-- `elf_valid`. -/
def ElfValid (m : Memory) (data : ℕ) : Prop :=
  m.load8 data = 0x7F ∧ m.load8 (data + 1) = 0x45 ∧ m.load8 (data + 2) = 0x4C ∧
    m.load8 (data + 3) = 0x46

instance (m : Memory) (data : ℕ) : Decidable (ElfValid m data) := inferInstanceAs (Decidable (_ ∧ _))

/-! The fields of an `ElfHeader`. -/

def bits (m : Memory) (hdr : ℕ) : ℕ := m.load8 (hdr + 4)
def fileType (m : Memory) (hdr : ℕ) : ℕ := m.load16 (hdr + 16)
def machine (m : Memory) (hdr : ℕ) : ℕ := m.load16 (hdr + 18)
def entry (m : Memory) (hdr : ℕ) : BitVec 32 := word m (hdr + 24)
def phoff (m : Memory) (hdr : ℕ) : BitVec 32 := word m (hdr + 28)
def phnum (m : Memory) (hdr : ℕ) : ℕ := m.load16 (hdr + 44)

/-- `ELF_CLASS32`. -/
def elfClass32 : ℕ := 1

/-- `ELF_X86`. -/
def elfX86 : ℕ := 3

/-- `ELF_EXEC`. -/
def elfExecutable : ℕ := 2

/-- `PT_LOAD`. -/
def ptLoad : BitVec 32 := 1

/-- The fields of an `ElfProgramHeader` that are used. -/
structure ElfProgramHeader where
  type : BitVec 32
  offset : BitVec 32
  vaddr : BitVec 32
  filesz : BitVec 32
  memsz : BitVec 32

/-- The program header `phdrs[i]`. -/
def programHeader (m : Memory) (phdrs i : ℕ) : ElfProgramHeader :=
  let ph := phdrs + 32 * i
  ⟨word m ph, word m (ph + 4), word m (ph + 8), word m (ph + 16), word m (ph + 20)⟩

/-- The address of the program headers. -/
def phdrs (m : Memory) (buf : ℕ) : ℕ := buf + (phoff m buf).toNat

/-- A round of the loop that computes `load_base` and `load_end`. -/
def stretch (b : BitVec 32 × BitVec 32) (ph : ElfProgramHeader) : BitVec 32 × BitVec 32 :=
  if ph.type ≠ ptLoad then b
  else (if ph.vaddr < b.1 then ph.vaddr else b.1,
    if b.2 < ph.vaddr + ph.memsz then ph.vaddr + ph.memsz else b.2)

/-- `load_base` and `load_end`. -/
def loadBounds (m : Memory) (buf : ℕ) : BitVec 32 × BitVec 32 :=
  ((List.range (phnum m buf)).map (programHeader m (phdrs m buf))).foldl stretch (0xFFFFFFFF, 0)

/-- `total`, the bytes from `load_base` to `load_end`. -/
def loadTotal (m : Memory) (buf : ℕ) : BitVec 32 := (loadBounds m buf).2 - (loadBounds m buf).1

/-- The number of pages of an image. -/
def pagesOf (size : BitVec 32) : ℕ := ((size + 0xFFF) / 0x1000).toNat

/-- The checks of `elf_load` before it maps a page, and the error of the first that fails. -/
def elfCheck (m : Memory) (buf : ℕ) (size : BitVec 32) : Option String :=
  if ¬ ElfValid m buf then some "not an ELF file"
  else if bits m buf ≠ elfClass32 then some "not 32-bit ELF"
  else if machine m buf ≠ elfX86 then some "not x86 ELF"
  else if fileType m buf ≠ elfExecutable then some "not executable ELF"
  else if phoff m buf + .ofNat 32 (phnum m buf * 32) > size then
    some "program headers out of bounds"
  else if (loadBounds m buf).1 = 0xFFFFFFFF then some "no loadable segments"
  else none

/-! ## The segments -/

/-- The copy of `n` bytes from `src` to `dst`, in ascending order. -/
def copyBytes (dst src n : ℕ) (m : Memory) : Memory :=
  (List.range n).foldl (fun m b => m.store8 (dst + b) (m.load8 (src + b))) m

/-- The bytes of `dst` from number `b` to below number `n` cleared. -/
def clearBytes (dst b n : ℕ) (m : Memory) : Memory :=
  (List.range' b (n - b)).foldl (fun m b => m.store8 (dst + b) 0) m

/-- The bytes of a segment: those of the file, then zeros. -/
def placeSegment (buf : ℕ) (ph : ElfProgramHeader) (m : Memory) : Memory :=
  clearBytes ph.vaddr.toNat ph.filesz.toNat ph.memsz.toNat
    (copyBytes ph.vaddr.toNat (buf + ph.offset.toNat) ph.filesz.toNat m)

/-- The checks of a segment, and the error of the first that fails. -/
def segmentCheck (size : BitVec 32) (ph : ElfProgramHeader) : Option String :=
  if ph.offset + ph.filesz > size then some "segment exceeds file size"
  else if ph.memsz > 0xFFFFFFFF - ph.vaddr then some "segment vaddr overflow"
  else none

/-- The loop over the segments from `phdrs[i]` on, for at most `n` rounds: the error that ends it,
if any. The number of headers is read again in every round. -/
def loadSegments (buf phdrs : ℕ) (size : BitVec 32) : ℕ → ℕ → Memory → Option String × Memory
  | _, 0, m => (none, m)
  | i, n + 1, m =>
    if i ≥ phnum m buf then (none, m)
    else
      let ph := programHeader m phdrs i
      if ph.type ≠ ptLoad then loadSegments buf phdrs size (i + 1) n m
      else
        match segmentCheck size ph with
        | some error => (some error, m)
        | none => loadSegments buf phdrs size (i + 1) n (placeSegment buf ph m)

/-! ## The load -/

/-- An exit with an error once the file is in the buffer. -/
def reject (buf : ℕ) (error : String) : Exec Kernel ElfLoadResult := do
  (kfree buf).on Kernel.heapPart
  return failed error

/-- `elf_load` once the file is in the buffer. `phnum` has 16 bits, so `2 ^ 16` rounds are
enough. -/
def elfPlace (buf : ℕ) (size : BitVec 32) : Exec Kernel ElfLoadResult := do
  let s ← get
  match elfCheck s.mem buf size with
  | some error => reject buf error
  | none => do
    let base := (loadBounds s.mem buf).1
    let total := loadTotal s.mem buf
    let acquired := acquirePages base 0 (pagesOf total) s.space
    set { s with space := acquired.2 }
    match acquired.1 with
    | some p => do
      modify fun s => { s with space := releaseFrames base 0 p s.space }
      reject buf "pmm out of frames"
    | none => do
      let placed := loadSegments buf (phdrs s.mem buf) size 0 (2 ^ 16) s.mem
      modify fun s => s.setMem placed.2
      match placed.1 with
      | some error => do
        modify fun s => { s with space := releaseFrames base 0 (pagesOf total) s.space }
        reject buf error
      | none => do
        let s ← get
        let result : ElfLoadResult := ⟨true, entry s.mem buf, base, total, ""⟩
        (kfree buf).on Kernel.heapPart
        return result

/-- `elf_load`. -/
def elfLoad (path : Path) : Exec Kernel ElfLoadResult := do
  match ← elfRead path with
  | .inl error => return failed error
  | .inr (buf, size) => elfPlace buf size

/-- `elf_unload`. -/
def elfUnload (base size : BitVec 32) (s : Space) : Space := unmapPages base 0 (pagesOf size) s

end WarkRune.Elf

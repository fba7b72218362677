import WarkRune.Bytes.Memory
import WarkRune.Exec.Basic

/-!
# The kernel heap

`kmalloc` hands out blocks of a pool of 512 KB. A block is a header of sixteen bytes and the
payload behind it; the headers form a linked list from `heap_head`. `kmalloc` takes the first free
block that is large enough and splits it when the rest is worth a block, `kfree` marks a block free
and merges all neighbours in the list that are both free.

The headers are in memory, at the addresses the code computes: pointers and sizes are 32-bit
numbers, reduced modulo `2 ^ 32` where the C code can wrap.

## Main definitions

* `Heap`: the static variables of the heap and the memory
* `kmallocInit`, `kmalloc`, `kfree`, `krealloc`, `kmemInfo`: the operations
* `alignUp`: the rounding of `kmalloc`
* `heapPool`: where `kmalloc_init` places the pool
-/

namespace WarkRune.Memory

open Bytes (Memory)

/-- `KMALLOC_HEAP_SIZE`. -/
def kmallocHeapSize : ℕ := 128 * 4096

/-- `BLOCK_MAGIC`. -/
def blockMagic : ℕ := 0xDEADBEEF

/-- `sizeof(BlockHeader)`. -/
def headerSize : ℕ := 16

/-- The static variables of the heap, the base that `get_heap_base` returns and the memory. -/
structure Heap where
  mem : Memory
  heapBase : ℕ
  pool : ℕ
  head : ℕ
  ready : Bool

namespace Heap

variable (h : Heap) (b : ℕ)

/-! ## The fields of a `BlockHeader` -/

def magic : ℕ := h.mem.load32 b
def size : ℕ := h.mem.load32 (b + 4)
def free : ℕ := h.mem.load8 (b + 8)
def next : ℕ := h.mem.load32 (b + 12)

def setMagic (v : ℕ) : Heap := { h with mem := h.mem.store32 b v }
def setSize (v : ℕ) : Heap := { h with mem := h.mem.store32 (b + 4) v }
def setFree (v : ℕ) : Heap := { h with mem := h.mem.store8 (b + 8) v }
def setNext (v : ℕ) : Heap := { h with mem := h.mem.store32 (b + 12) v }

end Heap

/-! ## The operations -/

/-- The address of the pool, eight pages into the region of the heap: a 64-bit sum, then a 32-bit
pointer. -/
def heapPool (heapBase : ℕ) : ℕ :=
  ((if heapBase < 0x100000 then 0x100000 else heapBase) + 8 * 4096) % 2 ^ 64 % 2 ^ 32

/-- A round of the loop of `merge_free_blocks` at the block `cur`. -/
def mergeRound (cur : ℕ) : Exec Heap (ℕ ⊕ Unit) := do
  let h ← get
  if cur ≠ 0 ∧ h.next cur ≠ 0 then
    if h.free cur ≠ 0 ∧ h.free (h.next cur) ≠ 0 then do
      modify fun h => h.setSize cur ((h.size cur + (headerSize + h.size (h.next cur))) % 2 ^ 32)
      modify fun h => h.setNext cur (h.next (h.next cur))
      return .inl cur
    else return .inl (h.next cur)
  else return .inr ()

/-- `merge_free_blocks`. -/
def mergeFreeBlocks : Exec Heap Unit := do
  let h ← get
  Exec.loop mergeRound h.head

/-- `kmalloc_init`. -/
def kmallocInit : Exec Heap Unit := do
  modify fun h => { h with pool := heapPool h.heapBase, head := heapPool h.heapBase }
  modify fun h => h.setMagic h.head blockMagic
  modify fun h => h.setSize h.head (kmallocHeapSize - headerSize)
  modify fun h => h.setFree h.head 1
  modify fun h => h.setNext h.head 0
  modify fun h => { h with ready := true }

/-- `(size + 7) & ~7`. -/
def alignUp (size : ℕ) : ℕ := (size + 7) % 2 ^ 32 / 8 * 8

/-- `kmalloc` cuts the block `cur` behind `aligned` bytes of payload. -/
def kmallocSplit (aligned cur : ℕ) : Exec Heap Unit := do
  let split := (cur + headerSize + aligned) % 2 ^ 32
  modify fun h => h.setMagic split blockMagic
  modify fun h => h.setSize split ((h.size cur + 2 ^ 32 - aligned - headerSize) % 2 ^ 32)
  modify fun h => h.setFree split 1
  modify fun h => h.setNext split (h.next cur)
  modify fun h => h.setSize cur aligned
  modify fun h => h.setNext cur split

/-- A round of the loop of `kmalloc` at the block `cur`. -/
def kmallocRound (aligned cur : ℕ) : Exec Heap (ℕ ⊕ ℕ) := do
  let h ← get
  if cur = 0 then return .inr 0
  else if h.free cur ≠ 0 ∧ h.size cur ≥ aligned then do
    (if h.size cur ≥ (aligned + headerSize + 8) % 2 ^ 32 then kmallocSplit aligned cur
      else pure ())
    modify fun h => h.setFree cur 0
    return .inr ((cur + headerSize) % 2 ^ 32)
  else return .inl (h.next cur)

/-- `kmalloc`; null is 0. -/
def kmalloc (size : BitVec 32) : Exec Heap ℕ := do
  let h ← get
  (if h.ready then pure () else kmallocInit)
  if size = 0 then return 0
  else do
    let h ← get
    Exec.loop (kmallocRound (alignUp size.toNat)) h.head

/-- `kfree`. -/
def kfree (ptr : ℕ) : Exec Heap Unit := do
  let h ← get
  let hdr := (ptr + 2 ^ 32 - headerSize) % 2 ^ 32
  if ptr = 0 then return ()
  else if h.magic hdr ≠ blockMagic then return ()
  else do
    modify fun h => h.setFree hdr 1
    mergeFreeBlocks

/-- A round of the copy of `krealloc`: the byte `i`. -/
def copyByte (dst src i : ℕ) : Exec Heap Unit :=
  modify fun h => { h with mem := h.mem.store8 (dst + i) (h.mem.load8 (src + i)) }

/-- `krealloc`; null is 0. -/
def krealloc (ptr : ℕ) (newSize : BitVec 32) : Exec Heap ℕ := do
  if ptr = 0 then kmalloc newSize
  else if newSize = 0 then do
    kfree ptr
    return 0
  else do
    let h ← get
    let hdr := (ptr + 2 ^ 32 - headerSize) % 2 ^ 32
    if h.magic hdr ≠ blockMagic then return 0
    else if h.size hdr ≥ newSize.toNat then return ptr
    else do
      let fresh ← kmalloc newSize
      if fresh = 0 then return 0
      else do
        let h ← get
        Exec.forRange (copyByte fresh ptr) 0 (h.size hdr)
        kfree ptr
        return fresh

/-- A round of the loop of `kmem_info`: the used and the free bytes so far, and the block. -/
def kmemInfoRound : (ℕ × ℕ) × ℕ → Exec Heap (((ℕ × ℕ) × ℕ) ⊕ (ℕ × ℕ))
  | ((used, freeBytes), cur) => do
    let h ← get
    if cur = 0 then return .inr (used, freeBytes)
    else if h.free cur ≠ 0 then
      return .inl ((used, (freeBytes + h.size cur) % 2 ^ 32), h.next cur)
    else return .inl (((used + h.size cur) % 2 ^ 32, freeBytes), h.next cur)

/-- `kmem_info`: the used and the free bytes. -/
def kmemInfo : Exec Heap (ℕ × ℕ) := do
  let h ← get
  Exec.loop kmemInfoRound ((0, 0), h.head)

end WarkRune.Memory

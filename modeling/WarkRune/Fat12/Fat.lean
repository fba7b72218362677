import WarkRune.Fat12.Disk

/-!
# Cluster geometry and the file allocation table

A FAT12 table packs two 12-bit entries in three bytes. `fat_get` reads an entry of the first
copy; `fat_set` patches the first copy and, when the volume has more than one, the second.

## Main definitions

* `clusterLba`, `zeroCluster`, `clusterSize`: the cluster geometry helpers
* `fatGet`, `fatSet`, `fatAlloc`, `fatFreeChain`: the chain helpers
-/

namespace WarkRune.Fat12

/-- `FAT12_FREE`. -/
def fat12Free : ℕ := 0x000

/-- `FAT12_EOC`: `0xFF8` to `0xFFF` end a chain. -/
def fat12Eoc : ℕ := 0xFF8

/-- `FAT12_BAD`. -/
def fat12Bad : ℕ := 0xFF7

/-! ## Cluster geometry -/

/-- `cluster_lba`: `cluster - 2` is computed in `int` and converted to `uint32_t`. -/
def Geometry.clusterLba (g : Geometry) (cluster : ℕ) : ℕ :=
  (g.dataLba + (cluster + 2 ^ 32 - 2) % 2 ^ 32 * g.secPerClus) % 2 ^ 32

def Geometry.clusterSize (g : Geometry) : ℕ := g.secPerClus * 512

/-- `zero_cluster`: the buffer is zeroed once and written to every sector of the cluster. -/
def zeroCluster (cluster : ℕ) : Fat Unit := do
  setBuf fun _ => 0
  record .clear
  let g ← geometry
  let clba := g.clusterLba cluster
  Exec.forRange (fun s => do let _ ← ataWrite ((clba + s) % 2 ^ 32)) 0 g.secPerClus

/-! ## Entries -/

/-- The 12-bit entry of `cluster` in its two bytes. -/
def unpack (cluster : ℕ) (b0 b1 : UInt8) : ℕ :=
  if cluster % 2 = 1 then (b0.toNat >>> 4) ||| (b1.toNat <<< 4)
  else b0.toNat ||| ((b1.toNat &&& 0x0F) <<< 8)

/-- The first byte of the entry of `cluster` once it holds `val`. -/
def packLo (cluster val : ℕ) (b0 : UInt8) : UInt8 :=
  if cluster % 2 = 1 then (b0 &&& (0x0F : UInt8)) ||| UInt8.ofNat (val <<< 4)
  else UInt8.ofNat (val &&& 0xFF)

/-- The second byte of the entry of `cluster` once it holds `val`. -/
def packHi (cluster val : ℕ) (b1 : UInt8) : UInt8 :=
  if cluster % 2 = 1 then UInt8.ofNat (val >>> 4)
  else (b1 &&& (0xF0 : UInt8)) ||| UInt8.ofNat ((val >>> 8) &&& 0x0F)

/-- `fat_get`: read a 12-bit entry of the first copy. -/
def fatGet (cluster : ℕ) : Fat ℕ := do
  let g ← geometry
  let byteOff := cluster * 3 / 2
  let secOff := byteOff / 512
  let inSec := byteOff % 512
  let b ← readBuf (g.fatLba + secOff)
  if inSec = 511 then
    -- the entry straddles two sectors
    let b' ← readBuf (g.fatLba + secOff + 1)
    return unpack cluster (b 511) (b' 0)
  else return unpack cluster (b inSec) (b (inSec + 1))

/-- The lambda `write_fat` of `fat_set`: patch one copy. -/
def writeFat (cluster val fatBase : ℕ) : Fat Unit := do
  let byteOff := cluster * 3 / 2
  let secOff := byteOff / 512
  let inSec := byteOff % 512
  if inSec = 511 then
    let lo := (← keepBuf (fatBase + secOff)) 511
    let hi := (← keepBuf (fatBase + secOff + 1)) 0
    modifySector (fatBase + secOff) fun b => Function.update b 511 (packLo cluster val lo)
    modifySector (fatBase + secOff + 1) fun b => Function.update b 0 (packHi cluster val hi)
  else
    modifySector (fatBase + secOff) fun b =>
      Function.update (Function.update b inSec (packLo cluster val (b inSec)))
        (inSec + 1) (packHi cluster val (b (inSec + 1)))

/-- `fat_set`: write an entry of the first copy, and of the second when there is one. -/
def fatSet (cluster val : ℕ) : Fat Unit := do
  let g ← geometry
  writeFat cluster val g.fatLba
  if g.numFats > 1 then
    writeFat cluster val (g.fatLba + g.fatSize)

/-! ## Chains -/

/-- A round of `fat_alloc`. -/
def allocRound (i : ℕ) : Fat (Option ℕ) := do
  if (← fatGet i) = fat12Free then
    fatSet i fat12Eoc
    return some i
  else return none

/-- `fat_alloc`: mark the first free cluster as an end of chain and return it, 0 when the disk
is full. At most 4085 clusters are accepted, so the `uint16_t` counter does not wrap. -/
def fatAlloc : Fat ℕ := do
  let g ← geometry
  let found ← Exec.forUntil allocRound 2 g.totalClusters
  return found.getD 0

/-- A round of `fat_free_chain`. -/
def freeRound (cluster : ℕ) : Fat (ℕ ⊕ Unit) := do
  if 2 ≤ cluster ∧ cluster < fat12Bad then
    let next ← fatGet cluster
    fatSet cluster fat12Free
    if next ≥ fat12Eoc then return .inr ()
    else return .inl next
  else return .inr ()

/-- `fat_free_chain`: free the clusters of a chain, following each link before it is lost. -/
def fatFreeChain (cluster : ℕ) : Fat Unit := Exec.loop freeRound cluster

end WarkRune.Fat12

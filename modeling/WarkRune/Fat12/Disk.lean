import WarkRune.Exec.Computes

/-!
# The driver's state and its sector transfers

The FAT12 driver keeps the geometry `fat12_init` computed, sixteen file descriptors and one
512-byte sector buffer `g_buf`, and reaches the disk through `ata_read` and `ata_write`, one
sector at a time. Whether a transfer succeeds is decided by `ata_wait`, whose outcomes are a
sequence the driver state carries. Every transfer and every use of the buffer is logged.

## Main definitions

* `Geometry`, `FD`, `Volume`: the driver's globals, and the disk they describe
* `Driver`: a volume with the sector buffer, the outcomes of `ata_wait` and the log
* `ataRead`, `ataWrite`, `readSector`, `writeSector`: the transfers
* `readBuf`, `keepBuf`, `modifySector`: the ways the driver uses its buffer
-/

namespace WarkRune.Fat12

/-- The bytes of a sector; the driver uses the first 512. -/
abbrev Sector := ℕ → UInt8

/-- The sectors of a disk, by their 28-bit address. -/
abbrev Disk := ℕ → Sector

/-- The geometry globals of the driver. -/
structure Geometry where
  partLba : ℕ
  fatLba : ℕ
  rootLba : ℕ
  dataLba : ℕ
  rootEntries : ℕ
  secPerClus : ℕ
  reservedSec : ℕ
  numFats : ℕ
  fatSize : ℕ
  totalClusters : ℕ
  deriving DecidableEq

/-- A file descriptor. -/
structure FD where
  used : Bool
  firstCluster : ℕ
  size : ℕ
  pos : ℕ
  /-- Cluster of the parent directory, 0 for the root. -/
  parentCluster : ℕ
  /-- Absolute entry index in the parent directory. -/
  dirIdx : ℕ
  deriving DecidableEq

/-- The size of the descriptor table, `FAT12_MAX_FDS`. -/
def maxFds : ℕ := 16

/-- What the driver's operations act on: its geometry, the disk and the descriptor table. -/
structure Volume where
  geo : Geometry
  disk : Disk
  fds : ℕ → FD

/-- A transfer, or a use of the sector buffer. -/
inductive Access
  /-- `ata_read` into the buffer, and whether it succeeded. -/
  | read (lba : ℕ) (ok : Bool)
  /-- `ata_write` from the buffer. -/
  | write (lba : ℕ)
  /-- The buffer is filled with zeros. -/
  | clear
  /-- Bytes of the buffer are used. -/
  | peek
  /-- A byte of the buffer is kept for sectors that are written back. -/
  | keep
  /-- A read-modify-write of a sector begins. -/
  | modify (lba : ℕ)
  deriving DecidableEq

/-- The state of the driver. -/
structure Driver where
  vol : Volume
  buf : Sector
  /-- The outcome of the `n`-th `ata_wait`. -/
  wait : ℕ → Bool
  /-- The number of `ata_wait` calls so far. -/
  waits : ℕ
  /-- The accesses so far, the latest first. -/
  log : List Access

/-- A program of the driver. -/
abbrev Fat (α : Type) := Exec Driver α

/-- Every `ata_wait` from now on succeeds. -/
def Driver.Working (s : Driver) : Prop := ∀ n, s.waits ≤ n → s.wait n = true

def geometry : Fat Geometry := do return (← get).vol.geo

def record (e : Access) : Fat Unit := modify fun s => { s with log := e :: s.log }

/-- The bytes of `g_buf`. -/
def gBuf : Fat Sector := do
  record .peek
  return (← get).buf

def setBuf (b : Sector) : Fat Unit := modify fun s => { s with buf := b }

/-! ## Transfers -/

def ataWait : Fat Bool := do
  let s ← get
  set { s with waits := s.waits + 1 }
  return s.wait s.waits

/-- `ata_read` of one sector. The controller takes the low 28 bits of the address. -/
def ataRead (lba : ℕ) : Fat Bool := do
  if ← ataWait then
    modify fun s => { s with buf := s.vol.disk (lba % 2 ^ 28) }
    record (.read lba true)
    return true
  else
    record (.read lba false)
    return false

/-- The volume with one sector stored. -/
def Volume.put (V : Volume) (lba : ℕ) (b : Sector) : Volume :=
  { V with disk := Function.update V.disk (lba % 2 ^ 28) b }

/-- `ata_write` of one sector: the data, the status after it, and the cache flush. -/
def ataWrite (lba : ℕ) : Fat Bool := do
  record (.write lba)
  if ← ataWait then
    modify fun s => { s with vol := s.vol.put lba s.buf }
    if ← ataWait then
      ataWait
    else return false
  else return false

/-- `read_sector`; its argument is a `uint32_t`. -/
def readSector (lba : ℕ) : Fat Bool := ataRead (lba % 2 ^ 32)

/-- `write_sector`; its argument is a `uint32_t`. -/
def writeSector (lba : ℕ) : Fat Bool := ataWrite (lba % 2 ^ 32)

/-- `read_sector` and then a use of `g_buf`, whatever the read returned. -/
def readBuf (lba : ℕ) : Fat Sector := do
  let _ ← readSector lba
  gBuf

/-- `read_sector` and then a look at a byte of `g_buf` that goes into sectors written back, whatever
the read returned. -/
def keepBuf (lba : ℕ) : Fat Sector := do
  let _ ← readSector lba
  record .keep
  return (← get).buf

/-- `read_sector`, a change of `g_buf` and `write_sector`, whatever the transfers return. -/
def modifySector (lba : ℕ) (f : Sector → Sector) : Fat Unit := do
  record (.modify lba)
  let b ← readBuf lba
  setBuf (f b)
  let _ ← writeSector lba

end WarkRune.Fat12

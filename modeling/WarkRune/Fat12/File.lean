import WarkRune.Fat12.Directory

/-!
# The public operations of the driver

## Main definitions

* `fat12Init`: accept a volume
* `fat12Open`, `fat12Create`, `fat12Read`, `fat12Write`, `fat12Flush`, `fat12Close`, `fat12Size`:
  the file operations
* `fat12Delete`, `fat12Rename`, `fat12Mkdir`, `fat12Rmdir`, `fat12Ls`: the name operations
-/

namespace WarkRune.Fat12

/-- The value of an `int` converted from `n`. -/
def asInt (n : ℕ) : ℤ := if n < 2 ^ 31 then n else n - 2 ^ 32

/-! ## Descriptors -/

def Volume.setFd (V : Volume) (fd : ℕ) (f : FD) : Volume :=
  { V with fds := Function.update V.fds fd f }

@[simp] theorem Volume.setFd_geo (V : Volume) (fd : ℕ) (f : FD) : (V.setFd fd f).geo = V.geo := rfl

@[simp] theorem Volume.setFd_disk (V : Volume) (fd : ℕ) (f : FD) :
    (V.setFd fd f).disk = V.disk := rfl

@[simp] theorem Volume.setFd_fds (V : Volume) (fd : ℕ) (f : FD) :
    (V.setFd fd f).fds = Function.update V.fds fd f := rfl

/-- `fd_is_valid`. -/
def Volume.FdValid (V : Volume) (fd : ℤ) : Prop :=
  0 ≤ fd ∧ fd < maxFds ∧ (V.fds fd.toNat).used = true

instance (V : Volume) (fd : ℤ) : Decidable (V.FdValid fd) := inferInstanceAs (Decidable (_ ∧ _))

def volume : Fat Volume := do return (← get).vol

def setFd (fd : ℕ) (f : FD) : Fat Unit := modify fun s => { s with vol := s.vol.setFd fd f }

/-- The first unused descriptor. -/
def Volume.freeFd (V : Volume) : Option ℕ :=
  (List.range maxFds).find? fun fd => !(V.fds fd).used

/-- `fd_alloc`: the first unused descriptor, -1 when there is none. -/
def fdAlloc (firstCluster size parentCluster dirIdx : ℕ) : Fat ℤ := do
  let V ← volume
  match V.freeFd with
  | some fd =>
    setFd fd
      { used := true, firstCluster, size, pos := 0, parentCluster, dirIdx }
    return fd
  | none => return -1

/-! ## Init -/

/-- A little-endian 16-bit field of a sector. -/
def le16 (b : Sector) (i : ℕ) : ℕ := (b i).toNat + (b (i + 1)).toNat * 256

/-- A little-endian 32-bit field of a sector. -/
def le32 (b : Sector) (i : ℕ) : ℕ := le16 b i + le16 b (i + 2) * 65536

/-- The sector carries a boot signature and a usable BPB. -/
def HasBpb (b : Sector) : Prop :=
  b 510 = 0x55 ∧ b 511 = 0xAA ∧ le16 b 11 = 512 ∧ (b 13).toNat > 0 ∧ le16 b 14 > 0 ∧ le16 b 22 > 0

instance (b : Sector) : Decidable (HasBpb b) := inferInstanceAs (Decidable (_ ∧ _))

/-- The geometry `fat12_init` computes before its checks, from the boot sector or hard-coded;
`old` is the geometry before the call. -/
def bootGeometry (b : Sector) (lbaStart : ℕ) (old : Geometry) : Geometry :=
  let secPerClus := if HasBpb b then (b 13).toNat else 16
  let reservedSec := if HasBpb b then le16 b 14 else 16
  let numFats := if HasBpb b then (b 16).toNat else 2
  let rootEntries := if HasBpb b then le16 b 17 else 512
  let fatSize := if HasBpb b then le16 b 22 else 16
  let fatLba := (lbaStart + reservedSec) % 2 ^ 32
  let rootLba := (fatLba + numFats * fatSize) % 2 ^ 32
  { partLba := lbaStart, fatLba, rootLba, secPerClus, reservedSec, numFats, rootEntries, fatSize,
    dataLba := (rootLba + (rootEntries * 32 + 511) / 512) % 2 ^ 32,
    totalClusters := old.totalClusters }

/-- `total_sectors` of `fat12_init`. -/
def totalSectors (b : Sector) : ℕ :=
  if HasBpb b then (if le16 b 19 ≠ 0 then le16 b 19 else le32 b 32) else 32768

/-- `g_data_lba - lba_start` of `fat12_init`, in `uint32_t`. -/
def Geometry.dataOffset (g : Geometry) : ℕ := (g.dataLba + 2 ^ 32 - g.partLba) % 2 ^ 32

def setGeometry (g : Geometry) : Fat Unit :=
  modify fun s => { s with vol := { s.vol with geo := g } }

/-- `fat12_init`. -/
def fat12Init (lbaStart : ℕ) : Fat Bool := do
  let old ← geometry
  setGeometry { old with partLba := lbaStart }
  if !(← readSector lbaStart) then return false
  let b ← gBuf
  let g := bootGeometry b lbaStart old
  setGeometry g
  if totalSectors b ≤ g.dataOffset then return false
  let totalClusters := (totalSectors b - g.dataOffset) / g.secPerClus
  setGeometry { g with totalClusters }
  if totalClusters = 0 then return false
  if totalClusters > 4085 then return false
  modify fun s => { s with vol := { s.vol with
    fds := fun fd => if fd < maxFds then { s.vol.fds fd with used := false } else s.vol.fds fd } }
  return true

/-! ## Open and create -/

/-- `fat12_open`. -/
def fat12Open (path : Path) : Fat ℤ := do
  match ← resolvePath path with
  | none => return -1
  | some (dir, target) =>
    if target 0 = 0 then return -1
    match ← findInDir dir target with
    | none => return -1
    | some (idx, e) =>
      if e.IsDir then return -1
      fdAlloc e.firstCluster e.fileSize dir idx

/-- The entry `fat12_create` and `fat12_mkdir` write. -/
def newEntry (target : Name) (attr : UInt8) (firstCluster : ℕ) : DirEntry :=
  (((DirEntry.zero.setName target).setAttr attr).setFirstCluster firstCluster).setFileSize 0

/-- `fat12_create`. -/
def fat12Create (path : Path) : Fat ℤ := do
  match ← resolvePath path with
  | none => return -1
  | some (dir, target) =>
    if target 0 = 0 then return -1
    match ← findInDir dir target with
    | some _ => return -1
    | none =>
      match ← allocDirEntry dir with
      | none => return -1
      | some idx =>
        if ← dirWriteEntry dir idx (newEntry target attrArch 0) then
          fdAlloc 0 0 dir idx
        else return -1

/-! ## Read -/

/-- The inner loop of `fat12_read`: the sectors of one cluster, from sector `s` on, into the
bytes read so far. It returns `off_in_clus` and the bytes. -/
def readCluster (clba size : ℕ) : ℕ → ℕ → ℕ → List UInt8 → Fat (ℕ × List UInt8)
  | _, 0, off, out => return (off, out)
  | s, n + 1, off, out => do
    if out.length < size then
      if off ≥ 512 then readCluster clba size (s + 1) n (off - 512) out
      else
        let b ← readBuf (clba + s)
        let take := min (size - out.length) (512 - off)
        readCluster clba size (s + 1) n 0 (out ++ (List.range take).map fun i => b (off + i))
    else return (off, out)

/-- A round of the outer loop of `fat12_read`: one cluster. -/
def readRound (size : ℕ) : ℕ × ℕ × List UInt8 → Fat (ℕ × ℕ × List UInt8 ⊕ List UInt8)
  | (clus, off, out) => do
    if out.length < size ∧ 2 ≤ clus ∧ clus < fat12Eoc then
      let g ← geometry
      let (off, out) ← readCluster (g.clusterLba clus) size 0 g.secPerClus off out
      if out.length < size then
        let next ← fatGet clus
        if next ≥ fat12Eoc then return .inr out
        return .inl (next, off, out)
      return .inl (clus, off, out)
    else return .inr out

/-- The outer loop of `fat12_read`, from a cluster and an offset in it. -/
def readLoop (size clus off : ℕ) : Fat (List UInt8) :=
  Exec.loop (readRound size) (clus, off, [])

/-- `fat12_read`: the result and the bytes stored into the caller's buffer. -/
def fat12Read (fd : ℤ) (size : ℕ) : Fat (ℤ × List UInt8) := do
  let V ← volume
  if V.FdValid fd then
    let f := V.fds fd.toNat
    if f.pos ≥ f.size then return (0, [])
    let size := min size (f.size - f.pos)
    if size = 0 ∨ f.firstCluster = 0 then return (0, [])
    let csz := V.geo.clusterSize
    match ← walkChain (f.pos / csz) f.firstCluster with
    | none => return (0, [])
    | some clus =>
      let out ← readLoop size clus (f.pos % csz)
      setFd fd.toNat { f with pos := (f.pos + out.length) % 2 ^ 32 }
      return (asInt out.length, out)
  else return (-1, [])

/-! ## Write -/

/-- The sector with `bytes` stored from `start` on. -/
def patch (b : Sector) (start : ℕ) (bytes : List UInt8) : Sector := fun j =>
  if start ≤ j then bytes.getD (j - start) (b j) else b j

/-- The inner loop of `fat12_write`: the sectors of one cluster, from sector `s` on. It returns
`off_in_clus` and the bytes not yet written. -/
def writeCluster (clba : ℕ) : ℕ → ℕ → ℕ → List UInt8 → Fat (ℕ × List UInt8)
  | _, 0, off, src => return (off, src)
  | s, n + 1, off, src => do
    if src = [] then return (off, src)
    else if off ≥ 512 then writeCluster clba (s + 1) n (off - 512) src
    else
      let take := min src.length (512 - off)
      modifySector (clba + s) fun b => patch b off (src.take take)
      writeCluster clba (s + 1) n 0 (src.drop take)

/-- Allocate a cluster, link it after `clus` and zero it; 0 when the disk is full. -/
def appendCluster (clus : ℕ) : Fat ℕ := do
  let next ← fatAlloc
  if next = 0 then return 0
  fatSet clus next
  zeroCluster next
  return next

/-- The walk of `fat12_write` to the cluster of the position, extending the chain as needed;
`none` is the early return. -/
def walkExtend : ℕ → ℕ → Fat (Option ℕ)
  | 0, clus => return some clus
  | skip + 1, clus => do
    let next ← fatGet clus
    let next ← if next ≥ fat12Eoc then appendCluster clus else pure next
    if next = 0 ∨ next ≥ fat12Eoc then return none
    walkExtend skip next

/-- A round of the outer loop of `fat12_write`: one cluster, and the link to the next. -/
def writeRound : ℕ × ℕ × List UInt8 → Fat (ℕ × ℕ × List UInt8 ⊕ List UInt8)
  | (clus, off, src) => do
    if src ≠ [] ∧ ¬ (clus < 2 ∨ clus ≥ fat12Eoc) then
      let g ← geometry
      let (off, src) ← writeCluster (g.clusterLba clus) 0 g.secPerClus off src
      if src ≠ [] then
        let next ← fatGet clus
        if next ≥ fat12Eoc then
          let next ← appendCluster clus
          if next = 0 then return .inr src
          return .inl (next, off, src)
        return .inl (next, off, src)
      return .inl (clus, off, src)
    else return .inr src

/-- The outer loop of `fat12_write`: the bytes that were not written. -/
def writeLoop (clus off : ℕ) (src : List UInt8) : Fat (List UInt8) :=
  Exec.loop writeRound (clus, off, src)

/-- `fat12_write` once the descriptor `f` has a first cluster: the walk to its position, the
loop, and the new position and size. -/
def writeFrom (csz fd : ℕ) (f : FD) (src : List UInt8) : Fat ℤ := do
  match ← walkExtend (f.pos / csz) f.firstCluster with
  | none => return 0
  | some clus =>
    let rest ← writeLoop clus (f.pos % csz) src
    let done := src.length - rest.length
    let pos := (f.pos + done) % 2 ^ 32
    setFd fd { f with pos, size := if pos > f.size then pos else f.size }
    return asInt done

/-- `fat12_write` of the bytes `src`. -/
def fat12Write (fd : ℤ) (src : List UInt8) : Fat ℤ := do
  let V ← volume
  if V.FdValid fd then
    if src = [] then return 0
    let f := V.fds fd.toNat
    if f.firstCluster = 0 then
      let newClus ← fatAlloc
      if newClus = 0 then return -1
      let f := { f with firstCluster := newClus }
      setFd fd.toNat f
      zeroCluster newClus
      writeFrom V.geo.clusterSize fd.toNat f src
    else writeFrom V.geo.clusterSize fd.toNat f src
  else return -1

/-! ## Flush, close and size -/

/-- `fat12_flush`: write the size and first cluster back to the directory entry. -/
def fat12Flush (fd : ℤ) : Fat Unit := do
  let V ← volume
  if V.FdValid fd then
    let f := V.fds fd.toNat
    match ← dirReadEntry f.parentCluster f.dirIdx with
    | none => return ()
    | some e =>
      let _ ← dirWriteEntry f.parentCluster f.dirIdx
        ((e.setFileSize f.size).setFirstCluster f.firstCluster)

/-- `fat12_close`. -/
def fat12Close (fd : ℤ) : Fat Unit := do
  if fd < 0 ∨ fd ≥ maxFds then return ()
  fat12Flush fd
  let V ← volume
  setFd fd.toNat { V.fds fd.toNat with used := false }

/-- `fat12_size`. -/
def fat12Size (fd : ℤ) : Fat ℤ := do
  let V ← volume
  if V.FdValid fd then return asInt (V.fds fd.toNat).size else return -1

/-! ## Delete, rename, mkdir and rmdir -/

/-- `fat12_delete`. -/
def fat12Delete (path : Path) : Fat Bool := do
  match ← resolvePath path with
  | none => return false
  | some (dir, target) =>
    if target 0 = 0 then return false
    match ← findInDir dir target with
    | none => return false
    | some (idx, e) =>
      if e.IsDir then return false
      if e.firstCluster ≥ 2 then fatFreeChain e.firstCluster
      let _ ← dirWriteEntry dir idx (e.setFirst dirFree)
      return true

/-- `fat12_rename`: the name is checked in the new directory and written in the old one. -/
def fat12Rename (oldPath newPath : Path) : Fat Bool := do
  match ← resolvePath oldPath with
  | none => return false
  | some (oldDir, old83) =>
    if old83 0 = 0 then return false
    match ← findInDir oldDir old83 with
    | none => return false
    | some (idx, e) =>
      match ← resolvePath newPath with
      | none => return false
      | some (newDir, new83) =>
        if new83 0 = 0 then return false
        match ← findInDir newDir new83 with
        | some _ => return false
        | none =>
          let _ ← dirWriteEntry oldDir idx (e.setName new83)
          return true

/-- `fat12_mkdir`. -/
def fat12Mkdir (path : Path) : Fat Bool := do
  match ← resolvePath path with
  | none => return false
  | some (dir, target) =>
    if target 0 = 0 then return false
    match ← findInDir dir target with
    | some _ => return false
    | none =>
      let newClus ← fatAlloc
      if newClus = 0 then return false
      zeroCluster newClus
      match ← allocDirEntry dir with
      | none =>
        fatSet newClus fat12Free
        return false
      | some idx => dirWriteEntry dir idx (newEntry target attrDir newClus)

/-- A round of the emptiness check of `fat12_rmdir`. -/
def emptyRound (dir i : ℕ) : Fat (Option Bool) := do
  match ← dirReadEntry dir i with
  | none => return some true
  | some child =>
    if child.name 0 = dirEnd then return some true
    if child.name 0 = dirFree then return none
    if child.Masked then return none
    if child.IsDot then return none
    return some false

/-- The emptiness check of `fat12_rmdir`: entries with an `ATTR_LFN` bit and dot entries do not
count. -/
def dirEmpty (dir : ℕ) : Fat Bool := do
  let g ← geometry
  let found ← Exec.forUntil (emptyRound dir) 0 (g.maxEnts dir)
  return found.getD true

/-- `fat12_rmdir`. -/
def fat12Rmdir (path : Path) : Fat Bool := do
  match ← resolvePath path with
  | none => return false
  | some (dir, target) =>
    if target 0 = 0 then return false
    match ← findInDir dir target with
    | none => return false
    | some (idx, e) =>
      if ¬ e.IsDir then return false
      if !(← dirEmpty e.firstCluster) then return false
      if e.firstCluster ≥ 2 then fatFreeChain e.firstCluster
      dirWriteEntry dir idx (e.setFirst dirFree)

/-! ## Ls -/

/-- A call of the callback of `fat12_ls`: the display name, the size and the directory flag. -/
abbrev Listed := Path × ℕ × Bool

/-- The loop of `fat12_ls` over the entries from `i` on. -/
def listDir (dir : ℕ) : ℕ → ℕ → Fat (List Listed)
  | _, 0 => return []
  | i, n + 1 => do
    match ← dirReadEntry dir i with
    | none => return []
    | some e =>
      if e.name 0 = dirEnd then return []
      if e.name 0 = dirFree ∨ e.Masked ∨ e.IsDot then listDir dir (i + 1) n
      else
        let rest ← listDir dir (i + 1) n
        return (from83 e.name, e.fileSize, decide e.IsDir) :: rest

/-- The start of `fat12_ls`: the directory a path names, `none` when it names none. The index
`find_in_dir` returns is tested as a truth value: slot 0 counts as not found, and -1 does not,
leaving the entry uninitialised (`stack`). -/
def lsDir (stack : DirEntry) (path : Path) : Fat (Option ℕ) := do
  let c := cString path
  if c = [] ∨ c = [slash] then return some 0
  match ← resolvePath path with
  | none => return none
  | some (dc, fn) =>
    if fn 0 = 0 then return some dc
    match ← findInDir dc fn with
    | some (0, _) => return none
    | some (_, e) => return if e.IsDir then some e.firstCluster else none
    | none => return if stack.IsDir then some stack.firstCluster else none

/-- `fat12_ls`: the calls of the callback, `none` when it returns false. -/
def fat12Ls (stack : DirEntry) (path : Path) : Fat (Option (List Listed)) := do
  match ← lsDir stack path with
  | none => return none
  | some dir =>
    let g ← geometry
    return some (← listDir dir 0 (g.maxEnts dir))

end WarkRune.Fat12

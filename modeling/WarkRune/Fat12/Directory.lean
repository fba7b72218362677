import WarkRune.Fat12.Fat
import WarkRune.Fat12.Name

/-!
# Directory entries, path resolution and directory search

A directory is an array of 32-byte entries: the root lies at a fixed sector range, a
subdirectory in the clusters of its chain. A path is resolved one component at a time from the
root; every directory search stops at the first end marker.

## Main definitions

* `DirEntry`: a directory entry and its fields
* `dirReadEntry`, `dirWriteEntry`: the entries of a directory by index
* `resolvePath`, `findInDir`, `allocDirEntry`: path resolution, search and slot allocation
-/

namespace WarkRune.Fat12

/-! ## Entries -/

/-- The 32 bytes of a directory entry. -/
abbrev DirEntry := Fin 32 → UInt8

namespace DirEntry

/-- The name and extension. -/
def name (e : DirEntry) : Name := fun i => e ⟨i, by omega⟩

def attr (e : DirEntry) : UInt8 := e 11

def firstCluster (e : DirEntry) : ℕ := (e 26).toNat + (e 27).toNat * 256

def fileSize (e : DirEntry) : ℕ :=
  (e 28).toNat + (e 29).toNat * 256 + (e 30).toNat * 65536 + (e 31).toNat * 16777216

def setName (e : DirEntry) (n : Name) : DirEntry :=
  fun i => if h : i.val < 11 then n ⟨i, h⟩ else e i

/-- Overwrite the first byte of the name. -/
def setFirst (e : DirEntry) (c : UInt8) : DirEntry := Function.update e 0 c

def setAttr (e : DirEntry) (a : UInt8) : DirEntry := Function.update e 11 a

def setFirstCluster (e : DirEntry) (c : ℕ) : DirEntry :=
  Function.update (Function.update e 26 (UInt8.ofNat c)) 27 (UInt8.ofNat (c / 256))

def setFileSize (e : DirEntry) (n : ℕ) : DirEntry :=
  Function.update (Function.update (Function.update (Function.update e
    28 (UInt8.ofNat n)) 29 (UInt8.ofNat (n / 256))) 30 (UInt8.ofNat (n / 65536)))
    31 (UInt8.ofNat (n / 16777216))

/-- `DirEntry e = {}`. -/
def zero : DirEntry := fun _ => 0

/-- `e.attr & ATTR_LFN`: some of the read-only, hidden, system and volume-label bits is set. -/
def Masked (e : DirEntry) : Prop := e.attr &&& 0x0F ≠ 0

/-- `e.attr & ATTR_DIR`. -/
def IsDir (e : DirEntry) : Prop := e.attr &&& 0x10 ≠ 0

/-- The dot entries `.` and `..`. -/
def IsDot (e : DirEntry) : Prop :=
  e.name 0 = dot ∧ (e.name 1 = space ∨ e.name 1 = dot ∧ e.name 2 = space)

instance (e : DirEntry) : Decidable e.Masked := inferInstanceAs (Decidable (_ ≠ _))

instance (e : DirEntry) : Decidable e.IsDir := inferInstanceAs (Decidable (_ ≠ _))

instance (e : DirEntry) : Decidable e.IsDot := inferInstanceAs (Decidable (_ ∧ _))

end DirEntry

/-- `ATTR_DIR`. -/
def attrDir : UInt8 := 0x10

/-- `ATTR_ARCH`. -/
def attrArch : UInt8 := 0x20

/-- `DIR_END`: no more entries. -/
def dirEnd : UInt8 := 0x00

/-- `DIR_FREE`: the entry was deleted. -/
def dirFree : UInt8 := 0xE5

/-- `SUBDIR_MAX_ENTS`. -/
def subdirMaxEnts : ℕ := 10000

/-- The number of entries a search of the directory looks at. -/
def Geometry.maxEnts (g : Geometry) (dir : ℕ) : ℕ :=
  if dir = 0 then g.rootEntries else subdirMaxEnts

/-! ## Entry I/O -/

/-- The entry at position `ent` of a sector. -/
def entryOf (b : Sector) (ent : ℕ) : DirEntry := fun i => b (ent * 32 + i)

/-- The sector with the entry at position `ent` replaced. -/
def withEntry (b : Sector) (ent : ℕ) (e : DirEntry) : Sector := fun j =>
  if h : ent * 32 ≤ j ∧ j < ent * 32 + 32 then e ⟨j - ent * 32, by omega⟩ else b j

/-- The walk of `dir_read_entry` and `dir_write_entry` over `skip` links of a chain, left when a
link ends the chain. -/
def walkChain : ℕ → ℕ → Fat (Option ℕ)
  | 0, clus => return some clus
  | skip + 1, clus => do
    let clus ← fatGet clus
    if clus ≥ fat12Eoc then return none
    walkChain skip clus

/-- `dir_read_entry`. The root is read at `g_root_lba`, as every caller passes it. -/
def dirReadEntry (dir idx : ℕ) : Fat (Option DirEntry) := do
  let g ← geometry
  if dir = 0 then
    if idx ≥ g.rootEntries then return none
    return some (entryOf (← readBuf (g.rootLba + idx / 16)) (idx % 16))
  else
    let perClus := g.clusterSize / 32
    match ← walkChain (idx / perClus) dir with
    | none => return none
    | some clus =>
      let inClus := idx % perClus
      return some (entryOf (← readBuf (g.clusterLba clus + inClus / 16)) (inClus % 16))

/-- `dir_write_entry`. -/
def dirWriteEntry (dir idx : ℕ) (e : DirEntry) : Fat Bool := do
  let g ← geometry
  if dir = 0 then
    if idx ≥ g.rootEntries then return false
    modifySector (g.rootLba + idx / 16) fun b => withEntry b (idx % 16) e
    return true
  else
    let perClus := g.clusterSize / 32
    match ← walkChain (idx / perClus) dir with
    | none => return false
    | some clus =>
      let inClus := idx % perClus
      modifySector (g.clusterLba clus + inClus / 16) fun b => withEntry b (inClus % 16) e
      return true

/-! ## Path resolution and search -/

/-- A round of the search for a name; `some none` is its `break`. -/
def findRound (dir : ℕ) (target : Name) (i : ℕ) : Fat (Option (Option (ℕ × DirEntry))) := do
  match ← dirReadEntry dir i with
  | none => return some none
  | some e =>
    if e.name 0 = dirEnd then return some none
    if e.name 0 = dirFree then return none
    if e.Masked then return none
    if match83 e.name target then return some (some (i, e))
    return none

/-- The search `resolve_path` and `find_in_dir` share: the first entry before an end marker that
is not deleted, has none of the `ATTR_LFN` bits set and matches the target. -/
def findInDir (dir : ℕ) (target : Name) : Fat (Option (ℕ × DirEntry)) := do
  let g ← geometry
  let found ← Exec.forUntil (findRound dir target) 0 (g.maxEnts dir)
  return found.getD none

/-- The end of a component: NUL or a slash. -/
def inComponent (c : UInt8) : Bool := c ≠ 0 ∧ c ≠ slash

/-- The name `resolve_path` leaves for a path without a last component; only its first byte is
set, and only that byte is read. -/
def rootName : Name := fun _ => 0

/-- A round of `resolve_path`: one component of the path, looked up in the directory so far. The
result of `to_83` is not looked at. -/
def resolveRound : Path × ℕ → Fat (Path × ℕ ⊕ Option (ℕ × Name))
  | (path, dir) => do
    let len := (path.takeWhile inComponent).length
    if len = 0 then
      if path.headD 0 = 0 then return .inr (some (dir, rootName))
      else return .inl (path.tail, dir)
    else
      let target := (to83 ((path.take len).take 255)).2
      if path.getD len 0 = 0 then return .inr (some (dir, target))
      else
        match ← findInDir dir target with
        | none => return .inr none
        | some (_, e) =>
          if e.IsDir then return .inl (path.drop (len + 1), e.firstCluster)
          else return .inr none

/-- `resolve_path`: the directory and the 8.3 name a path leads to. -/
def resolvePath (path : Path) : Fat (Option (ℕ × Name)) :=
  Exec.loop resolveRound (if path.headD 0 = slash then path.tail else path, 0)

/-- A round of the search of `alloc_dir_entry`; `some none` is its `break`. -/
def slotRound (dir i : ℕ) : Fat (Option (Option ℕ)) := do
  match ← dirReadEntry dir i with
  | none => return some none
  | some e =>
    if e.name 0 = dirEnd ∨ e.name 0 = dirFree then return some (some i)
    return none

/-- A round of the walk of `alloc_dir_entry` to the last cluster of the directory. -/
def lastRound (clus : ℕ) : Fat (ℕ ⊕ ℕ) := do
  if 2 ≤ clus ∧ clus < fat12Eoc then
    let next ← fatGet clus
    if next ≥ fat12Eoc then return .inr clus
    else return .inl next
  else return .inr clus

/-- `alloc_dir_entry`: the first slot that ends the directory or was deleted. A subdirectory
without one is extended by a zeroed cluster, and `SUBDIR_MAX_ENTS` is returned. -/
def allocDirEntry (dir : ℕ) : Fat (Option ℕ) := do
  let g ← geometry
  let slot ← Exec.forUntil (slotRound dir) 0 (g.maxEnts dir)
  match slot.getD none with
  | some i => return some i
  | none =>
    if dir = 0 then return none
    else
      let last ← Exec.loop lastRound dir
      let newClus ← fatAlloc
      if newClus = 0 then return none
      fatSet last newClus
      zeroCluster newClus
      return some (g.maxEnts dir)

end WarkRune.Fat12

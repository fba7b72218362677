import WarkRune.Fat12.Volume

/-!
# Directory slots and path resolution as functions on volumes

## Main definitions

* `Volume.slotLoc`, `Volume.slot`, `Volume.setSlot`: where a directory slot lies, its entry, and
  the volume with the entry replaced
* `Volume.find`, `Volume.resolve`: the entry a name finds and the directory a path leads to
* `Volume.freeSlot`, `Volume.LastLink`: the slot `alloc_dir_entry` takes and the cluster it
  extends

## Main results

* `acts_dirReadEntry`, `acts_dirWriteEntry`, `acts_findInDir`, `acts_resolvePath`,
  `acts_allocDirEntry_slot`, `acts_allocDirEntry_extend`: what the helpers compute
-/

/-- The first index of a range at which `f` answers. -/
theorem List.findSome?_range'_eq_some {α : Type} {f : ℕ → Option α} {a : α} :
    ∀ {n i : ℕ}, (List.range' i n).findSome? f = some a →
      ∃ k < i + n, i ≤ k ∧ f k = some a ∧ ∀ j, i ≤ j → j < k → f j = none
  | 0, i, h => by simp at h
  | n + 1, i, h => by
    rw [List.range'_succ, List.findSome?_cons] at h
    cases hf : f i with
    | some b =>
      rw [hf] at h
      exact ⟨i, by omega, le_rfl, hf.trans h, fun j _ _ => by omega⟩
    | none =>
      rw [hf] at h
      obtain ⟨k, hk, hik, hr, hpre⟩ := List.findSome?_range'_eq_some h
      refine ⟨k, by omega, by omega, hr, fun j hij hjk => ?_⟩
      rcases Nat.eq_or_lt_of_le hij with rfl | hlt
      · exact hf
      · exact hpre j hlt hjk

namespace WarkRune.Fat12

open Exec (Computes)

namespace Volume

variable (V : Volume)

/-- The cluster `skip` links after `c`, `none` when a link ends the chain. -/
def walk : ℕ → ℕ → Option ℕ
  | 0, c => some c
  | skip + 1, c => if V.fat c ≥ fat12Eoc then none else walk skip (V.fat c)

/-- The sector and the position in it of slot `i` of a directory. -/
def slotLoc (dir i : ℕ) : Option (ℕ × ℕ) :=
  if dir = 0 then
    if i ≥ V.geo.rootEntries then none else some (V.geo.rootLba + i / 16, i % 16)
  else
    let perClus := V.geo.clusterSize / 32
    (V.walk (i / perClus) dir).map fun c =>
      (V.geo.clusterLba c + i % perClus / 16, i % perClus % 16)

/-- The entry in slot `i` of a directory. -/
def slot (dir i : ℕ) : Option DirEntry :=
  (V.slotLoc dir i).map fun p => entryOf (V.sector p.1) p.2

/-- The volume with `e` stored in slot `i` of a directory. -/
def setSlot (dir i : ℕ) (e : DirEntry) : Volume :=
  match V.slotLoc dir i with
  | none => V
  | some p => V.put p.1 (withEntry (V.sector p.1) p.2 e)

/-- What a directory search does at slot `i`: stop without or with an entry, or go on. -/
def findAt (dir : ℕ) (target : Name) (i : ℕ) : Option (Option (ℕ × DirEntry)) :=
  match V.slot dir i with
  | none => some none
  | some e =>
    if e.name 0 = dirEnd then some none
    else if e.name 0 = dirFree then none
    else if e.Masked then none
    else if match83 e.name target then some (some (i, e))
    else none

/-- The entry a search for a name finds in a directory, with its slot. -/
def find (dir : ℕ) (target : Name) : Option (ℕ × DirEntry) :=
  ((List.range' 0 (V.geo.maxEnts dir)).findSome? (V.findAt dir target)).getD none

/-- What `alloc_dir_entry` does at slot `i`. -/
def freeAt (dir i : ℕ) : Option (Option ℕ) :=
  match V.slot dir i with
  | none => some none
  | some e => if e.name 0 = dirEnd ∨ e.name 0 = dirFree then some (some i) else none

/-- The first slot of a directory that ends it or was deleted, among the slots searched. -/
def freeSlot (dir : ℕ) : Option ℕ :=
  ((List.range' 0 (V.geo.maxEnts dir)).findSome? (V.freeAt dir)).getD none

/-- The number of bytes of the first component of a path. -/
abbrev compLen (path : Path) : ℕ := (path.takeWhile inComponent).length

theorem compLen_le (path : Path) : compLen path ≤ path.length :=
  (List.takeWhile_prefix _).length_le

theorem compLen_lt {path : Path} (h : path.getD (compLen path) 0 ≠ 0) :
    compLen path < path.length := by
  by_contra hl
  exact h (by simp [List.getD, List.getElem?_eq_none (Nat.le_of_not_lt hl)])

/-- The directory and name a path leads to from a directory. -/
def resolveFrom (path : Path) (dir : ℕ) : Option (ℕ × Name) :=
  if compLen path = 0 then
    if path.headD 0 = 0 then some (dir, rootName)
    else resolveFrom path.tail dir
  else
    let target := (to83 ((path.take (compLen path)).take 255)).2
    if path.getD (compLen path) 0 = 0 then some (dir, target)
    else
      match V.find dir target with
      | none => none
      | some (_, e) =>
        if e.IsDir then resolveFrom (path.drop (compLen path + 1)) e.firstCluster else none
termination_by path.length
decreasing_by
  · cases path with
    | nil => simp_all
    | cons c path => simp
  · have := compLen_lt ‹_›
    simp only [List.length_drop]
    omega

/-- The directory and name a path leads to. -/
def resolve (path : Path) : Option (ℕ × Name) :=
  V.resolveFrom (if path.headD 0 = slash then path.tail else path) 0

/-- The walk of `alloc_dir_entry` from `c` ends at `last`: the first cluster whose link ends the
chain, or the first number outside the clusters. -/
inductive LastLink : ℕ → ℕ → Prop
  | out {c : ℕ} (h : ¬ (2 ≤ c ∧ c < fat12Eoc)) : LastLink c c
  | eoc {c : ℕ} (h : 2 ≤ c ∧ c < fat12Eoc) (hf : V.fat c ≥ fat12Eoc) : LastLink c c
  | next {c last : ℕ} (h : 2 ≤ c ∧ c < fat12Eoc) (hf : V.fat c < fat12Eoc)
      (hl : LastLink (V.fat c) last) : LastLink c last

@[simp] theorem setSlot_geo (dir i : ℕ) (e : DirEntry) : (V.setSlot dir i e).geo = V.geo := by
  unfold setSlot
  split <;> rfl

@[simp] theorem setSlot_fds (dir i : ℕ) (e : DirEntry) : (V.setSlot dir i e).fds = V.fds := by
  unfold setSlot
  split <;> rfl

@[simp] theorem setFd_fat (fd : ℕ) (f : FD) : (V.setFd fd f).fat = V.fat := rfl

@[simp] theorem setFd_walk (fd : ℕ) (f : FD) : (V.setFd fd f).walk = V.walk := by
  funext skip c
  induction skip generalizing c with
  | zero => rfl
  | succ skip ih => simp only [walk, setFd_fat, ih]

@[simp] theorem setFd_slotLoc (fd : ℕ) (f : FD) : (V.setFd fd f).slotLoc = V.slotLoc := by
  funext dir i
  simp [slotLoc]

@[simp] theorem setFd_slot (fd : ℕ) (f : FD) : (V.setFd fd f).slot = V.slot := by
  funext dir i
  simp [slot]

theorem setSlot_of_some {dir i lba pos : ℕ} {e : DirEntry}
    (h : V.slotLoc dir i = some (lba, pos)) :
    V.setSlot dir i e = V.put lba (withEntry (V.sector lba) pos e) := by
  simp [setSlot, h]

theorem slot_of_some {dir i lba pos : ℕ} (h : V.slotLoc dir i = some (lba, pos)) :
    V.slot dir i = some (entryOf (V.sector lba) pos) := by
  simp [slot, h]

theorem find_eq_some {dir : ℕ} {target : Name} {i : ℕ} {e : DirEntry}
    (h : V.find dir target = some (i, e)) :
    i < V.geo.maxEnts dir ∧ V.slot dir i = some e ∧ e.name 0 ≠ dirEnd ∧ e.name 0 ≠ dirFree ∧
      ¬ e.Masked ∧ match83 e.name target = true ∧
      ∀ j < i, V.findAt dir target j = none := by
  unfold find at h
  cases hf : (List.range' 0 (V.geo.maxEnts dir)).findSome? (V.findAt dir target) with
  | none => simp [hf] at h
  | some r =>
    obtain rfl : r = some (i, e) := by simpa [hf] using h
    obtain ⟨k, hk, -, hr, hpre⟩ := List.findSome?_range'_eq_some hf
    simp only [findAt] at hr
    split at hr
    · simp at hr
    · next e' he =>
      split_ifs at hr with h₁ h₂ h₃ h₄ <;> simp at hr
      obtain ⟨rfl, rfl⟩ := hr
      exact ⟨by omega, he, h₁, h₂, h₃, h₄, fun j hj => hpre j (by omega) hj⟩

end Volume

section Directory

variable (V : Volume)

theorem acts_walkChain : ∀ skip c, Acts (walkChain skip c) V (V.walk skip c) V
  | 0, _ => .pure _ _
  | skip + 1, c => by
    refine (acts_fatGet V c).bind ?_
    simp only [Volume.walk]
    split
    · exact .pure _ _
    · exact acts_walkChain skip _

theorem acts_dirReadEntry (dir i : ℕ) : Acts (dirReadEntry dir i) V (V.slot dir i) V := by
  refine (acts_geometry V).bind ?_
  simp only [Volume.slot, Volume.slotLoc]
  by_cases hd : dir = 0
  · simp only [hd, ↓reduceIte]
    by_cases hi : i ≥ V.geo.rootEntries
    · simp only [hi, ↓reduceIte]
      exact .pure _ _
    · simp only [hi, ↓reduceIte]
      exact (acts_readBuf V _).bind (.pure _ _)
  · simp only [hd, ↓reduceIte]
    refine (acts_walkChain V _ _).bind ?_
    cases V.walk (i / (V.geo.clusterSize / 32)) dir with
    | none => exact .pure _ _
    | some c => exact (acts_readBuf V _).bind (.pure _ _)

theorem acts_dirWriteEntry (dir i : ℕ) (e : DirEntry) :
    Acts (dirWriteEntry dir i e) V (V.slotLoc dir i).isSome (V.setSlot dir i e) := by
  refine (acts_geometry V).bind ?_
  simp only [Volume.setSlot, Volume.slotLoc]
  by_cases hd : dir = 0
  · simp only [hd, ↓reduceIte]
    by_cases hi : i ≥ V.geo.rootEntries
    · simp only [hi, ↓reduceIte]
      exact .pure _ _
    · simp only [hi, ↓reduceIte]
      exact (acts_modifySector V _ _).bind (.pure _ _)
  · simp only [hd, ↓reduceIte]
    refine (acts_walkChain V _ _).bind ?_
    cases V.walk (i / (V.geo.clusterSize / 32)) dir with
    | none => exact .pure _ _
    | some c => exact (acts_modifySector V _ _).bind (.pure _ _)

theorem acts_findInDir (dir : ℕ) (target : Name) :
    Acts (findInDir dir target) V (V.find dir target) V := by
  refine (acts_geometry V).bind ?_
  refine (Computes.forUntil_find (V.findAt dir target) (fun i => ?_) _ 0).bind (.pure _ _)
  refine (acts_dirReadEntry V dir i).bind ?_
  simp only [Volume.findAt]
  cases V.slot dir i with
  | none => exact .pure _ _
  | some e =>
    dsimp only
    split_ifs <;> exact .pure _ _

theorem acts_resolveLoop (p : Path) (dir : ℕ) :
    Acts (Exec.loop resolveRound (p, dir)) V (V.resolveFrom p dir) V := by
  -- by induction on what is left of the path
  induction hn : p.length using Nat.strong_induction_on generalizing p dir with
  | _ n ih =>
    rw [Volume.resolveFrom]
    by_cases hl : Volume.compLen p = 0
    · simp only [hl, ↓reduceIte]
      by_cases hp : p.headD 0 = 0
      · refine .loop_done ?_
        simp only [resolveRound, hl, hp, ↓reduceIte]
        exact .pure _ _
      · simp only [hp, ↓reduceIte]
        refine .loop_next (p.tail, dir) V ?_ (ih p.tail.length ?_ _ _ rfl)
        · simp only [resolveRound, hl, hp, ↓reduceIte]
          exact .pure _ _
        · cases p with
          | nil => simp at hp
          | cons c p => simp [← hn]
    · simp only [hl, ↓reduceIte]
      -- the component is the last one, or the loop enters its directory
      by_cases hp : p.getD (Volume.compLen p) 0 = 0
      · refine .loop_done ?_
        simp only [resolveRound, hl, hp, ↓reduceIte]
        exact .pure _ _
      · simp only [hp, ↓reduceIte]
        cases hf : V.find dir (to83 ((p.take (Volume.compLen p)).take 255)).2 with
        | none =>
          refine .loop_done ?_
          simp only [resolveRound, hl, hp, ↓reduceIte]
          refine (acts_findInDir V _ _).bind ?_
          simp only [hf]
          exact .pure _ _
        | some r =>
          obtain ⟨i, e⟩ := r
          by_cases he : e.IsDir
          · simp only [he, ↓reduceIte]
            refine .loop_next (p.drop (Volume.compLen p + 1), e.firstCluster) V ?_ (ih _ ?_ _ _ rfl)
            · simp only [resolveRound, hl, hp, ↓reduceIte]
              refine (acts_findInDir V _ _).bind ?_
              simp only [hf, he, ↓reduceIte]
              exact .pure _ _
            · have := Volume.compLen_lt hp
              simp only [List.length_drop]
              omega
          · simp only [he, ↓reduceIte]
            refine .loop_done ?_
            simp only [resolveRound, hl, hp, ↓reduceIte]
            refine (acts_findInDir V _ _).bind ?_
            simp only [hf, he, ↓reduceIte]
            exact .pure _ _

theorem acts_resolvePath (path : Path) : Acts (resolvePath path) V (V.resolve path) V :=
  acts_resolveLoop V _ _

end Directory

end WarkRune.Fat12

import WarkRune.Fat12.Alloc
import WarkRune.Fat12.Call

/-!
# The outcomes of the name operations

On a working disk each name operation has one outcome, described on the volume alone. Only
`fat12_create` and `fat12_mkdir` may have none: extending a directory whose chain is cyclic never
ends.

## Main definitions

* `Volume.Names`, `Volume.New`: a path leads to a name, or to a name that is not taken
* `Opens`, `Creates`, `Deletes`, `Renames`, `Mkdirs`, `Rmdirs`: the outcomes
* `NameOutcome`: the outcome of a name operation

## Main results

* `acts_fat12Create` and its siblings: an outcome is what the operation computes
* `creates_of_returns`, `mkdirs_of_returns`: what the operation returns is its outcome
* `nameOutcome_of_returns`: the same for every name operation
* `creates_or`, `mkdirs_or`: when there is no outcome
-/

namespace WarkRune.Fat12

open Exec (Computes)

/-! ## Names -/

namespace Volume

variable (V : Volume)

/-- The path leads to the name `t` in the directory `dir`. -/
def Names (path : Path) (dir : ℕ) (t : Name) : Prop := V.resolve path = some (dir, t) ∧ t 0 ≠ 0

/-- The path leads to the name `t` in the directory `dir`, where the search does not find it. -/
def New (path : Path) (dir : ℕ) (t : Name) : Prop :=
  V.Names path dir t ∧ V.find dir t = none

/-- The path leads to the entry `e` in slot `i` of the directory `dir`. -/
def Finds (path : Path) (dir i : ℕ) (e : DirEntry) : Prop :=
  ∃ t, V.Names path dir t ∧ V.find dir t = some (i, e)

/-- The outcome of `fd_alloc`. -/
def openFd (c n p i : ℕ) : ℤ × Volume :=
  match V.freeFd with
  | some fd => (fd, V.setFd fd ⟨true, c, n, 0, p, i⟩)
  | none => (-1, V)

/-- What `fat12_rmdir` does at slot `i` of the directory it checks. -/
def emptyAt (dir i : ℕ) : Option Bool :=
  match V.slot dir i with
  | none => some true
  | some e =>
    if e.name 0 = dirEnd then some true
    else if e.name 0 = dirFree then none
    else if e.Masked then none
    else if e.IsDot then none
    else some false

/-- The directory holds nothing `fat12_rmdir` would not remove. -/
def isEmpty (dir : ℕ) : Bool :=
  ((List.range' 0 (V.geo.maxEnts dir)).findSome? (V.emptyAt dir)).getD true

/-- The volume with the free cluster `c` turned into an empty directory. -/
def takeDir (c : ℕ) : Volume := (V.fatSet c fat12Eoc).zeroCluster c

@[simp] theorem takeDir_geo (c : ℕ) : (V.takeDir c).geo = V.geo := by simp [takeDir]

@[simp] theorem takeDir_fds (c : ℕ) : (V.takeDir c).fds = V.fds := by simp [takeDir]

end Volume

variable {V V' : Volume}

theorem acts_fdAlloc (V : Volume) (c n p i : ℕ) :
    Acts (fdAlloc c n p i) V (V.openFd c n p i).1 (V.openFd c n p i).2 := by
  refine (acts_volume V).bind ?_
  unfold Volume.openFd
  cases V.freeFd with
  | none => exact .pure _ _
  | some fd => exact (acts_setFd V fd _).bind (.pure _ _)

theorem acts_dirEmpty (V : Volume) (dir : ℕ) : Acts (dirEmpty dir) V (V.isEmpty dir) V := by
  refine (acts_geometry V).bind ?_
  refine (Computes.forUntil_find (V.emptyAt dir) (fun i => ?_) _ 0).bind (.pure _ _)
  refine (acts_dirReadEntry V dir i).bind ?_
  simp only [Volume.emptyAt]
  cases V.slot dir i with
  | none => exact .pure _ _
  | some e =>
    dsimp only
    split_ifs <;> exact .pure _ _

/-- A program with an outcome returns that outcome only. -/
theorem returns_outcome {α : Type} {m : Fat α} {P : α → Volume → Prop} {s s' : Driver} {r : α}
    (hP : ∃ a V', P a V' ∧ Acts m s.vol a V') (h : m.Returns s r s') (hw : s.Working) :
    P r s'.vol ∧ s'.Working := by
  obtain ⟨a, V', hP, hm⟩ := hP
  obtain ⟨rfl, rfl, hw'⟩ := hm.eq_of_returns hw rfl h
  exact ⟨hP, hw'⟩

/-- A sequence that returned goes on from what its first part computes. -/
theorem returns_after {α β : Type} {m : Fat α} {f : α → Fat β} {s s' : Driver} {a : α} {b : β}
    (hm : Acts m s.vol a V') (h : (m >>= f).Returns s b s') (hw : s.Working) :
    ∃ s₁ : Driver, s₁.vol = V' ∧ s₁.Working ∧ (f a).Returns s₁ b s' := by
  obtain ⟨x, s₁, h₁, h₂⟩ := Exec.returns_bind.mp h
  obtain ⟨rfl, hv, hw₁⟩ := hm.eq_of_returns hw rfl h₁
  exact ⟨s₁, hv, hw₁, h₂⟩

/-- The start all name operations share: a path without a name is refused, and a name is
searched for. -/
theorem acts_lookup {α : Type} {path : Path} {a : α} {k : ℕ → Name → Fat α} {refuse : Fat α}
    (hrefuse : (∀ dir t, ¬ V.Names path dir t) → Acts refuse V a V')
    (hk : ∀ dir t, V.Names path dir t → Acts (k dir t) V a V') :
    Acts (do
      match ← resolvePath path with
      | none => refuse
      | some (dir, target) => if target 0 = 0 then refuse else k dir target) V a V' := by
  refine (acts_resolvePath V path).bind ?_
  cases hr : V.resolve path with
  | none => exact hrefuse fun dir t h => by simp [Volume.Names, hr] at h
  | some p =>
    obtain ⟨dir, t⟩ := p
    dsimp only
    split
    · next ht =>
      refine hrefuse fun d u h => ?_
      obtain ⟨rfl, rfl⟩ : dir = d ∧ t = u := by simpa [hr] using h.1
      exact h.2 ht
    · next ht => exact hk dir t ⟨hr, ht⟩

theorem Volume.Names.det {path : Path} {dir d : ℕ} {t u : Name} (h : V.Names path dir t)
    (h' : V.Names path d u) : d = dir ∧ u = t := by
  have := h.1.symm.trans h'.1
  simp only [Option.some.injEq, Prod.mk.injEq] at this
  exact ⟨this.1.symm, this.2.symm⟩

/-! ## Open -/

/-- The outcome of `fat12_open`. -/
inductive Opens (V : Volume) (path : Path) : ℤ → Volume → Prop
  | missing (h : ∀ dir i e, ¬ V.Finds path dir i e) : Opens V path (-1) V
  | isDir {dir i : ℕ} {e : DirEntry} (h : V.Finds path dir i e) (hd : e.IsDir) :
      Opens V path (-1) V
  | file {dir i : ℕ} {e : DirEntry} (h : V.Finds path dir i e) (hd : ¬ e.IsDir) :
      Opens V path (V.openFd e.firstCluster e.fileSize dir i).1
        (V.openFd e.firstCluster e.fileSize dir i).2

theorem Volume.Finds.det {path : Path} {dir i d j : ℕ} {e f : DirEntry}
    (h : V.Finds path dir i e) (h' : V.Finds path d j f) : d = dir ∧ j = i ∧ f = e := by
  obtain ⟨t, ht, hf⟩ := h
  obtain ⟨u, hu, hg⟩ := h'
  obtain ⟨rfl, rfl⟩ := ht.det hu
  have := hf.symm.trans hg
  simp only [Option.some.injEq, Prod.mk.injEq] at this
  exact ⟨rfl, this.1.symm, this.2.symm⟩

theorem Volume.New.not_finds {path : Path} {dir : ℕ} {t : Name} (h : V.New path dir t) :
    ∀ d i e, ¬ V.Finds path d i e := by
  rintro d i e ⟨u, hu, hf⟩
  obtain ⟨rfl, rfl⟩ := h.1.det hu
  rw [h.2] at hf
  cases hf

theorem acts_fat12Open {path : Path} {r : ℤ} (h : Opens V path r V') :
    Acts (fat12Open path) V r V' := by
  refine acts_lookup (fun hn => ?_) fun dir t ht => (acts_findInDir V dir t).bind ?_
  · cases h with
    | missing => exact .pure _ _
    | isDir hf | file hf =>
      obtain ⟨t, ht, -⟩ := hf
      exact absurd ht (hn _ t)
  · cases hf : V.find dir t with
    | none =>
      cases h with
      | missing => exact .pure _ _
      | isDir h | file h => exact absurd h (Volume.New.not_finds ⟨ht, hf⟩ _ _ _)
    | some p =>
      obtain ⟨i, e⟩ := p
      have hfind : V.Finds path dir i e := ⟨t, ht, hf⟩
      cases h with
      | missing h => exact absurd hfind (h _ _ _)
      | isDir h hd =>
        obtain ⟨rfl, rfl, rfl⟩ := h.det hfind
        simp only [hd, ↓reduceIte]
        exact .pure _ _
      | file h hd =>
        obtain ⟨rfl, rfl, rfl⟩ := h.det hfind
        simp only [hd, ↓reduceIte]
        exact acts_fdAlloc V _ _ _ _

theorem opens_total (V : Volume) (path : Path) : ∃ r V', Opens V path r V' := by
  by_cases h : ∃ dir i e, V.Finds path dir i e
  · obtain ⟨dir, i, e, h⟩ := h
    by_cases hd : e.IsDir
    · exact ⟨_, _, .isDir h hd⟩
    · exact ⟨_, _, .file h hd⟩
  · exact ⟨_, _, .missing fun dir i e hf => h ⟨dir, i, e, hf⟩⟩

/-! ## Create -/

/-- The outcome of `fat12_create`. -/
inductive Creates (V : Volume) (path : Path) : ℤ → Volume → Prop
  | refused (h : ∀ dir t, ¬ V.New path dir t) : Creates V path (-1) V
  | noSlot {dir : ℕ} {t : Name} {V' : Volume} (h : V.New path dir t)
      (hs : TakesSlot V dir none V') : Creates V path (-1) V'
  | noEntry {dir i : ℕ} {t : Name} {V' : Volume} (h : V.New path dir t)
      (hs : TakesSlot V dir (some i) V') (hl : V'.slotLoc dir i = none) : Creates V path (-1) V'
  | entry {dir i : ℕ} {t : Name} {V' : Volume} (h : V.New path dir t)
      (hs : TakesSlot V dir (some i) V') (hl : (V'.slotLoc dir i).isSome = true) :
      Creates V path ((V'.setSlot dir i (newEntry t attrArch 0)).openFd 0 0 dir i).1
        ((V'.setSlot dir i (newEntry t attrArch 0)).openFd 0 0 dir i).2

theorem Volume.New.det {path : Path} {dir d : ℕ} {t u : Name} (h : V.New path dir t)
    (h' : V.New path d u) : d = dir ∧ u = t := h.1.det h'.1

/-- The start `fat12_create` and `fat12_mkdir` share: a name that is taken is refused. -/
theorem acts_lookupNew {α : Type} {path : Path} {a : α} {k : ℕ → Name → Fat α} {refuse : Fat α}
    (hrefuse : (∀ dir t, ¬ V.New path dir t) → Acts refuse V a V')
    (hk : ∀ dir t, V.New path dir t → Acts (k dir t) V a V') :
    Acts (do
      match ← resolvePath path with
      | none => refuse
      | some (dir, target) =>
        if target 0 = 0 then refuse else
          match ← findInDir dir target with
          | some _ => refuse
          | none => k dir target) V a V' := by
  refine acts_lookup (fun hn => hrefuse fun dir t h => hn dir t h.1) fun dir t ht => ?_
  refine (acts_findInDir V dir t).bind ?_
  cases hf : V.find dir t with
  | some p =>
    refine hrefuse fun d u h => ?_
    obtain ⟨rfl, rfl⟩ := ht.det h.1
    rw [h.2] at hf
    cases hf
  | none => exact hk dir t ⟨ht, hf⟩

theorem setSlot_of_none {dir i : ℕ} {e : DirEntry} (h : V.slotLoc dir i = none) :
    V.setSlot dir i e = V := by
  simp [Volume.setSlot, h]

theorem acts_fat12Create {path : Path} {r : ℤ} (h : Creates V path r V') :
    Acts (fat12Create path) V r V' := by
  refine acts_lookupNew (fun hn => ?_) fun dir t ht => ?_
  · cases h with
    | refused => exact .pure _ _
    | noSlot h | noEntry h | entry h => exact absurd h (hn _ _)
  · cases h with
    | refused h => exact absurd ht (h dir t)
    | noSlot h hs =>
      obtain ⟨rfl, rfl⟩ := h.det ht
      exact (acts_allocDirEntry hs).bind (.pure _ _)
    | noEntry h hs hl =>
      obtain ⟨rfl, rfl⟩ := h.det ht
      refine (acts_allocDirEntry hs).bind ((acts_dirWriteEntry _ _ _ _).bind ?_)
      simp only [hl, setSlot_of_none hl]
      exact .pure _ _
    | entry h hs hl =>
      obtain ⟨rfl, rfl⟩ := h.det ht
      refine (acts_allocDirEntry hs).bind ((acts_dirWriteEntry _ _ _ _).bind ?_)
      simp only [hl, ↓reduceIte]
      exact acts_fdAlloc _ _ _ _ _

/-- The walk of `alloc_dir_entry` to the last cluster of a full directory never ends. -/
def Volume.Endless (V : Volume) (dir : ℕ) : Prop :=
  V.freeSlot dir = none ∧ dir ≠ 0 ∧ ∀ last, ¬ V.LastLink dir last

/-- `fat12_create` has an outcome unless the directory is full and its chain has no end. -/
theorem creates_or (V : Volume) (path : Path) :
    (∃ r V', Creates V path r V') ∨ ∃ dir t, V.New path dir t ∧ V.Endless dir := by
  by_cases h : ∃ dir t, V.New path dir t
  · obtain ⟨dir, t, h⟩ := h
    rcases takesSlot_or V dir with ⟨r, V', hs⟩ | he
    · left
      cases r with
      | none => exact ⟨_, _, .noSlot h hs⟩
      | some i =>
        cases hl : V'.slotLoc dir i with
        | none => exact ⟨_, _, .noEntry h hs hl⟩
        | some p => exact ⟨_, _, .entry h hs (by simp [hl])⟩
    · exact .inr ⟨dir, t, h, he⟩
  · exact .inl ⟨_, _, .refused fun dir t ht => h ⟨dir, t, ht⟩⟩

theorem not_endless_of_takesSlot {dir : ℕ} {r : Option ℕ} (h : TakesSlot V dir r V') :
    ¬ V.Endless dir := by
  rintro ⟨hf, hd, hl⟩
  cases h with
  | slot hs => exact absurd (hf.symm.trans hs) nofun
  | rootFull _ hr => exact hd hr
  | diskFull _ _ hlast | extend _ _ hlast => exact hl _ hlast

theorem not_endless_of_returns {dir : ℕ} {r : Option ℕ} {s s' : Driver}
    (h : (allocDirEntry dir).Returns s r s') (hw : s.Working) : ¬ s.vol.Endless dir :=
  not_endless_of_takesSlot (takesSlot_of_returns h hw).1

/-- **What `fat12_create` returns is its outcome.** -/
theorem creates_of_returns {path : Path} {r : ℤ} {s s' : Driver}
    (h : (fat12Create path).Returns s r s') (hw : s.Working) :
    Creates s.vol path r s'.vol ∧ s'.Working := by
  rcases creates_or s.vol path with ⟨a, V', hc⟩ | ⟨dir, t, hn, he⟩
  · exact returns_outcome ⟨a, V', hc, acts_fat12Create hc⟩ h hw
  · obtain ⟨s₁, hv₁, hw₁, h₁⟩ := returns_after (acts_resolvePath s.vol path) h hw
    simp only [hn.1.1, hn.1.2, ↓reduceIte] at h₁
    obtain ⟨s₂, hv₂, hw₂, h₂⟩ := returns_after (acts_findInDir s₁.vol dir t) h₁ hw₁
    rw [hv₁] at hv₂ h₂
    simp only [hn.2] at h₂
    obtain ⟨x, s₃, h₃, -⟩ := Exec.returns_bind.mp h₂
    exact absurd (hv₂ ▸ he) (not_endless_of_returns h₃ hw₂)

/-! ## Delete and rename -/

/-- The outcome of `fat12_delete`. -/
inductive Deletes (V : Volume) (path : Path) : Bool → Volume → Prop
  | missing (h : ∀ dir i e, ¬ V.Finds path dir i e) : Deletes V path false V
  | isDir {dir i : ℕ} {e : DirEntry} (h : V.Finds path dir i e) (hd : e.IsDir) :
      Deletes V path false V
  | file {dir i : ℕ} {e : DirEntry} {V' : Volume} (h : V.Finds path dir i e) (hd : ¬ e.IsDir)
      (hf : Frees V e.firstCluster V') :
      Deletes V path true (V'.setSlot dir i (e.setFirst dirFree))

/-- Nothing is freed below the first data cluster. -/
theorem Frees.eq_of_lt {c : ℕ} (h : Frees V c V') (hc : ¬ c ≥ 2) : V' = V := by
  cases h with
  | stop => rfl
  | last h | next h => exact absurd h.1 hc

theorem acts_fat12Delete {path : Path} {r : Bool} (h : Deletes V path r V') :
    Acts (fat12Delete path) V r V' := by
  refine acts_lookup (fun hn => ?_) fun dir t ht => (acts_findInDir V dir t).bind ?_
  · cases h with
    | missing => exact .pure _ _
    | isDir hf | file hf =>
      obtain ⟨t, ht, -⟩ := hf
      exact absurd ht (hn _ t)
  · cases hf : V.find dir t with
    | none =>
      cases h with
      | missing => exact .pure _ _
      | isDir h | file h => exact absurd h (Volume.New.not_finds ⟨ht, hf⟩ _ _ _)
    | some p =>
      obtain ⟨i, e⟩ := p
      have hfind : V.Finds path dir i e := ⟨t, ht, hf⟩
      cases h with
      | missing h => exact absurd hfind (h _ _ _)
      | isDir h hd =>
        obtain ⟨rfl, rfl, rfl⟩ := h.det hfind
        simp only [hd, ↓reduceIte]
        exact .pure _ _
      | @file _ _ _ V₁ h hd hfr =>
        obtain ⟨rfl, rfl, rfl⟩ := h.det hfind
        have hmark : Acts (do
            let _ ← dirWriteEntry dir i (e.setFirst dirFree)
            return true) V₁ true (V₁.setSlot dir i (e.setFirst dirFree)) :=
          (acts_dirWriteEntry _ _ _ _).bind (.pure _ _)
        simp only [hd, ↓reduceIte]
        split
        · exact (acts_fatFreeChain hfr).bind hmark
        · next hc =>
          rw [hfr.eq_of_lt hc] at hmark ⊢
          exact hmark

theorem deletes_total (V : Volume) (path : Path) : ∃ r V', Deletes V path r V' := by
  by_cases h : ∃ dir i e, V.Finds path dir i e
  · obtain ⟨dir, i, e, h⟩ := h
    by_cases hd : e.IsDir
    · exact ⟨_, _, .isDir h hd⟩
    · obtain ⟨V', hf⟩ := frees_total V e.firstCluster
      exact ⟨_, _, .file h hd hf⟩
  · exact ⟨_, _, .missing fun dir i e hf => h ⟨dir, i, e, hf⟩⟩

/-- **What `fat12_delete` returns is its outcome.** -/
theorem deletes_of_returns {path : Path} {r : Bool} {s s' : Driver}
    (h : (fat12Delete path).Returns s r s') (hw : s.Working) :
    Deletes s.vol path r s'.vol ∧ s'.Working := by
  obtain ⟨a, V', hd⟩ := deletes_total s.vol path
  exact returns_outcome ⟨a, V', hd, acts_fat12Delete hd⟩ h hw

/-- The outcome of `fat12_rename`. -/
inductive Renames (V : Volume) (oldPath newPath : Path) : Bool → Volume → Prop
  | missing (h : ∀ dir i e, ¬ V.Finds oldPath dir i e) : Renames V oldPath newPath false V
  | taken (h : ∀ dir t, ¬ V.New newPath dir t) : Renames V oldPath newPath false V
  | done {dir i newDir : ℕ} {e : DirEntry} {t : Name} (h : V.Finds oldPath dir i e)
      (hn : V.New newPath newDir t) :
      Renames V oldPath newPath true (V.setSlot dir i (e.setName t))

theorem acts_fat12Rename {p q : Path} {r : Bool} (h : Renames V p q r V') :
    Acts (fat12Rename p q) V r V' := by
  refine acts_lookup (fun hn => ?_) fun dir t ht => (acts_findInDir V dir t).bind ?_
  · cases h with
    | missing | taken => exact .pure _ _
    | done hf =>
      obtain ⟨t, ht, -⟩ := hf
      exact absurd ht (hn _ t)
  · cases hf : V.find dir t with
    | none =>
      cases h with
      | missing | taken => exact .pure _ _
      | done h => exact absurd h (Volume.New.not_finds ⟨ht, hf⟩ _ _ _)
    | some p =>
      obtain ⟨i, e⟩ := p
      have hfind : V.Finds _ dir i e := ⟨t, ht, hf⟩
      refine acts_lookupNew (fun hn => ?_) fun newDir u hu => ?_
      · cases h with
        | missing | taken => exact .pure _ _
        | done _ h => exact absurd h (hn _ _)
      · cases h with
        | missing h => exact absurd hfind (h _ _ _)
        | taken h => exact absurd hu (h _ _)
        | done h hn =>
          obtain ⟨rfl, rfl, rfl⟩ := h.det hfind
          obtain ⟨rfl, rfl⟩ := hn.det hu
          exact (acts_dirWriteEntry _ _ _ _).bind (.pure _ _)

theorem renames_total (V : Volume) (p q : Path) : ∃ r V', Renames V p q r V' := by
  by_cases h : ∃ dir i e, V.Finds p dir i e
  · by_cases hn : ∃ dir t, V.New q dir t
    · obtain ⟨dir, i, e, h⟩ := h
      obtain ⟨newDir, t, hn⟩ := hn
      exact ⟨_, _, .done h hn⟩
    · exact ⟨_, _, .taken fun dir t ht => hn ⟨dir, t, ht⟩⟩
  · exact ⟨_, _, .missing fun dir i e hf => h ⟨dir, i, e, hf⟩⟩

/-- **What `fat12_rename` returns is its outcome.** -/
theorem renames_of_returns {p q : Path} {r : Bool} {s s' : Driver}
    (h : (fat12Rename p q).Returns s r s') (hw : s.Working) :
    Renames s.vol p q r s'.vol ∧ s'.Working := by
  obtain ⟨a, V', hr⟩ := renames_total s.vol p q
  exact returns_outcome ⟨a, V', hr, acts_fat12Rename hr⟩ h hw

/-! ## Mkdir and rmdir -/

/-- The outcome of `fat12_mkdir`. -/
inductive Mkdirs (V : Volume) (path : Path) : Bool → Volume → Prop
  | refused (h : ∀ dir t, ¬ V.New path dir t) : Mkdirs V path false V
  | diskFull (h : V.freeCluster = none) : Mkdirs V path false V
  | noSlot {dir c : ℕ} {t : Name} {V' : Volume} (h : V.New path dir t)
      (hc : V.freeCluster = some c) (hs : TakesSlot (V.takeDir c) dir none V') :
      Mkdirs V path false (V'.fatSet c fat12Free)
  | entry {dir c i : ℕ} {t : Name} {V' : Volume} (h : V.New path dir t)
      (hc : V.freeCluster = some c) (hs : TakesSlot (V.takeDir c) dir (some i) V') :
      Mkdirs V path (V'.slotLoc dir i).isSome (V'.setSlot dir i (newEntry t attrDir c))

theorem acts_fat12Mkdir {path : Path} {r : Bool} (h : Mkdirs V path r V') :
    Acts (fat12Mkdir path) V r V' := by
  refine acts_lookupNew (fun hn => ?_) fun dir t ht => (acts_fatAlloc V).bind ?_
  · cases h with
    | refused | diskFull => exact .pure _ _
    | noSlot h | entry h => exact absurd h (hn _ _)
  · cases h with
    | refused h => exact absurd ht (h dir t)
    | diskFull hc =>
      simp only [hc, Volume.takeFree_of_none hc, Option.getD_none, ↓reduceIte]
      exact .pure _ _
    | noSlot h hc hs =>
      obtain ⟨rfl, rfl⟩ := h.det ht
      have hc0 := (Volume.freeCluster_spec hc).1.ne_zero
      simp only [hc, Volume.takeFree_of_some hc, Option.getD_some, hc0, ↓reduceIte]
      exact (acts_zeroCluster _ _).bind ((acts_allocDirEntry hs).bind
        ((acts_fatSet _ _ _).bind (.pure _ _)))
    | entry h hc hs =>
      obtain ⟨rfl, rfl⟩ := h.det ht
      have hc0 := (Volume.freeCluster_spec hc).1.ne_zero
      simp only [hc, Volume.takeFree_of_some hc, Option.getD_some, hc0, ↓reduceIte]
      exact (acts_zeroCluster _ _).bind ((acts_allocDirEntry hs).bind (acts_dirWriteEntry _ _ _ _))

/-- `fat12_mkdir` has an outcome unless the directory, once the new cluster is taken, is full and
its chain has no end. -/
theorem mkdirs_or (V : Volume) (path : Path) :
    (∃ r V', Mkdirs V path r V') ∨ ∃ dir t c, V.New path dir t ∧ V.freeCluster = some c ∧
      (V.takeDir c).Endless dir := by
  by_cases h : ∃ dir t, V.New path dir t
  · obtain ⟨dir, t, h⟩ := h
    cases hc : V.freeCluster with
    | none => exact .inl ⟨_, _, .diskFull hc⟩
    | some c =>
      rcases takesSlot_or (V.takeDir c) dir with ⟨r, V', hs⟩ | he
      · left
        cases r with
        | none => exact ⟨_, _, .noSlot h hc hs⟩
        | some i => exact ⟨_, _, .entry h hc hs⟩
      · exact .inr ⟨dir, t, c, h, rfl, he⟩
  · exact .inl ⟨_, _, .refused fun dir t ht => h ⟨dir, t, ht⟩⟩

/-- **What `fat12_mkdir` returns is its outcome.** -/
theorem mkdirs_of_returns {path : Path} {r : Bool} {s s' : Driver}
    (h : (fat12Mkdir path).Returns s r s') (hw : s.Working) :
    Mkdirs s.vol path r s'.vol ∧ s'.Working := by
  rcases mkdirs_or s.vol path with ⟨a, V', hc⟩ | ⟨dir, t, c, hn, hc, he⟩
  · exact returns_outcome ⟨a, V', hc, acts_fat12Mkdir hc⟩ h hw
  · have hc0 := (Volume.freeCluster_spec hc).1.ne_zero
    obtain ⟨s₁, hv₁, hw₁, h₁⟩ := returns_after (acts_resolvePath s.vol path) h hw
    simp only [hn.1.1, hn.1.2, ↓reduceIte] at h₁
    obtain ⟨s₂, hv₂, hw₂, h₂⟩ := returns_after (acts_findInDir s₁.vol dir t) h₁ hw₁
    rw [hv₁] at hv₂ h₂
    simp only [hn.2] at h₂
    obtain ⟨s₃, hv₃, hw₃, h₃⟩ := returns_after (acts_fatAlloc s₂.vol) h₂ hw₂
    rw [hv₂, Volume.takeFree_of_some hc] at hv₃
    rw [hv₂, hc] at h₃
    simp only [Option.getD_some, hc0, ↓reduceIte] at h₃
    obtain ⟨s₄, hv₄, hw₄, h₄⟩ := returns_after (acts_zeroCluster s₃.vol c) h₃ hw₃
    rw [hv₃] at hv₄
    obtain ⟨x, s₅, h₅, -⟩ := Exec.returns_bind.mp h₄
    have he' : s₄.vol.Endless dir := by
      rw [hv₄]
      exact he
    exact absurd he' (not_endless_of_returns h₅ hw₄)

/-- The outcome of `fat12_rmdir`. -/
inductive Rmdirs (V : Volume) (path : Path) : Bool → Volume → Prop
  | missing (h : ∀ dir i e, ¬ V.Finds path dir i e) : Rmdirs V path false V
  | kept {dir i : ℕ} {e : DirEntry} (h : V.Finds path dir i e)
      (hk : ¬ e.IsDir ∨ V.isEmpty e.firstCluster = false) : Rmdirs V path false V
  | done {dir i : ℕ} {e : DirEntry} {V' : Volume} (h : V.Finds path dir i e) (hd : e.IsDir)
      (he : V.isEmpty e.firstCluster = true) (hf : Frees V e.firstCluster V') :
      Rmdirs V path (V'.slotLoc dir i).isSome (V'.setSlot dir i (e.setFirst dirFree))

theorem acts_fat12Rmdir {path : Path} {r : Bool} (h : Rmdirs V path r V') :
    Acts (fat12Rmdir path) V r V' := by
  -- the tests of the source one after the other; only the last case changes the volume
  refine acts_lookup (fun hn => ?_) fun dir t ht => (acts_findInDir V dir t).bind ?_
  · cases h with
    | missing => exact .pure _ _
    | kept hf | done hf =>
      obtain ⟨t, ht, -⟩ := hf
      exact absurd ht (hn _ t)
  · cases hf : V.find dir t with
    | none =>
      cases h with
      | missing => exact .pure _ _
      | kept h | done h => exact absurd h (Volume.New.not_finds ⟨ht, hf⟩ _ _ _)
    | some p =>
      obtain ⟨i, e⟩ := p
      have hfind : V.Finds path dir i e := ⟨t, ht, hf⟩
      cases h with
      | missing h => exact absurd hfind (h _ _ _)
      | kept h hk =>
        obtain ⟨rfl, rfl, rfl⟩ := h.det hfind
        by_cases hd : e.IsDir
        · have he := hk.resolve_left (not_not_intro hd)
          simp only [hd, not_true_eq_false, ↓reduceIte]
          refine (acts_dirEmpty V _).bind ?_
          simp only [he, Bool.not_false, ↓reduceIte]
          exact .pure _ _
        · simp only [hd, not_false_eq_true, ↓reduceIte]
          exact .pure _ _
      | done h hd he hfr =>
        obtain ⟨rfl, rfl, rfl⟩ := h.det hfind
        simp only [hd, not_true_eq_false, ↓reduceIte]
        refine (acts_dirEmpty V _).bind ?_
        simp only [he, Bool.not_true, Bool.false_eq_true, ↓reduceIte]
        split
        · exact (acts_fatFreeChain hfr).bind (acts_dirWriteEntry _ _ _ _)
        · next hc =>
          rw [hfr.eq_of_lt hc]
          exact acts_dirWriteEntry _ _ _ _

theorem rmdirs_total (V : Volume) (path : Path) : ∃ r V', Rmdirs V path r V' := by
  by_cases h : ∃ dir i e, V.Finds path dir i e
  · obtain ⟨dir, i, e, h⟩ := h
    by_cases hk : ¬ e.IsDir ∨ V.isEmpty e.firstCluster = false
    · exact ⟨_, _, .kept h hk⟩
    · simp only [not_or, not_not, Bool.not_eq_false] at hk
      obtain ⟨V', hf⟩ := frees_total V e.firstCluster
      exact ⟨_, _, .done h hk.1 hk.2 hf⟩
  · exact ⟨_, _, .missing fun dir i e hf => h ⟨dir, i, e, hf⟩⟩

/-- **What `fat12_rmdir` returns is its outcome.** -/
theorem rmdirs_of_returns {path : Path} {r : Bool} {s s' : Driver}
    (h : (fat12Rmdir path).Returns s r s') (hw : s.Working) :
    Rmdirs s.vol path r s'.vol ∧ s'.Working := by
  obtain ⟨a, V', hd⟩ := rmdirs_total s.vol path
  exact returns_outcome ⟨a, V', hd, acts_fat12Rmdir hd⟩ h hw

/-! ## The name operations -/

/-- The outcome of a name operation. -/
inductive NameOutcome (V : Volume) : Call → Reply → Volume → Prop
  | create {path : Path} {fd : ℤ} {V' : Volume} (h : Creates V path fd V') :
      NameOutcome V (.create path) (.int fd) V'
  | mkdir {path : Path} {ok : Bool} {V' : Volume} (h : Mkdirs V path ok V') :
      NameOutcome V (.mkdir path) (.bool ok) V'
  | rmdir {path : Path} {ok : Bool} {V' : Volume} (h : Rmdirs V path ok V') :
      NameOutcome V (.rmdir path) (.bool ok) V'
  | delete {path : Path} {ok : Bool} {V' : Volume} (h : Deletes V path ok V') :
      NameOutcome V (.delete path) (.bool ok) V'
  | rename {p q : Path} {ok : Bool} {V' : Volume} (h : Renames V p q ok V') :
      NameOutcome V (.rename p q) (.bool ok) V'

/-- **What a name operation that returned has done.** -/
theorem nameOutcome_of_returns {c : Call} {r : Reply} {s s' : Driver} (hn : c.IsName)
    (h : c.exec.Returns s r s') (hw : s.Working) :
    NameOutcome s.vol c r s'.vol ∧ s'.Working := by
  cases c with
  | create path =>
    obtain ⟨fd, s₁, h₁, hr⟩ := Exec.returns_bind.mp h
    obtain ⟨rfl, rfl⟩ := Exec.returns_pure.mp hr
    exact (creates_of_returns h₁ hw).imp_left .create
  | mkdir path =>
    obtain ⟨ok, s₁, h₁, hr⟩ := Exec.returns_bind.mp h
    obtain ⟨rfl, rfl⟩ := Exec.returns_pure.mp hr
    exact (mkdirs_of_returns h₁ hw).imp_left .mkdir
  | rmdir path =>
    obtain ⟨ok, s₁, h₁, hr⟩ := Exec.returns_bind.mp h
    obtain ⟨rfl, rfl⟩ := Exec.returns_pure.mp hr
    exact (rmdirs_of_returns h₁ hw).imp_left .rmdir
  | delete path =>
    obtain ⟨ok, s₁, h₁, hr⟩ := Exec.returns_bind.mp h
    obtain ⟨rfl, rfl⟩ := Exec.returns_pure.mp hr
    exact (deletes_of_returns h₁ hw).imp_left .delete
  | rename p q =>
    obtain ⟨ok, s₁, h₁, hr⟩ := Exec.returns_bind.mp h
    obtain ⟨rfl, rfl⟩ := Exec.returns_pure.mp hr
    exact (renames_of_returns h₁ hw).imp_left .rename
  | _ => exact hn.elim

/-! ## Ls -/

/-- The calls of the callback of `fat12_ls` for the entries from `i` on. -/
def Volume.listFrom (V : Volume) (dir : ℕ) : ℕ → ℕ → List Listed
  | _, 0 => []
  | i, n + 1 =>
    match V.slot dir i with
    | none => []
    | some e =>
      if e.name 0 = dirEnd then []
      else if e.name 0 = dirFree ∨ e.Masked ∨ e.IsDot then V.listFrom dir (i + 1) n
      else (from83 e.name, e.fileSize, decide e.IsDir) :: V.listFrom dir (i + 1) n

/-- The directory a path given to `fat12_ls` names. -/
def Volume.lsDir (V : Volume) (stack : DirEntry) (path : Path) : Option ℕ :=
  if cString path = [] ∨ cString path = [slash] then some 0
  else
    match V.resolve path with
    | none => none
    | some (dc, fn) =>
      if fn 0 = 0 then some dc
      else
        match V.find dc fn with
        | some (0, _) => none
        | some (_ + 1, e) => if e.IsDir then some e.firstCluster else none
        | none => if stack.IsDir then some stack.firstCluster else none

theorem acts_listDir (V : Volume) (dir : ℕ) : ∀ n i,
    Acts (listDir dir i n) V (V.listFrom dir i n) V
  | 0, _ => .pure _ _
  | n + 1, i => by
    refine (acts_dirReadEntry V dir i).bind ?_
    simp only [Volume.listFrom]
    cases V.slot dir i with
    | none => exact .pure _ _
    | some e =>
      dsimp only
      split_ifs
      · exact .pure _ _
      · exact acts_listDir V dir n (i + 1)
      · exact (acts_listDir V dir n (i + 1)).bind (.pure _ _)

theorem acts_lsDir (V : Volume) (stack : DirEntry) (path : Path) :
    Acts (lsDir stack path) V (V.lsDir stack path) V := by
  unfold lsDir Volume.lsDir
  refine .ite (fun h => ?_) fun h => ?_
  · rw [if_pos h]
    exact .pure _ _
  · rw [if_neg h]
    refine (acts_resolvePath V path).bind ?_
    cases V.resolve path with
    | none => exact .pure _ _
    | some p =>
      obtain ⟨dc, fn⟩ := p
      dsimp only
      split
      · exact .pure _ _
      · refine (acts_findInDir V dc fn).bind ?_
        rcases V.find dc fn with - | ⟨- | i, e⟩ <;> exact .pure _ _

theorem acts_fat12Ls (V : Volume) (stack : DirEntry) (path : Path) :
    Acts (fat12Ls stack path) V
      ((V.lsDir stack path).map fun dir => V.listFrom dir 0 (V.geo.maxEnts dir)) V := by
  refine (acts_lsDir V stack path).bind ?_
  cases V.lsDir stack path with
  | none => exact .pure _ _
  | some dir => exact (acts_geometry V).bind ((acts_listDir V dir _ 0).bind (.pure _ _))

end WarkRune.Fat12

import WarkRune.Fat12.Casing
import WarkRune.Fat12.Files
import WarkRune.Fat12.RoundTrip

/-!
# Creating a file in two tries

A name is tried as it is typed, and then in upper case. The second try succeeds where the first one
did not: a directory whose clusters are full is extended by the first one, which fails all the same.
Whichever succeeds, the descriptor is for a new file under the name.

## Main definitions

* `NewFile V U path gd`: beside the files of the volume before, a descriptor holds a new file
* `CreatesCase`: the outcome of the two tries
* `Volume.GetsSearched`: the slot of the new entry is one that searches look at

## Main results

* `CreatesCase.newFile`: the file that the two tries create, and the slot of its entry
-/

namespace WarkRune.Fat12

open Volume (Filing)

/-- Beside a sound volume `B` with the files of `V`, the descriptor `gd` holds a new file, whose
entry is in slot `i` of the directory `dir` that the path leads to. -/
structure NewFile (V U B : Volume) (P : ℕ → ℕ → Prop) (path : Path) (gd : ℤ) (dir i : ℕ)
    (t : Name) : Prop where
  sound : B.Sound P
  names : V.Names path dir t
  dirAt : B.DirAt dir
  filing : B.Filing U dir i (newEntry t attrArch 0) gd [] []
  files : ∀ q d k e m data, V.HasFile q d k e m data →
    B.HasFile q d k e m data ∧ U.HasFile q d k e m data ∧ (d, k) ≠ (dir, i)

/-- A new entry gets a slot that searches look at: one that is free, or, where a second try is made,
one of the cluster that the first one adds. -/
def Volume.GetsSearched (V : Volume) (dir : ℕ) (twice : Prop) : Prop :=
  V.HasFreeSlot dir ∨ twice ∧ V.slot dir (subdirMaxEnts - V.geo.perCluster) = none

/-- A descriptor is returned for the path, or else, if a second try is made, for a path that leads
to the same name. -/
inductive CreatesCase (V : Volume) (path : Path) (twice : Prop) (gd : ℤ) (U : Volume) : Prop
  | first (hc : Creates V path gd U)
  | second {g : ℤ} {V₁ : Volume} {q : Path} (htwice : twice) (h₁ : Creates V path g V₁) (hg : g < 0)
      (hq : ∀ W : Volume, W.resolve q = W.resolve path) (hc : Creates V₁ q gd U)

variable {V V₁ U : Volume} {P : ℕ → ℕ → Prop} {path q : Path} {gd g : ℤ} {dir i : ℕ} {t : Name}

/-! ## The outcome of a try -/

theorem Volume.New.congr (hr : V.resolve q = V.resolve path) (h : V.New path dir t) :
    V.New q dir t := ⟨⟨hr.trans h.1.1, h.1.2⟩, h.2⟩

/-- Creating looks at the path through its resolution only. -/
theorem Creates.congr (hr : V.resolve q = V.resolve path) (hc : Creates V path gd U) :
    Creates V q gd U := by
  cases hc with
  | refused h => exact .refused fun dir t ht => h dir t (ht.congr hr.symm)
  | noSlot h hs => exact .noSlot (h.congr hr) hs
  | noEntry h hs hl => exact .noEntry (h.congr hr) hs hl
  | entry h hs hl => exact .entry (h.congr hr) hs hl

/-- A path has one outcome. -/
theorem Creates.det (hc : Creates V path g V₁) (hc' : Creates V path gd U) : gd = g ∧ U = V₁ := by
  obtain ⟨s, hr, hv, -⟩ := acts_fat12Create hc V.driver V.driver_working rfl
  obtain ⟨s', hr', hv', -⟩ := acts_fat12Create hc' V.driver V.driver_working rfl
  obtain ⟨he, rfl⟩ := hr.det hr'
  exact ⟨he.symm, hv'.symm.trans hv⟩

/-- A descriptor that is returned was free. -/
theorem Creates.freeFd (hc : Creates V path gd U) (hgd : 0 ≤ gd) : V.freeFd ≠ none := by
  intro hnone
  cases hc with
  | refused | noSlot | noEntry => exact absurd hgd (by decide)
  | entry hn hs hl =>
    rw [Volume.openFd_of_none] at hgd
    · exact absurd hgd (show ¬ (0 : ℤ) ≤ -1 by decide)
    · rwa [Volume.freeFd_congr (Volume.setSlot_fds ..), Volume.freeFd_congr hs.fds]

/-- **A try that failed** with a descriptor to spare has at most extended the directory, and the
slot it got is not there. -/
theorem Creates.failed (hc : Creates V path g V₁) (hg : g < 0) (hfree : V₁.freeFd ≠ none)
    (hn : V.New path dir t) :
    ∃ r, TakesSlot V dir r V₁ ∧ ∀ i, r = some i → V₁.slotLoc dir i = none := by
  cases hc with
  | refused hno => exact absurd hn (hno dir t)
  | noSlot hn' hs =>
    obtain ⟨rfl, rfl⟩ := hn'.det hn
    exact ⟨none, hs, nofun⟩
  | noEntry hn' hs hl =>
    obtain ⟨rfl, rfl⟩ := hn'.det hn
    refine ⟨_, hs, fun j hj => ?_⟩
    rwa [← Option.some.inj hj]
  | @entry dir i t V' hn' hs hl =>
    cases hfd : (V'.setSlot dir i (newEntry t attrArch 0)).freeFd with
    | none =>
      rw [Volume.openFd_of_none hfd] at hfree
      exact absurd hfd hfree
    | some n =>
      rw [Volume.openFd_eq hfd] at hg
      exact absurd hg (Int.not_lt.mpr (Int.natCast_nonneg n))

/-! ## The directory -/

namespace Extends

variable {c : ℕ} {l : List ℕ} (hx : Extends V V₁ dir c l)
include hx

theorem maxEnts : V.geo.maxEnts dir = subdirMaxEnts := by
  rw [Geometry.maxEnts, if_neg (hx.chain.ok_of_mem hx.chain.head_mem).ne_zero]

theorem not_hasFreeSlot : ¬ V.HasFreeSlot dir := by
  intro hfree
  obtain ⟨i, hi⟩ := Volume.hasFreeSlot_iff.mp hfree
  exact absurd (hi.symm.trans hx.full) nofun

/-- **Searches look at the slots that are added** exactly when the slot that is returned is not
there. -/
theorem searched_iff (hg : V.geo.Laid) (twice : Prop) :
    V.GetsSearched dir twice ↔ twice ∧ ¬ (V₁.slot dir subdirMaxEnts).isSome = true := by
  rw [Volume.GetsSearched, or_iff_right hx.not_hasFreeSlot, hx.slot_isSome hg,
    ← Option.not_isSome_iff_eq_none, hx.chain.slot_isSome hg, Nat.add_mul, Nat.one_mul]
  have hpc : V.geo.perCluster ≤ 255 * 16 := Nat.mul_le_mul_right 16 hg.secPerClus_le
  have hmax : subdirMaxEnts = 10000 := rfl
  apply and_congr_right fun _ => not_congr _
  omega

/-- The directory has free slots then. -/
theorem hasFreeSlot (hg : V.geo.Laid) (hs : ¬ (V₁.slot dir subdirMaxEnts).isSome = true) :
    V₁.HasFreeSlot dir := by
  have hpos := Geometry.perCluster_pos hg
  rw [hx.slot_isSome hg, Nat.not_lt, Nat.add_mul, Nat.one_mul] at hs
  refine ⟨l.length * V.geo.perCluster, ?_, .zero, ?_, .inl rfl⟩
  · rw [hx.frame.geo, hx.maxEnts]
    omega
  · rw [hx.slot, if_neg (Nat.lt_irrefl _), if_pos]
    exact Nat.mul_lt_mul_of_pos_right (Nat.lt_succ_self _) hpos

end Extends

/-! ## The new file -/

/-- **The file that a try creates**: its entry is in the free slot, or behind those searched. -/
theorem Creates.newFile (h : V.Sound P) (hc : Creates V path gd U) (hgd : 0 ≤ gd) :
    ∃ B dir i t, NewFile V U B P path gd dir i t ∧
      (B.New path dir t ∧ B.freeSlot dir = some i ∧ B = V ∨
        B.geo.maxEnts dir ≤ i ∧ ∀ twice, ¬ V.GetsSearched dir twice) := by
  cases hc with
  | refused | noSlot | noEntry => exact absurd hgd (by decide)
  | @entry dir i t B hn hs hl =>
    obtain ⟨hB, hdir, hF, hfiles⟩ := hs.filing h hn hl rfl hgd
    have hnew : NewFile V _ B P path _ dir i t := ⟨hB, hn.1, hdir, hF, hfiles⟩
    refine ⟨B, dir, i, t, hnew, ?_⟩
    -- the slot was free, or the directory has been extended
    rcases hs.cases h hn.dirAt.1 with ⟨rfl, hi⟩ | ⟨c, l, hi, -, hx⟩
    · exact .inl ⟨hn, hi.symm, rfl⟩
    · obtain rfl := Option.some.inj hi
      refine .inr ⟨?_, fun twice hsearch => ?_⟩
      · rw [hx.frame.geo, hx.maxEnts]
      · refine ((hx.searched_iff h.laid twice).mp hsearch).2 ?_
        rwa [Volume.slot, Option.isSome_map]

/-- **The second try succeeds** where the first one has extended the directory. -/
theorem Creates.extends (h : V.Sound P) (h₁ : Creates V path g V₁) (hg : g < 0)
    (hq : ∀ W : Volume, W.resolve q = W.resolve path) (hc : Creates V₁ q gd U) (hgd : 0 ≤ gd) :
    ∃ dir t r c l, V.New path dir t ∧ TakesSlot V dir r V₁ ∧ Extends V V₁ dir c l ∧
      ¬ (V₁.slot dir subdirMaxEnts).isSome = true := by
  -- a try that changed nothing would fail again
  have hchanged : V₁ ≠ V := by
    rintro rfl
    obtain ⟨rfl, -⟩ := h₁.det (hc.congr (hq V₁).symm)
    exact absurd hg (Int.not_lt.mpr hgd)
  obtain ⟨dir, t, hn⟩ : ∃ dir t, V.New path dir t := by
    by_contra hno
    push Not at hno
    exact hchanged (h₁.det (.refused hno)).2.symm
  obtain ⟨r, hs, hloc⟩ := h₁.failed hg (hc.freeFd hgd) hn
  rcases hs.cases h hn.dirAt.1 with ⟨hsame, -⟩ | ⟨c, l, hr, -, hx⟩
  · exact absurd hsame hchanged
  · refine ⟨dir, t, r, c, l, hn, hs, hx, ?_⟩
    rw [Volume.slot, Option.isSome_map, hloc _ hr]
    exact Bool.false_ne_true

/-- **The file that two tries create**: its entry is in a slot that is free once the directory is
extended, or behind those searched. -/
theorem CreatesCase.newFile {twice : Prop} (h : V.Sound P) (hc : CreatesCase V path twice gd U)
    (hgd : 0 ≤ gd) :
    ∃ B dir i t, NewFile V U B P path gd dir i t ∧
      (B.New path dir t ∧ B.freeSlot dir = some i ∧ V.GetsSearched dir twice ∨
        B.geo.maxEnts dir ≤ i ∧ ∀ twice, ¬ V.GetsSearched dir twice) := by
  cases hc with
  | first hc =>
    obtain ⟨B, dir, i, t, hnew, hslot⟩ := hc.newFile h hgd
    refine ⟨B, dir, i, t, hnew, hslot.imp_left ?_⟩
    rintro ⟨hn, hi, rfl⟩
    exact ⟨hn, hi, .inl (Volume.hasFreeSlot_iff.mpr ⟨i, hi⟩)⟩
  | @second g V₁ q htwice h₁ hg hq hc =>
    obtain ⟨dir, t, r, c, l, hn, hs, hx, hnone⟩ := h₁.extends h hg hq hc hgd
    have hkeeps := hs.keeps h hn.dirAt.1
    obtain ⟨B, dir', i, u, hnew, hslot⟩ := hc.newFile hkeeps.2.1 hgd
    have hsame := (hq V₁).trans (hs.resolve h hn.dirAt.1 hn.1.1)
    obtain ⟨rfl, rfl⟩ := Prod.mk.inj (Option.some.inj (hsame.symm.trans hnew.names.1))
    refine ⟨B, dir, i, t, ⟨hnew.sound, hn.1, hnew.dirAt, hnew.filing, ?_⟩, .inl ?_⟩
    · exact fun q d k e m data hf => hnew.files q d k e m data (hs.hasFile h hn.dirAt.1 hf)
    · rcases hslot with ⟨hnB, hi, -⟩ | ⟨-, hno⟩
      · exact ⟨hnB.congr (hq B).symm, hi, (hx.searched_iff h.laid twice).mpr ⟨htwice, hnone⟩⟩
      · exact absurd (.inl (hx.hasFreeSlot h.laid hnone)) (hno True)

/-- **The directories beside the file that a try creates** are those that were there before. -/
theorem Creates.filing_dirs (h : V.Sound P) (hc : Creates V path gd U) (hgd : 0 ≤ gd) :
    ∃ (B : Volume) (dir i : ℕ) (t : Name), B.Sound P ∧ B.DirAt dir ∧
      B.Filing U dir i (newEntry t attrArch 0) gd [] [] ∧ ∀ d, V.DirAt d → B.DirAt d := by
  cases hc with
  | refused | noSlot | noEntry => exact absurd hgd (by decide)
  | @entry dir i t B hn hs hl =>
    obtain ⟨hB, hdir, hF, -⟩ := hs.filing h hn hl rfl hgd
    exact ⟨B, dir, i, t, hB, hdir, hF, fun d hd => (hs.keeps h hn.dirAt.1).1.dirAt.mpr hd⟩

/-- **The directories beside the file that two tries create.** -/
theorem CreatesCase.filing_dirs {twice : Prop} (h : V.Sound P) (hc : CreatesCase V path twice gd U)
    (hgd : 0 ≤ gd) : ∃ (B : Volume) (dir i : ℕ) (t : Name), B.Sound P ∧ B.DirAt dir ∧
      B.Filing U dir i (newEntry t attrArch 0) gd [] [] ∧ ∀ d, V.DirAt d → B.DirAt d := by
  cases hc with
  | first hc => exact hc.filing_dirs h hgd
  | second htwice h₁ hg hq hc =>
    obtain ⟨dir, t, r, c, l, hn, hs, -, -⟩ := h₁.extends h hg hq hc hgd
    have hkeeps := hs.keeps h hn.dirAt.1
    obtain ⟨B, dir', i, u, hB, hdir, hF, hdirs⟩ := hc.filing_dirs hkeeps.2.1 hgd
    exact ⟨B, dir', i, u, hB, hdir, hF, fun d hd => hdirs d (hkeeps.1.dirAt.mpr hd)⟩

/-- **Another path to the name** has the same outcome, if it gets its second try where that is
needed. -/
theorem CreatesCase.congr {twice twice' : Prop} (h : V.Sound P)
    (hc : CreatesCase V path twice gd U) (hgd : 0 ≤ gd)
    (hr : ∀ W : Volume, W.resolve q = W.resolve path) (hn : V.Names path dir t)
    (hs : V.GetsSearched dir twice') : CreatesCase V q twice' gd U := by
  cases hc with
  | first hc => exact .first (hc.congr (hr V))
  | @second g V₁ q' htwice h₁ hg hq hc =>
    obtain ⟨dir', t', r, c, l, hn', -, hx, -⟩ := h₁.extends h hg hq hc hgd
    obtain ⟨rfl, rfl⟩ := hn.det hn'.1
    -- the directory has no free slot, so there is a second try
    have htwice' := (hs.resolve_left hx.not_hasFreeSlot).1
    exact .second htwice' (h₁.congr (hr V)) hg (fun W => (hq W).trans (hr W).symm) hc

end WarkRune.Fat12

import WarkRune.Fat12.GiveBack
import WarkRune.Fat12.Listing
import WarkRune.Fat12.Unique

/-!
# What was created is found

A file that was created and closed is opened again, and a directory that was made is listed, if the
entry lies where it is looked for: in a slot that was found free, and not behind those searched,
with a name that does not mark it deleted, and, for the listing of a directory, not in slot 0.

## Main definitions

* `Reopens`: once closed, the path is opened as an empty file
* `ListsEmpty`: the path is listed as an empty directory

## Main results

* `reopens_iff`, `listsEmpty_iff`: when a file, or a directory, that was created is found
* `created_found_iff`: exactly when files and directories that were created are found
-/

namespace WarkRune.Fat12

/-- Once the descriptor is closed, the path is opened again, as a file of size 0. -/
def Reopens (path : Path) (fd : ℤ) (s₁ : Driver) : Prop :=
  ∃ (s₂ : Driver) (fd' : ℤ) (s₃ : Driver), (fat12Close fd).Returns s₁ () s₂ ∧
    (fat12Open path).Returns s₂ fd' s₃ ∧ 0 ≤ fd' ∧ (fat12Size fd').Returns s₃ 0 s₃

/-- The path is listed as an empty directory, whatever was left on the stack. -/
def ListsEmpty (path : Path) (s₁ : Driver) : Prop :=
  ∀ stack, ∃ s₂ : Driver, (fat12Ls stack path).Returns s₁ (some []) s₂

namespace Volume

variable {V U : Volume} {path : Path} {dir i d : ℕ} {t : Name} {e : DirEntry}

/-- A path with a last name that finds nothing is listed as the stack has it. -/
theorem lsResult_of_not_finds (hn : V.Names path dir t) (hno : ∀ d i e, ¬ U.Finds path d i e) :
    U.lsResult .zero path = none := by
  obtain ⟨-, hl, -⟩ := names_iff.mp hn
  rcases U.resolve_cases path with hr | ⟨d, u, hr, h0⟩ | ⟨d, u, hnew⟩ | ⟨d, i, e, hf⟩
  · rw [lsResult, lsDir_of_resolve hr]
    rfl
  · obtain ⟨-, rfl⟩ := resolve_eq_some.mp hr
    rw [lastName, if_neg hl] at h0
    exact absurd h0 (name83_ne_zero _)
  · rw [lsResult, lsDir_of_new hnew, if_neg (by decide)]
    rfl
  · exact absurd hf (hno d i e)

/-- A directory with zeroed slots has nothing to list. -/
theorem listFrom_of_zero (hz : ∀ j x, V.slot d j = some x → x = .zero) (n : ℕ) :
    V.listFrom d 0 n = [] := by
  cases n with
  | zero => rfl
  | succ n =>
    rw [listFrom]
    cases hs : V.slot d 0 with
    | none => rfl
    | some x =>
      obtain rfl := hz 0 x hs
      exact if_pos rfl

/-- The free slot that is found is not slot 0 when that one is taken. -/
theorem freeSlot_ne_zero_iff (hi : V.freeSlot dir = some i) :
    i ≠ 0 ↔ ∀ e, V.slot dir 0 = some e → e.name 0 ≠ dirEnd ∧ e.name 0 ≠ dirFree := by
  obtain ⟨-, ⟨x, hx, hdead⟩, hbefore⟩ := freeSlot_spec hi
  constructor
  · intro h0 e he
    obtain ⟨y, hy, hlive⟩ := hbefore 0 (Nat.pos_of_ne_zero h0)
    obtain rfl := Option.some.inj (hy.symm.trans he)
    exact hlive
  · rintro htaken rfl
    obtain ⟨hend, hfree⟩ := htaken x hx
    exact hdead.elim hend hfree

end Volume

variable {s s₁ : Driver} {path : Path} {dir i : ℕ} {t : Name} {P : ℕ → ℕ → Prop} (hw : s.Working)
  (h : s.vol.Sound P) (hn : s.vol.New path dir t)
include hw h hn

/-! ## Files -/

/-- **A new file is found again** exactly when its slot is searched and its name does not mark it
deleted. -/
theorem reopens_iff {fd : ℤ} (hc : (fat12Create path).Returns s fd s₁) (hfd : 0 ≤ fd) :
    Reopens path fd s₁ ↔ (∃ i, s.vol.freeSlot dir = some i) ∧ t 0 ≠ dirFree := by
  have hw₁ := (creates_of_returns hc hw).2
  constructor
  · rintro ⟨s₂, fd', s₃, hcl, hopen, hfd', -⟩
    have hw₂ := ((acts_fat12Close s₁.vol fd).eq_of_returns hw₁ rfl hcl).2.2
    have hsome : ¬ ∀ d i e, ¬ s₂.vol.Finds path d i e := by
      intro hno
      obtain ⟨rfl, -⟩ := (acts_fat12Open (.missing hno)).eq_of_returns hw₂ rfl hopen
      exact absurd hfd' (by decide)
    constructor
    · by_contra hfull
      have hfull := Option.eq_none_iff_forall_ne_some.mpr fun i hi => hfull ⟨i, hi⟩
      exact hsome (not_finds_of_full hw h hn hfull hc hfd hcl).2
    · exact fun hfree => hsome (Volume.not_finds_of_dirFree hn.1 hfree)
  · rintro ⟨⟨i, hi⟩, hfree⟩
    obtain ⟨s₂, hcl, -⟩ := acts_fat12Close s₁.vol fd s₁ hw₁ rfl
    obtain ⟨fd', s₃, hopen, hfd', hback⟩ := roundTrips_of_freeSlot hw h hn hi hfree hc hfd []
      s₁ s₂ (Exec.returns_pure.mpr ⟨rfl, rfl⟩) hcl
    exact ⟨s₂, fd', s₃, hcl, hopen, hfd', hback.size⟩

/-! ## Directories -/

/-- **A new directory is listed as empty** exactly when its slot is searched and is not slot 0, and
its name does not mark it deleted. -/
theorem listsEmpty_iff (hm : (fat12Mkdir path).Returns s true s₁) :
    ListsEmpty path s₁ ↔ (∃ i, s.vol.freeSlot dir = some i ∧ i ≠ 0) ∧ t 0 ≠ dirFree := by
  obtain ⟨hmk, hw₁⟩ := mkdirs_of_returns hm hw
  constructor
  · intro hls
    have hres : s₁.vol.lsResult .zero path = some [] := by
      obtain ⟨s₂, hr⟩ := hls .zero
      exact ((acts_fat12Ls s₁.vol .zero path).eq_of_returns hw₁ rfl hr).1.symm
    -- with a file on the stack, a path that finds nothing is not listed
    have hsome : ¬ ∀ d i e, ¬ s₁.vol.Finds path d i e := by
      intro hno
      rw [Volume.lsResult_of_not_finds hn.1 hno] at hres
      cases hres
    have hfree : t 0 ≠ dirFree := fun hfree => hsome (Volume.not_finds_of_dirFree hn.1 hfree)
    refine ⟨?_, hfree⟩
    cases hi : s.vol.freeSlot dir with
    | none => exact absurd (hmk.not_finds h hn hi) hsome
    | some i =>
      refine ⟨i, rfl, ?_⟩
      rintro rfl
      obtain ⟨c, hc, hv⟩ := hmk.freeSlot h hn hi
      have hp := (placed_takeDir h hn.dirAt.1 hi hc (newEntry t attrDir c)).1
      have hf := hp.finds hn hi hfree (DirEntry.name_newEntry ..) (masked_newEntry_dir t c)
      rw [hv, Volume.lsResult, Volume.lsDir_of_finds hf] at hres
      cases hres
  · rintro ⟨⟨i, hi, h0⟩, hfree⟩ stack
    obtain ⟨c, hc, hv⟩ := hmk.freeSlot h hn hi
    obtain ⟨hp, hclus, hzero⟩ := placed_takeDir h hn.dirAt.1 hi hc (newEntry t attrDir c)
    have hf := hp.finds hn hi hfree (DirEntry.name_newEntry ..) (masked_newEntry_dir t c)
    have hfirst : (newEntry t attrDir c).firstCluster = c := by
      rw [DirEntry.firstCluster_newEntry, Nat.mod_eq_of_lt (Volume.clusters_lt (hp.laid h) hclus)]
    rw [← hv] at hf hzero
    obtain ⟨s₂, hr, -⟩ := acts_fat12Ls s₁.vol stack path s₁ hw₁ rfl
    rw [Volume.lsDir_of_finds hf, if_pos ⟨h0, DirEntry.isDir_newEntry t c⟩, hfirst, Option.map_some,
      Volume.listFrom_of_zero hzero] at hr
    exact ⟨s₂, hr⟩

omit hw h hn

/-- **What was created is found** exactly when its slot is one that is looked at. On a well-formed
volume, a path along which `fat12_create` returned a descriptor is opened again with size 0 once
that is closed if and only if its directory had a free slot among those that are searched and the
name does not begin with the deletion mark; one along which `fat12_mkdir` succeeded is listed as
empty if and only if, besides, slot 0 of its directory was taken. -/
theorem created_found_iff {s : Driver} {path : Path} (hw : s.Working) (h : s.vol.WellFormed) :
    (∀ (fd : ℤ) (s₁ : Driver), (fat12Create path).Returns s fd s₁ → 0 ≤ fd →
      (Reopens path fd s₁ ↔ ∃ dir t, s.vol.Names path dir t ∧ s.vol.HasFreeSlot dir ∧
        t 0 ≠ dirFree)) ∧
    ∀ s₁ : Driver, (fat12Mkdir path).Returns s true s₁ →
      (ListsEmpty path s₁ ↔ ∃ dir t, s.vol.Names path dir t ∧ s.vol.HasFreeSlot dir ∧
        t 0 ≠ dirFree ∧
        ∀ e, s.vol.slot dir 0 = some e → e.name 0 ≠ dirEnd ∧ e.name 0 ≠ dirFree) := by
  constructor
  · intro fd s₁ hc hfd
    obtain ⟨dir, t, hn⟩ := (creates_of_returns hc hw).1.exists_new hfd
    rw [reopens_iff hw h.sound hn hc hfd]
    constructor
    · rintro ⟨hi, hfree⟩
      exact ⟨dir, t, hn.1, Volume.hasFreeSlot_iff.mpr hi, hfree⟩
    · rintro ⟨d, u, hn', hslot, hfree⟩
      obtain ⟨rfl, rfl⟩ := hn'.det hn.1
      exact ⟨Volume.hasFreeSlot_iff.mp hslot, hfree⟩
  · intro s₁ hm
    obtain ⟨dir, t, hn⟩ := (mkdirs_of_returns hm hw).1.exists_new
    rw [listsEmpty_iff hw h.sound hn hm]
    constructor
    · rintro ⟨⟨i, hi, h0⟩, hfree⟩
      exact ⟨dir, t, hn.1, Volume.hasFreeSlot_iff.mpr ⟨i, hi⟩, hfree,
        (Volume.freeSlot_ne_zero_iff hi).mp h0⟩
    · rintro ⟨d, u, hn', hslot, hfree, htaken⟩
      obtain ⟨rfl, rfl⟩ := hn'.det hn.1
      obtain ⟨i, hi⟩ := Volume.hasFreeSlot_iff.mp hslot
      exact ⟨⟨i, hi, (Volume.freeSlot_ne_zero_iff hi).mpr htaken⟩, hfree⟩

/-- The theorem at a file created in an empty root directory, and at a directory made next to a
file. -/
theorem created_found_root :
    (∃ (fd : ℤ) (s₁ : Driver), (fat12Create [70]).Returns (rootVolume []).driver fd s₁ ∧
      Reopens [70] fd s₁) ∧
    ∃ s₁ : Driver, (fat12Mkdir [68]).Returns (fileF attrArch).driver true s₁ ∧
      ListsEmpty [68] s₁ := by
  have hcreate : ((fat12Create [70]).run 30 (rootVolume []).driver).map (fun p => p.1) =
      some 0 := by decide +kernel
  have hmkdir : ((fat12Mkdir [68]).run 30 (fileF attrArch).driver).map (fun p => p.1) =
      some true := by decide +kernel
  obtain ⟨⟨fd, s₁⟩, hrun, rfl⟩ := Option.map_eq_some_iff.mp hcreate
  obtain ⟨⟨b, s₂⟩, hrun', rfl⟩ := Option.map_eq_some_iff.mp hmkdir
  constructor
  · refine ⟨0, s₁, ⟨30, hrun⟩, ((created_found_iff (rootVolume []).driver_working
      (rootVolume_wellFormed nofun)).1 0 s₁ ⟨30, hrun⟩ le_rfl).mpr ⟨0, name83 [70],
        Volume.names_component (by decide), ?_, by decide⟩⟩
    exact ⟨0, by decide, .zero, rootVolume_slot 0, .inl rfl⟩
  · refine ⟨s₂, ⟨30, hrun'⟩, ((created_found_iff (fileF attrArch).driver_working
      (fileF_names attrArch (by decide)).1).2 s₂ ⟨30, hrun'⟩).mpr ⟨0, name83 [68],
        Volume.names_component (by decide), ?_, by decide, fun e he => ?_⟩⟩
    · exact ⟨1, by decide, .zero, rootVolume_slot 1, .inl rfl⟩
    · obtain rfl := Option.some.inj ((rootVolume_slot 0).symm.trans he)
      exact ⟨by decide, by decide⟩

/-- **A directory made in slot 0 of the root directory cannot be listed**: `fat12_ls` returns
false. -/
theorem mkdir_slotZero : (rootVolume []).WellFormed ∧
    ∃ s₁ : Driver, (fat12Mkdir [68]).Returns (rootVolume []).driver true s₁ ∧
      ∃ s₂ : Driver, (fat12Ls .zero [68]).Returns s₁ none s₂ := by
  have hrun : ((do
      let b ← fat12Mkdir [68]
      let r ← fat12Ls .zero [68]
      return (b, r.isNone) : Fat (Bool × Bool)).run 30 (rootVolume []).driver).map
        (fun p => p.1) = some (true, true) := by decide +kernel
  obtain ⟨⟨x, s₂⟩, hr, rfl⟩ := Option.map_eq_some_iff.mp hrun
  obtain ⟨b, s₁, hm, hrest⟩ := Exec.returns_bind.mp ⟨30, hr⟩
  obtain ⟨r, s', hls, hpure⟩ := Exec.returns_bind.mp hrest
  obtain ⟨heq, rfl⟩ := Exec.returns_pure.mp hpure
  obtain ⟨rfl, hnone⟩ := Prod.mk.inj heq
  obtain rfl := Option.isNone_iff_eq_none.mp hnone.symm
  exact ⟨rootVolume_wellFormed nofun, s₁, hm, s₂, hls⟩

end WarkRune.Fat12

import WarkRune.Fat12.RoundTrip

/-!
# What was created is given back

A file is created, written and closed, and then deleted; a directory is made and then removed. If
the directory of the new entry had a free slot where it was searched for one, the clusters that
were free are free again, and the live entries are those there were.

## Main definitions

* `Volume.GivenBack V V'`: the same clusters are free, and the same entries are live

## Main results

* `Placed.givenBack`: freeing the clusters of an entry and marking it deleted gives everything back
* `givesBack_iff`: files and directories are given back exactly when a free slot was found
-/

namespace WarkRune.Fat12

namespace Volume

/-- The same clusters are free, and the same entries are live. -/
structure GivenBack (V V' : Volume) : Prop where
  geo : V'.geo = V.geo
  free : ∀ x, V.geo.InData x → (V'.fat x = fat12Free ↔ V.fat x = fat12Free)
  live : ∀ d i e, V'.DirAt d ∧ V'.Live d i e ↔ V.DirAt d ∧ V.Live d i e

variable {V U W : Volume} {P : ℕ → ℕ → Prop} {dir i c : ℕ} {e : DirEntry} {l : List ℕ}

/-- **Freeing the clusters of an entry and marking it deleted** gives everything back. -/
theorem Placed.givenBack (h : V.Sound P) (hz : V.ZeroTail) (hd : V.DirAt dir)
    (hi : V.freeSlot dir = some i) (p : V.Placed U dir i e l) (hc : U.Clusters c l)
    (hf : Frees U c W) :
    (W.slotLoc dir i).isSome = true ∧ V.GivenBack (W.setSlot dir i (e.setFirst dirFree)) := by
  have hfreed := (p.free h hc hf).1
  have hsome : (W.slot dir i).isSome = true := by
    rw [hfreed.self hd]
    rfl
  have hstored := hfreed.store h hd (e.setFirst dirFree)
  have hend : (e.setFirst dirFree).name 0 ≠ dirEnd := by
    rw [DirEntry.name_setFirst]
    decide
  obtain ⟨-, ⟨y, hy, hyfree⟩, -⟩ := freeSlot_spec hi
  have hold := h.rewrites_freeSlot hd hz hi hend
  have hlive : V.SameLive (W.setSlot dir i (e.setFirst dirFree)) := by
    intro d hdd j x
    have r : V.Rewrites (W.setSlot dir i (e.setFirst dirFree)) dir i (e.setFirst dirFree) :=
      ⟨hd, hstored.slot, hend, hold.shown, hold.tail⟩
    rw [r.live_iff hdd]
    split_ifs with hdj
    · obtain ⟨rfl, rfl⟩ := hdj
      refine iff_of_false (fun hx => DirEntry.setFirst_not_named _ hx.2) fun hx => ?_
      obtain rfl := Option.some.inj (hy.symm.trans hx.1)
      exact hyfree.elim hx.2.1.1 hx.2.1.2.1
    · rfl
  refine ⟨by rwa [Volume.slot, Option.isSome_map] at hsome, hstored.geo, fun x hx => ?_,
    fun d j x => ?_⟩
  · rw [hstored.fat x hx List.not_mem_nil]
  · constructor
    · rintro ⟨hdd, hx⟩
      have hdd' := hlive.dirAt.mp hdd
      exact ⟨hdd', (hlive d hdd' j x).mp hx⟩
    · rintro ⟨hdd, hx⟩
      exact ⟨hlive.dirAt.mpr hdd, (hlive d hdd j x).mpr hx⟩

end Volume

open Volume (Placed)

variable {V U : Volume} {P : ℕ → ℕ → Prop} {dir i c : ℕ} {t : Name}

/-! ## Files -/

/-- After any writes through the descriptor and `fat12_close`, `fat12_delete` gives everything
back. -/
def GivesBackFile (path : Path) (fd : ℤ) (V : Volume) (s₁ : Driver) : Prop :=
  ∀ (srcs : List (List UInt8)) (rs : List ℤ) (s₂ s₃ : Driver),
    (srcs.mapM (fat12Write fd)).Returns s₁ rs s₂ → (fat12Close fd).Returns s₂ () s₃ →
    ∃ s₄ : Driver, (fat12Delete path).Returns s₃ true s₄ ∧ V.GivenBack s₄.vol

/-- A search finds the entry stored in the free slot. -/
theorem Volume.Placed.finds {path : Path} {e : DirEntry} {l : List ℕ} (hn : V.New path dir t)
    (hi : V.freeSlot dir = some i) (hfree : t 0 ≠ dirFree) (p : V.Placed U dir i e l)
    (he : e.name = t) (hmask : ¬ e.Masked) : U.Finds path dir i e := by
  have hshows := Volume.shows_of_slot hn hi he hmask hfree p.geo p.slot
  refine ⟨t, ⟨hshows.resolves, hn.1.2⟩, ?_⟩
  apply Volume.find_added hn.2 hi p.geo (fun j => ?_) he hmask hn.1.2 hfree
  rw [p.slot dir hn.dirAt.1]
  simp only [true_and]

section Create

variable {s s₁ : Driver} {path : Path} {fd : ℤ} (hw : s.Working) (h : s.vol.Sound P)
include hw h

/-- **A file created in a free slot is given back.** -/
theorem givesBackFile_of_freeSlot (hz : s.vol.ZeroTail) (hp : Ascii path)
    (hn : s.vol.New path dir t) (hi : s.vol.freeSlot dir = some i)
    (hc : (fat12Create path).Returns s fd s₁) (hfd : 0 ≤ fd) :
    GivesBackFile path fd s.vol s₁ := by
  intro srcs rs s₂ s₃ hws hcl
  obtain ⟨c, l, hF, -, hw₃⟩ := filed_of_session hw h hn hi hc hfd hws hcl
  obtain ⟨e, he⟩ : ∃ e, e = (newEntry t attrArch 0).setRecord (accepted srcs rs).length c := ⟨_, rfl⟩
  rw [← he] at hF
  have hname : e.name = t := by rw [he, DirEntry.name_setRecord, DirEntry.name_newEntry]
  have hattr : e.attr = attrArch := by rw [he, DirEntry.attr_setRecord, DirEntry.attr_newEntry]
  have hmask : ¬ e.Masked := by
    rw [DirEntry.Masked, hattr]
    decide
  have hfile : ¬ e.IsDir := by
    rw [DirEntry.IsDir, hattr]
    decide
  obtain ⟨X, hX⟩ := frees_total s₃.vol e.firstCluster
  obtain ⟨-, hback⟩ := hF.toPlaced.givenBack h hz hn.dirAt.1 hi hF.clusters hX
  obtain ⟨s₄, hr, hv₄, -⟩ := acts_fat12Delete
    (.file (hF.toPlaced.finds hn hi (hn.1.ne_dirFree hp) hname hmask) hfile hX) s₃ hw₃ rfl
  rw [← hv₄] at hback
  exact ⟨s₄, hr, hback⟩

/-- **A file created where no free slot is found is not given back.** -/
theorem not_givesBackFile_of_full (hn : s.vol.New path dir t)
    (hfull : s.vol.freeSlot dir = none) (hc : (fat12Create path).Returns s fd s₁)
    (hfd : 0 ≤ fd) : ¬ GivesBackFile path fd s.vol s₁ := by
  intro hback
  obtain ⟨-, hw₁⟩ := creates_of_returns hc hw
  obtain ⟨s₂, hcl, -⟩ := acts_fat12Close s₁.vol fd s₁ hw₁ rfl
  obtain ⟨hw₂, hno⟩ := not_finds_of_full hw h hn hfull hc hfd hcl
  obtain ⟨s₃, hdel, -⟩ := hback [] [] s₁ s₂ (Exec.returns_pure.mpr ⟨rfl, rfl⟩) hcl
  exact absurd ((acts_fat12Delete (.missing hno)).eq_of_returns hw₂ rfl hdel).1 (by decide)

end Create

/-! ## Directories -/

/-- `fat12_rmdir` gives everything back. -/
def GivesBackDir (path : Path) (V : Volume) (s₁ : Driver) : Prop :=
  ∃ s₂ : Driver, (fat12Rmdir path).Returns s₁ true s₂ ∧ V.GivenBack s₂.vol

/-- A new name is new where the directories are as they were. -/
theorem Volume.New.of_slot {path : Path} (hn : V.New path dir t) (hgeo : U.geo = V.geo)
    (hslot : ∀ d, V.DirAt d → ∀ i, U.slot d i = V.slot d i) : U.New path dir t := by
  refine ⟨⟨?_, hn.1.2⟩, (Volume.find_eq_of_slot hgeo (hslot dir hn.dirAt.1) t).trans hn.2⟩
  apply Volume.resolve_congr _ hn.1.1
  intro d hd u k x _ hx hxd
  exact ⟨k, x, (Volume.find_eq_of_slot hgeo (hslot d hd) u).trans hx, hxd, rfl⟩

/-- A directory without entries is empty. -/
theorem isEmpty_of_zero {d : ℕ} (h0 : d ≠ 0) (hz : ∀ j x, V.slot d j = some x → x = .zero) :
    V.isEmpty d = true := by
  have hat : V.emptyAt d 0 = some true := by
    rw [Volume.emptyAt]
    cases hs : V.slot d 0 with
    | none => rfl
    | some x =>
      obtain rfl := hz 0 x hs
      rfl
  have hmax : V.geo.maxEnts d = subdirMaxEnts := by rw [Geometry.maxEnts, if_neg h0]
  rw [Volume.isEmpty, List.findSome?_range'_eq le_rfl _ hat]
  · rfl
  · intro j hj hj'
    omega
  · rw [hmax]
    decide

/-- **The directory made is empty**, in the free cluster that was taken. -/
theorem placed_takeDir (h : V.Sound P) (hd : V.DirAt dir) (hi : V.freeSlot dir = some i)
    (hc : V.freeCluster = some c) (e : DirEntry) :
    V.Placed ((V.takeDir c).setSlot dir i e) dir i e [c] ∧
      ((V.takeDir c).setSlot dir i e).Clusters c [c] ∧
      ∀ j x, ((V.takeDir c).setSlot dir i e).slot c j = some x → x = .zero := by
  obtain ⟨-, ⟨y, hy, -⟩, -⟩ := Volume.freeSlot_spec hi
  obtain ⟨hgrow, hchain, -⟩ := Volume.grown_first h.laid hc
  have hzero := (takeDir_frame h.laid (Volume.freeCluster_spec hc).1).2.2
  have p := (Placed.refl hy).grow h hgrow
  refine ⟨p.store h hd e, p.store_clusters h hd e (.inr hchain), fun j x hx => ?_⟩
  obtain ⟨m, hm⟩ := h.dirChain hd
  obtain ⟨hm', hout⟩ := p.dirChain hm
  have hne : c ≠ dir := by
    rintro rfl
    have hm := hm.resolve_left fun h0 => (Volume.freeCluster_spec hc).1.ne_zero h0.1
    exact hout c hm.head_mem (List.mem_singleton.mpr rfl)
  rw [Volume.slot_setSlot (p.laid h) hm' (by rw [p.self hd]; rfl) (.inr hchain)
    (fun x hx hxc => absurd hxc (hout x hx)), if_neg fun he => hne he.1] at hx
  exact hzero j x hx

section Mkdir

variable {W : Volume} {path : Path} (h : V.Sound P) (hn : V.New path dir t)
include h hn

/-- **A directory made in the free slot that is found.** -/
theorem Mkdirs.freeSlot (hm : Mkdirs V path true W) (hi : V.freeSlot dir = some i) :
    ∃ c, V.freeCluster = some c ∧ W = (V.takeDir c).setSlot dir i (newEntry t attrDir c) := by
  generalize hr : true = r at hm
  cases hm with
  | refused hno => exact absurd hn (hno dir t)
  | diskFull | noSlot => cases hr
  | @entry _ c j _ V₂ hn' hc hs =>
    obtain ⟨rfl, rfl⟩ := hn'.det hn
    obtain ⟨hslot, -⟩ := takeDir_keeps (k := 0) (h.forget (Q := Volume.noOthers) nofun) hc fun _ => id
    have hi' := (Volume.freeSlot_eq_of_slot (V.takeDir_geo c) (hslot dir hn.dirAt.1)).trans hi
    cases hs with
    | extend hf => rw [hi'] at hf; cases hf
    | slot hf =>
      obtain rfl := Option.some.inj (hi'.symm.trans hf)
      exact ⟨c, hc, rfl⟩

/-- **A directory made where no free slot is found is lost**: its path leads nowhere. -/
theorem Mkdirs.not_finds (hm : Mkdirs V path true W) (hfull : V.freeSlot dir = none) :
    ∀ d j x, ¬ W.Finds path d j x := by
  generalize hr : true = r at hm
  cases hm with
  | refused hno => exact absurd hn (hno dir t)
  | diskFull | noSlot => cases hr
  | @entry _ c j _ V₂ hn' hc hs =>
    obtain ⟨rfl, rfl⟩ := hn'.det hn
    obtain ⟨hslot, hsound, -⟩ :=
      takeDir_keeps (k := 0) (h.forget (Q := Volume.noOthers) nofun) hc fun _ => id
    have hnew := hn.of_slot (V.takeDir_geo c) hslot
    have hfull' :=
      (Volume.freeSlot_eq_of_slot (V.takeDir_geo c) (hslot dir hn.dirAt.1)).trans hfull
    have hdir : dir ≠ 0 := by
      cases hs with
      | slot hf => rw [hfull'] at hf; cases hf
      | extend _ hd => exact hd
    apply TakesSlot.not_finds hsound hnew hdir hfull' hs hr.symm _ fun _ _ => rfl
    rw [Volume.setSlot_geo, (hs.keeps hsound hnew.dirAt.1).2.2.2.2.1]

end Mkdir

section Mkdir

variable {s s₁ : Driver} {path : Path} (hw : s.Working) (h : s.vol.Sound P)
include hw h

/-- **A directory made in a free slot is given back.** -/
theorem givesBackDir_of_freeSlot (hz : s.vol.ZeroTail) (hp : Ascii path)
    (hn : s.vol.New path dir t) (hi : s.vol.freeSlot dir = some i)
    (hm : (fat12Mkdir path).Returns s true s₁) : GivesBackDir path s.vol s₁ := by
  obtain ⟨hmk, hw₁⟩ := mkdirs_of_returns hm hw
  obtain ⟨c, hc, hv⟩ := hmk.freeSlot h hn hi
  obtain ⟨hp', hclus, hzero⟩ := placed_takeDir h hn.dirAt.1 hi hc (newEntry t attrDir c)
  have hfirst : (newEntry t attrDir c).firstCluster = c := by
    rw [DirEntry.firstCluster_newEntry, Nat.mod_eq_of_lt (Volume.clusters_lt (hp'.laid h) hclus)]
  have hfinds := hp'.finds hn hi (hn.1.ne_dirFree hp) (DirEntry.name_newEntry ..)
    (masked_newEntry_dir t c)
  obtain ⟨X, hX⟩ := frees_total ((s.vol.takeDir c).setSlot dir i (newEntry t attrDir c)) c
  obtain ⟨hloc, hback⟩ := hp'.givenBack h hz hn.dirAt.1 hi hclus hX
  have hrm := Rmdirs.done hfinds (DirEntry.isDir_newEntry t c)
    (by rw [hfirst]; exact isEmpty_of_zero (Volume.freeCluster_spec hc).1.ne_zero hzero)
    (by rwa [hfirst])
  rw [hloc] at hrm
  obtain ⟨s₂, hr, hv₂, -⟩ := acts_fat12Rmdir hrm s₁ hw₁ hv
  rw [← hv₂] at hback
  exact ⟨s₂, hr, hback⟩

/-- **A directory made where no free slot is found is not given back.** -/
theorem not_givesBackDir_of_full (hn : s.vol.New path dir t)
    (hfull : s.vol.freeSlot dir = none) (hm : (fat12Mkdir path).Returns s true s₁) :
    ¬ GivesBackDir path s.vol s₁ := by
  rintro ⟨s₂, hrm, -⟩
  obtain ⟨hmk, hw₁⟩ := mkdirs_of_returns hm hw
  have hno := hmk.not_finds h hn hfull
  exact absurd ((acts_fat12Rmdir (.missing hno)).eq_of_returns hw₁ rfl hrm).1 (by decide)

end Mkdir

/-- A directory is made for a new name only. -/
theorem Mkdirs.exists_new {path : Path} (h : Mkdirs V path true U) : ∃ dir t, V.New path dir t := by
  generalize hr : true = r at h
  cases h with
  | refused | diskFull | noSlot => cases hr
  | entry hn => exact ⟨_, _, hn⟩

/-- **What was created is given back** exactly when its directory had a free slot among those that
are searched. On a well-formed volume whose slots behind end markers are zero, an ASCII path along
which `fat12_create` returned a descriptor is deleted after any writes through it and
`fat12_close`, and one along which `fat12_mkdir` succeeded is removed by `fat12_rmdir`; the same
clusters are free then as before, and the same entries are live. -/
theorem givesBack_iff {s : Driver} {path : Path} (hw : s.Working) (h : s.vol.WellFormed)
    (hz : s.vol.ZeroTail) (hp : Ascii path) :
    (∀ (fd : ℤ) (s₁ : Driver), (fat12Create path).Returns s fd s₁ → 0 ≤ fd →
      (GivesBackFile path fd s.vol s₁ ↔
        ∃ dir t, s.vol.Names path dir t ∧ s.vol.HasFreeSlot dir)) ∧
    ∀ s₁ : Driver, (fat12Mkdir path).Returns s true s₁ →
      (GivesBackDir path s.vol s₁ ↔
        ∃ dir t, s.vol.Names path dir t ∧ s.vol.HasFreeSlot dir) := by
  constructor
  · intro fd s₁ hc hfd
    obtain ⟨dir, t, hn⟩ := (creates_of_returns hc hw).1.exists_new hfd
    rw [hn.hasFreeSlot_iff]
    constructor
    · intro hback
      -- in a full directory a cluster was added, which nothing gives back
      by_contra hno
      exact not_givesBackFile_of_full hw h.sound hn (Option.eq_none_iff_forall_ne_some.mpr
        fun i hi => hno ⟨i, hi⟩) hc hfd hback
    · rintro ⟨i, hi⟩
      exact givesBackFile_of_freeSlot hw h.sound hz hp hn hi hc hfd
  · intro s₁ hm
    obtain ⟨dir, t, hn⟩ := (mkdirs_of_returns hm hw).1.exists_new
    rw [hn.hasFreeSlot_iff]
    constructor
    · intro hback
      by_contra hno
      exact not_givesBackDir_of_full hw h.sound hn (Option.eq_none_iff_forall_ne_some.mpr
        fun i hi => hno ⟨i, hi⟩) hm hback
    · rintro ⟨i, hi⟩
      exact givesBackDir_of_freeSlot hw h.sound hz hp hn hi hm

/-- The theorem at a file and at a directory created in an empty root directory. -/
theorem givesBack_root :
    (∃ (fd : ℤ) (s₁ : Driver), (fat12Create [70]).Returns (rootVolume []).driver fd s₁ ∧
      GivesBackFile [70] fd (rootVolume []) s₁) ∧
    ∃ s₁ : Driver, (fat12Mkdir [70]).Returns (rootVolume []).driver true s₁ ∧
      GivesBackDir [70] (rootVolume []) s₁ := by
  have hcreate : ((fat12Create [70]).run 30 (rootVolume []).driver).map (fun p => p.1) =
      some 0 := by decide +kernel
  have hmkdir : ((fat12Mkdir [70]).run 30 (rootVolume []).driver).map (fun p => p.1) =
      some true := by decide +kernel
  obtain ⟨⟨fd, s₁⟩, hrun, rfl⟩ := Option.map_eq_some_iff.mp hcreate
  obtain ⟨⟨b, s₂⟩, hrun', rfl⟩ := Option.map_eq_some_iff.mp hmkdir
  have hfree : ∃ dir t, (rootVolume []).Names [70] dir t ∧ (rootVolume []).HasFreeSlot dir :=
    ⟨0, (to83 [70]).2, ⟨resolve_letter _ (by decide) (by decide), by decide⟩,
      0, by decide, .zero, rootVolume_slot 0, .inl rfl⟩
  have hascii : Ascii [70] := by decide
  obtain ⟨hfile, hdir⟩ := givesBack_iff (rootVolume []).driver_working
    (rootVolume_wellFormed (List.forall_mem_nil _))
    (rootVolume_zeroTail (List.forall_mem_nil _) (List.forall_mem_nil _)) hascii
  exact ⟨⟨0, s₁, ⟨30, hrun⟩, (hfile 0 s₁ ⟨30, hrun⟩ le_rfl).mpr hfree⟩,
    s₂, ⟨30, hrun'⟩, (hdir s₂ ⟨30, hrun'⟩).mpr hfree⟩

theorem longDirVolume_zeroTail : longDirVolume.ZeroTail := by
  apply longDirVolume_oneDir.zeroTail
  intro i e he hend
  rw [longDirVolume_slot] at he
  split_ifs at he
  obtain rfl := Option.some.inj he
  exact absurd hend (by decide)

/-- **A file that is not given back**: `D/X` is created in the directory without a free slot. -/
theorem givesBack_longDirectory : longDirVolume.WellFormed ∧ longDirVolume.ZeroTail ∧
    Ascii [68, 47, 88] ∧
    ∃ (fd : ℤ) (s₁ : Driver), (fat12Create [68, 47, 88]).Returns longDirVolume.driver fd s₁ ∧
      0 ≤ fd ∧ ¬ GivesBackFile [68, 47, 88] fd longDirVolume s₁ := by
  obtain ⟨fd, s₁, hc, hfd⟩ := create_longDirectory
  exact ⟨longDirVolume_wellFormed, longDirVolume_zeroTail, by decide, fd, s₁, hc, hfd,
    not_givesBackFile_of_full longDirVolume.driver_working longDirVolume_wellFormed.sound
      longDirVolume_new longDirVolume_full hc hfd⟩

end WarkRune.Fat12

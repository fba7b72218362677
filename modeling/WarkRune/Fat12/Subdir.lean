import WarkRune.Fat12.Atomic

/-!
# Entries added to subdirectories

`fat12_create` and `fat12_mkdir` put an entry into the first slot of a directory that is deleted or
an end marker. A following search finds it, and everything it found before. When none of the slots
searched is free, the directory is extended by a cluster, but the slot that is returned lies behind
all slots that a search looks at.

## Main definitions

* `Volume.Shows`: a path leads to the new entry, and the searches of its directory find what they
  found
* `Volume.Spare`: two free clusters and a descriptor remain

## Main results

* `create_shows_iff`, `mkdir_shows_iff`: when the operation shows the new entry
* `subdirectory_grows`: this holds of what the operations return
* `create_fullDirectory`: a full directory in which no file can be created
-/

namespace WarkRune.Fat12

open Volume (Finds New)

variable {V V' : Volume}

namespace Volume

/-- The path leads to the entry `e` of the directory `dir`, which has the name `t`, and a search of
the directory finds what it found. -/
structure Shows (V V' : Volume) (path : Path) (dir : ℕ) (t : Name) (e : DirEntry) : Prop where
  resolves : V'.resolve path = some (dir, t)
  found : ∃ i, V'.find dir t = some (i, e)
  kept : ∀ u i x, V.find dir u = some (i, x) → V'.find dir u = some (i, x)

/-- Two free clusters and a free descriptor remain. -/
structure Spare (V : Volume) : Prop where
  clusters : ∃ c d, c ≠ d ∧ (V.geo.InData c ∧ V.fat c = fat12Free) ∧
    V.geo.InData d ∧ V.fat d = fat12Free
  fd : V.freeFd ≠ none

theorem Spare.freeCluster (h : V.Spare) : ∃ c, V.freeCluster = some c := by
  obtain ⟨c, -, -, ⟨hc, hfree⟩, -⟩ := h.clusters
  apply Option.ne_none_iff_exists'.mp
  intro hnone
  exact freeCluster_eq_none.mp hnone c hc hfree

/-! ## Searches and slots -/

theorem findAt_of_slot {d j : ℕ} (h : V'.slot d j = V.slot d j) (t : Name) :
    V'.findAt d t j = V.findAt d t j := by
  unfold findAt
  rw [h]

/-- A search that finds nothing passes over every entry before the first end marker. -/
theorem findAt_of_find_eq_none {d k : ℕ} {t : Name} (h : V.find d t = none)
    (hk : k < V.geo.maxEnts d) (hsh : ∀ j ≤ k, ∃ e, V.slot d j = some e ∧ e.name 0 ≠ dirEnd) :
    V.findAt d t k = none := by
  induction k using Nat.strong_induction_on with
  | _ k ih =>
    have hpre : ∀ j < k, V.findAt d t j = none := fun j hj =>
      ih j hj (hj.trans hk) fun m hm => hsh m (hm.trans hj.le)
    obtain ⟨e, he, hend⟩ := hsh k le_rfl
    rw [findAt_eq_none]
    refine ⟨e, he, hend, ?_⟩
    by_contra hno
    simp only [not_or, Bool.not_eq_false] at hno
    obtain ⟨hfree, hmask, hmatch⟩ := hno
    have hfound : V.find d t = some (k, e) :=
      find_eq_some_iff.mpr ⟨hk, findAt_eq_some.mpr ⟨rfl, he, hend, hfree, hmask, hmatch⟩, hpre⟩
    rw [h] at hfound
    cases hfound

section Added

variable {dir i : ℕ} {t : Name} {e : DirEntry} (hfind : V.find dir t = none)
  (hi : V.freeSlot dir = some i) (hgeo : V'.geo = V.geo)
  (hslot : ∀ j, V'.slot dir j = if j = i then some e else V.slot dir j)
include hfind hi hgeo hslot

/-- **The entry in the slot found is what a search for its name finds**, unless its name marks it
deleted. -/
theorem find_added (he : e.name = t) (hmask : ¬ e.Masked) (h0 : t 0 ≠ dirEnd)
    (hfree : t 0 ≠ dirFree) : V'.find dir t = some (i, e) := by
  obtain ⟨hlt, -, hpre⟩ := freeSlot_spec hi
  apply find_eq_some_iff.mpr
  refine ⟨by rwa [show V'.geo.maxEnts dir = V.geo.maxEnts dir by rw [hgeo]], ?_, fun j hj => ?_⟩
  · apply findAt_eq_some.mpr
    refine ⟨rfl, by rw [hslot, if_pos rfl], by rwa [he], by rwa [he], hmask, ?_⟩
    rw [he]
    exact match83_self t
  · rw [findAt_of_slot ((hslot j).trans (if_neg hj.ne))]
    apply findAt_of_find_eq_none hfind (hj.trans hlt)
    intro m hm
    obtain ⟨x, hx, hend, -⟩ := hpre m (hm.trans_lt hj)
    exact ⟨x, hx, hend⟩

/-- **What a search found, it still finds.** -/
theorem find_kept (he : e.name = t) (h0 : t 0 ≠ dirEnd) {u : Name} {k : ℕ} {x : DirEntry}
    (h : V.find dir u = some (k, x)) : V'.find dir u = some (k, x) := by
  obtain ⟨hlt, hat, hbefore⟩ := find_eq_some_iff.mp h
  obtain ⟨-, ⟨y, hy, hdead⟩, -⟩ := freeSlot_spec hi
  obtain ⟨-, hx, hend, hnot, hmask, hmatch⟩ := findAt_eq_some.mp hat
  have hki : k ≠ i := by
    rintro rfl
    obtain rfl := Option.some.inj (hx.symm.trans hy)
    exact hdead.elim hend hnot
  apply find_congr hgeo h
  · rwa [findAt_of_slot ((hslot k).trans (if_neg hki))]
  intro j hj hnone
  by_cases hji : j = i
  · subst hji
    apply findAt_eq_none.mpr
    refine ⟨e, by rw [hslot, if_pos rfl], by rwa [he], .inr (.inr ?_)⟩
    -- otherwise the entry found has the new name, which was not there
    by_contra hm
    rw [Bool.not_eq_false, he] at hm
    have hxt : match83 x.name t = true := match83_trans hmatch (by rwa [match83_comm])
    have hthere : V.findAt dir t k = none := by
      apply findAt_of_find_eq_none hfind hlt
      intro m hm
      rcases hm.lt_or_eq with hm | rfl
      · obtain ⟨z, hz, hzend, -⟩ := findAt_eq_none.mp (hbefore m hm)
        exact ⟨z, hz, hzend⟩
      · exact ⟨x, hx, hend⟩
    have hthere' := findAt_eq_some.mpr ⟨rfl, hx, hend, hnot, hmask, hxt⟩
    rw [hthere] at hthere'
    cases hthere'
  · rwa [findAt_of_slot ((hslot j).trans (if_neg hji))]

end Added

/-- **An entry in a slot behind those searched is not found**, nor is one in the zeroed slots of an
extension. -/
theorem find_full {dir : ℕ} {t : Name} (hfind : V.find dir t = none)
    (hfull : V.freeSlot dir = none) (hgeo : V'.geo = V.geo)
    (hslot : ∀ j < V.geo.maxEnts dir, ∀ x, V'.slot dir j = some x →
      V.slot dir j = some x ∨ x = .zero) : V'.find dir t = none := by
  by_contra hsome
  obtain ⟨⟨k, x⟩, h⟩ := Option.ne_none_iff_exists'.mp hsome
  obtain ⟨hlt, hat, -⟩ := find_eq_some_iff.mp h
  rw [hgeo] at hlt
  obtain ⟨-, hx, hend, hnot, hmask, hmatch⟩ := findAt_eq_some.mp hat
  rcases hslot k hlt x hx with hx | rfl
  · have hnone : V.findAt dir t k = none := by
      apply findAt_of_find_eq_none hfind hlt
      intro j hj
      obtain ⟨y, hy⟩ := exists_slot_of_le hj (Option.isSome_of_mem hx)
      exact ⟨y, hy, (freeSlot_eq_none hfull (hj.trans_lt hlt) hy).1⟩
    rw [findAt_eq_some.mpr ⟨rfl, hx, hend, hnot, hmask, hmatch⟩] at hnone
    cases hnone
  · exact hend rfl

/-- **An entry added in the slot found is shown.** -/
theorem shows_of_slot {path : Path} {dir i : ℕ} {t : Name} {e : DirEntry}
    (hn : V.New path dir t) (hi : V.freeSlot dir = some i) (he : e.name = t)
    (hmask : ¬ e.Masked) (hfree : t 0 ≠ dirFree) (hgeo : V'.geo = V.geo)
    (hslot : ∀ d, V.DirAt d → ∀ j,
      V'.slot d j = if d = dir ∧ j = i then some e else V.slot d j) :
    V.Shows V' path dir t e := by
  have hself : ∀ j, V'.slot dir j = if j = i then some e else V.slot dir j := by
    intro j
    rw [hslot dir hn.dirAt.1]
    simp only [true_and]
  have hkept : ∀ u k x, V.find dir u = some (k, x) → V'.find dir u = some (k, x) :=
    fun _ _ _ => find_kept hn.2 hi hgeo hself he hn.1.2
  refine ⟨?_, ⟨i, find_added hn.2 hi hgeo hself he hmask hn.1.2 hfree⟩, hkept⟩
  apply resolve_congr _ hn.1.1
  intro d hd u k x _ hx hdir
  by_cases hdd : d = dir
  · exact ⟨k, x, hdd ▸ hkept u k x (hdd ▸ hx), hdir, rfl⟩
  · have hsame : V'.find d u = V.find d u := by
      apply find_eq_of_slot hgeo
      intro j
      rw [hslot d hd, if_neg fun h => hdd h.1]
    exact ⟨k, x, hsame.trans hx, hdir, rfl⟩

end Volume

theorem masked_newEntry_arch (t : Name) (c : ℕ) : ¬ (newEntry t attrArch c).Masked := by
  rw [DirEntry.Masked, DirEntry.attr_newEntry]
  decide

theorem masked_newEntry_dir (t : Name) (c : ℕ) : ¬ (newEntry t attrDir c).Masked := by
  rw [DirEntry.Masked, DirEntry.attr_newEntry]
  decide

section Grows

variable {P : ℕ → ℕ → Prop} (h : V.Sound P) {path : Path} {dir : ℕ} {t : Name}
include h

/-- **An entry stored where a full directory is extended is not found.** -/
theorem TakesSlot.find_eq_none {i : ℕ} {e : DirEntry} (hd : V.DirAt dir) (hdir : dir ≠ 0)
    (hfind : V.find dir t = none) (hfull : V.freeSlot dir = none)
    (hs : TakesSlot V dir (some i) V') : (V'.setSlot dir i e).find dir t = none := by
  rcases hs.cases h hd with ⟨-, hi⟩ | ⟨c, l, hi, -, hx⟩
  · rw [hfull] at hi
    cases hi
  obtain rfl := Option.some.inj hi
  have hd' := (hx.sameLive h hd).dirAt.mpr hd
  have hmax : V.geo.maxEnts dir = subdirMaxEnts := by rw [Geometry.maxEnts, if_neg hdir]
  apply Volume.find_full hfind hfull
  · rw [Volume.setSlot_geo, hx.frame.geo]
  intro j hj x hjx
  have hslot : (V'.setSlot dir subdirMaxEnts e).slot dir j = V'.slot dir j := by
    by_cases hloc : (V'.slot dir subdirMaxEnts).isSome = true
    · rw [(hx.grow h hd).1.slot_stored hd' hloc hd', if_neg fun h => by omega]
    · rw [setSlot_of_none]
      rwa [Volume.slot, Option.isSome_map, Bool.not_eq_true, Option.isSome_eq_false_iff,
        Option.isNone_iff_eq_none] at hloc
  rw [hslot, hx.slot] at hjx
  split_ifs at hjx
  · exact .inl hjx
  · exact .inr (Option.some.inj hjx).symm

variable (hn : V.New path dir t) (hdir : dir ≠ 0)
include hn hdir

/-- **`fat12_create` shows the new file exactly when a free slot is found** and the name does not
mark the entry deleted. -/
theorem create_shows_iff (hfd : V.freeFd ≠ none) :
    (∃ fd V', Creates V path fd V' ∧ 0 ≤ fd ∧ V.Shows V' path dir t (newEntry t attrArch 0)) ↔
      V.freeSlot dir ≠ none ∧ t 0 ≠ dirFree := by
  constructor
  · rintro ⟨fd, V', hc, h0, hshows⟩
    obtain ⟨k, hfind⟩ := hshows.found
    -- in a full directory the entry is stored behind the slots that searches look at
    refine ⟨fun hfull => ?_, ?_⟩
    · cases hc with
      | refused hno => exact hno dir t hn
      | noSlot | noEntry => exact absurd h0 (by decide)
      | @entry _ i _ V₁ hn' hs hl =>
        obtain ⟨rfl, rfl⟩ := hn'.det hn
        have hnone := TakesSlot.find_eq_none h (e := newEntry t attrArch 0) hn.dirAt.1 hdir hn.2
          hfull hs
        have hd := Volume.sameDisk_openFd (V₁.setSlot dir i (newEntry t attrArch 0)) 0 0 dir i
        rw [Volume.find_eq_of_slot hd.geo (hd.slot dir), hnone] at hfind
        cases hfind
    · have hfree := (Volume.findAt_eq_some.mp (Volume.find_eq_some_iff.mp hfind).2.1).2.2.2.1
      rwa [DirEntry.name_newEntry] at hfree
  · rintro ⟨hslot, hfree⟩
    obtain ⟨i, hi⟩ := Option.ne_none_iff_exists'.mp hslot
    obtain ⟨fd, hfd⟩ := Option.ne_none_iff_exists'.mp hfd
    have hloc := Volume.slotLoc_of_freeSlot hi
    refine ⟨_, _, .entry hn (.slot hi) hloc, ?_, ?_⟩
    · rw [Volume.openFd, Volume.freeFd_congr (Volume.setSlot_fds ..), hfd]
      exact Int.natCast_nonneg fd
    · have hd := Volume.sameDisk_openFd (V.setSlot dir i (newEntry t attrArch 0)) 0 0 dir i
      apply Volume.shows_of_slot hn hi (DirEntry.name_newEntry ..) (masked_newEntry_arch t 0) hfree
      · rw [hd.geo, Volume.setSlot_geo]
      intro d hdd j
      rw [hd.slot]
      exact h.slot_stored hn.dirAt.1 (by rwa [Volume.slot, Option.isSome_map]) hdd j

/-- **`fat12_mkdir` shows the new directory under the same condition.** -/
theorem mkdir_shows_iff {c : ℕ} (hc : V.freeCluster = some c) :
    (∃ V', Mkdirs V path true V' ∧ V.Shows V' path dir t (newEntry t attrDir c)) ↔
      V.freeSlot dir ≠ none ∧ t 0 ≠ dirFree := by
  replace h := h.forget (Q := Volume.noOthers) nofun
  obtain ⟨hslot₁, h₁, -⟩ := takeDir_keeps (k := 0) h hc fun _ => id
  have hd₁ := (Volume.SameLive.of_slot hslot₁).dirAt.mpr hn.dirAt.1
  have hgeo₁ := V.takeDir_geo c
  have hfind₁ : (V.takeDir c).find dir t = none :=
    (Volume.find_eq_of_slot hgeo₁ (hslot₁ dir hn.dirAt.1) t).trans hn.2
  have hfree₁ := Volume.freeSlot_eq_of_slot hgeo₁ (hslot₁ dir hn.dirAt.1)
  constructor
  · rintro ⟨V', hm, hshows⟩
    obtain ⟨k, hfind⟩ := hshows.found
    -- in a full directory the entry is stored behind the slots that searches look at
    refine ⟨fun hfull => ?_, ?_⟩
    · generalize hr : true = r at hm
      cases hm with
      | refused hno => exact hno dir t hn
      | diskFull hno => rw [hc] at hno; cases hno
      | noSlot => cases hr
      | entry hn' hc' hs =>
        obtain ⟨rfl, rfl⟩ := hn'.det hn
        obtain rfl := Option.some.inj (hc.symm.trans hc')
        rw [TakesSlot.find_eq_none h₁ hd₁ hdir hfind₁ (hfree₁.trans hfull) hs] at hfind
        cases hfind
    · have hfree := (Volume.findAt_eq_some.mp (Volume.find_eq_some_iff.mp hfind).2.1).2.2.2.1
      rwa [DirEntry.name_newEntry] at hfree
  · rintro ⟨hslot, hfree⟩
    obtain ⟨i, hi⟩ := Option.ne_none_iff_exists'.mp hslot
    have hi₁ := hfree₁.trans hi
    have hloc := Volume.slotLoc_of_freeSlot hi₁
    have hm := Mkdirs.entry hn hc (.slot hi₁)
    rw [hloc] at hm
    refine ⟨_, hm, ?_⟩
    apply Volume.shows_of_slot hn hi (DirEntry.name_newEntry ..) (masked_newEntry_dir t c) hfree
    · rw [Volume.setSlot_geo, hgeo₁]
    intro d hdd j
    rw [h₁.slot_stored hd₁ (by rwa [Volume.slot, Option.isSome_map])
      ((Volume.SameLive.of_slot hslot₁).dirAt.mpr hdd) j, hslot₁ d hdd]

end Grows

/-- **New entries of subdirectories are shown exactly when a free slot is found** and the name does
not mark the entry deleted: on a sound volume with two free clusters and a free descriptor. -/
theorem subdirectory_grows {s : Driver} (hw : s.Working) {P : ℕ → ℕ → Prop} (h : s.vol.Sound P)
    {path : Path} {dir : ℕ} {t : Name} (hn : s.vol.New path dir t) (hdir : dir ≠ 0)
    (hspare : s.vol.Spare) :
    ((∃ (fd : ℤ) (s' : Driver), (fat12Create path).Returns s fd s' ∧ 0 ≤ fd ∧
        s.vol.Shows s'.vol path dir t (newEntry t attrArch 0)) ↔
      s.vol.freeSlot dir ≠ none ∧ t 0 ≠ dirFree) ∧
    ((∃ (c : ℕ) (s' : Driver), (fat12Mkdir path).Returns s true s' ∧ s.vol.freeCluster = some c ∧
        s.vol.Shows s'.vol path dir t (newEntry t attrDir c)) ↔
      s.vol.freeSlot dir ≠ none ∧ t 0 ≠ dirFree) := by
  obtain ⟨c, hc⟩ := hspare.freeCluster
  constructor
  · rw [← create_shows_iff h hn hdir hspare.fd]
    constructor
    · rintro ⟨fd, s', hr, h0, hshows⟩
      exact ⟨fd, s'.vol, (creates_of_returns hr hw).1, h0, hshows⟩
    · rintro ⟨fd, V', hcr, h0, hshows⟩
      obtain ⟨s', hr, rfl, -⟩ := acts_fat12Create hcr s hw rfl
      exact ⟨fd, s', hr, h0, hshows⟩
  · rw [← mkdir_shows_iff h hn hdir hc]
    constructor
    · rintro ⟨c', s', hr, hc', hshows⟩
      obtain rfl := Option.some.inj (hc.symm.trans hc')
      exact ⟨s'.vol, (mkdirs_of_returns hr hw).1, hshows⟩
    · rintro ⟨V', hm, hshows⟩
      obtain ⟨s', hr, rfl, -⟩ := acts_fat12Mkdir hm s hw rfl
      exact ⟨c, s', hr, hc, hshows⟩

/-! ## Volumes with one subdirectory -/

/-- The only live entry is that of the directory `D` in slot 0 of the root directory, whose clusters
are `l`. -/
structure Volume.OneDir (V : Volume) (l : List ℕ) : Prop where
  root : ∀ i e, V.slot 0 i = some e → i = 0 ∧ e = letterEntry 68 attrDir 2 ∨ e = .zero
  sub : ∀ i e, V.slot 2 i = some e → ¬ e.Named
  chain : V.Chain 2 l

namespace Volume.OneDir

variable {l : List ℕ} (h : V.OneDir l)
include h

theorem live {d i : ℕ} {e : DirEntry} (hd : d = 0 ∨ d = 2) (he : V.Live d i e) :
    d = 0 ∧ i = 0 ∧ e = letterEntry 68 attrDir 2 := by
  rcases hd with rfl | rfl
  · rcases h.root i e he.1 with ⟨hi, he⟩ | rfl
    · exact ⟨rfl, hi, he⟩
    · exact absurd he.2.1 DirEntry.zero_not_named
  · exact absurd he.2.1 (h.sub i e he.1)

theorem dirAt {d : ℕ} (hd : V.DirAt d) : d = 0 ∨ d = 2 := by
  induction hd with
  | refl => exact .inl rfl
  | tail _ hx ih =>
    obtain ⟨i, e, he, -, rfl⟩ := hx
    obtain ⟨-, -, rfl⟩ := h.live ih he
    exact .inr (by decide)

theorem heads {p : ℕ × ℕ} {c : ℕ} (hc : V.Heads p c) : p = (0, 0) ∧ c = 2 := by
  obtain ⟨hd, e, he, rfl, -⟩ := hc
  obtain ⟨h₁, h₂, rfl⟩ := h.live (h.dirAt hd) he
  exact ⟨Prod.ext h₁ h₂, by decide⟩

theorem wellFormed (hacc : V.geo.Accepted) (hcopies : V.geo.numFats = 2)
    (hfits : V.geo.FatFits) : V.WellFormed where
  accepted := hacc
  copies := .inr hcopies
  fatFits := hfits
  owned := by
    refine ⟨fun hc => ?_, fun {p q x} hp hq => ?_⟩
    · obtain ⟨-, rfl⟩ := h.heads hc
      exact ⟨l, h.chain⟩
    · obtain ⟨c, -, hc, -⟩ := hp
      obtain ⟨c', -, hc', -⟩ := hq
      exact (h.heads hc).1.trans (h.heads hc').1.symm
  head_ne {d i e} hd he _ := by
    obtain ⟨-, -, rfl⟩ := h.live (h.dirAt hd) he
    decide

theorem zeroTail (hend : ∀ i e, V.slot 2 i = some e → e.name 0 = dirEnd →
    ∀ j > i, ∀ x, V.slot 2 j = some x → x = .zero) : V.ZeroTail := by
  intro d hd i e he hee j hj x hx
  rcases h.dirAt hd with rfl | rfl
  · refine (h.root j x hx).resolve_left fun hx => ?_
    omega
  · exact hend i e he hee j hj x hx

/-- A path that leads to the directory leads to a new name in it. -/
theorem new {path : Path} {t : Name} (hr : V.resolve path = some (2, t)) (h0 : t 0 ≠ 0)
    (hdot : t 0 ≠ dot) : V.New path 2 t := by
  refine ⟨⟨hr, h0⟩, ?_⟩
  by_contra hsome
  obtain ⟨⟨i, e⟩, hfind⟩ := Option.ne_none_iff_exists'.mp hsome
  exact absurd (h.live (.inr rfl) (find_live hdot hfind).1).1 (by decide)

end Volume.OneDir

/-- What a run returns is what the program computes. -/
theorem Acts.eq_of_run {α : Type} {V V' : Volume} {m : Fat α} {n : ℕ} {a r : α}
    (hm : Acts m V a V') (h : (m.run n V.driver).map (fun p => p.1) = some r) : a = r := by
  obtain ⟨⟨r', s'⟩, hrun, rfl⟩ := Option.map_eq_some_iff.mp h
  exact (hm.eq_of_returns V.driver_working rfl ⟨n, hrun⟩).1.symm

/-- What a run of `resolve_path` returns is where the path leads. -/
theorem resolve_of_run {path : Path} {n : ℕ} {r : Option (ℕ × Name)}
    (h : ((resolvePath path).run n V.driver).map (fun p => p.1) = some r) : V.resolve path = r :=
  (acts_resolvePath V path).eq_of_run h

/-- The directory `D` in slot 0 of the root directory. The sixteen entries of its cluster are
filled with the byte `b`. -/
def subdirVolume (b : UInt8) : Volume :=
  .build smallGeometry (fun c => if c ≤ 2 then 0xFFF else 0)
    (fun i => if i = 0 then letterEntry 68 attrDir 2 else .zero) fun _ _ _ => b

theorem subdirVolume_fat {b : UInt8} {c : ℕ} (hc : c ≤ 21) :
    (subdirVolume b).fat c = if c ≤ 2 then 0xFFF else 0 :=
  build_fat smallGeometry_plain _ _ _ (fun c => by split <;> decide) hc

theorem subdirVolume_chain (b : UInt8) : (subdirVolume b).Chain 2 [2] := by
  apply Links.Chain.last
  · exact (by decide : smallGeometry.InData 2)
  · rw [subdirVolume_fat (by decide)]
    decide

/-- The slots of the root directory of a built volume. -/
theorem build_rootSlot {g : Geometry} (hg : g.Plain) (tbl : ℕ → ℕ) (root : ℕ → DirEntry)
    (data : ℕ → ℕ → Sector) {i : ℕ} {e : DirEntry}
    (h : (Volume.build g tbl root data).slot 0 i = some e) : e = root i := by
  obtain ⟨p, hp, rfl⟩ := (Volume.build g tbl root data).slot_eq_some_iff.mp h
  rw [Volume.place, if_pos rfl] at hp
  split_ifs at hp with hi
  obtain rfl := Option.some.inj hp
  exact build_rootEntry hg _ _ _ hi

/-- The slots of a subdirectory of a built volume. -/
theorem build_dirSlot {g : Geometry} (hg : g.Plain) (tbl : ℕ → ℕ) (root : ℕ → DirEntry)
    (data : ℕ → ℕ → Sector) {l : List ℕ} {d : ℕ} (hl : (Volume.build g tbl root data).Chain d l)
    (i : ℕ) : (Volume.build g tbl root data).slot d i = (l[i / g.perCluster]?).map fun c =>
      entryOf (data c (i % g.perCluster / 16)) (i % g.perCluster % 16) := by
  obtain ⟨V, hV⟩ : ∃ V, V = Volume.build g tbl root data := ⟨_, rfl⟩
  have hgeo : V.geo = g := by rw [hV]; rfl
  rw [← hV] at hl ⊢
  have hpc : 0 < g.perCluster := Nat.mul_pos hg.spc (by decide)
  rw [Volume.slot_eq, hl.place, hgeo]
  cases hcl : l[i / g.perCluster]? with
  | none => rfl
  | some c =>
    have hc := hl.ok_of_mem (List.mem_of_getElem? hcl)
    rw [hgeo] at hc
    have ho : i % g.perCluster / 16 < g.secPerClus :=
      Nat.div_lt_of_lt_mul (by rw [Nat.mul_comm]; exact Nat.mod_lt i hpc)
    have hb : V.sector (g.clusterLba c + i % g.perCluster / 16) = data c (i % g.perCluster / 16) := by
      rw [hV]
      exact build_cluster hg _ _ _ hc ho
    rw [Option.map_some, Option.map_some, Volume.entryAt, Place.lba, hgeo, hb]
    rfl

/-- The slots of a directory in clusters filled with the byte `b`. -/
theorem build_filledSlot {g : Geometry} (hg : g.Plain) (tbl : ℕ → ℕ) (root : ℕ → DirEntry)
    {b : UInt8} {l : List ℕ} {d : ℕ} (hl : (Volume.build g tbl root fun _ _ _ => b).Chain d l)
    (i : ℕ) : (Volume.build g tbl root fun _ _ _ => b).slot d i =
      if i < l.length * g.perCluster then some fun _ => b else none := by
  have hpc : 0 < g.perCluster := Nat.mul_pos hg.spc (by decide)
  rw [build_dirSlot hg _ _ _ hl]
  split_ifs with hi
  · rw [List.getElem?_eq_getElem (Nat.div_lt_of_lt_mul (by rwa [Nat.mul_comm]))]
    rfl
  · rw [List.getElem?_eq_none (Nat.le_div_iff_mul_le hpc |>.mpr (Nat.le_of_not_lt hi))]
    rfl

theorem subdirVolume_slot {b : UInt8} (i : ℕ) :
    (subdirVolume b).slot 2 i = if i < 16 then some fun _ => b else none :=
  build_filledSlot smallGeometry_plain _ _ (subdirVolume_chain b) i

theorem subdirVolume_oneDir {b : UInt8} (hb : ¬ DirEntry.Named fun _ => b) :
    (subdirVolume b).OneDir [2] where
  root i e he := by
    obtain rfl := build_rootSlot smallGeometry_plain _ _ _ he
    split_ifs with hi
    · exact .inl ⟨hi, rfl⟩
    · exact .inr rfl
  sub i e he := by
    rw [subdirVolume_slot] at he
    split_ifs at he
    exact Option.some.inj he ▸ hb
  chain := subdirVolume_chain b

theorem subdirVolume_wellFormed {b : UInt8} (hb : ¬ DirEntry.Named fun _ => b) :
    (subdirVolume b).WellFormed :=
  (subdirVolume_oneDir hb).wellFormed smallGeometry_accepted rfl smallGeometry_plain.fatFits

theorem subdirVolume_spare (b : UInt8) : (subdirVolume b).Spare where
  clusters := by
    refine ⟨3, 4, by decide, ⟨?_, ?_⟩, ?_, ?_⟩
    · exact (by decide : smallGeometry.InData 3)
    · exact subdirVolume_fat (by decide)
    · exact (by decide : smallGeometry.InData 4)
    · exact subdirVolume_fat (by decide)
  fd := nofun

/-- The path `D/X` leads to a new name in the subdirectory. -/
theorem subdirVolume_new {b : UInt8} (hb : b = 0 ∨ b = 0x0F) :
    (subdirVolume b).New [68, 47, 88] 2 (to83 [88]).2 := by
  have hnot : ¬ DirEntry.Named fun _ => b := by rcases hb with rfl | rfl <;> decide
  apply (subdirVolume_oneDir hnot).new _ (by decide) (by decide)
  apply resolve_of_run (n := 30)
  rcases hb with rfl | rfl <;> decide +kernel

/-- The directory `D` in slot 0 of the root directory, with the empty file `F` of the given
attributes in it. -/
def nestedVolume (attr : UInt8) : Volume :=
  .build smallGeometry (fun c => if c ≤ 2 then 0xFFF else 0)
    (fun i => if i = 0 then letterEntry 68 attrDir 2 else .zero) fun _ _ o =>
      if o < 32 then letterEntry 70 attr 0 ⟨o % 32, entryByte_lt o⟩ else 0

theorem nestedVolume_chain (attr : UInt8) : (nestedVolume attr).Chain 2 [2] := by
  apply Links.Chain.last
  · exact (by decide : smallGeometry.InData 2)
  · rw [show (nestedVolume attr).fat 2 = 0xFFF from build_fat smallGeometry_plain _ _ _
      (fun c => by split <;> decide) (by decide)]
    decide

section Nested

variable {attr : UInt8}

theorem nestedVolume_slot {i : ℕ} {e : DirEntry} (h : (nestedVolume attr).slot 2 i = some e) :
    i = 0 ∧ e = letterEntry 70 attr 0 ∨ e = .zero := by
  have hs := build_dirSlot smallGeometry_plain _ _ _ (nestedVolume_chain attr) i
  change (nestedVolume attr).slot 2 i = _ at hs
  rw [h] at hs
  have hpc : smallGeometry.perCluster = 16 := rfl
  rw [hpc] at hs
  rcases Nat.lt_or_ge i 16 with hi | hi
  · rw [Nat.div_eq_of_lt hi] at hs
    obtain rfl := Option.some.inj hs
    by_cases h0 : i = 0
    · subst h0
      refine .inl ⟨rfl, funext fun k => ?_⟩
      have hk : k.val % 32 = k.val := Nat.mod_eq_of_lt k.isLt
      simp [entryOf, hk]
    · refine .inr (funext fun k => ?_)
      have hk : ¬ i % 16 % 16 * 32 + k.val < 32 := by omega
      simp only [entryOf, hk, ↓reduceIte]
      rfl
  · rw [List.getElem?_eq_none (by simp; omega)] at hs
    cases hs

/-- The live entries are those of the directory and of the file in it. -/
theorem nestedVolume_live {d i : ℕ} {e : DirEntry} (hd : d = 0 ∨ d = 2)
    (he : (nestedVolume attr).Live d i e) :
    (d, i) = (0, 0) ∧ e = letterEntry 68 attrDir 2 ∨
      (d, i) = (2, 0) ∧ e = letterEntry 70 attr 0 := by
  rcases hd with rfl | rfl
  · obtain rfl := build_rootSlot smallGeometry_plain _ _ _ he.1
    by_cases hi : i = 0
    · exact .inl ⟨by rw [hi], if_pos hi⟩
    · have hn := he.2.1
      rw [if_neg hi] at hn
      exact absurd hn DirEntry.zero_not_named
  · rcases nestedVolume_slot he.1 with ⟨rfl, rfl⟩ | rfl
    · exact .inr ⟨rfl, rfl⟩
    · exact absurd he.2.1 DirEntry.zero_not_named

variable (hfile : ¬ (letterEntry 70 attr 0).IsDir)
include hfile

theorem nestedVolume_dirAt {d : ℕ} (hd : (nestedVolume attr).DirAt d) : d = 0 ∨ d = 2 := by
  induction hd with
  | refl => exact .inl rfl
  | tail _ hx ih =>
    obtain ⟨i, e, he, hdir, rfl⟩ := hx
    rcases nestedVolume_live ih he with ⟨-, rfl⟩ | ⟨-, rfl⟩
    · exact .inr (by decide)
    · exact absurd hdir hfile

theorem nestedVolume_heads {p : ℕ × ℕ} {c : ℕ} (hc : (nestedVolume attr).Heads p c) :
    p = (0, 0) ∧ c = 2 := by
  obtain ⟨hd, e, he, rfl, h0⟩ := hc
  rcases nestedVolume_live (nestedVolume_dirAt hfile hd) he with ⟨hp, rfl⟩ | ⟨-, rfl⟩
  · exact ⟨hp, by decide⟩
  · exact absurd (by simp [DirEntry.firstCluster, letterEntry]) h0

theorem nestedVolume_wellFormed : (nestedVolume attr).WellFormed where
  accepted := smallGeometry_accepted
  copies := .inr rfl
  fatFits := smallGeometry_plain.fatFits
  owned := by
    refine ⟨fun hc => ?_, fun {p q x} hp hq => ?_⟩
    · obtain ⟨-, rfl⟩ := nestedVolume_heads hfile hc
      exact ⟨[2], nestedVolume_chain attr⟩
    · obtain ⟨c, -, hc, -⟩ := hp
      obtain ⟨c', -, hc', -⟩ := hq
      exact (nestedVolume_heads hfile hc).1.trans (nestedVolume_heads hfile hc').1.symm
  head_ne {d i e} hd he hdir := by
    rcases nestedVolume_live (nestedVolume_dirAt hfile hd) he with ⟨-, rfl⟩ | ⟨-, rfl⟩
    · decide
    · exact absurd hdir hfile

end Nested

/-- The theorem at the creation of `X` in the empty directory `D`. -/
theorem subdirectory_grows_empty : ∃ (fd : ℤ) (s' : Driver),
    (fat12Create [68, 47, 88]).Returns (subdirVolume 0).driver fd s' ∧ 0 ≤ fd ∧
      (subdirVolume 0).Shows s'.vol [68, 47, 88] 2 (to83 [88]).2
        (newEntry (to83 [88]).2 attrArch 0) := by
  have hwf := subdirVolume_wellFormed (b := 0) (by decide)
  have h := subdirectory_grows (subdirVolume 0).driver_working hwf.sound
    (subdirVolume_new (.inl rfl)) (by decide) (subdirVolume_spare 0)
  refine h.1.mpr ⟨?_, by decide⟩
  have hslot : (subdirVolume 0).slot 2 0 = some fun _ => 0 := subdirVolume_slot 0
  have hfree := Volume.freeSlot_isSome (by decide) hslot (.inl rfl)
  exact Option.isSome_iff_ne_none.mp hfree

theorem subdirVolume_full : (subdirVolume 0x0F).freeSlot 2 = none := by
  have hstop : (subdirVolume 0x0F).freeAt 2 16 = some none := by
    rw [Volume.freeAt, subdirVolume_slot]
    rfl
  rw [Volume.freeSlot, List.findSome?_range'_eq (Nat.zero_le _) _ hstop]
  · rfl
  · intro j _ hj
    rw [Volume.freeAt, subdirVolume_slot, if_pos hj]
    rfl
  · decide

/-- **A full directory in which no file can be created**: its sixteen slots are taken, eighteen
clusters are free, and `fat12_create` fails. -/
theorem create_fullDirectory : (subdirVolume 0x0F).WellFormed ∧ (subdirVolume 0x0F).Spare ∧
    (subdirVolume 0x0F).New [68, 47, 88] 2 (to83 [88]).2 ∧
    ∃ s', (fat12Create [68, 47, 88]).Returns (subdirVolume 0x0F).driver (-1) s' := by
  have hwf := subdirVolume_wellFormed (b := 0x0F) (by decide)
  have hn := subdirVolume_new (.inr rfl)
  refine ⟨hwf, subdirVolume_spare _, hn, ?_⟩
  obtain ⟨c, hc⟩ := (subdirVolume_spare 0x0F).freeCluster
  have hlast : (subdirVolume 0x0F).LastLink 2 2 := (subdirVolume_chain 0x0F).lastLink hwf.laid
  have hs := TakesSlot.extend subdirVolume_full (by decide) hlast hc
  rcases hs.cases hwf.sound hn.dirAt.1 with ⟨-, hi⟩ | ⟨c', l, -, -, hx⟩
  · rw [subdirVolume_full] at hi
    cases hi
  have hl : l = [2] := hx.chain.unique (subdirVolume_chain 0x0F)
  have hloc : ((subdirVolume 0x0F).linkAfter 2 c).slotLoc 2 subdirMaxEnts = none := by
    have hno := hx.slot_isSome hwf.laid
    rw [hl, Volume.slot, Option.isSome_map] at hno
    rw [← Option.not_isSome_iff_eq_none, hno]
    decide
  obtain ⟨s', hr, -⟩ := acts_fat12Create (.noEntry hn hs hloc) _
    (subdirVolume 0x0F).driver_working rfl
  exact ⟨s', hr⟩

end WarkRune.Fat12

import WarkRune.Fat12.Filing
import WarkRune.Fat12.Read
import WarkRune.Fat12.Small

/-!
# A file is read back

A file is created, bytes are written through its descriptor, and it is closed. Opening its path
again gives a descriptor that reads these bytes, if the directory had a free slot where it was
searched for one.

## Main definitions

* `ReadsBack s fd data`: reading through `fd` until nothing comes gives `data`
* `RoundTrips path fd s`: the bytes written through `fd` are read back from the path

## Main results

* `roundTrips_iff`: a created file is read back exactly when a free slot was found for it
-/

namespace WarkRune.Fat12

/-! ## Names from ASCII paths -/

/-- The bytes of a path that the editors of the shell deliver. -/
def Ascii (path : Path) : Prop := ∀ b ∈ path, b < 128

instance (path : Path) : Decidable (Ascii path) := List.decidableBAll _ path

/-- A name from an ASCII path begins with an ASCII character. -/
theorem to83_ascii {s : Path} (h : Ascii s) : (to83 s).2 0 < 128 := by
  unfold to83
  dsimp only
  split
  · decide
  · next hc =>
    rw [not_or] at hc
    cases hs : cString s with
    | nil => simp [hs] at hc
    | cons c cs =>
      rw [hs] at hc
      have hd : c ≠ dot := hc.2
      have hmem : c ∈ s := (List.takeWhile_sublist _).subset (hs ▸ List.mem_cons_self : c ∈ cString s)
      simpa [hd] using upper_lt (h c hmem)

namespace Volume

variable {V : Volume}

/-- The last component of an ASCII path is ASCII. -/
theorem splitPath_ascii {p : Path} (hp : Ascii p) : Ascii (splitPath p).2 := by
  induction p using splitPath.induct with
  | case1 p hl h0 =>
    rw [splitPath_end hl h0]
    exact fun b hb => absurd hb List.not_mem_nil
  | case2 p hl h0 ih =>
    rw [splitPath_skip hl h0]
    exact ih fun b hb => hp b (List.mem_of_mem_tail hb)
  | case3 p hl h0 =>
    rw [splitPath_last hl h0]
    exact fun b hb => hp b (List.mem_of_mem_take (List.mem_of_mem_take hb))
  | case4 p hl h0 ih =>
    rw [splitPath_step hl h0]
    exact ih fun b hb => hp b (List.mem_of_mem_drop hb)

/-- **No name from an ASCII path marks its entry deleted.** -/
theorem Names.ne_dirFree {path : Path} {dir : ℕ} {t : Name} (hp : Ascii path)
    (h : V.Names path dir t) : t 0 ≠ dirFree := by
  have hlt : t 0 < 128 := by
    obtain ⟨-, rfl⟩ := resolve_eq_some.mp h.1
    unfold lastName
    split_ifs
    · decide
    · exact to83_ascii (splitPath_ascii hp)
  rintro he
  rw [he] at hlt
  exact absurd hlt (by decide)

end Volume

/-! ## Reading back -/

/-- The descriptor caches the number of the bytes `data`. Reads until one returns 0 give `data`,
and one of the reads does return 0 where there are more than `data` has bytes. -/
structure ReadsBack (s : Driver) (fd : ℤ) (data : List UInt8) : Prop where
  size : (fat12Size fd).Returns s data.length s
  until_zero : ∀ (ns : List ℕ) (n : ℕ) (rs : List (ℤ × List UInt8)) (r : ℤ × List UInt8)
    (s' : Driver), 0 < n → ((ns ++ [n]).mapM (fat12Read fd)).Returns s (rs ++ [r]) s' → r.1 = 0 →
      (rs.map Prod.snd).flatten = data
  ends : ∀ ns : List ℕ, (∀ n ∈ ns, 0 < n) → data.length < ns.length →
    ∃ rs s', (ns.mapM (fat12Read fd)).Returns s rs s' ∧ ∃ r ∈ rs, r.1 = 0

/-- After any writes through the descriptor that accept all their bytes, and `fat12_close`, the path
is opened again and read back. -/
def RoundTrips (path : Path) (fd : ℤ) (s₁ : Driver) : Prop :=
  ∀ (srcs : List (List UInt8)) (s₂ s₃ : Driver),
    (srcs.mapM (fat12Write fd)).Returns s₁ (srcs.map fun src => (src.length : ℤ)) s₂ →
    (fat12Close fd).Returns s₂ () s₃ →
    ∃ (fd' : ℤ) (s₄ : Driver), (fat12Open path).Returns s₃ fd' s₄ ∧ 0 ≤ fd' ∧
      ReadsBack s₄ fd' srcs.flatten

/-- Lists none of which is empty have no more parts than values. -/
theorem length_le_flatten {α : Type} {xss : List (List α)} (h : ∀ xs ∈ xss, xs ≠ []) :
    xss.length ≤ xss.flatten.length := by
  induction xss with
  | nil => exact le_rfl
  | cons xs xss ih =>
    obtain ⟨hx, hrest⟩ := List.forall_mem_cons.mp h
    have hpos := List.length_pos_iff.mpr hx
    have := ih hrest
    simp only [List.length_cons, List.flatten_cons, List.length_append]
    omega

/-- **A descriptor at the start of a file reads it back.** -/
theorem readsBack_of_holds {s : Driver} {fd : ℤ} {l : List ℕ} {data : List UInt8} (hw : s.Working)
    (hg : s.vol.geo.Bounded) (hv : s.vol.FdValid fd)
    (hl : s.vol.HoldsFile (s.vol.fds fd.toNat) l) (hlt : data.length < 2 ^ 31)
    (hfile : s.vol.arrayFile fd l = ⟨data, 0⟩) : ReadsBack s fd data := by
  have hall : ∀ ns : List ℕ, ∃ rs s', (ns.mapM (fat12Read fd)).Returns s rs s' ∧
      (rs.map Prod.snd).flatten = data.take ns.sum ∧ rs.length = ns.length ∧
        ∀ r ∈ rs, r.1 = r.2.length := by
    intro ns
    obtain ⟨rs, V', hacts, hflat, hlen, hrs⟩ := acts_readAll ns hg hv hl
    obtain ⟨s', hr, -⟩ := hacts s hw rfl
    rw [ArrayFile.readAll_eq, hfile] at hflat
    exact ⟨rs, s', hr, hflat, hlen, hrs⟩
  have hsize : (s.vol.fds fd.toNat).size = data.length := by
    have := congrArg (fun F => F.data.length) hfile
    simpa [Volume.arrayFile] using this
  refine ⟨?_, fun ns n rs r s' hn hr h0 => ?_, fun ns hpos hmany => ?_⟩
  · refine returns_volume_bind.mpr ?_
    rw [if_pos hv, hsize, Volume.asInt_of_lt hlt]
    exact Exec.returns_pure.mpr ⟨rfl, rfl⟩
  · obtain ⟨rs₁, s₁, hr₁, hflat₁, hlen₁, -⟩ := hall ns
    obtain ⟨rs₂, s₂, hr₂, hflat₂, hlen₂, hrs₂⟩ := hall (ns ++ [n])
    obtain ⟨rfl, -⟩ := hr.det hr₂
    -- the replies before the last one are those of the reads before the last one
    rw [List.mapM_append] at hr
    obtain ⟨rs₃, s₃, hr₃, hrest⟩ := Exec.returns_bind.mp hr
    obtain ⟨rfl, rfl⟩ := hr₃.det hr₁
    obtain ⟨rs₄, s₄, -, hpure⟩ := Exec.returns_bind.mp hrest
    obtain ⟨happ, -⟩ := Exec.returns_pure.mp hpure
    obtain ⟨rfl, -⟩ : rs = rs₃ ∧ [r] = rs₄ := by
      apply List.append_inj happ
      simp only [List.length_append, List.length_singleton] at hlen₂
      omega
    have hnil : r.2 = [] := by
      have hr0 := hrs₂ r (by simp)
      rw [h0] at hr0
      exact List.length_eq_zero_iff.mp (Int.natCast_eq_zero.mp hr0.symm)
    rw [List.map_append, List.flatten_append, List.map_singleton, hnil, List.flatten_singleton,
      List.append_nil, hflat₁, List.sum_append, List.sum_singleton] at hflat₂
    have hle : data.length ≤ ns.sum := by
      have hlen := congrArg List.length hflat₂
      simp only [List.length_take] at hlen
      omega
    rw [hflat₁, List.take_of_length_le hle]
  · obtain ⟨rs, s', hr, hflat, hlen, hrs⟩ := hall ns
    refine ⟨rs, s', hr, ?_⟩
    by_contra hno
    push Not at hno
    have hne : ∀ xs ∈ rs.map Prod.snd, xs ≠ [] := by
      intro xs hxs
      obtain ⟨r, hr, rfl⟩ := List.mem_map.mp hxs
      intro he
      apply hno r hr
      rw [hrs r hr, he]
      rfl
    have hle := length_le_flatten hne
    rw [hflat, List.length_map, hlen, List.length_take] at hle
    omega

/-- **A file that its entry records is opened and read back.** -/
theorem readsBack_of_filed {V : Volume} {P : ℕ → ℕ → Prop} {s : Driver} {path : Path}
    {dir i : ℕ} {t : Name} {e : DirEntry} {l : List ℕ} {data : List UInt8} (hw : s.Working)
    (h : V.Sound P) (hF : V.Filed s.vol dir i e l data) (hfree : s.vol.freeFd ≠ none)
    (hfind : V.Shows s.vol path dir t e) (h0 : t 0 ≠ 0) (he : ¬ e.IsDir) :
    ∃ (fd : ℤ) (s' : Driver), (fat12Open path).Returns s fd s' ∧ 0 ≤ fd ∧ ReadsBack s' fd data := by
  obtain ⟨j, hj⟩ := hfind.found
  have hopens := Opens.file (V := s.vol) ⟨t, ⟨hfind.resolves, h0⟩, hj⟩ he
  obtain ⟨k, hk⟩ := Option.ne_none_iff_exists'.mp hfree
  rw [Volume.openFd_eq hk] at hopens
  obtain ⟨s', hr, hv', hw'⟩ := acts_fat12Open hopens s hw rfl
  refine ⟨k, s', hr, Int.natCast_nonneg k, ?_⟩
  have hlaid := hF.laid h
  have hbytes := Volume.clusters_bytes_lt hlaid hF.clusters
  have hself : s'.vol.fds k = ⟨true, e.firstCluster, e.fileSize, 0, dir, j⟩ := by
    rw [hv', Volume.setFd_fds, Function.update_self]
  have hdisk : s.vol.SameDisk s'.vol := by
    rw [hv']
    exact Volume.sameDisk_setFd ..
  apply readsBack_of_holds (l := l) hw'
  · rw [hdisk.geo]
    exact hlaid.bounded
  · refine ⟨Int.natCast_nonneg k, Int.ofNat_lt.mpr (Volume.freeFd_lt hk), ?_⟩
    rw [Int.toNat_natCast, hself]
  · rw [Int.toNat_natCast, hself]
    refine ⟨?_, ?_⟩
    · rw [hv']
      exact hF.clusters
    · rw [hdisk.geo]
      exact hF.size ▸ hF.room
  · have := hF.room
    omega
  · rw [Volume.arrayFile, Int.toNat_natCast, hself, hF.size, hv']
    exact congrArg (ArrayFile.mk · 0) hF.bytes

/-- Writes that accept all their bytes accept all of them. -/
theorem accepted_lengths (srcs : List (List UInt8)) :
    accepted srcs (srcs.map fun src => (src.length : ℤ)) = srcs.flatten := by
  induction srcs with
  | nil => rfl
  | cons src srcs ih =>
    rw [accepted] at ih ⊢
    rw [List.map_cons, List.zipWith_cons_cons, List.flatten_cons, ih, Int.toNat_natCast,
      List.take_length, List.flatten_cons]

/-- A descriptor is returned for a new name only. -/
theorem Creates.exists_new {V V' : Volume} {path : Path} {fd : ℤ} (h : Creates V path fd V')
    (hfd : 0 ≤ fd) : ∃ dir t, V.New path dir t := by
  cases h with
  | refused | noSlot | noEntry => exact absurd hfd (by decide)
  | entry hn => exact ⟨_, _, hn⟩

section Iff

variable {s s₁ : Driver} {path : Path} {fd : ℤ} {P : ℕ → ℕ → Prop} (hw : s.Working)
  (h : s.vol.Sound P)
include hw h

/-- **A file created in a free slot is read back.** -/
theorem roundTrips_of_freeSlot {dir i : ℕ} {t : Name} (hn : s.vol.New path dir t)
    (hi : s.vol.freeSlot dir = some i) (hfree : t 0 ≠ dirFree)
    (hc : (fat12Create path).Returns s fd s₁) (hfd : 0 ≤ fd) : RoundTrips path fd s₁ := by
  intro srcs s₂ s₃ hws hcl
  obtain ⟨c, l, hF, hfds, hw₃⟩ := filed_of_session hw h hn hi hc hfd hws hcl
  rw [accepted_lengths] at hF
  obtain ⟨e, he⟩ : ∃ e, e = (newEntry t attrArch 0).setRecord srcs.flatten.length c := ⟨_, rfl⟩
  have hname : e.name = t := by rw [he, DirEntry.name_setRecord, DirEntry.name_newEntry]
  have hattr : e.attr = attrArch := by rw [he, DirEntry.attr_setRecord, DirEntry.attr_newEntry]
  have hshows : s.vol.Shows s₃.vol path dir t e := by
    apply Volume.shows_of_slot hn hi hname ?_ hfree hF.geo (he ▸ hF.slot)
    rw [DirEntry.Masked, hattr]
    decide
  rw [← he] at hF
  apply readsBack_of_filed hw₃ h hF hfds hshows hn.1.2
  rw [DirEntry.IsDir, hattr]
  decide

/-- **A file created where no free slot is found is not read back.** -/
theorem not_roundTrips_of_full {dir : ℕ} {t : Name} (hn : s.vol.New path dir t)
    (hfull : s.vol.freeSlot dir = none) (hc : (fat12Create path).Returns s fd s₁)
    (hfd : 0 ≤ fd) : ¬ RoundTrips path fd s₁ := by
  intro hround
  obtain ⟨-, hw₁⟩ := creates_of_returns hc hw
  obtain ⟨s₂, hcl, -⟩ := acts_fat12Close s₁.vol fd s₁ hw₁ rfl
  obtain ⟨hw₂, hno⟩ := not_finds_of_full hw h hn hfull hc hfd hcl
  obtain ⟨fd', s₃, hopen, hfd', -⟩ := hround [] s₁ s₂ (Exec.returns_pure.mpr ⟨rfl, rfl⟩) hcl
  obtain ⟨rfl, -⟩ := (acts_fat12Open (.missing hno)).eq_of_returns hw₂ rfl hopen
  exact absurd hfd' (by decide)

end Iff

/-- One of the slots of the directory that are searched is an end marker or was deleted. -/
def Volume.HasFreeSlot (V : Volume) (dir : ℕ) : Prop :=
  ∃ i < V.geo.maxEnts dir, ∃ e, V.slot dir i = some e ∧ (e.name 0 = dirEnd ∨ e.name 0 = dirFree)

theorem Volume.hasFreeSlot_iff {V : Volume} {dir : ℕ} :
    V.HasFreeSlot dir ↔ ∃ i, V.freeSlot dir = some i := by
  constructor
  · rintro ⟨i, hi, e, he, hfree⟩
    exact Option.isSome_iff_exists.mp (Volume.freeSlot_isSome hi he hfree)
  · rintro ⟨i, hi⟩
    obtain ⟨hlt, hslot, -⟩ := Volume.freeSlot_spec hi
    exact ⟨i, hlt, hslot⟩

/-- The directory of a new name has a free slot when the search for one finds it. -/
theorem Volume.New.hasFreeSlot_iff {V : Volume} {path : Path} {dir : ℕ} {t : Name}
    (hn : V.New path dir t) : (∃ dir t, V.Names path dir t ∧ V.HasFreeSlot dir) ↔
      ∃ i, V.freeSlot dir = some i := by
  rw [← Volume.hasFreeSlot_iff]
  constructor
  · rintro ⟨d, u, hn', hslot⟩
    obtain ⟨rfl, rfl⟩ := hn'.det hn.1
    exact hslot
  · exact fun hslot => ⟨dir, t, hn.1, hslot⟩

/-- **A created file is read back** exactly when its directory had a free slot among those that are
searched: through the descriptor that `fat12_create` returned for an ASCII path on a well-formed
volume, any writes that accept all their bytes, and `fat12_close`, leave a file that `fat12_open`
finds again, with these bytes. -/
theorem roundTrips_iff {s s₁ : Driver} {path : Path} {fd : ℤ} (hw : s.Working)
    (h : s.vol.WellFormed) (hp : Ascii path) (hc : (fat12Create path).Returns s fd s₁)
    (hfd : 0 ≤ fd) :
    RoundTrips path fd s₁ ↔ ∃ dir t, s.vol.Names path dir t ∧ s.vol.HasFreeSlot dir := by
  obtain ⟨dir, t, hn⟩ := (creates_of_returns hc hw).1.exists_new hfd
  rw [hn.hasFreeSlot_iff]
  constructor
  · intro hround
    by_contra hno
    exact not_roundTrips_of_full hw h.sound hn (Option.eq_none_iff_forall_ne_some.mpr
      fun i hi => hno ⟨i, hi⟩) hc hfd hround
  · rintro ⟨i, hi⟩
    exact roundTrips_of_freeSlot hw h.sound hn hi (hn.1.ne_dirFree hp) hc hfd

/-- The theorem at a file created in an empty root directory. -/
theorem roundTrips_root : ∃ (fd : ℤ) (s₁ : Driver),
    (fat12Create [70]).Returns (rootVolume []).driver fd s₁ ∧ RoundTrips [70] fd s₁ := by
  have h : ((fat12Create [70]).run 30 (rootVolume []).driver).map (fun p => p.1) = some 0 := by
    decide +kernel
  obtain ⟨⟨fd, s₁⟩, hrun, rfl⟩ := Option.map_eq_some_iff.mp h
  have hslot : (rootVolume []).HasFreeSlot 0 :=
    ⟨0, by decide, .zero, rootVolume_slot 0, .inl rfl⟩
  exact ⟨0, s₁, ⟨30, hrun⟩, (roundTrips_iff (rootVolume []).driver_working
    (rootVolume_wellFormed nofun) (by decide) ⟨30, hrun⟩ le_rfl).mpr
      ⟨0, (to83 [70]).2, ⟨resolve_letter _ (by decide) (by decide), by decide⟩, hslot⟩⟩

/-! ## A directory that is too long -/

/-- Six clusters of 128 sectors and sixteen root entries behind two FAT copies. -/
def wideGeometry : Geometry where
  partLba := 0
  fatLba := 1
  rootLba := 3
  dataLba := 4
  rootEntries := 16
  secPerClus := 128
  reservedSec := 1
  numFats := 2
  fatSize := 1
  totalClusters := 6

theorem wideGeometry_accepted : wideGeometry.Accepted := by
  have h : ((fat12Init 0).run 1 (Volume.build wideGeometry (fun _ => 0) (fun _ => .zero)
      fun _ _ _ => 0).driver).map (fun p => (p.1, p.2.vol.geo)) = some (true, wideGeometry) := by
    decide +kernel
  obtain ⟨⟨ok, s'⟩, hr, he⟩ := Option.map_eq_some_iff.mp h
  obtain ⟨rfl, hgeo⟩ := Prod.mk.inj he
  exact ⟨_, s', 0, by decide, ⟨1, hr⟩, hgeo⟩

theorem wideGeometry_plain : wideGeometry.Plain := by
  constructor <;> decide

/-- The directory `D` has five of the six clusters. All 10240 slots of it are taken by parts of
long names. -/
def longDirVolume : Volume :=
  .build wideGeometry
    (fun c => if c < 2 then 0xFFF else if c < 6 then c + 1 else if c = 6 then 0xFFF else 0)
    (fun i => if i = 0 then letterEntry 68 attrDir 2 else .zero) fun _ _ _ => 0x0F

theorem longDirVolume_fat {c : ℕ} (hc : c ≤ 7) : longDirVolume.fat c =
    if c < 2 then 0xFFF else if c < 6 then c + 1 else if c = 6 then 0xFFF else 0 :=
  build_fat wideGeometry_plain _ _ _ (fun c => by split_ifs <;> omega) hc

theorem longDirVolume_chain : longDirVolume.Chain 2 [2, 3, 4, 5, 6] := by
  have hdata : ∀ c, 2 ≤ c → c ≤ 7 → longDirVolume.geo.InData c := fun c h₂ h₇ => ⟨h₂, h₇⟩
  have hlast : longDirVolume.Chain 6 [6] :=
    .last (hdata 6 (by decide) (by decide)) (by rw [longDirVolume_fat (by decide)]; decide)
  have hlink : ∀ c l, 2 ≤ c → c < 6 → longDirVolume.Chain (c + 1) l →
      longDirVolume.Chain c (c :: l) := by
    intro c l h₂ h₆ hl
    have hfat : longDirVolume.fat c = c + 1 := by
      rw [longDirVolume_fat (by omega), if_neg (by omega), if_pos h₆]
    refine .link (hdata c h₂ (by omega)) ?_ (by rwa [hfat])
    rw [hfat, fat12Eoc]
    omega
  exact hlink 2 _ (by decide) (by decide) (hlink 3 _ (by decide) (by decide)
    (hlink 4 _ (by decide) (by decide) (hlink 5 _ (by decide) (by decide) hlast)))

theorem longDirVolume_slot (i : ℕ) :
    longDirVolume.slot 2 i = if i < 5 * 2048 then some fun _ => 0x0F else none :=
  build_filledSlot wideGeometry_plain _ _ longDirVolume_chain i

theorem longDirVolume_oneDir : longDirVolume.OneDir [2, 3, 4, 5, 6] where
  root i e he := by
    obtain rfl := build_rootSlot wideGeometry_plain _ _ _ he
    split_ifs with hi
    · exact .inl ⟨hi, rfl⟩
    · exact .inr rfl
  sub i e he := by
    rw [longDirVolume_slot] at he
    split_ifs at he
    obtain rfl := Option.some.inj he
    decide
  chain := longDirVolume_chain

theorem longDirVolume_wellFormed : longDirVolume.WellFormed :=
  longDirVolume_oneDir.wellFormed wideGeometry_accepted rfl wideGeometry_plain.fatFits

theorem longDirVolume_new : longDirVolume.New [68, 47, 88] 2 (to83 [88]).2 := by
  apply longDirVolume_oneDir.new _ (by decide) (by decide)
  apply resolve_of_run (n := 30)
  decide +kernel

theorem longDirVolume_full : longDirVolume.freeSlot 2 = none := by
  by_contra hsome
  obtain ⟨i, hi⟩ := Option.ne_none_iff_exists'.mp hsome
  obtain ⟨-, ⟨e, he, hfree⟩, -⟩ := Volume.freeSlot_spec hi
  rw [longDirVolume_slot] at he
  split_ifs at he
  obtain rfl := Option.some.inj he
  exact absurd hfree (by decide)

/-- `fat12_create` returns a descriptor for `D/X`: the slot it stores the entry in exists, but no
search looks at it. -/
theorem create_longDirectory : ∃ (fd : ℤ) (s₁ : Driver),
    (fat12Create [68, 47, 88]).Returns longDirVolume.driver fd s₁ ∧ 0 ≤ fd := by
  have hwf := longDirVolume_wellFormed
  obtain ⟨c, hc⟩ : ∃ c, longDirVolume.freeCluster = some c := by
    by_contra hno
    push Not at hno
    have hfree := Volume.freeCluster_eq_none.mp (Option.eq_none_iff_forall_ne_some.mpr hno)
    exact hfree 7 (by decide : wideGeometry.InData 7) (longDirVolume_fat (by decide))
  have hs := TakesSlot.extend longDirVolume_full (by decide)
    (longDirVolume_chain.lastLink hwf.laid) hc
  rcases hs.cases hwf.sound longDirVolume_new.dirAt.1 with ⟨-, hi⟩ | ⟨c', l, -, -, hx⟩
  · rw [longDirVolume_full] at hi
    cases hi
  have hl : l = [2, 3, 4, 5, 6] := hx.chain.unique longDirVolume_chain
  have hsome := (hx.slot_isSome hwf.laid).mpr (by rw [hl]; decide)
  rw [Volume.slot, Option.isSome_map] at hsome
  obtain ⟨s₁, hr, -⟩ := acts_fat12Create (.entry longDirVolume_new hs hsome) _
    longDirVolume.driver_working rfl
  refine ⟨_, s₁, hr, ?_⟩
  have hfd : longDirVolume.freeFd = some 0 := by decide
  have hfds := (hs.keeps hwf.sound longDirVolume_new.dirAt.1).2.2.2.2.2
  rw [Volume.openFd_eq ((Volume.freeFd_congr ((Volume.setSlot_fds ..).trans hfds)).trans hfd)]
  exact Int.natCast_nonneg 0

/-- **A file that is lost**: `D/X` is created in the directory without a free slot. -/
theorem roundTrips_longDirectory : longDirVolume.WellFormed ∧ Ascii [68, 47, 88] ∧
    ∃ (fd : ℤ) (s₁ : Driver), (fat12Create [68, 47, 88]).Returns longDirVolume.driver fd s₁ ∧
      0 ≤ fd ∧ ¬ RoundTrips [68, 47, 88] fd s₁ := by
  obtain ⟨fd, s₁, hc, hfd⟩ := create_longDirectory
  exact ⟨longDirVolume_wellFormed, by decide, fd, s₁, hc, hfd,
    not_roundTrips_of_full longDirVolume.driver_working longDirVolume_wellFormed.sound
      longDirVolume_new longDirVolume_full hc hfd⟩

end WarkRune.Fat12

import WarkRune.Fat12.Filing

/-!
# The files of a volume

What a file holds is the bytes its entry and its clusters record. Creating another file leaves all
of that as it was, whatever slot or cluster the new entry takes.

## Main definitions

* `Volume.Records V e m data`: the entry `e` is that of a file with some bytes
* `Volume.HasFile V path d k e m data`: the path leads to such an entry
* `Volume.FileAt V dir i data`: a slot holds such an entry
* `fileVolume n`: a small volume with a file of `n` bytes

## Main results

* `Records.frame`, `Records.grown`, `Records.setSlot`: changes elsewhere leave a file alone
* `TakesSlot.filing`: what is on the volume once a file is created
-/

namespace WarkRune.Fat12

namespace Volume

variable {V U W : Volume} {P : ℕ → ℕ → Prop} {path : Path} {dir i d k : ℕ} {e : DirEntry}
  {l l' m : List ℕ} {data : List UInt8}

/-- The entry `e` is that of a file with the bytes `data` in the clusters `m`. -/
structure Records (V : Volume) (e : DirEntry) (m : List ℕ) (data : List UInt8) : Prop where
  plain : ¬ e.IsDir
  size : e.fileSize = data.length
  clusters : V.Clusters e.firstCluster m
  room : data.length ≤ m.length * V.geo.clusterSize
  bytes : (List.range data.length).map (V.padded m) = data

/-- The path leads to a file with the bytes `data`. -/
structure HasFile (V : Volume) (path : Path) (d k : ℕ) (e : DirEntry) (m : List ℕ)
    (data : List UInt8) : Prop extends V.Records e m data where
  finds : V.Finds path d k e

/-- Slot `i` of the directory `dir` holds the entry of a file with the bytes `data`. -/
def FileAt (V : Volume) (dir i : ℕ) (data : List UInt8) : Prop :=
  ∃ e m, V.slot dir i = some e ∧ V.Records e m data

theorem Clusters.unique {c : ℕ} (h : V.Clusters c m) (h' : V.Clusters c l) : l = m := by
  rcases h with ⟨h0, rfl⟩ | h <;> rcases h' with ⟨h0', rfl⟩ | h'
  · rfl
  · exact absurd h0 (Clusters.ne_zero h')
  · exact absurd h0' (Clusters.ne_zero h)
  · exact h'.unique h

theorem Clusters.not_free {c x : ℕ} (h : V.Clusters c m) (hx : x ∈ m) : V.fat x ≠ fat12Free := by
  rcases h with ⟨-, rfl⟩ | h
  · cases hx
  · exact h.not_free hx

theorem Clusters.inData {c x : ℕ} (h : V.Clusters c m) (hx : x ∈ m) : V.geo.InData x := by
  rcases h with ⟨-, rfl⟩ | h
  · cases hx
  · exact h.ok_of_mem hx

/-- **A slot holds one file.** -/
theorem FileAt.unique {data' : List UInt8} (h : V.FileAt dir i data) (h' : V.FileAt dir i data') :
    data' = data := by
  obtain ⟨e, m, he, hr⟩ := h
  obtain ⟨f, l, hf, hr'⟩ := h'
  obtain rfl := Option.some.inj (he.symm.trans hf)
  obtain rfl := hr.clusters.unique hr'.clusters
  have hlen : data.length = data'.length := hr.size.symm.trans hr'.size
  rw [← hr'.bytes, ← hlen, hr.bytes]

theorem Filed.fileAt (hF : V.Filed U dir i e l data) (hd : V.DirAt dir) (he : ¬ e.IsDir) :
    U.FileAt dir i data :=
  ⟨e, l, hF.self hd, he, hF.size, hF.clusters, hF.room, hF.bytes⟩

namespace Records

variable (hr : V.Records e m data)
include hr

/-- A change outside the clusters of the file. -/
theorem frame (hg : V.geo.Laid) {F D : Set ℕ} (hf : V.Frame W F D)
    (hout : ∀ x ∈ m, x ∉ F ∧ x ∉ D) : W.Records e m data where
  plain := hr.plain
  size := hr.size
  clusters := hr.clusters.imp_right fun hc => hf.chain hc fun x hx => (hout x hx).1
  room := by
    rw [hf.geo]
    exact hr.room
  bytes := by
    have hpad : W.padded m = V.padded m := by
      apply padded_congr hf.geo hg.secPerClus_pos
      exact fun x hx => hf.data x (hr.clusters.inData hx) (hout x hx).2
    rw [hpad, hr.bytes]

theorem setFd (fd : ℕ) (f : FD) : (V.setFd fd f).Records e m data :=
  ⟨hr.plain, hr.size, hr.clusters, hr.room, hr.bytes⟩

/-- **Growing another file leaves the file alone**, and takes none of its clusters. -/
theorem grown (hg : V.geo.Laid) (hgr : V.Grown W l l') (hout : ∀ x ∈ m, x ∉ l) :
    W.Records e m data ∧ ∀ x ∈ m, x ∉ l' := by
  have hout' : ∀ x ∈ m, x ∉ l' := fun x hx hxl =>
    (hgr.fresh x hxl).elim (hout x hx) (hr.clusters.not_free hx)
  exact ⟨hr.frame hg hgr.frame fun x hx => ⟨hout' x hx, hout' x hx⟩, hout'⟩

section Sound

variable (h : V.Sound P) (hd : V.DirAt d) (hl : V.Live d k e)
include h hd hl

/-- The clusters of a file of the tree belong to no directory. -/
theorem apart (hdir : V.DirAt dir) {ml : List ℕ} (hml : V.DirChain dir ml) : ∀ x ∈ m, x ∉ ml := by
  intro x hx
  rcases hr.clusters with ⟨-, rfl⟩ | hc
  · cases hx
  have hne : e.firstCluster ≠ 0 := Clusters.ne_zero hc
  -- the entry of the file owns the cluster, and it is no directory
  have hown : V.Holds P (.inl (d, k)) x := ⟨_, m, ⟨hd, e, hl, rfl, hne⟩, hc, hx⟩
  refine h.dir_apart hown ?_ hdir hml
  rintro p hp f hf
  obtain rfl := Sum.inl.inj hp
  rw [hl.det hf]
  exact hr.plain

/-- **Storing an entry leaves the file alone.** -/
theorem setSlot (hdir : V.DirAt dir) (hs : (V.slot dir i).isSome = true) (e' : DirEntry) :
    (V.setSlot dir i e').Records e m data := by
  obtain ⟨ml, hml⟩ := h.dirChain hdir
  have hout := hr.apart h hd hl hdir hml
  rw [slot_eq, Option.isSome_map, Option.isSome_iff_exists] at hs
  obtain ⟨q, hq⟩ := hs
  have hqp := hml.hasPlace h.laid hq
  refine ⟨hr.plain, hr.size, hr.clusters.imp_right fun hc => ?_, ?_, ?_⟩
  · exact Links.Chain.congr hc (fun x hx => Volume.fat_setSlot h.laid hq hqp (hc.ok_of_mem hx).2)
      fun x _ hx => by rwa [setSlot_geo]
  · rw [setSlot_geo]
    exact hr.room
  · have hpad : (V.setSlot dir i e').padded m = V.padded m := by
      apply padded_congr (setSlot_geo ..) h.laid.secPerClus_pos
      intro x hx s hsx
      refine clusterSector_setSlot h.laid hq hqp (hr.clusters.inData hx) (fun hqx => ?_) hsx
      obtain ⟨y, hy, hyx⟩ := hml.inClusters hq hqx
      obtain rfl := Set.mem_singleton_iff.mp hyx
      exact hout y hx hy
    rw [hpad, hr.bytes]

end Sound

end Records

/-! ## Searches -/

/-- Searches that find what they found find what paths led to. -/
theorem Finds.keep (hf : V.Finds path d k e)
    (hkeep : ∀ d, V.DirAt d → ∀ u j x, V.find d u = some (j, x) → U.find d u = some (j, x)) :
    U.Finds path d k e := by
  obtain ⟨t, ⟨hres, h0⟩, hfind⟩ := hf
  refine ⟨t, ⟨resolve_congr (fun d hd u j x _ hx hdir => ?_) hres, h0⟩, ?_⟩
  · exact ⟨j, x, hkeep d hd u j x hx, hdir, rfl⟩
  · exact hkeep d (resolve_dirAt hres).1 t k e hfind

/-- A search looks at the slots up to the one it finds. -/
theorem find_keep (hgeo : U.geo = V.geo) {u : Name} {x : DirEntry}
    (hf : V.find d u = some (k, x)) (hslot : ∀ j ≤ k, U.slot d j = V.slot d j) :
    U.find d u = some (k, x) := by
  have hat := (find_eq_some_iff.mp hf).2.1
  apply find_congr hgeo hf
  · rwa [findAt_of_slot (hslot k le_rfl)]
  · intro j hj hnone
    rwa [findAt_of_slot (hslot j hj.le)]

end Volume

open Volume (Filing)

variable {V V' U B : Volume} {P : ℕ → ℕ → Prop} {path q : Path} {dir i d k : ℕ} {e : DirEntry}
  {m : List ℕ} {data : List UInt8} {fd : ℤ} {r : Option ℕ}

/-- A directory that is extended keeps the slots it has. -/
theorem Extends.slot_keep {c : ℕ} {l : List ℕ} (hx : Extends V V' dir c l) (h : V.Sound P)
    (hdir : V.DirAt dir) (hd : V.DirAt d) {j : ℕ} (hj : (V.slot d j).isSome = true) :
    V'.slot d j = V.slot d j := by
  by_cases hne : d = dir
  · subst hne
    rw [hx.slot, if_pos ((hx.chain.slot_isSome h.laid).mp hj)]
  · exact hx.slot_other h hdir hd hne j

/-- **Looking for a slot keeps what searches find.** -/
theorem TakesSlot.find (h : V.Sound P) (hdir : V.DirAt dir) (ht : TakesSlot V dir r V')
    (hd : V.DirAt d) {u : Name} (hf : V.find d u = some (k, e)) : V'.find d u = some (k, e) := by
  rcases ht.cases h hdir with ⟨rfl, -⟩ | ⟨c, l, -, -, hx⟩
  · exact hf
  · apply Volume.find_keep hx.frame.geo hf
    intro n hn
    have hslot := (Volume.findAt_eq_some.mp (Volume.find_eq_some_iff.mp hf).2.1).2.1
    exact hx.slot_keep h hdir hd (Volume.slot_isSome_of_le hn (by rw [hslot]; rfl))

/-- **Looking for a slot leaves the files alone**, also where the directory is extended. -/
theorem TakesSlot.hasFile (h : V.Sound P) (hdir : V.DirAt dir) (ht : TakesSlot V dir r V')
    (hf : V.HasFile q d k e m data) : V'.HasFile q d k e m data := by
  refine ⟨?_, hf.finds.keep fun d hd u j x hfind => ht.find h hdir hd hfind⟩
  rcases ht.cases h hdir with ⟨rfl, -⟩ | ⟨c, l, -, -, hx⟩
  · exact hf.toRecords
  obtain ⟨hd, hl, -, -⟩ := hf.finds.live
  -- the cluster linked was free, and the one it is linked behind is of a directory
  have hout := hf.apart h hd hl hdir (.inr hx.chain)
  have hnew : ∀ x ∈ m, x ≠ c := fun x hxm he => hf.clusters.not_free hxm (he ▸ hx.free.2)
  refine hf.frame h.laid hx.frame fun x hxm => ⟨?_, hnew x hxm⟩
  rintro (he | he)
  · exact hout x hxm (he ▸ List.getLast_mem _)
  · exact hnew x hxm he

/-- An extended directory is where it was. -/
theorem TakesSlot.resolve (h : V.Sound P) (hdir : V.DirAt dir) (ht : TakesSlot V dir r V')
    {p : ℕ × Name} (hp : V.resolve path = some p) : V'.resolve path = some p := by
  apply Volume.resolve_congr _ hp
  exact fun d hd u j x _ hx hxd => ⟨j, x, ht.find h hdir hd hx, hxd, rfl⟩

/-- The descriptors do not change. -/
theorem TakesSlot.fds (ht : TakesSlot V dir r V') : V'.fds = V.fds := by
  cases ht with
  | slot | rootFull | diskFull => rfl
  | extend => exact Volume.linkAfter_fds ..

/-- **Searches of the directory find what they found**, in other slots than the new entry's. -/
theorem TakesSlot.find_filing {t u : Name} {x : DirEntry} {j : ℕ} (h : V.Sound P)
    (hn : V.New path dir t) (hs : TakesSlot V dir (some i) B) (hdir : B.DirAt dir)
    (hF : Filing B U dir i (newEntry t attrArch 0) fd [] []) (hfind : B.find dir u = some (j, x)) :
    U.find dir u = some (j, x) ∧ j ≠ i := by
  obtain ⟨hj, hat, -⟩ := Volume.find_eq_some_iff.mp hfind
  rcases hs.cases h hn.dirAt.1 with ⟨rfl, hi⟩ | ⟨c, l, hi, -, hx⟩
  · have hself : ∀ n, U.slot dir n =
        if n = i then some (newEntry t attrArch 0) else B.slot dir n := by
      intro n
      rw [hF.slot dir hdir]
      simp only [true_and]
    have h0 : (newEntry t attrArch 0).name = t := DirEntry.name_newEntry ..
    refine ⟨Volume.find_kept hn.2 hi.symm hF.geo hself h0 hn.1.2 hfind, ?_⟩
    -- the slot was free, so no search found it
    rintro rfl
    obtain ⟨-, ⟨y, hy, hdead⟩, -⟩ := Volume.freeSlot_spec hi.symm
    obtain ⟨-, hx, hend, hnot, -⟩ := Volume.findAt_eq_some.mp hat
    obtain rfl := Option.some.inj (hx.symm.trans hy)
    exact hdead.elim hend hnot
  · -- the slot is behind those that searches look at
    obtain rfl := Option.some.inj hi
    have h0 : dir ≠ 0 := Volume.Clusters.ne_zero hx.chain
    rw [Geometry.maxEnts, if_neg h0] at hj
    refine ⟨Volume.find_keep hF.geo hfind fun n hn => ?_, hj.ne⟩
    rw [hF.slot dir hdir, if_neg fun he => (hn.trans_lt hj).ne he.2]

/-- **What is on the volume once a file is created**: beside a sound volume with the files of the
one before, the descriptor holds the new file, in a slot that none of them has. -/
theorem TakesSlot.filing {t : Name} (h : V.Sound P) (hn : V.New path dir t)
    (hs : TakesSlot V dir (some i) B) (hl : (B.slotLoc dir i).isSome = true)
    (hopen : (B.setSlot dir i (newEntry t attrArch 0)).openFd 0 0 dir i = (fd, U))
    (hfd : 0 ≤ fd) :
    B.Sound P ∧ B.DirAt dir ∧ Filing B U dir i (newEntry t attrArch 0) fd [] [] ∧
      ∀ q d k e m data, V.HasFile q d k e m data →
        B.HasFile q d k e m data ∧ U.HasFile q d k e m data ∧ (d, k) ≠ (dir, i) := by
  obtain ⟨hlive, hB, -, -, hgeo, -⟩ := hs.keeps h hn.dirAt.1
  have hdir := hlive.dirAt.mpr hn.dirAt.1
  have hF : Filing B U dir i (newEntry t attrArch 0) fd [] [] := by
    have hF := filing_entry (e := newEntry t attrArch 0) hB hdir hl (by rwa [hopen])
    rwa [hopen] at hF
  have hsome : (B.slot dir i).isSome = true := by rwa [Volume.slot, Option.isSome_map]
  refine ⟨hB, hdir, hF, fun q d k e m data hf => ?_⟩
  have hfB := hs.hasFile h hn.dirAt.1 hf
  obtain ⟨hd, hl, hk, -⟩ := hfB.finds.live
  have hne : (d, k) ≠ (dir, i) := by
    rintro he
    obtain ⟨rfl, rfl⟩ := Prod.mk.inj he
    obtain ⟨u, -, hfind⟩ := hfB.finds
    exact (hs.find_filing h hn hdir hF hfind).2 rfl
  refine ⟨hfB, ⟨?_, hfB.finds.keep fun d' hd' u j x hfind => ?_⟩, hne⟩
  · -- neither the entry nor the descriptor touches the clusters of the file
    obtain ⟨n, -, hU, -⟩ := Volume.openFd_valid (show 0 ≤ (Prod.fst _) by rwa [hopen])
    rw [hopen] at hU
    rw [show U = _ from hU]
    exact (hfB.setSlot hB hd hl hdir hsome _).setFd n _
  · by_cases hdd : d' = dir
    · subst hdd
      exact (hs.find_filing h hn hdir hF hfind).1
    · have hsame : ∀ n, U.slot d' n = B.slot d' n := by
        intro n
        rw [hF.slot d' hd', if_neg fun he => hdd he.1]
      rw [Volume.find_eq_of_slot hF.geo hsame, hfind]

/-! ## A volume with one file -/

/-- The entry of a file `F` of `n` bytes from cluster 2 on. -/
def fileEntry (n : ℕ) : DirEntry := (letterEntry 70 attrArch 0).setRecord n 2

/-- The file `F` of `n` letters `a` in slot 0 of the root directory and in cluster 2. -/
def fileVolume (n : ℕ) : Volume :=
  .build smallGeometry (fun c => if c ≤ 2 then 0xFFF else 0)
    (fun i => if i = 0 then fileEntry n else .zero) fun _ _ _ => 97

theorem fileEntry_plain (n : ℕ) : ¬ (fileEntry n).IsDir := by
  rw [fileEntry, DirEntry.IsDir, DirEntry.attr_setRecord]
  decide

theorem fileVolume_live {n i : ℕ} {e : DirEntry} (he : (fileVolume n).Live 0 i e) :
    i = 0 ∧ e = fileEntry n := by
  obtain rfl := build_rootSlot smallGeometry_plain _ _ _ he.1
  by_cases hi : i = 0
  · exact ⟨hi, if_pos hi⟩
  · have hn := he.2.1
    rw [if_neg hi] at hn
    exact absurd hn DirEntry.zero_not_named

theorem fileVolume_dirAt {n d : ℕ} (hd : (fileVolume n).DirAt d) : d = 0 := by
  induction hd with
  | refl => rfl
  | tail _ hx ih =>
    subst ih
    obtain ⟨i, e, he, hdir, -⟩ := hx
    obtain ⟨-, rfl⟩ := fileVolume_live he
    exact absurd hdir (fileEntry_plain n)

theorem fileVolume_chain (n : ℕ) : (fileVolume n).Chain 2 [2] := by
  apply Links.Chain.last
  · exact (by decide : smallGeometry.InData 2)
  · rw [fileVolume, build_fat smallGeometry_plain _ _ _ (fun c => by split <;> decide)
      (by decide)]
    decide

theorem fileVolume_wellFormed (n : ℕ) : (fileVolume n).WellFormed where
  accepted := smallGeometry_accepted
  copies := .inr rfl
  fatFits := smallGeometry_plain.fatFits
  owned := by
    have hheads : ∀ {p c}, (fileVolume n).Heads p c → p = (0, 0) ∧ c = 2 := by
      rintro p c ⟨hd, e, he, rfl, -⟩
      rw [fileVolume_dirAt hd] at he
      obtain ⟨hi, rfl⟩ := fileVolume_live he
      exact ⟨Prod.ext (fileVolume_dirAt hd) hi, DirEntry.firstCluster_setRecord ..⟩
    refine ⟨fun hc => ?_, fun {p q x} hp hq => ?_⟩
    · obtain ⟨-, rfl⟩ := hheads hc
      exact ⟨[2], fileVolume_chain n⟩
    · obtain ⟨c, -, hc, -⟩ := hp
      obtain ⟨c', -, hc', -⟩ := hq
      exact (hheads hc).1.trans (hheads hc').1.symm
  head_ne {d i e} hd he hdir := by
    rw [fileVolume_dirAt hd] at he
    obtain ⟨-, rfl⟩ := fileVolume_live he
    exact absurd hdir (fileEntry_plain n)

theorem fileVolume_finds (n : ℕ) : (fileVolume n).Finds [47, 70] 0 0 (fileEntry n) := by
  have hname : (fileEntry n).name = name83 [70] := by
    rw [fileEntry, DirEntry.name_setRecord]
    decide
  refine ⟨name83 [70], ⟨Volume.resolve_eq_some.mpr ?_, by decide⟩, ?_⟩
  · have hskip : splitPath [47, 70] = ([], [70]) := by
      rw [splitPath_skip rfl (by decide)]
      exact splitPath_component (by decide)
    rw [hskip]
    exact ⟨rfl, rfl⟩
  · apply Volume.find_eq_some_iff.mpr
    refine ⟨(by decide : 0 < 16), Volume.findAt_eq_some.mpr ⟨rfl, ?_, ?_, ?_, ?_, ?_⟩, nofun⟩
    · apply (Volume.slot_eq_some_iff _).mpr
      exact ⟨.root 0, rfl, build_rootEntry smallGeometry_plain _ _ _ (by decide)⟩
    · rw [hname]
      decide
    · rw [hname]
      decide
    · rw [fileEntry, DirEntry.Masked, DirEntry.attr_setRecord]
      decide
    · rw [hname]
      exact match83_self _

theorem fileVolume_clusterSize (n : ℕ) : (fileVolume n).geo.clusterSize = 512 :=
  (by decide : smallGeometry.clusterSize = 512)

theorem fileVolume_byte {n k : ℕ} (hk : k < 512) : (fileVolume n).padded [2] k = 97 := by
  have hlt : k < (fileVolume n).geo.clusterSize := by rwa [fileVolume_clusterSize]
  have hpad := Volume.padded_add (V := fileVolume n) (l := [2]) (i := 0) (x := 2) rfl hlt
  have hsec : (fileVolume n).clusterSector 2 0 = fun _ => 97 :=
    build_cluster smallGeometry_plain _ _ _ (by decide) (by decide)
  rw [Nat.zero_mul, Nat.zero_add, Volume.clusterByte_eq, Nat.div_eq_of_lt hk, hsec] at hpad
  exact hpad

/-- The file `F` holds the letters. -/
theorem fileVolume_hasFile {n : ℕ} (hn : n ≤ 512) : (fileVolume n).HasFile [47, 70] 0 0
    (fileEntry n) [2] (List.replicate n 97) where
  plain := fileEntry_plain n
  size := by
    rw [fileEntry, DirEntry.fileSize_setRecord, List.length_replicate]
    exact Nat.mod_eq_of_lt (hn.trans_lt (by decide))
  clusters := by
    rw [fileEntry, DirEntry.firstCluster_setRecord]
    exact .inr (fileVolume_chain n)
  room := by
    rw [List.length_replicate, fileVolume_clusterSize]
    exact hn
  bytes := by
    rw [List.length_replicate]
    apply List.eq_replicate_iff.mpr
    refine ⟨by rw [List.length_map, List.length_range], fun b hb => ?_⟩
    obtain ⟨k, hk, rfl⟩ := List.mem_map.mp hb
    exact fileVolume_byte ((List.mem_range.mp hk).trans_le hn)
  finds := fileVolume_finds n

end WarkRune.Fat12

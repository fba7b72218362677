import WarkRune.Fat12.Placed
import WarkRune.Fat12.Flush
import WarkRune.Fat12.Subdir

/-!
# A file is created, written and closed

From `fat12_create` to `fat12_close` the file is held by its descriptor: the entry in its slot is
still empty, and the descriptor caches the first cluster and the size. Closing stores both in the
entry.

## Main definitions

* `Volume.Filing`: beside the volume before, a descriptor holds a file with some bytes
* `Volume.Filed`: beside the volume before, there is the entry of a file with some bytes

## Main results

* `filing_create`, `filing_write`, `filing_close`: the three operations
* `filing_writes`: writes one after the other
* `filed_of_session`: what creating, writing and closing a file leaves
-/

namespace WarkRune.Fat12

open Exec (Computes)

namespace Volume

/-- Beside `V`, the descriptor `fd` holds the file with the bytes `data` in the clusters `l`; its
entry `e` is in slot `i` of `dir`, and the position is at the end. -/
structure Filing (V U : Volume) (dir i : ℕ) (e : DirEntry) (fd : ℤ) (l : List ℕ)
    (data : List UInt8) : Prop extends V.Placed U dir i e l where
  valid : U.FdValid fd
  size : (U.fds fd.toNat).size = data.length
  pos : (U.fds fd.toNat).pos = data.length
  parent : (U.fds fd.toNat).parentCluster = dir
  idx : (U.fds fd.toNat).dirIdx = i
  clusters : U.Clusters (U.fds fd.toNat).firstCluster l
  room : data.length ≤ l.length * U.geo.clusterSize
  bytes : (List.range data.length).map (U.padded l) = data

/-- Beside `V`, there is the entry `e` in slot `i` of `dir` for a file with the bytes `data` in the
clusters `l`. -/
structure Filed (V U : Volume) (dir i : ℕ) (e : DirEntry) (l : List ℕ) (data : List UInt8) : Prop
    extends V.Placed U dir i e l where
  size : e.fileSize = data.length
  clusters : U.Clusters e.firstCluster l
  room : data.length ≤ l.length * U.geo.clusterSize
  bytes : (List.range data.length).map (U.padded l) = data

variable {V U W : Volume} {P : ℕ → ℕ → Prop} {dir i : ℕ} {e : DirEntry} {l : List ℕ}
  {data : List UInt8} {fd : ℤ}

theorem openFd_eq {c n p k : ℕ} (h : V.freeFd = some k) :
    V.openFd c n p i = (↑k, V.setFd k ⟨true, c, n, 0, p, i⟩) := by
  rw [openFd, h]

theorem freeFd_lt {k : ℕ} (h : V.freeFd = some k) : k < maxFds :=
  List.mem_range.mp (List.mem_of_find?_eq_some h)

/-- **A descriptor returned is open.** -/
theorem openFd_valid {c n p : ℕ} (h : 0 ≤ (V.openFd c n p i).1) : ∃ k : ℕ,
    (V.openFd c n p i).1 = k ∧ (V.openFd c n p i).2 = V.setFd k ⟨true, c, n, 0, p, i⟩ ∧
      (V.setFd k ⟨true, c, n, 0, p, i⟩).FdValid k := by
  cases hk : V.freeFd with
  | none =>
    rw [openFd_of_none hk] at h
    exact absurd h (show ¬ (0 : ℤ) ≤ -1 by decide)
  | some k =>
    rw [openFd_eq hk]
    refine ⟨k, rfl, rfl, Int.natCast_nonneg k, Int.ofNat_lt.mpr (freeFd_lt hk), ?_⟩
    simp

theorem close_geo (V : Volume) (fd : ℤ) : (V.close fd).geo = V.geo := by
  have hflush : (V.flush fd).geo = V.geo := by
    rw [flush]
    split_ifs
    · dsimp only
      split
      · rfl
      · exact setSlot_geo ..
    · rfl
  rw [close]
  split_ifs
  · rfl
  · exact hflush

/-- The room of a file is counted in 31 bits. -/
theorem clusters_bytes_lt (hg : U.geo.Laid) {c : ℕ} (hc : U.Clusters c l) :
    l.length * U.geo.clusterSize < 2 ^ 31 := by
  rcases hc with ⟨-, rfl⟩ | hc
  · simp
  · exact hc.bytes_lt hg.bounded

theorem clusters_lt (hg : U.geo.Laid) {c : ℕ} (hc : U.Clusters c l) : c < 65536 := by
  rcases hc with ⟨rfl, -⟩ | hc
  · decide
  · have hlt := (hc.ok_of_mem hc.head_mem).2
    have hle := hg.totalClusters_le
    omega

end Volume

open Volume (Filing Filed Placed)

variable {V U W : Volume} {P : ℕ → ℕ → Prop} {dir i : ℕ} {e : DirEntry} {l : List ℕ}
  {data : List UInt8} {fd : ℤ}

/-- **A new entry is that of an empty file**, held by the descriptor. -/
theorem filing_entry (h : V.Sound P) (hd : V.DirAt dir) (hl : (V.slotLoc dir i).isSome = true)
    (hfd : 0 ≤ ((V.setSlot dir i e).openFd 0 0 dir i).1) :
    Filing V ((V.setSlot dir i e).openFd 0 0 dir i).2 dir i e
      ((V.setSlot dir i e).openFd 0 0 dir i).1 [] [] := by
  obtain ⟨x, hx⟩ : ∃ x, V.slot dir i = some x := by
    rw [← Option.isSome_iff_exists, Volume.slot, Option.isSome_map]
    exact hl
  obtain ⟨k, hk, hU, hv⟩ := Volume.openFd_valid hfd
  have hp := (Placed.refl hx).store h hd e
  rw [hk, hU]
  refine ⟨hp.setFd k _, hv, ?_, ?_, ?_, ?_, ?_, Nat.zero_le _, rfl⟩
  all_goals simp only [Int.toNat_natCast, Volume.setFd_fds, Function.update_self]
  · rfl
  · rfl
  · exact .inl ⟨rfl, rfl⟩

/-- **A new file is empty.** -/
theorem filing_create {path : Path} {t : Name} (h : V.Sound P) (hn : V.New path dir t)
    (hi : V.freeSlot dir = some i) (hc : Creates V path fd U) (hfd : 0 ≤ fd) :
    Filing V U dir i (newEntry t attrArch 0) fd [] [] := by
  cases hc with
  | refused hno => exact absurd hn (hno dir t)
  | noSlot | noEntry => exact absurd hfd (by decide)
  | entry hn' hs hl =>
    obtain ⟨rfl, rfl⟩ := hn'.det hn
    cases hs with
    | extend hf => rw [hi] at hf; cases hf
    | slot hf =>
      obtain rfl := Option.some.inj (hi.symm.trans hf)
      exact filing_entry h hn.dirAt.1 hl hfd

section Steps

variable (h : V.Sound P)
include h

/-- A write grows the file, leaves the other descriptors alone, and stops early only where the last
cluster is full and no other is free. -/
theorem filing_grows (hF : Filing V U dir i e fd l data) (src : List UInt8) :
    ∃ (r : ℤ) (W : Volume) (l' : List ℕ), Acts (fat12Write fd src) U r W ∧
      Filing V W dir i e fd l' (data ++ src.take r.toNat) ∧ U.Grown W l l' ∧
      (∀ k ≠ fd.toNat, W.fds k = U.fds k) ∧ (r.toNat < src.length → W.freeCluster = none ∧
        (data ++ src.take r.toNat).length = l'.length * W.geo.clusterSize) := by
  have hholds : U.HoldsFile (U.fds fd.toNat) l := ⟨hF.clusters, hF.size ▸ hF.room⟩
  have hpos : (U.fds fd.toNat).pos ≤ (U.fds fd.toNat).size := by rw [hF.pos, hF.size]
  rcases acts_fat12Write (hF.laid h) hF.valid hholds hpos src with
    ⟨hw, -, hfree, hnil⟩ | ⟨n, W, l', f, hw, hst, hfds, c, hf, -⟩
  · -- the file is empty and no cluster is free for it
    have hnone : data ++ src.take (-1 : ℤ).toNat = data := by
      rw [show (-1 : ℤ).toNat = 0 from rfl, List.take_zero, List.append_nil]
    have hroom := hF.room
    rw [hnil, List.length_nil, Nat.zero_mul] at hroom
    rw [← hnone] at hF
    refine ⟨-1, U, l, hw, hF, .refl fun x hx => ?_, fun _ _ => rfl, fun _ => ⟨hfree, ?_⟩⟩
    · rw [hF.geo]
      exact (hF.fresh x hx).1
    · rw [hnone, hnil, List.length_nil, Nat.zero_mul]
      exact Nat.eq_zero_of_le_zero hroom
  · have hlen : (src.take n).length = n := by
      rw [List.length_take, Nat.min_eq_left hst.le]
    have hall : (data ++ src.take n).length = data.length + n := by
      rw [List.length_append, hlen]
    have hfpos : f.pos = data.length := by rw [hf]; exact hF.pos
    have hfsize : f.size = data.length := by rw [hf]; exact hF.size
    have hself : (W.setFd fd.toNat (f.wrote n)).fds fd.toNat = f.wrote n := by simp
    refine ⟨n, W.setFd fd.toNat (f.wrote n), l', hw,
      ⟨(hF.grow h hst.grown).setFd fd.toNat (f.wrote n), ⟨hF.valid.1, hF.valid.2.1, ?_⟩, ?_, ?_, ?_,
      ?_, ?_, ?_, ?_⟩, hst.grown.setFd fd.toNat (f.wrote n), fun k hk => ?_, fun hlt => ⟨?_, ?_⟩⟩
    · rw [hself, hf]
      exact hF.valid.2.2
    · rw [hself, Int.toNat_natCast, hall]
      change max f.size (f.pos + n) = _
      omega
    · rw [hself, Int.toNat_natCast, hall]
      change f.pos + n = _
      omega
    · rw [hself, hf]
      exact hF.parent
    · rw [hself, hf]
      exact hF.idx
    · rw [hself]
      exact hst.clusters
    · rw [Int.toNat_natCast, hall, ← hfpos, Volume.setFd_geo, hst.grown.frame.geo]
      exact hst.room
    · have hover : _ = splice _ data.length (src.take n) :=
        map_range_overlay (f := U.padded l) (n := data.length) le_rfl
      rw [hlen, Nat.max_eq_right (Nat.le_add_right _ _), hF.bytes] at hover
      rw [Int.toNat_natCast, hall]
      change (List.range (data.length + n)).map (W.padded l') = _
      rw [hst.padded, hfpos, hover, splice, List.take_length, hlen,
        List.drop_eq_nil_of_le (Nat.le_add_right _ _), List.append_nil]
    · rw [Volume.setFd_fds, Function.update_of_ne hk, hfds k hk]
    · exact hst.full hlt
    · rw [Int.toNat_natCast, hall, ← hfpos, Volume.setFd_geo, hst.grown.frame.geo]
      exact hst.filled hlt

/-- **A write puts bytes behind those of the file.** -/
theorem filing_write (hF : Filing V U dir i e fd l data) (src : List UInt8) :
    ∃ (r : ℤ) (W : Volume) (l' : List ℕ), Acts (fat12Write fd src) U r W ∧
      Filing V W dir i e fd l' (data ++ src.take r.toNat) := by
  obtain ⟨r, W, l', hw, hF', -⟩ := filing_grows h hF src
  exact ⟨r, W, l', hw, hF'⟩

/-- The bytes that writes one after the other accept. -/
def accepted (srcs : List (List UInt8)) (rs : List ℤ) : List UInt8 :=
  (List.zipWith (fun src r => src.take r.toNat) srcs rs).flatten

/-- **Writes one after the other** put the bytes they accept behind those of the file. -/
theorem filing_writes (srcs : List (List UInt8)) (hF : Filing V U dir i e fd l data) :
    ∃ (rs : List ℤ) (W : Volume) (l' : List ℕ), Acts (srcs.mapM (fat12Write fd)) U rs W ∧
      Filing V W dir i e fd l' (data ++ accepted srcs rs) := by
  induction srcs generalizing U l data with
  | nil =>
    refine ⟨[], U, l, ?_, ?_⟩
    · rw [List.mapM_nil]
      exact .pure _ _
    · rwa [accepted, List.zipWith_nil_left, List.flatten_nil, List.append_nil]
  | cons src srcs ih =>
    obtain ⟨r, U₁, l₁, hw, hF₁⟩ := filing_write h hF src
    obtain ⟨rs, W, l', hrest, hF'⟩ := ih hF₁
    refine ⟨r :: rs, W, l', ?_, ?_⟩
    · rw [List.mapM_cons]
      exact hw.bind (hrest.bind (.pure _ _))
    · rwa [accepted, List.zipWith_cons_cons, List.flatten_cons, ← List.append_assoc]

/-- **Closing stores the size and the first cluster in the entry**, and a descriptor is free. -/
theorem filing_close (hd : V.DirAt dir) (hF : Filing V U dir i e fd l data) :
    ∃ c, Filed V (U.close fd) dir i (e.setRecord data.length c) l data ∧
      (U.close fd).freeFd ≠ none := by
  obtain ⟨c, hc⟩ : ∃ c, c = (U.fds fd.toNat).firstCluster := ⟨_, rfl⟩
  have hclus : U.Clusters c l := hc ▸ hF.clusters
  -- the entry is rewritten with the size and the first cluster of the descriptor
  have hflush : U.flush fd = U.setSlot dir i (e.setRecord data.length c) := by
    simp only [Volume.flush, if_pos hF.valid, hF.parent, hF.idx, hF.size, ← hc]
    rw [hF.self hd]
  have hp := hF.toPlaced.store h hd (e.setRecord data.length c)
  have hlaid := hF.laid h
  have hlt := Volume.clusters_lt hlaid hclus
  have hbytes := Volume.clusters_bytes_lt hlaid hclus
  have hroom := hF.room
  have hfd := hF.valid
  have hclose : U.close fd = (U.flush fd).setFd fd.toNat
      { (U.flush fd).fds fd.toNat with used := false } :=
    if_neg fun h => h.elim (fun h => absurd hfd.1 (not_le.mpr h))
      fun h => absurd hfd.2.1 (not_lt.mpr h)
  refine ⟨c, ?_, ?_⟩
  · rw [hclose, hflush]
    refine ⟨hp.setFd _ _, ?_, ?_, ?_, ?_⟩
    · rw [DirEntry.fileSize_setRecord, Nat.mod_eq_of_lt (by omega)]
    · rw [DirEntry.firstCluster_setRecord, Nat.mod_eq_of_lt hlt]
      exact hF.store_clusters h hd _ hclus
    · rw [Volume.setFd_geo, Volume.setSlot_geo]
      exact hroom
    · have hpad := hF.store_padded h hd (e.setRecord data.length c)
      change (List.range data.length).map ((U.setSlot dir i _).padded l) = data
      rw [hpad, hF.bytes]
  · intro hnone
    have hmem : fd.toNat ∈ List.range maxFds := by
      rw [List.mem_range]
      have := hfd.1
      have := hfd.2.1
      omega
    have := List.find?_eq_none.mp hnone _ hmem
    rw [hclose] at this
    simp at this

end Steps

/-- **What creating, writing and closing a file leaves.** -/
theorem filed_of_session {path : Path} {t : Name} {s s₁ s₂ s₃ : Driver} {srcs : List (List UInt8)}
    {rs : List ℤ} (hw : s.Working) (h : s.vol.Sound P) (hn : s.vol.New path dir t)
    (hi : s.vol.freeSlot dir = some i) (hc : (fat12Create path).Returns s fd s₁) (hfd : 0 ≤ fd)
    (hws : (srcs.mapM (fat12Write fd)).Returns s₁ rs s₂) (hcl : (fat12Close fd).Returns s₂ () s₃) :
    ∃ c l, Filed s.vol s₃.vol dir i
      ((newEntry t attrArch 0).setRecord (accepted srcs rs).length c) l (accepted srcs rs) ∧
      s₃.vol.freeFd ≠ none ∧ s₃.Working := by
  obtain ⟨hcr, hw₁⟩ := creates_of_returns hc hw
  have hF := filing_create h hn hi hcr hfd
  obtain ⟨rs', W, l', hacts, hF'⟩ := filing_writes h srcs hF
  obtain ⟨rfl, rfl, hw₂⟩ := hacts.eq_of_returns hw₁ rfl hws
  rw [List.nil_append] at hF'
  obtain ⟨c, hfiled, hfree⟩ := filing_close h hn.dirAt.1 hF'
  obtain ⟨-, hv₃, hw₃⟩ := (acts_fat12Close s₂.vol fd).eq_of_returns hw₂ rfl hcl
  rw [← hv₃] at hfiled hfree
  exact ⟨c, l', hfiled, hfree, hw₃⟩

/-! ## A file in a directory without a free slot -/

section Full

variable {path : Path} {t : Name} {V' : Volume} (h : V.Sound P) (hn : V.New path dir t)
  (hdir : dir ≠ 0) (hfull : V.freeSlot dir = none) (hs : TakesSlot V dir (some i) V')
include h hn hdir hfull hs

/-- The slots that are searched stay as they are. -/
theorem TakesSlot.slot_full (hl : (V'.slotLoc dir i).isSome = true) {d j : ℕ} (hd : V.DirAt d)
    (hj : (V.slot d j).isSome = true) (hlt : d = dir → j < subdirMaxEnts) :
    (V'.setSlot dir i e).slot d j = V.slot d j := by
  have hdd := hn.dirAt.1
  rcases hs.cases h hdd with ⟨-, hi⟩ | ⟨c, l, hi, -, hx⟩
  · rw [hfull] at hi
    cases hi
  obtain rfl := Option.some.inj hi
  have hlive := hx.sameLive h hdd
  rw [(hx.grow h hdd).1.slot_stored (hlive.dirAt.mpr hdd) (by rwa [Volume.slot, Option.isSome_map])
    (hlive.dirAt.mpr hd), if_neg fun hdj => (hlt hdj.1).ne hdj.2]
  by_cases hne : d = dir
  · subst hne
    rw [hx.slot, if_pos ((hx.chain.slot_isSome h.laid).mp hj)]
  · exact hx.slot_other h hdd hd hne j

/-- **The path does not lead to the file.** -/
theorem TakesSlot.not_finds (hl : (V'.slotLoc dir i).isSome = true) (hgeo : W.geo = V.geo)
    (hslot : ∀ d j, W.slot d j = (V'.setSlot dir i e).slot d j) :
    ∀ d j x, ¬ W.Finds path d j x := by
  have hmax : V.geo.maxEnts dir = subdirMaxEnts := by rw [Geometry.maxEnts, if_neg hdir]
  have hgeo' : (V'.setSlot dir i e).geo = V.geo := by
    rw [Volume.setSlot_geo, (hs.keeps h hn.dirAt.1).2.2.2.2.1]
  have hnone : W.find dir t = none := by
    rw [Volume.find_eq_of_slot (hgeo.trans hgeo'.symm) (hslot dir)]
    exact TakesSlot.find_eq_none h hn.dirAt.1 hdir hn.2 hfull hs
  -- the way to the directory is as before, and the name is not found there
  suffices hres : W.resolve path = some (dir, t) from Volume.New.not_finds ⟨⟨hres, hn.1.2⟩, hnone⟩
  apply Volume.resolve_congr _ hn.1.1
  intro d hd u k x _ hx hxd
  obtain ⟨hlt, hat, hbefore⟩ := Volume.find_eq_some_iff.mp hx
  refine ⟨k, x, Volume.find_eq_some_iff.mpr ⟨by rwa [hgeo], ?_, fun j hj => ?_⟩, hxd, rfl⟩
  · obtain ⟨-, hs', -⟩ := Volume.findAt_eq_some.mp hat
    rw [Volume.findAt_of_slot (V := V), hat]
    rw [hslot]
    exact TakesSlot.slot_full h hn hdir hfull hs hl hd (by rw [hs']; rfl)
      fun he => by rwa [he, hmax] at hlt
  · obtain ⟨y, hy, -⟩ := Volume.findAt_eq_none.mp (hbefore j hj)
    rw [Volume.findAt_of_slot (V := V), hbefore j hj]
    rw [hslot]
    exact TakesSlot.slot_full h hn hdir hfull hs hl hd (by rw [hy]; rfl)
      fun he => by rw [he, hmax] at hlt; exact hj.trans hlt

end Full

/-- **A file created where no free slot is found is lost**: once closed, its path leads nowhere. -/
theorem not_finds_of_full {path : Path} {t : Name} {s s₁ s₂ : Driver} (hw : s.Working)
    (h : s.vol.Sound P) (hn : s.vol.New path dir t) (hfull : s.vol.freeSlot dir = none)
    (hc : (fat12Create path).Returns s fd s₁) (hfd : 0 ≤ fd)
    (hcl : (fat12Close fd).Returns s₁ () s₂) :
    s₂.Working ∧ ∀ d j x, ¬ s₂.vol.Finds path d j x := by
  obtain ⟨hcr, hw₁⟩ := creates_of_returns hc hw
  obtain ⟨-, hv₂, hw₂⟩ := (acts_fat12Close s₁.vol fd).eq_of_returns hw₁ rfl hcl
  refine ⟨hw₂, ?_⟩
  rw [hv₂]
  generalize s₁.vol = U at hcr hv₂ ⊢
  cases hcr with
  | refused hno => exact absurd hn (hno dir t)
  | noSlot | noEntry => exact absurd hfd (by decide)
  | @entry _ i _ V₁ hn' hs hl =>
    obtain ⟨rfl, rfl⟩ := hn'.det hn
    have hdir : dir ≠ 0 := by
      cases hs with
      | slot hf => rw [hfull] at hf; cases hf
      | extend _ hd => exact hd
    obtain ⟨k, hk, hU, hv⟩ := Volume.openFd_valid hfd
    have hgeo := (hs.keeps h hn.dirAt.1).2.2.2.2.1
    have hself := (hs.keeps h hn.dirAt.1).2.1.slot_stored (e := newEntry t attrArch 0)
      ((hs.keeps h hn.dirAt.1).1.dirAt.mpr hn.dirAt.1) (by rwa [Volume.slot, Option.isSome_map])
      ((hs.keeps h hn.dirAt.1).1.dirAt.mpr hn.dirAt.1) i
    rw [hk, hU]
    have hkept := (entriesKept_close_iff hv (by simp [FD.Fits])).mpr fun x hx => by
      simp only [Int.toNat_natCast, Volume.setFd_fds, Function.update_self, Volume.setFd_slot,
        hself, and_self, ↓reduceIte, Option.some.injEq] at hx ⊢
      rw [← hx]
      simp
    refine TakesSlot.not_finds h hn hdir hfull hs hl (e := newEntry t attrArch 0) ?_ fun d j => by
      rw [(hkept d j).2, Volume.setFd_slot]
    rw [Volume.close_geo, Volume.setFd_geo, Volume.setSlot_geo, hgeo]

end WarkRune.Fat12

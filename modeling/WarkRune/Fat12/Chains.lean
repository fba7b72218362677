import WarkRune.Fat12.Transfer
import WarkRune.Fat12.Entry
import WarkRune.Links.Owned
import Mathlib.Data.Set.Basic

/-!
# Cluster chains, places and frames

On a laid out volume the driver's helpers change FAT entries, directory slots and sectors of
clusters, each on its own. A frame says which FAT entries and which clusters may differ between
two volumes; what a chain, a slot or a file depends on lies outside it.

## Main definitions

* `Volume.Chain V c l`: the clusters `l` of the chain that starts at `c`
* `Place`, `Volume.place`, `Volume.entryAt`: where a directory slot lies, and the entry there
* `Volume.Frame V V' F D`: the volumes differ in the FAT entries `F` and the clusters `D` only

## Main results

* `Volume.slot_eq`: a slot is the entry at its place
* `Volume.entryAt_setSlot`: storing a slot changes the entry at its place
* `Volume.frame_fatSet`, `Volume.frame_zeroCluster`, `Volume.frame_store`: what the helpers may
  change
-/

namespace WarkRune.Fat12

/-! ## Chains -/

/-- `l` lists the clusters of the chain that starts at `c`. -/
abbrev Volume.Chain (V : Volume) (c : ℕ) (l : List ℕ) : Prop :=
  Links.Chain V.fat (· ≥ fat12Eoc) V.geo.InData c l

/-- The mark of a free cluster neither ends a chain nor leads to a cluster. -/
theorem free_not_link (g : Geometry) :
    ∀ v, v = fat12Free → ¬ v ≥ fat12Eoc ∧ ¬ g.InData v := by
  rintro v rfl
  exact ⟨by decide, fun h => h.ne_zero rfl⟩

namespace Volume

variable {V V' V'' : Volume}

theorem Chain.walk {c : ℕ} {l : List ℕ} (h : V.Chain c l) : ∀ n, V.walk n c = l[n]? := by
  induction h with
  | last hc hs =>
    rintro (- | n)
    · rfl
    · simp only [Volume.walk, if_pos hs, List.getElem?_cons_succ, List.getElem?_nil]
  | link hc hs hl ih =>
    rintro (- | n)
    · rfl
    · simp only [Volume.walk, if_neg hs, List.getElem?_cons_succ, ih]

theorem Chain.not_free {c x : ℕ} {l : List ℕ} (h : V.Chain c l) (hx : x ∈ l) :
    V.fat x ≠ fat12Free :=
  Links.Chain.not_free (free_not_link V.geo) h hx

/-- The walk of `alloc_dir_entry` ends at the last cluster of a chain. -/
theorem Chain.lastLink (hg : V.geo.Laid) {c : ℕ} {l : List ℕ} (h : V.Chain c l) :
    V.LastLink c (l.getLast h.ne_nil) := by
  induction h with
  | last hc hs => exact .eoc ⟨hc.1, hc.lt_eoc hg⟩ hs
  | @link c l hc hs hl ih =>
    rw [List.getLast_cons hl.ne_nil]
    exact .next ⟨hc.1, hc.lt_eoc hg⟩ (Nat.lt_of_not_le hs) ih

theorem LastLink.det {c a b : ℕ} (h : V.LastLink c a) (h' : V.LastLink c b) : b = a := by
  induction h with
  | out hc =>
    cases h' with
    | out => rfl
    | eoc hc' | next hc' => exact absurd hc' hc
  | eoc hc hf =>
    cases h' with
    | out hc' => exact absurd hc hc'
    | eoc => rfl
    | next _ hf' => exact absurd hf (Nat.not_le.mpr hf')
  | next hc hf hl ih =>
    cases h' with
    | out hc' => exact absurd hc hc'
    | eoc _ hf' => exact absurd hf' (Nat.not_le.mpr hf)
    | next _ _ hl' => exact ih hl'

end Volume

/-! ## Places -/

/-- Where a directory slot lies: an entry of the root directory, or of a cluster. -/
inductive Place
  | root (k : ℕ)
  | cluster (c k : ℕ)
  deriving DecidableEq

/-- The number of directory entries of a cluster. -/
def Geometry.perCluster (g : Geometry) : ℕ := g.secPerClus * 16

/-- The place is one of the root directory or of a data cluster. -/
def Geometry.HasPlace (g : Geometry) : Place → Prop
  | .root k => k < g.rootEntries
  | .cluster c k => g.InData c ∧ k < g.perCluster

namespace Place

def lba (g : Geometry) : Place → ℕ
  | root k => g.rootLba + k / 16
  | cluster c k => g.clusterLba c + k / 16

def pos : Place → ℕ
  | root k => k % 16
  | cluster _ k => k % 16

/-- The place lies in one of the clusters. -/
def InClusters (S : Set ℕ) : Place → Prop
  | root _ => False
  | cluster c _ => c ∈ S

end Place

/-- The sector of a root place is one of the root directory. -/
theorem Geometry.HasPlace.root_lt {g : Geometry} {k : ℕ} (h : g.HasPlace (.root k)) :
    k / 16 < g.rootSectors := by
  have hk : k < g.rootEntries := h
  unfold rootSectors
  omega

/-- The sector of a place in a cluster is one of the cluster. -/
theorem Geometry.HasPlace.cluster_lt {g : Geometry} {c k : ℕ} (h : g.HasPlace (.cluster c k)) :
    k / 16 < g.secPerClus :=
  Nat.div_lt_of_lt_mul (Nat.mul_comm .. ▸ h.2)

theorem Geometry.perCluster_eq (g : Geometry) : g.clusterSize / 32 = g.perCluster := by
  unfold clusterSize perCluster
  omega

theorem Geometry.perCluster_pos {g : Geometry} (h : g.Laid) : 0 < g.perCluster :=
  Nat.mul_pos h.secPerClus_pos (by decide)

namespace Volume

variable (V : Volume)

/-- Where slot `i` of a directory lies. -/
def place (dir i : ℕ) : Option Place :=
  if dir = 0 then if i < V.geo.rootEntries then some (.root i) else none
  else (V.walk (i / V.geo.perCluster) dir).map fun c => .cluster c (i % V.geo.perCluster)

/-- The entry at a place. -/
def entryAt (p : Place) : DirEntry := entryOf (V.sector (p.lba V.geo)) p.pos

theorem slotLoc_eq (dir i : ℕ) :
    V.slotLoc dir i = (V.place dir i).map fun p => (p.lba V.geo, p.pos) := by
  unfold slotLoc place
  by_cases hd : dir = 0
  · by_cases hi : i < V.geo.rootEntries
    · simp [hd, hi, Place.lba, Place.pos]
    · simp [hd, hi]
  · simp [hd, V.geo.perCluster_eq, Place.lba, Place.pos, Function.comp_def]

/-- **A slot is the entry at its place.** -/
theorem slot_eq (dir i : ℕ) : V.slot dir i = (V.place dir i).map V.entryAt := by
  rw [slot, slotLoc_eq, Option.map_map]
  rfl

theorem slot_eq_some_iff {dir i : ℕ} {e : DirEntry} :
    V.slot dir i = some e ↔ ∃ p, V.place dir i = some p ∧ V.entryAt p = e := by
  rw [slot_eq, Option.map_eq_some_iff]

theorem slotLoc_isSome (dir i : ℕ) :
    (V.slotLoc dir i).isSome = (V.place dir i).isSome := by
  rw [slotLoc_eq, Option.isSome_map]

theorem slotLoc_eq_none {dir i : ℕ} : V.slotLoc dir i = none ↔ V.place dir i = none := by
  rw [slotLoc_eq, Option.map_eq_none_iff]

variable {V}

theorem setSlot_of_place {dir i : ℕ} {p : Place} (e : DirEntry) (h : V.place dir i = some p) :
    V.setSlot dir i e = V.put (p.lba V.geo) (withEntry (V.sector (p.lba V.geo)) p.pos e) :=
  V.setSlot_of_some (by rw [slotLoc_eq, h]; rfl)

section Laid

variable (hg : V.geo.Laid)
include hg

/-- The sectors of two places are different unless the places share one. -/
theorem sector_lba_put {p q : Place} {b : Sector} (hp : V.geo.HasPlace p)
    (hq : V.geo.HasPlace q) :
    (V.put (p.lba V.geo) b).sector (q.lba V.geo) =
      if q.lba V.geo = p.lba V.geo then b else V.sector (q.lba V.geo) := by
  split
  · next he => rw [he, sector_put_self]
  next hne =>
  -- four kinds of pairs, as the root directory and the clusters have sectors of their own
  cases p with
  | root k =>
    have hk := Geometry.HasPlace.root_lt hp
    cases q with
    | root j =>
      have hj := Geometry.HasPlace.root_lt hq
      have h := rootSector_put hg (b := b) hk hj
      rw [if_neg (fun h => hne (by simp only [Place.lba, h]))] at h
      exact h
    | cluster c j =>
      have hj := Geometry.HasPlace.cluster_lt hq
      exact clusterSector_putRoot hg hk hq.1 hj
  | cluster c k =>
    have hk := Geometry.HasPlace.cluster_lt hp
    cases q with
    | root j =>
      have hj := Geometry.HasPlace.root_lt hq
      exact rootSector_putCluster hg hp.1 hk hj
    | cluster d j =>
      have hj := Geometry.HasPlace.cluster_lt hq
      have h := clusterSector_put hg (b := b) hp.1 hk hq.1 hj
      rw [if_neg (fun h => hne (by simp only [Place.lba, h.1, h.2]))] at h
      exact h

/-- Places with the same sector and position are the same. -/
theorem place_injective {p q : Place} (hp : V.geo.HasPlace p) (hq : V.geo.HasPlace q)
    (hl : q.lba V.geo = p.lba V.geo) (hpos : q.pos = p.pos) : q = p := by
  -- the root directory lies in front of the data area, and each cluster has sectors of its own
  have hd := hg.data_lt
  have hr := V.geo.rootPos_le
  cases p with
  | root k =>
    have hk := Geometry.HasPlace.root_lt hp
    cases q with
    | root j =>
      simp only [Place.lba, Place.pos] at hl hpos
      rw [show j = k by omega]
    | cluster c j =>
      have hj := Geometry.HasPlace.cluster_lt hq
      have hc := hq.1.lt_eoc hg
      have h₁ := Geometry.clusterLba_add_mod hg hq.1.1 (by simp only [fat12Eoc] at hc; omega) (j / 16)
      have h₂ := Geometry.rootLba_add_mod hg (k / 16)
      have h₃ := Geometry.clusterPos_lt hg hq.1 hj
      have h₄ := Geometry.clusterPos_lt_size hg hq.1 hj
      simp only [Place.lba] at hl
      omega
  | cluster c k =>
    have hk := Geometry.HasPlace.cluster_lt hp
    have hc := hp.1.lt_eoc hg
    have h₁ := Geometry.clusterLba_add_mod hg hp.1.1 (by simp only [fat12Eoc] at hc; omega) (k / 16)
    have h₄ := Geometry.clusterPos_lt_size hg hp.1 hk
    cases q with
    | root j =>
      have hj := Geometry.HasPlace.root_lt hq
      have h₂ := Geometry.rootLba_add_mod hg (j / 16)
      have h₃ := Geometry.clusterPos_lt hg hp.1 hk
      simp only [Place.lba] at hl
      omega
    | cluster d j =>
      have hj := Geometry.HasPlace.cluster_lt hq
      have hd' := hq.1.lt_eoc hg
      have h₂ := Geometry.clusterLba_add_mod hg hq.1.1 (by simp only [fat12Eoc] at hd'; omega) (j / 16)
      have h₃ := Geometry.clusterPos_lt_size hg hq.1 hj
      simp only [Place.lba, Place.pos] at hl hpos
      obtain ⟨rfl, hs⟩ := Geometry.clusterPos_injective hq.1 hp.1 hj hk (by omega)
      rw [show j = k by omega]

/-- **Storing a slot changes the entry at its place** and no other. -/
theorem entryAt_setSlot {dir i : ℕ} {p q : Place} {e : DirEntry} (h : V.place dir i = some p)
    (hp : V.geo.HasPlace p) (hq : V.geo.HasPlace q) :
    (V.setSlot dir i e).entryAt q = if q = p then e else V.entryAt q := by
  rw [setSlot_of_place e h, entryAt, put_geo, sector_lba_put hg hp hq]
  by_cases hl : q.lba V.geo = p.lba V.geo
  · rw [if_pos hl]
    by_cases hpos : q.pos = p.pos
    · rw [if_pos (place_injective hg hp hq hl hpos), hpos, entryOf_withEntry]
    · have hqp : q ≠ p := fun h => hpos (by rw [h])
      rw [if_neg hqp, entryOf_withEntry_of_ne _ _ hpos, entryAt, hl]
  · have hqp : q ≠ p := fun h => hl (by rw [h])
    rw [if_neg hl, if_neg hqp, entryAt]

theorem fat_setSlot {dir i c : ℕ} {p : Place} {e : DirEntry} (h : V.place dir i = some p)
    (hp : V.geo.HasPlace p) (hc : c ≤ V.geo.totalClusters + 1) :
    (V.setSlot dir i e).fat c = V.fat c := by
  rw [setSlot_of_place e h]
  cases p with
  | root k =>
    exact fat_putRoot hg (Geometry.HasPlace.root_lt hp) hc
  | cluster d k =>
    exact fat_putCluster hg hp.1 (Geometry.HasPlace.cluster_lt hp) hc

/-- Storing a slot changes no sector of a cluster it does not lie in. -/
theorem clusterSector_setSlot {dir i c s : ℕ} {p : Place} {e : DirEntry}
    (h : V.place dir i = some p) (hp : V.geo.HasPlace p) (hc : V.geo.InData c)
    (hpc : ¬ p.InClusters {c}) (hs : s < V.geo.secPerClus) :
    (V.setSlot dir i e).clusterSector c s = V.clusterSector c s := by
  rw [setSlot_of_place e h]
  cases p with
  | root k =>
    exact clusterSector_putRoot hg (Geometry.HasPlace.root_lt hp) hc hs
  | cluster d k =>
    have hk := Geometry.HasPlace.cluster_lt hp
    have h := clusterSector_put hg (b := withEntry (V.sector (V.geo.clusterLba d + k / 16))
      (k % 16) e) hp.1 hk hc hs
    rw [if_neg fun hcd => hpc (by simp [Place.InClusters, hcd.1])] at h
    exact h

end Laid

/-! ## Frames -/

/-- The volumes differ in the FAT entries `F` and in the sectors of the clusters `D` only. -/
structure Frame (V V' : Volume) (F D : Set ℕ) : Prop where
  geo : V'.geo = V.geo
  fat : ∀ c ≤ V.geo.totalClusters + 1, c ∉ F → V'.fat c = V.fat c
  root : ∀ k < V.geo.rootSectors, V'.rootSector k = V.rootSector k
  data : ∀ c, V.geo.InData c → c ∉ D → ∀ s < V.geo.secPerClus,
    V'.clusterSector c s = V.clusterSector c s

namespace Frame

variable {F F' D D' : Set ℕ}

theorem refl (V : Volume) (F D : Set ℕ) : V.Frame V F D :=
  ⟨rfl, fun _ _ _ => rfl, fun _ _ => rfl, fun _ _ _ _ _ => rfl⟩

theorem mono (h : V.Frame V' F D) (hF : F ⊆ F') (hD : D ⊆ D') : V.Frame V' F' D' :=
  ⟨h.geo, fun c hc hcF => h.fat c hc fun hf => hcF (hF hf), h.root,
    fun c hc hcD => h.data c hc fun hd => hcD (hD hd)⟩

theorem trans (h : V.Frame V' F D) (h' : V'.Frame V'' F' D') :
    V.Frame V'' (F ∪ F') (D ∪ D') where
  geo := h'.geo.trans h.geo
  fat c hc hF := by
    rw [Set.mem_union, not_or] at hF
    rw [h'.fat c (by rwa [h.geo]) hF.2, h.fat c hc hF.1]
  root k hk := by rw [h'.root k (by rwa [h.geo]), h.root k hk]
  data c hc hD s hs := by
    rw [Set.mem_union, not_or] at hD
    rw [h'.data c (by rwa [h.geo]) hD.2 s (by rwa [h.geo]), h.data c hc hD.1 s hs]

/-- Two changes of the same clusters are one. -/
theorem trans_self (h : V.Frame V' F D) (h' : V'.Frame V'' F D) : V.Frame V'' F D := by
  have ht := h.trans h'
  rwa [Set.union_self, Set.union_self] at ht

theorem setFd (h : V.Frame V' F D) (fd : ℕ) (f : FD) : V.Frame (V'.setFd fd f) F D :=
  ⟨h.geo, h.fat, h.root, h.data⟩

/-- A chain outside the frame is a chain of both volumes. -/
theorem chain (h : V.Frame V' F D) {c : ℕ} {l : List ℕ} (hl : V.Chain c l)
    (hF : ∀ x ∈ l, x ∉ F) : V'.Chain c l :=
  Links.Chain.congr hl (fun x hx => h.fat x (hl.ok_of_mem hx).2 (hF x hx))
    fun x _ hok => by rwa [h.geo]

/-- An entry outside the frame is the same in both volumes. -/
theorem entryAt (h : V.Frame V' F D) {p : Place} (hp : V.geo.HasPlace p)
    (hD : ¬ p.InClusters D) : V'.entryAt p = V.entryAt p := by
  unfold Volume.entryAt
  rw [h.geo]
  cases p with
  | root k =>
    have hr := h.root (k / 16) (Geometry.HasPlace.root_lt hp)
    unfold rootSector at hr
    rw [h.geo] at hr
    rw [Place.lba, hr]
  | cluster c k =>
    have hk := Geometry.HasPlace.cluster_lt hp
    have hr := h.data c hp.1 hD _ hk
    unfold clusterSector at hr
    rw [h.geo] at hr
    rw [Place.lba, hr]

end Frame

section FrameOf

variable (hg : V.geo.Laid)
include hg

theorem frame_fatSet {c : ℕ} (v : ℕ) (hc : c ≤ V.geo.totalClusters + 1) :
    V.Frame (V.fatSet c v) {c} ∅ where
  geo := V.fatSet_geo c v
  fat d hd hdc := by rw [fat_fatSet hg hc hd, if_neg fun h => hdc (Set.mem_singleton_iff.mpr h)]
  root _ hk := rootSector_fatSet hg hc hk
  data _ hd _ _ hs := clusterSector_fatSet hg hc hd hs

theorem frame_put {c s : ℕ} (b : Sector) (hc : V.geo.InData c) (hs : s < V.geo.secPerClus) :
    V.Frame (V.put (V.geo.clusterLba c + s) b) ∅ {c} where
  geo := rfl
  fat _ hd _ := fat_putCluster hg hc hs hd
  root _ hk := rootSector_putCluster hg hc hs hk
  data d hd hdc t ht := by
    rw [clusterSector_put hg hc hs hd ht, if_neg fun h => hdc h.1]

theorem frame_zeroSectors {c : ℕ} (hc : V.geo.InData c) : ∀ n ≤ V.geo.secPerClus,
    V.Frame (V.zeroSectors (V.geo.clusterLba c) n) ∅ {c} ∧ ∀ s < V.geo.secPerClus,
      (V.zeroSectors (V.geo.clusterLba c) n).clusterSector c s =
        if s < n then fun _ => 0 else V.clusterSector c s
  | 0, _ => ⟨.refl V _ _, fun s _ => by simp [zeroSectors]⟩
  | n + 1, hn => by
    obtain ⟨hf, hz⟩ := frame_zeroSectors hc n (by omega)
    have hgeo := hf.geo
    obtain ⟨U, hU⟩ : ∃ U, U = V.zeroSectors (V.geo.clusterLba c) n := ⟨_, rfl⟩
    rw [← hU] at hf hz hgeo
    have hgU : U.geo.Laid := by rwa [hgeo]
    have hcU : U.geo.InData c := by rwa [hgeo]
    have hnU : n < U.geo.secPerClus := by rw [hgeo]; omega
    rw [zeroSectors, ← hU, ← hgeo]
    refine ⟨hf.trans_self (frame_put hgU _ hcU hnU), fun s hs => ?_⟩
    rw [clusterSector_put hgU hcU hnU hcU hs, hz s (by rwa [hgeo] at hs)]
    by_cases hsn : s = n
    · simp [hsn]
    · rw [if_neg fun h => hsn h.2]
      by_cases hlt : s < n
      · rw [if_pos hlt, if_pos (by omega)]
      · rw [if_neg hlt, if_neg (by omega)]

theorem frame_zeroCluster {c : ℕ} (hc : V.geo.InData c) : V.Frame (V.zeroCluster c) ∅ {c} :=
  (frame_zeroSectors hg hc _ le_rfl).1

/-- Every entry of a zeroed cluster is zero. -/
theorem entryAt_zeroCluster {c k : ℕ} (hc : V.geo.InData c) (hk : k < V.geo.perCluster) :
    (V.zeroCluster c).entryAt (.cluster c k) = .zero := by
  have hs : k / 16 < V.geo.secPerClus := Nat.div_lt_of_lt_mul (Nat.mul_comm .. ▸ hk)
  have h := (frame_zeroSectors hg hc _ le_rfl).2 _ hs
  rw [if_pos hs] at h
  unfold entryAt
  rw [zeroCluster_geo]
  unfold clusterSector at h
  rw [zeroSectors_geo] at h
  rw [Place.lba, zeroCluster, h]
  rfl

/-- Byte `o` of a cluster. -/
def clusterByte (V : Volume) (c o : ℕ) : UInt8 := V.byteAt (V.geo.clusterLba c) o

omit hg in
theorem clusterByte_eq (V : Volume) (c o : ℕ) :
    V.clusterByte c o = V.clusterSector c (o / 512) (o % 512) := rfl

theorem frame_store {c : ℕ} (hc : V.geo.InData c) (xs : List UInt8) {o : ℕ}
    (ho : o + xs.length ≤ V.geo.clusterSize) :
    V.Frame (V.store (V.geo.clusterLba c) o xs) ∅ {c} ∧ ∀ k < V.geo.clusterSize,
      (V.store (V.geo.clusterLba c) o xs).clusterByte c k =
        if o ≤ k then xs.getD (k - o) (V.clusterByte c k) else V.clusterByte c k := by
  -- byte by byte: each store is inside the cluster, so the frame carries over
  induction xs generalizing V o with
  | nil => exact ⟨.refl V _ _, fun k _ => by simp [store]⟩
  | cons x xs ih =>
    rw [List.length_cons] at ho
    have hos : o / 512 < V.geo.secPerClus := by
      unfold Geometry.clusterSize at ho
      omega
    obtain ⟨U, hU⟩ : ∃ U, U = V.setByte (V.geo.clusterLba c) o x := ⟨_, rfl⟩
    have hgeo : U.geo = V.geo := by rw [hU, setByte_geo]
    have hf : V.Frame U ∅ {c} := by
      rw [hU]
      exact frame_put hg _ hc hos
    have hx : ∀ k < V.geo.clusterSize, U.clusterByte c k = if k = o then x else V.clusterByte c k := by
      intro k hk
      unfold Geometry.clusterSize at hk
      have hs := hg.fits
      have h255 := hg.secPerClus_le
      unfold clusterByte
      rw [hgeo, hU, byteAt_setByte (by omega) (by omega)]
    obtain ⟨hf', hb⟩ := ih (V := U) (by rwa [hgeo]) (by rwa [hgeo]) (o := o + 1)
      (by rw [hgeo]; omega)
    rw [store, ← hU, ← hgeo]
    refine ⟨hf.trans_self hf', fun k hk => ?_⟩
    rw [hb k hk, hx k (by rwa [hgeo] at hk)]
    by_cases hko : k = o
    · subst hko
      simp
    · rw [if_neg hko]
      by_cases hlt : o ≤ k
      · rw [if_pos hlt, if_pos (by omega), show k - o = (k - (o + 1)) + 1 by omega,
          List.getD_cons_succ]
      · rw [if_neg hlt, if_neg (by omega)]

/-- Linking a zeroed free cluster after the last one of a chain. -/
theorem frame_linkAfter {last c : ℕ} (hl : last ≤ V.geo.totalClusters + 1)
    (hc : V.geo.InData c) : V.Frame (V.linkAfter last c) {last, c} {c} := by
  have h₁ := frame_fatSet hg fat12Eoc hc.2
  have hgeo := h₁.geo
  have h₂ := frame_fatSet (V := V.fatSet c fat12Eoc) (by rwa [hgeo]) (c := last) c (by rwa [hgeo])
  have hgeo₂ := (h₁.trans h₂).geo
  have h₃ := frame_zeroCluster (V := (V.fatSet c fat12Eoc).fatSet last c) (by rwa [hgeo₂])
    (by rwa [hgeo₂])
  refine ((h₁.trans h₂).trans h₃).mono ?_ ?_
  · intro x hx
    simpa [or_comm] using hx
  · intro x hx
    simpa using hx

/-- A linked cluster ends its chain, and the cluster before it links to it. -/
theorem fat_linkAfter {last c : ℕ} (hl : last ≤ V.geo.totalClusters + 1) (hc : V.geo.InData c)
    (hne : last ≠ c) : (V.linkAfter last c).fat c = fat12Eoc ∧
      (V.linkAfter last c).fat last = c := by
  have hlt := hc.lt_eoc hg
  have hgeo : ((V.fatSet c fat12Eoc).fatSet last c).geo = V.geo := by simp
  have hz := frame_zeroCluster (V := (V.fatSet c fat12Eoc).fatSet last c) (by rwa [hgeo])
    (c := c) (by rwa [hgeo])
  have hg₁ : (V.fatSet c fat12Eoc).geo.Laid := by rwa [fatSet_geo]
  have hl₁ : last ≤ (V.fatSet c fat12Eoc).geo.totalClusters + 1 := by rwa [fatSet_geo]
  have hc₁ : c ≤ (V.fatSet c fat12Eoc).geo.totalClusters + 1 := by
    rw [fatSet_geo]
    exact hc.2
  simp only [fat12Eoc] at hlt
  constructor
  · rw [linkAfter, hz.fat c (by rw [hgeo]; exact hc.2) (Set.notMem_empty _),
      fat_fatSet hg₁ hl₁ hc₁, if_neg hne.symm, fat_fatSet hg hc.2 hc.2, if_pos rfl]
    rfl
  · rw [linkAfter, hz.fat last (by rwa [hgeo]) (Set.notMem_empty _), fat_fatSet hg₁ hl₁ hl₁,
      if_pos rfl, Nat.mod_eq_of_lt (by omega)]

end FrameOf

end Volume

end WarkRune.Fat12

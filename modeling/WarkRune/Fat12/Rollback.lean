import WarkRune.Fat12.Bits
import WarkRune.Fat12.Install

/-!
# Clusters taken and given back

`fat12_mkdir` takes a free cluster and zeroes it before it looks for a slot, and frees the cluster
when there is none. The FAT is then as it was if every copy of it had the entry free, and the rest
of the volume is as it was but for the zeroed sectors.

## Main definitions

* `Volume.Unchanged V V'`: the FAT copies and the directories are as they were
* `Volume.Uses V l`: the FAT or a directory has a part in the sector `l`
* `Volume.Unused V c`: the sectors of the cluster `c` that are in use are blank
* `Volume.FreeInCopies V c`: the copies of the FAT that are written have `c` free
* `Volume.Apart V dir c`: taking the cluster `c` leaves the directory alone
* `Volume.Grows V dir`: with one more cluster the directory has the slot that is returned for it

## Main results

* `FreeInCopies.rollback`: once it is given back, the cluster has been zeroed and nothing else
* `Unused.rollback`: the FAT and the directories are then as they were
* `Apart.freeSlot`, `takeDir_full`, `Grows.slotLoc`: what decides whether a slot is found
-/

namespace WarkRune.Fat12

/-! ## Bytes that are patched -/

section Pack

variable {c : ℕ} (v w : ℕ) (b : UInt8)

theorem packLo_packLo : packLo c v (packLo c w b) = packLo c v b := by
  apply UInt8.toNat_inj.mp
  rcases Nat.mod_two_eq_zero_or_one c with hc | hc
  · rw [toNat_packLo_even hc, toNat_packLo_even hc]
  · rw [toNat_packLo_odd hc, toNat_packLo_odd hc, toNat_packLo_odd hc]
    omega

theorem packHi_packHi : packHi c v (packHi c w b) = packHi c v b := by
  apply UInt8.toNat_inj.mp
  rcases Nat.mod_two_eq_zero_or_one c with hc | hc
  · rw [toNat_packHi_even hc, toNat_packHi_even hc, toNat_packHi_even hc]
    omega
  · rw [toNat_packHi_odd hc, toNat_packHi_odd hc]

/-- Freeing a free entry changes neither of its bytes. -/
theorem pack_free {b₀ b₁ : UInt8} (h : unpack c b₀ b₁ = fat12Free) :
    packLo c fat12Free b₀ = b₀ ∧ packHi c fat12Free b₁ = b₁ := by
  have h₀ := b₀.toNat_lt
  have h₁ := b₁.toNat_lt
  simp only [fat12Free] at h ⊢
  rcases Nat.mod_two_eq_zero_or_one c with hc | hc
  · rw [unpack_even hc] at h
    constructor
    · apply UInt8.toNat_inj.mp
      rw [toNat_packLo_even hc]
      omega
    · apply UInt8.toNat_inj.mp
      rw [toNat_packHi_even hc]
      omega
  · rw [unpack_odd hc] at h
    constructor
    · apply UInt8.toNat_inj.mp
      rw [toNat_packLo_odd hc]
      omega
    · apply UInt8.toNat_inj.mp
      rw [toNat_packHi_odd hc]
      omega

end Pack

/-- What storing `v` for `c` makes of the byte at position `k` of its sector. -/
def packByte (c v k : ℕ) (b : UInt8) : UInt8 :=
  if k = (c * 3 / 2 + 1) % 512 then packHi c v b
  else if k = c * 3 / 2 % 512 then packLo c v b
  else b

/-- The sector, counted from the start of a copy, that has the byte of `c` at position `k`. -/
def entrySector (c k : ℕ) : ℕ :=
  if k = (c * 3 / 2 + 1) % 512 then (c * 3 / 2 + 1) / 512 else c * 3 / 2 / 512

/-- What storing `v` for `c` in the copy at `base` makes of byte `k` of the sector `l`. -/
def patchByte (c v base l k : ℕ) (b : UInt8) : UInt8 :=
  if l % 2 ^ 28 = (base + entrySector c k) % 2 ^ 28 then packByte c v k b else b

section PatchByte

variable {c v w base base' l k : ℕ} {b : UInt8}

theorem packByte_packByte : packByte c v k (packByte c w k b) = packByte c v k b := by
  unfold packByte
  split_ifs
  · exact packHi_packHi v w b
  · exact packLo_packLo v w b
  · rfl

theorem patchByte_zero : patchByte c fat12Free base l k 0 = 0 := by
  have hfree : unpack c 0 0 = fat12Free := by simp [unpack, fat12Free]
  obtain ⟨hlo, hhi⟩ := pack_free hfree
  unfold patchByte packByte
  split_ifs <;> first | assumption | rfl

/-- **What is stored last in an entry stays**, in each of two copies. -/
theorem patchByte_undo (h : patchByte c v base l k b = b) (h' : patchByte c v base' l k b = b) :
    patchByte c v base' l k (patchByte c v base l k
      (patchByte c w base' l k (patchByte c w base l k b))) = b := by
  unfold patchByte at *
  split_ifs at * <;> simp only [packByte_packByte, h, h']

theorem patchByte_undo_self (h : patchByte c v base l k b = b) :
    patchByte c v base l k (patchByte c w base l k b) = b := by
  unfold patchByte at *
  split_ifs at * <;> simp only [packByte_packByte, h]

end PatchByte

/-! ## Sectors -/

/-- The sector `l` is one of the cluster `c`. -/
def Geometry.InCluster (g : Geometry) (c l : ℕ) : Prop :=
  ∃ s < g.secPerClus, l % 2 ^ 28 = (g.clusterLba c + s) % 2 ^ 28

/-- The entry of the cluster lies in the FAT copies, and none of its sectors does. -/
structure Geometry.Clear (g : Geometry) (c : ℕ) : Prop where
  copies : 0 < g.numFats
  entry : g.InFat c
  sector : ∀ l, g.InCluster c l → g.OutsideFats l

namespace Geometry

variable {g : Geometry} (h : g.Laid) {c : ℕ}
include h

/-- The entries of the clusters lie in the FAT copies. -/
theorem Laid.inFat (hc : c ≤ g.totalClusters + 1) : g.InFat c := by
  have hfits := h.fat_fits
  have hle : c * 3 / 2 ≤ (g.totalClusters + 1) * 3 / 2 :=
    Nat.div_le_div_right (Nat.mul_le_mul_right 3 hc)
  unfold InFat
  omega

/-- The sectors behind the FAT copies lie outside of them. -/
theorem Laid.outsideFats {l k : ℕ} (hl : l % 2 ^ 28 = (g.fatLba + k) % 2 ^ 28)
    (hk : g.rootPos ≤ k) (hk' : k < 2 ^ 28) : g.OutsideFats l := by
  have hd := h.data_lt
  have hr := g.rootPos_le
  intro j hj
  unfold rootPos at hk hr
  omega

theorem Laid.clear (hc : g.InData c) : g.Clear c where
  copies := h.numFats_pos
  entry := h.inFat hc.2
  sector l hl := by
    obtain ⟨s, hs, hl⟩ := hl
    have hlt := hc.lt_eoc h
    have hpos := clusterPos_lt h hc hs
    have hr := g.rootPos_le
    simp only [fat12Eoc] at hlt
    exact h.outsideFats (hl.trans (clusterLba_add_mod h hc.1 (by omega) s)) (by omega)
      (clusterPos_lt_size h hc hs)

/-- A slot in the root directory or in another cluster has a sector of its own. -/
theorem Laid.apart (hc : g.InData c) {p : Place} (hp : g.HasPlace p) (hpc : ¬ p.InClusters {c}) :
    g.OutsideFats (p.lba g) ∧ ¬ g.InCluster c (p.lba g) := by
  have hd := h.data_lt
  have hr := g.rootPos_le
  have hc' := hc.lt_eoc h
  simp only [fat12Eoc] at hc'
  cases p with
  | root k =>
    have hk := HasPlace.root_lt hp
    have hl : (g.rootLba + k / 16) % 2 ^ 28 = _ := rootLba_add_mod h (k / 16)
    refine ⟨h.outsideFats hl (by omega) (by omega), ?_⟩
    rintro ⟨s, hs, he⟩
    have hpos := clusterPos_lt h hc hs
    have hsize := clusterPos_lt_size h hc hs
    have hs' := clusterLba_add_mod h hc.1 (by omega) s
    simp only [Place.lba] at he
    omega
  | cluster x k =>
    have hk := HasPlace.cluster_lt hp
    have hx := hp.1.lt_eoc h
    simp only [fat12Eoc] at hx
    have hl : (g.clusterLba x + k / 16) % 2 ^ 28 = _ :=
      clusterLba_add_mod h hp.1.1 (by omega) (k / 16)
    have hpos := clusterPos_lt h hp.1 hk
    have hsize := clusterPos_lt_size h hp.1 hk
    refine ⟨h.outsideFats hl (by omega) hsize, ?_⟩
    rintro ⟨s, hs, he⟩
    have hsize' := clusterPos_lt_size h hc hs
    have hs' := clusterLba_add_mod h hc.1 (by omega) s
    simp only [Place.lba] at he
    have hsame : g.clusterPos x (k / 16) = g.clusterPos c s := by omega
    exact hpc (clusterPos_injective hp.1 hc hk hs hsame).1

end Geometry

namespace Volume

variable {V V' : Volume} {c v l : ℕ}

theorem sector_setByte (base o : ℕ) (x : UInt8) (k : ℕ) :
    (V.setByte base o x).sector l k =
      if l % 2 ^ 28 = (base + o / 512) % 2 ^ 28 ∧ k = o % 512 then x else V.sector l k := by
  rw [setByte, sector_put]
  by_cases hl : l % 2 ^ 28 = (base + o / 512) % 2 ^ 28
  · rw [if_pos hl, sector_congr hl]
    by_cases hk : k = o % 512
    · rw [if_pos ⟨hl, hk⟩, hk, Function.update_self]
    · rw [if_neg fun h => hk h.2, Function.update_of_ne hk]
  · rw [if_neg hl, if_neg fun h => hl h.1]

theorem sector_patchFat_apply (base k : ℕ) :
    (V.patchFat c v base).sector l k = patchByte c v base l k (V.sector l k) := by
  rw [patchFat, sector_setByte, sector_setByte]
  unfold patchByte packByte entrySector
  by_cases h₁ : k = (c * 3 / 2 + 1) % 512
  · have h₀ : k ≠ c * 3 / 2 % 512 := by omega
    rw [if_pos h₁, if_pos h₁]
    by_cases hl : l % 2 ^ 28 = (base + (c * 3 / 2 + 1) / 512) % 2 ^ 28
    · rw [if_pos ⟨hl, h₁⟩, if_pos hl, byteAt, ← sector_congr hl, ← h₁]
    · rw [if_neg fun h => hl h.1, if_neg hl, if_neg fun h => h₀ h.2]
  rw [if_neg h₁, if_neg h₁, if_neg fun h => h₁ h.2]
  by_cases hl : l % 2 ^ 28 = (base + c * 3 / 2 / 512) % 2 ^ 28
  · by_cases h₀ : k = c * 3 / 2 % 512
    · rw [if_pos ⟨hl, h₀⟩, if_pos hl, if_pos h₀, byteAt, ← sector_congr hl, ← h₀]
    · rw [if_neg fun h => h₀ h.2, if_pos hl, if_neg h₀]
  · rw [if_neg fun h => hl h.1, if_neg hl]

theorem sector_fatSet_apply (k : ℕ) : (V.fatSet c v).sector l k =
    if V.geo.numFats > 1 then
      patchByte c v (V.geo.fatLba + V.geo.fatSize) l k
        (patchByte c v V.geo.fatLba l k (V.sector l k))
    else patchByte c v V.geo.fatLba l k (V.sector l k) := by
  rw [fatSet]
  split
  · rw [sector_patchFat_apply, sector_patchFat_apply]
  · rw [sector_patchFat_apply]

theorem sector_zeroSectors (lba : ℕ) : ∀ n, (V.zeroSectors lba n).sector l =
    if ∃ s < n, l % 2 ^ 28 = (lba + s) % 2 ^ 28 then fun _ => 0 else V.sector l
  | 0 => by simp [zeroSectors]
  | n + 1 => by
    rw [zeroSectors, sector_put, sector_zeroSectors lba n]
    simp only [Nat.exists_lt_succ_right]
    by_cases hn : l % 2 ^ 28 = (lba + n) % 2 ^ 28
    · rw [if_pos hn, if_pos (.inr hn)]
    · rw [if_neg hn]
      simp only [hn, or_false]

theorem sector_zeroCluster (h : V.geo.InCluster c l) : (V.zeroCluster c).sector l = fun _ => 0 := by
  rw [zeroCluster, sector_zeroSectors]
  exact if_pos h

theorem sector_zeroCluster_of_not (h : ¬ V.geo.InCluster c l) :
    (V.zeroCluster c).sector l = V.sector l := by
  rw [zeroCluster, sector_zeroSectors]
  exact if_neg h

/-! ## Giving back -/

/-- The entry of a cluster in the `k`-th FAT copy. -/
def copyEntry (V : Volume) (k c : ℕ) : ℕ :=
  unpack c (V.byteAt (V.geo.fatLba + k * V.geo.fatSize) (c * 3 / 2))
    (V.byteAt (V.geo.fatLba + k * V.geo.fatSize) (c * 3 / 2 + 1))

/-- The FAT copies that `fat_set` writes have the entry of the cluster free. -/
def FreeInCopies (V : Volume) (c : ℕ) : Prop :=
  ∀ k, k = 0 ∨ k = 1 ∧ 1 < V.geo.numFats → V.copyEntry k c = fat12Free

theorem patchByte_of_free {k : ℕ} (h : V.copyEntry k c = fat12Free) (j : ℕ) :
    patchByte c fat12Free (V.geo.fatLba + k * V.geo.fatSize) l j (V.sector l j) =
      V.sector l j := by
  obtain ⟨hlo, hhi⟩ := pack_free h
  unfold patchByte packByte entrySector
  split_ifs with h₁ hl hl h₀
  · rwa [byteAt, ← sector_congr hl, ← h₁] at hhi
  · rfl
  · rwa [byteAt, ← sector_congr hl, ← h₀] at hlo
  · rfl
  · rfl

/-- **A cluster taken and given back** has been zeroed, and nothing else has changed. -/
theorem FreeInCopies.rollback (h : V.FreeInCopies c) (l : ℕ) :
    ((V.takeDir c).fatSet c fat12Free).sector l = (V.zeroCluster c).sector l := by
  funext k
  rw [sector_fatSet_apply, takeDir_geo, takeDir]
  have hgeo := V.fatSet_geo c fat12Eoc
  by_cases hl : V.geo.InCluster c l
  · rw [sector_zeroCluster hl, sector_zeroCluster (by rwa [hgeo])]
    simp only [patchByte_zero, ite_self]
  · rw [sector_zeroCluster_of_not hl, sector_zeroCluster_of_not (by rwa [hgeo]),
      sector_fatSet_apply]
    have h₀ := patchByte_of_free (l := l) (h 0 (.inl rfl)) k
    rw [Nat.zero_mul, Nat.add_zero] at h₀
    by_cases hn : V.geo.numFats > 1
    · have h₁ := patchByte_of_free (l := l) (h 1 (.inr ⟨rfl, hn⟩)) k
      rw [Nat.one_mul] at h₁
      rw [if_pos hn, if_pos hn, patchByte_undo h₀ h₁]
    · rw [if_neg hn, if_neg hn, patchByte_undo_self h₀]

variable {d dir : ℕ}

/-! ## What is in use -/

/-- The FAT copies, the entries of the clusters and the directories are as they were. -/
structure Unchanged (V V' : Volume) : Prop where
  fatBit : ∀ k, k = 0 ∨ k < V.geo.numFats → ∀ n < V.geo.fatSize * 512 * 8,
    V'.fatBit k n = V.fatBit k n
  fat : ∀ x ≤ V.geo.totalClusters + 1, V'.fat x = V.fat x
  slot : ∀ d, V.DirAt d → ∀ i, V'.slot d i = V.slot d i

/-- **The sector `l` is in use**: it is one of a FAT copy, or it has a byte of the entry of a
cluster, or a byte of a link or a slot of a directory that the root leads to. -/
inductive Uses (V : Volume) : ℕ → Prop
  | copy {k j : ℕ} (hk : k = 0 ∨ k < V.geo.numFats) (hj : j < V.geo.fatSize) :
      Uses V (V.geo.fatLba + k * V.geo.fatSize + j)
  | entry {x i : ℕ} (hx : x ≤ V.geo.totalClusters + 1) (hi : i ≤ 1) :
      Uses V (V.geo.fatLba + (x * 3 / 2 + i) / 512)
  | link {d n x i : ℕ} (hd : V.DirAt d) (h0 : d ≠ 0) (hx : V.walk n d = some x) (hi : i ≤ 1) :
      Uses V (V.geo.fatLba + (x * 3 / 2 + i) / 512)
  | slot {d i : ℕ} {p : ℕ × ℕ} (hd : V.DirAt d) (hp : V.slotLoc d i = some p) : Uses V p.1

/-- The sectors of the cluster that are in use are blank. -/
def Unused (V : Volume) (c : ℕ) : Prop :=
  ∀ l, V.Uses l → V.geo.InCluster c l → V.sector l = fun _ => 0

/-- An entry is read from two sectors. -/
theorem fat_congr (hg : V'.geo = V.geo) {x : ℕ}
    (h : ∀ i ≤ 1, V'.sector (V.geo.fatLba + (x * 3 / 2 + i) / 512) =
      V.sector (V.geo.fatLba + (x * 3 / 2 + i) / 512)) : V'.fat x = V.fat x := by
  have h₀ := h 0 (by decide)
  rw [Nat.add_zero] at h₀
  rw [fat, fat, byteAt, byteAt, byteAt, byteAt, hg, h₀, h 1 le_rfl]

/-- A walk goes on as before while the links on it are the same. -/
theorem walk_congr {n : ℕ} (h : ∀ m < n, ∀ x, V.walk m d = some x → V'.fat x = V.fat x) :
    V'.walk n d = V.walk n d := by
  induction n generalizing d with
  | zero => rfl
  | succ n ih =>
    have hd := h 0 n.succ_pos d rfl
    simp only [walk, hd]
    split
    · rfl
    · next he =>
      refine ih fun m hm x hx => h (m + 1) (Nat.succ_lt_succ hm) x ?_
      rw [walk, if_neg he]
      exact hx

/-- A slot is as it was while the links in front of it and its sector are the same. -/
theorem slot_congr (hg : V'.geo = V.geo) {i : ℕ}
    (hw : d ≠ 0 → ∀ m x, V.walk m d = some x → V'.fat x = V.fat x)
    (hs : ∀ p, V.slotLoc d i = some p → V'.sector p.1 = V.sector p.1) :
    V'.slotLoc d i = V.slotLoc d i ∧ V'.slot d i = V.slot d i := by
  have hloc : V'.slotLoc d i = V.slotLoc d i := by
    unfold slotLoc
    by_cases h0 : d = 0
    · rw [if_pos h0, if_pos h0, hg]
    · simp only [if_neg h0, hg, walk_congr fun m _ => hw h0 m]
  refine ⟨hloc, ?_⟩
  rw [slot, slot, hloc]
  cases hp : V.slotLoc d i with
  | none => rfl
  | some p => rw [Option.map_some, Option.map_some, hs p hp]

/-- A slot lies where it was while the sectors are the same. -/
theorem slotLoc_congr (hg : V'.geo = V.geo) (h : ∀ l, V'.sector l = V.sector l) {i : ℕ} :
    V'.slotLoc d i = V.slotLoc d i :=
  (slot_congr hg (fun _ _ _ _ => fat_congr hg fun _ _ => h _) fun _ _ => h _).1

/-- An entry whose store changes nothing is in the slot. -/
theorem slot_of_setSlot {i : ℕ} {e : DirEntry} (hl : (V.slotLoc d i).isSome = true)
    (h : ∀ l, (V.setSlot d i e).sector l = V.sector l) : V.slot d i = some e := by
  obtain ⟨⟨lba, pos⟩, hp⟩ := Option.isSome_iff_exists.mp hl
  have hsec := h lba
  rw [V.setSlot_of_some hp, sector_put_self] at hsec
  rw [V.slot_of_some hp, ← hsec, entryOf_withEntry]

theorem freeSlot_eq_of_slot (hgeo : V'.geo = V.geo) (h : ∀ i, V'.slot d i = V.slot d i) :
    V'.freeSlot d = V.freeSlot d := by
  have hat : V'.freeAt d = V.freeAt d := by
    ext1 i
    unfold freeAt
    rw [h]
  rw [freeSlot, freeSlot, hgeo, hat]

/-- **Nothing has changed** when the sectors in use are the same. -/
theorem Unchanged.of_uses (hg : V'.geo = V.geo) (h : ∀ l, V.Uses l → V'.sector l = V.sector l) :
    V.Unchanged V' where
  fatBit k hk n hn := by
    unfold Volume.fatBit byteAt
    rw [hg, h _ (.copy hk (by omega))]
  fat x hx := fat_congr hg fun i hi => h _ (.entry hx hi)
  slot d hd i :=
    (slot_congr hg (fun h0 m x hm => fat_congr hg fun j hj => h _ (.link hd h0 hm hj))
      fun p hp => h _ (.slot hd hp)).2

/-- The cluster is zero. -/
def Blank (V : Volume) (c : ℕ) : Prop := ∀ l, V.geo.InCluster c l → V.sector l = fun _ => 0

theorem Blank.unused (h : V.Blank c) : V.Unused c := fun l _ hl => h l hl

/-- Zeroing the cluster changes nothing. -/
theorem Blank.zeroCluster (h : V.Blank c) (l : ℕ) : (V.zeroCluster c).sector l = V.sector l := by
  by_cases hl : V.geo.InCluster c l
  · rw [sector_zeroCluster hl, h l hl]
  · exact sector_zeroCluster_of_not hl

/-- Zeroing the cluster changes no sector in use. -/
theorem Unused.zeroCluster (hu : V.Unused c) (hl : V.Uses l) :
    (V.zeroCluster c).sector l = V.sector l := by
  by_cases hc : V.geo.InCluster c l
  · rw [sector_zeroCluster hc, hu l hl hc]
  · exact sector_zeroCluster_of_not hc

/-- **The cluster taken for a directory is given back**, and nothing has changed. -/
theorem Unused.rollback (hu : V.Unused c) (hf : V.FreeInCopies c) :
    V.Unchanged ((V.takeDir c).fatSet c fat12Free) := by
  apply Unchanged.of_uses
  · rw [fatSet_geo, takeDir_geo]
  · intro l hl
    rw [hf.rollback, hu.zeroCluster hl]

/-- Every bit of an entry is clear in a copy that has it free. -/
theorem copyEntry_eq_zero_iff {k : ℕ} :
    V.copyEntry k c = fat12Free ↔ ∀ j < 12, V.fatBit k (12 * c + j) = false := by
  have hbit : ∀ j < 12, (V.copyEntry k c).testBit j = V.fatBit k (12 * c + j) := by
    intro j hj
    rw [copyEntry, testBit_unpack _ _ hj, Volume.fatBit]
    by_cases h : (12 * c + j) / 8 = c * 3 / 2
    · rw [if_pos h, h]
    · rw [if_neg h, show (12 * c + j) / 8 = c * 3 / 2 + 1 by omega]
  constructor
  · intro h j hj
    rw [← hbit j hj, h]
    exact Nat.zero_testBit j
  · intro h
    apply Nat.eq_of_testBit_eq
    intro j
    rw [fat12Free, Nat.zero_testBit]
    by_cases hj : j < 12
    · rw [hbit j hj, h j hj]
    · apply Nat.testBit_lt_two_pow
      calc V.copyEntry k c < 2 ^ 12 := unpack_lt ..
        _ ≤ 2 ^ j := Nat.pow_le_pow_right (by decide) (by omega)

/-! ## The directory while the cluster is taken -/

/-- No link and no slot of the directory lies in the entry of the cluster or in its sectors. -/
structure Apart (V : Volume) (dir c : ℕ) : Prop where
  clear : V.geo.Clear c
  link : dir ≠ 0 → ∀ n x, V.walk n dir = some x → x ≠ c ∧ V.geo.InFat x
  slot : ∀ i p, V.slotLoc dir i = some p → V.geo.OutsideFats p.1 ∧ ¬ V.geo.InCluster c p.1

/-- No other cluster is free. -/
def LastFree (V : Volume) (c : ℕ) : Prop := ∀ x, V.geo.InData x → x ≠ c → V.fat x ≠ fat12Free

section Clear

variable (hs : V.geo.fatSize < 2 ^ 16) (hc : V.geo.Clear c)
include hc

theorem sector_takeDir (ho : V.geo.OutsideFats l) (hl : ¬ V.geo.InCluster c l) :
    (V.takeDir c).sector l = V.sector l := by
  have hgeo := V.fatSet_geo c fat12Eoc
  rw [takeDir, sector_zeroCluster_of_not (by rwa [hgeo]),
    sector_fatSet_outside hc.entry hc.copies ho]

include hs in
theorem fat_takeDir (hd : V.geo.InFat d) :
    (V.takeDir c).fat d = if d = c then fat12Eoc else V.fat d := by
  have hgeo := V.fatSet_geo c fat12Eoc
  rw [← fat_fatSet_of_inFat hs hc.entry (by decide) hd, takeDir]
  apply fat_congr
  · rw [zeroCluster_geo]
  intro i hi
  apply sector_zeroCluster_of_not
  rw [hgeo]
  intro hin
  unfold Geometry.InFat at hd
  have hle : V.geo.fatSize ≤ V.geo.numFats * V.geo.fatSize :=
    Nat.le_mul_of_pos_left _ hc.copies
  exact hc.sector _ hin ((d * 3 / 2 + i) / 512) (by omega) rfl

end Clear

section Apart

variable (hs : V.geo.fatSize < 2 ^ 16) (h : V.Apart dir c)
include hs h

theorem Apart.fat (h0 : dir ≠ 0) {n x : ℕ} (hx : V.walk n dir = some x) :
    (V.takeDir c).fat x = V.fat x := by
  obtain ⟨hxc, hin⟩ := h.link h0 n x hx
  rw [fat_takeDir hs h.clear hin, if_neg hxc]

theorem Apart.slot_eq (i : ℕ) : (V.takeDir c).slotLoc dir i = V.slotLoc dir i ∧
    (V.takeDir c).slot dir i = V.slot dir i :=
  slot_congr (V.takeDir_geo c) (fun h0 _ _ hx => h.fat hs h0 hx) fun p hp =>
    sector_takeDir h.clear (h.slot i p hp).1 (h.slot i p hp).2

/-- **The directory has the free slots it had.** -/
theorem Apart.freeSlot : (V.takeDir c).freeSlot dir = V.freeSlot dir :=
  freeSlot_eq_of_slot (V.takeDir_geo c) fun i => (h.slot_eq hs i).2

/-- **The directory has the last cluster it had.** -/
theorem Apart.lastLink (h0 : dir ≠ 0) {last : ℕ} (hl : V.LastLink dir last) :
    (V.takeDir c).LastLink dir last := by
  have hfat : ∀ n x, V.walk n dir = some x → (V.takeDir c).fat x = V.fat x :=
    fun n x hx => h.fat hs h0 hx
  clear h h0
  induction hl with
  | out hd => exact .out hd
  | @eoc d hd hf => exact .eoc hd (by rwa [hfat 0 d rfl])
  | @next d last hd hf _ ih =>
    have hd' := hfat 0 d rfl
    refine .next hd (by rwa [hd']) ?_
    rw [hd']
    refine ih fun n x hx => hfat (n + 1) x ?_
    rw [walk, if_neg (Nat.not_le.mpr hf)]
    exact hx

end Apart

/-- **With the last free cluster taken the disk is full.** -/
theorem takeDir_full (hs : V.geo.fatSize < 2 ^ 16) (hc : V.geo.Clear c) (hu : V.Unused c)
    (hf : V.FreeInCopies c) (hl : V.LastFree c) : (V.takeDir c).freeCluster = none := by
  apply freeCluster_eq_none.mpr
  rw [takeDir_geo]
  intro x hx hfree
  by_cases hxc : x = c
  · rw [hxc, fat_takeDir hs hc hc.entry, if_pos rfl] at hfree
    cases hfree
  -- giving the cluster back clears bits only, and brings back the entry
  have hback : ((V.takeDir c).fatSet c fat12Free).fat x = fat12Free :=
    (cleared_fatSet _ c).fat hfree
  rw [(hu.rollback hf).fat x hx.2] at hback
  exact hl x hx hxc hback

/-! ## A directory that is extended -/

/-- **With one more cluster the directory has the slot that is returned for it**: the directory lies
in the data area, and has the slot that lies one cluster in front. -/
structure Grows (V : Volume) (dir : ℕ) : Prop where
  laid : V.geo.Laid
  inData : ∀ n x, V.walk n dir = some x → V.geo.InData x
  slot : (V.slotLoc dir (subdirMaxEnts - V.geo.perCluster)).isSome = true

theorem walk_succ (n : ℕ) : V.walk (n + 1) d =
    (V.walk n d).bind fun x => if V.fat x ≥ fat12Eoc then none else some (V.fat x) := by
  induction n generalizing d with
  | zero => rfl
  | succ n ih =>
    rw [walk]
    split
    · next h => rw [walk, if_pos h, Option.bind_none]
    · next h => rw [ih, walk, if_neg h]

/-- A free cluster is not one of a directory in the data area. -/
theorem walk_ne (hin : ∀ n x, V.walk n d = some x → V.geo.InData x) (hc : V.fat c = fat12Free)
    {n x : ℕ} (hx : V.walk n d = some x) : x ≠ c := by
  rintro rfl
  have hnext : V.walk (n + 1) d = some 0 := by
    rw [walk_succ, hx, Option.bind_some, hc]
    rfl
  exact (hin _ _ hnext).ne_zero rfl

theorem Grows.ne_zero (h : V.Grows dir) : dir ≠ 0 := (h.inData 0 dir rfl).ne_zero

theorem Grows.slot_walk (h : V.Grows dir) :
    (V.walk ((subdirMaxEnts - V.geo.perCluster) / V.geo.perCluster) dir).isSome = true := by
  have hs := h.slot
  rwa [slotLoc_isSome, place, if_neg h.ne_zero, Option.isSome_map] at hs

/-- The last cluster of a directory in the data area ends the chain. -/
theorem LastLink.ends {last : ℕ} (hl : V.LastLink d last)
    (hg : V.geo.Laid) (hin : ∀ n x, V.walk n d = some x → V.geo.InData x) :
    V.geo.InData last ∧ V.fat last ≥ fat12Eoc := by
  induction hl with
  | @out d hd => exact absurd ⟨(hin 0 d rfl).1, (hin 0 d rfl).lt_eoc hg⟩ hd
  | @eoc d _ hf => exact ⟨hin 0 d rfl, hf⟩
  | next _ hf _ ih =>
    refine ih fun n x hx => hin (n + 1) x ?_
    rw [walk, if_neg (Nat.not_le.mpr hf)]
    exact hx

/-- **The extended directory goes on for one more cluster.** -/
theorem walk_linkAfter {last n : ℕ} (hg : V.geo.Laid) (hc : V.geo.InData c)
    (hfree : V.fat c = fat12Free) (hl : V.LastLink d last)
    (hin : ∀ n x, V.walk n d = some x → V.geo.InData x) (hn : (V.walk n d).isSome = true) :
    ((V.linkAfter last c).walk (n + 1) d).isSome = true := by
  obtain ⟨hlast, hend⟩ := hl.ends hg hin
  have hne : last ≠ c := by
    rintro rfl
    rw [hfree] at hend
    exact absurd hend (by decide)
  have hframe := frame_linkAfter hg hlast.2 hc
  have hlink := (fat_linkAfter hg hlast.2 hc hne).2
  induction hl generalizing n with
  | @out d hd => exact absurd ⟨(hin 0 d rfl).1, (hin 0 d rfl).lt_eoc hg⟩ hd
  | @eoc d _ hf =>
    cases n with
    | succ n =>
      rw [walk, if_pos hf] at hn
      cases hn
    | zero =>
      rw [walk, hlink, if_neg (Nat.not_le.mpr (hc.lt_eoc hg))]
      rfl
  | @next d last _ hf _ ih =>
    have hd : (V.linkAfter last c).fat d = V.fat d := by
      apply hframe.fat d (hin 0 d rfl).2
      rintro (rfl | hdc)
      · exact absurd hend (Nat.not_le.mpr hf)
      · exact walk_ne hin hfree (n := 0) rfl (Set.mem_singleton_iff.mp hdc)
    rw [walk, hd, if_neg (Nat.not_le.mpr hf)]
    cases n with
    | zero => rfl
    | succ n =>
      rw [walk, if_neg (Nat.not_le.mpr hf)] at hn
      refine ih (fun m x hx => hin (m + 1) x ?_) hn hlast hend hne hframe hlink
      rw [walk, if_neg (Nat.not_le.mpr hf)]
      exact hx

/-- **The slot that `alloc_dir_entry` returns exists** once such a directory is extended. -/
theorem Grows.slotLoc (h : V.Grows dir) {last : ℕ} (hl : V.LastLink dir last)
    (hc : V.freeCluster = some c) :
    ((V.linkAfter last c).slotLoc dir subdirMaxEnts).isSome = true := by
  obtain ⟨hcd, hfree⟩ := freeCluster_spec hc
  have hpos := Geometry.perCluster_pos h.laid
  have hle : V.geo.perCluster ≤ subdirMaxEnts :=
    (Nat.mul_le_mul_right 16 h.laid.secPerClus_le).trans (by decide)
  rw [slotLoc_isSome, place, if_neg h.ne_zero, Option.isSome_map, linkAfter_geo,
    Nat.div_eq_sub_div hpos hle]
  exact walk_linkAfter h.laid hcd hfree hl h.inData h.slot_walk

/-! ## Directories in the data area -/

/-- A directory in the data area keeps off a free cluster. -/
theorem apart_of_walk (hg : V.geo.Laid) (hc : V.geo.InData c)
    (h : dir ≠ 0 → ∀ n x, V.walk n dir = some x → V.geo.InData x ∧ x ≠ c) : V.Apart dir c where
  clear := hg.clear hc
  link h0 n x hx := ⟨(h h0 n x hx).2, hg.inFat (h h0 n x hx).1.2⟩
  slot i p hp := by
    rw [slotLoc_eq] at hp
    obtain ⟨q, hq, rfl⟩ := Option.map_eq_some_iff.mp hp
    unfold place at hq
    split_ifs at hq with h0 hi
    · obtain rfl := Option.some.inj hq
      exact hg.apart hc (p := .root i) hi id
    · obtain ⟨x, hx, rfl⟩ := Option.map_eq_some_iff.mp hq
      obtain ⟨hxd, hxc⟩ := h h0 _ x hx
      exact hg.apart hc (p := .cluster x _) ⟨hxd, Nat.mod_lt _ (Geometry.perCluster_pos hg)⟩ hxc

theorem Grows.apart (h : V.Grows dir) (hc : V.geo.InData c) (hfree : V.fat c = fat12Free) :
    V.Apart dir c :=
  apart_of_walk h.laid hc fun _ n x hx => ⟨h.inData n x hx, walk_ne h.inData hfree hx⟩

/-- Taking a cluster for another directory does not change that. -/
theorem Apart.grows (hs : V.geo.fatSize < 2 ^ 16) (h : V.Apart dir c) (h0 : dir ≠ 0) :
    (V.takeDir c).Grows dir ↔ V.Grows dir := by
  have hgeo := V.takeDir_geo c
  have hwalk : ∀ n, (V.takeDir c).walk n dir = V.walk n dir := fun n =>
    walk_congr fun _ _ _ hx => h.fat hs h0 hx
  constructor
  · rintro ⟨hl, hin, hslot⟩
    rw [hgeo] at hl hin hslot
    rw [(h.slot_eq hs _).1] at hslot
    exact ⟨hl, fun n x hx => hin n x ((hwalk n).trans hx), hslot⟩
  · rintro ⟨hl, hin, hslot⟩
    refine ⟨by rwa [hgeo], fun n x hx => ?_, ?_⟩
    · rw [hgeo]
      exact hin n x ((hwalk n).symm.trans hx)
    · rwa [hgeo, (h.slot_eq hs _).1]

/-- The slot returned exists in an extended directory only if the directory was long enough. -/
theorem grows_of_extends {l : List ℕ} (hg : V.geo.Laid) (hx : Extends V V' dir c l)
    (hs : (V'.slotLoc dir subdirMaxEnts).isSome = true) : V.Grows dir where
  laid := hg
  inData n x hw := by
    rw [hx.chain.walk] at hw
    exact hx.chain.ok_of_mem (List.mem_of_getElem? hw)
  slot := by
    have hlt := (hx.slot_isSome hg).mp (by rwa [Volume.slot, Option.isSome_map])
    rw [Nat.add_mul, Nat.one_mul] at hlt
    have hpos := Geometry.perCluster_pos hg
    have hle : V.geo.perCluster ≤ subdirMaxEnts :=
      (Nat.mul_le_mul_right 16 hg.secPerClus_le).trans (by decide)
    have hslot := (hx.chain.slot_isSome hg (i := subdirMaxEnts - V.geo.perCluster)).mpr (by omega)
    rwa [Volume.slot, Option.isSome_map] at hslot

/-- With large enough FAT copies the disk is full exactly when the last free cluster is taken. -/
theorem takeDir_full_iff (hs : V.geo.fatSize < 2 ^ 16) (hg : V.geo.Laid) (hc : V.geo.InData c) :
    (V.takeDir c).freeCluster = none ↔ V.LastFree c := by
  have hfat : ∀ x, V.geo.InData x → (V.takeDir c).fat x = if x = c then fat12Eoc else V.fat x :=
    fun x hx => fat_takeDir hs (hg.clear hc) (hg.inFat hx.2)
  rw [freeCluster_eq_none, takeDir_geo]
  constructor
  · intro h x hx hxc
    have hne := h x hx
    rwa [hfat x hx, if_neg hxc] at hne
  · intro h x hx
    rw [hfat x hx]
    split
    · decide
    · next hxc => exact h x hx hxc

section Sound

variable {P : ℕ → ℕ → Prop} (h : V.Sound P) (hc : V.geo.InData c) (hfree : V.fat c = fat12Free)
include h hc hfree

/-- On a sound volume the directories keep off a free cluster. -/
theorem Sound.apart_free (hd : V.DirAt dir) : V.Apart dir c := by
  apply apart_of_walk h.laid hc
  intro h0 n x hx
  obtain ⟨l, hl⟩ := h.dirChain hd
  replace hl := hl.resolve_left fun hl => h0 hl.1
  rw [hl.walk] at hx
  have hm := List.mem_of_getElem? hx
  exact ⟨hl.ok_of_mem hm, fun he => hl.not_free hm (he ▸ hfree)⟩

theorem Sound.unused : V.Unused c := by
  intro l hl hin
  exfalso
  have hout := (h.laid.clear hc).sector l hin
  have hentry : ∀ x i, V.geo.InFat x → i ≤ 1 →
      l ≠ V.geo.fatLba + (x * 3 / 2 + i) / 512 := by
    rintro x i hx hi rfl
    have hle := h.laid.fat_le
    unfold Geometry.InFat at hx
    unfold Geometry.rootPos at hle
    exact hout ((x * 3 / 2 + i) / 512) (by omega) rfl
  cases hl with
  | @copy k j hk hj =>
    have hn := h.laid.numFats_pos
    have hle : (k + 1) * V.geo.fatSize ≤ V.geo.numFats * V.geo.fatSize :=
      Nat.mul_le_mul_right _ (by omega)
    rw [Nat.add_mul, Nat.one_mul] at hle
    exact hout (k * V.geo.fatSize + j) (by omega) (by rw [Nat.add_assoc])
  | entry hx hi => exact hentry _ _ (h.laid.inFat hx) hi rfl
  | link hd h0 hx hi => exact hentry _ _ ((h.apart_free hc hfree hd).link h0 _ _ hx).2 hi rfl
  | slot hd hp => exact ((h.apart_free hc hfree hd).slot _ _ hp).2 hin

end Sound

end Volume

end WarkRune.Fat12

import WarkRune.Fat12.Build
import WarkRune.Fat12.Bits

/-!
# Usable geometries

The driver addresses FAT entries and clusters with the geometry that `fat12_init` accepted. It can
do so safely when there is a FAT copy, the parts of the volume follow each other inside it, and
the FAT copy and the volume reach as far as the cluster numbers do. The boot sector promises all
of it but two things that `fat12_init` does not look at.

## Main definitions

* `Geometry.Usable g lba total`: the geometry describes a volume of `total` sectors from `lba` on
* `FatsSuffice b`: what `fat12_init` does not check of the boot sector

## Main results

* `fat12Init_usable_iff`: the accepted geometry is usable exactly when the FAT copies suffice
-/

namespace WarkRune.Fat12

/-- The geometry can be used on the `total` sectors from `lba` on. -/
structure Geometry.Usable (g : Geometry) (lba total : ℕ) : Prop where
  copies : 1 ≤ g.numFats
  /-- The FAT copies, the root directory and the data area follow each other in the volume. -/
  fat_le : lba ≤ g.fatLba
  root_eq : g.rootLba = g.fatLba + g.numFats * g.fatSize
  data_eq : g.dataLba = g.rootLba + g.rootSectors
  data_le : g.dataLba + g.totalClusters * g.secPerClus ≤ lba + total
  /-- The entry of a cluster lies in the first copy. -/
  entry : ∀ c, g.InData c → g.InFat c
  /-- The sectors of a cluster lie in the data area. -/
  sectors : ∀ c, g.InData c → ∀ s < g.secPerClus, g.dataLba ≤ g.clusterLba c + s ∧
    g.clusterLba c + s < g.dataLba + g.totalClusters * g.secPerClus
  marks : ∀ c, g.InData c → c < fat12Bad ∧ c < fat12Eoc

/-- The number of data clusters of the volume a BPB describes. -/
def bpbClusters (b : Sector) : ℕ :=
  (totalSectors b - (le16 b 14 + (b 16).toNat * le16 b 22 + (le16 b 17 * 32 + 511) / 512)) /
    (b 13).toNat

/-- A BPB counts a FAT copy, and the size it gives is enough for the entries of every cluster. -/
def FatsSuffice (b : Sector) : Prop :=
  HasBpb b → 0 < (b 16).toNat ∧ (bpbClusters b + 1) * 3 / 2 + 1 < le16 b 22 * 512

instance (b : Sector) : Decidable (FatsSuffice b) :=
  inferInstanceAs (Decidable (HasBpb b → _ ∧ _ < _))

namespace Geometry

variable {b : Sector} {lba : ℕ} {g : Geometry}

/-- The data area begins behind the reserved sectors, the FAT copies and the root directory. -/
theorem boot_dataOffset (hg : g = bootGeometry b lba g) (hlba : lba < 2 ^ 32) :
    g.dataOffset = g.reservedSec + g.dataPos ∧
      g.fatLba = (lba + g.reservedSec) % 2 ^ 32 ∧ g.rootLba = (g.fatLba + g.rootPos) % 2 ^ 32 ∧
      g.dataLba = (g.rootLba + g.rootSectors) % 2 ^ 32 := by
  obtain ⟨-, -, hnf, hfs, hre, -, hres⟩ := boot_bounds hg
  have hfats : g.numFats * g.fatSize ≤ 255 * 65535 := Nat.mul_le_mul hnf (by omega)
  have hpart : g.partLba = lba := by rw [hg]; rfl
  have hfat : g.fatLba = (lba + g.reservedSec) % 2 ^ 32 := by rw [hg]; rfl
  have hroot : g.rootLba = (g.fatLba + g.rootPos) % 2 ^ 32 := by rw [hg]; rfl
  have hdata : g.dataLba = (g.rootLba + g.rootSectors) % 2 ^ 32 := by rw [hg]; rfl
  refine ⟨?_, hfat, hroot, hdata⟩
  -- the factors have at most 16 bits, so the sum of the parts does not wrap
  simp only [dataOffset, dataPos, rootPos, rootSectors] at *
  omega

/-- The number of clusters is the one the BPB describes. -/
theorem bootClusters_eq (hg : g = bootGeometry b lba g) (hlba : lba < 2 ^ 32) (hb : HasBpb b) :
    bootClusters b g = bpbClusters b ∧ g.numFats = (b 16).toNat ∧ g.fatSize = le16 b 22 := by
  have hspc : g.secPerClus = (b 13).toNat := by rw [hg]; exact if_pos hb
  have hres : g.reservedSec = le16 b 14 := by rw [hg]; exact if_pos hb
  have hnf : g.numFats = (b 16).toNat := by rw [hg]; exact if_pos hb
  have hre : g.rootEntries = le16 b 17 := by rw [hg]; exact if_pos hb
  have hfs : g.fatSize = le16 b 22 := by rw [hg]; exact if_pos hb
  refine ⟨?_, hnf, hfs⟩
  rw [bootClusters, bpbClusters, (boot_dataOffset hg hlba).1, dataPos, rootPos, rootSectors, hspc,
    hres, hnf, hre, hfs, Nat.add_assoc]

/-- The hard-coded geometry has two FAT copies, large enough for its 2042 clusters. -/
theorem hardcoded_suffices (hg : g = bootGeometry b lba g) (hlba : lba < 2 ^ 32)
    (hb : ¬ HasBpb b) : 0 < g.numFats ∧ (bootClusters b g + 1) * 3 / 2 + 1 < g.fatSize * 512 := by
  have hspc : g.secPerClus = 16 := by rw [hg]; exact if_neg hb
  have hres : g.reservedSec = 16 := by rw [hg]; exact if_neg hb
  have hnf : g.numFats = 2 := by rw [hg]; exact if_neg hb
  have hre : g.rootEntries = 512 := by rw [hg]; exact if_neg hb
  have hfs : g.fatSize = 16 := by rw [hg]; exact if_neg hb
  rw [bootClusters, (boot_dataOffset hg hlba).1, dataPos, rootPos, rootSectors, totalSectors,
    if_neg hb, hspc, hres, hnf, hre, hfs]
  decide

/-- What the boot sector leaves open is whether the FAT copies suffice. -/
theorem fatsSuffice_iff (hg : g = bootGeometry b lba g) (hlba : lba < 2 ^ 32) :
    FatsSuffice b ↔
      0 < g.numFats ∧ (bootClusters b g + 1) * 3 / 2 + 1 < g.fatSize * 512 := by
  by_cases hb : HasBpb b
  · obtain ⟨hc, hnf, hfs⟩ := bootClusters_eq hg hlba hb
    rw [FatsSuffice, hc, hnf, hfs]
    exact ⟨fun h => h hb, fun h _ => h⟩
  · exact iff_of_true (fun h => absurd h hb) (hardcoded_suffices hg hlba hb)

end Geometry

/-- **The accepted geometry is usable exactly when the FAT copies suffice**: `fat12_init` checks
neither that there is one nor that it holds an entry for every cluster. -/
theorem fat12Init_usable_iff {s s' : Driver} {lba : ℕ} (h : (fat12Init lba).Returns s true s')
    (hend : lba + totalSectors (s.vol.sector lba) < 2 ^ 32) :
    s'.vol.geo.Usable lba (totalSectors (s.vol.sector lba)) ↔
      FatsSuffice (s.vol.sector lba) := by
  obtain ⟨g, hg, hoff, hpos, hle, hgeo⟩ := fat12Init_returns h
  generalize s.vol.sector lba = b at *
  have hlba : lba < 2 ^ 32 := by omega
  rw [hgeo, Geometry.fatsSuffice_iff hg hlba]
  obtain ⟨hoffset, hfat, hroot, hdata⟩ := Geometry.boot_dataOffset hg hlba
  -- nothing wraps, since the data area begins before the end of the volume
  have hdp : g.dataPos = g.rootPos + g.rootSectors := rfl
  have hfat' : g.fatLba = lba + g.reservedSec := by omega
  have hroot' : g.rootLba = g.fatLba + g.rootPos := by omega
  have hdata' : g.dataLba = g.rootLba + g.rootSectors := by omega
  have hclus : bootClusters b g * g.secPerClus ≤ totalSectors b - g.dataOffset :=
    Nat.div_mul_le_self _ _
  constructor
  · intro hu
    exact ⟨hu.copies, hu.entry (bootClusters b g + 1) ⟨by omega, le_rfl⟩⟩
  · rintro ⟨hcopies, hfits⟩
    refine ⟨hcopies, ?_, hroot', hdata', ?_, ?_, ?_, ?_⟩
    · change lba ≤ g.fatLba
      omega
    · change g.dataLba + bootClusters b g * g.secPerClus ≤ lba + totalSectors b
      omega
    · rintro c ⟨-, hc⟩
      have hmono : c * 3 / 2 ≤ (bootClusters b g + 1) * 3 / 2 :=
        Nat.div_le_div_right (Nat.mul_le_mul_right 3 hc)
      unfold Geometry.InFat
      change c * 3 / 2 + 1 < g.fatSize * 512
      omega
    · -- a cluster ends before the next one starts, and the last one inside the data area
      rintro c ⟨hc, hc'⟩ t ht
      replace hc' : c ≤ bootClusters b g + 1 := hc'
      replace ht : t < g.secPerClus := ht
      have hmul : (c - 2 + 1) * g.secPerClus ≤ bootClusters b g * g.secPerClus :=
        Nat.mul_le_mul_right _ (by omega)
      rw [Nat.add_mul, Nat.one_mul] at hmul
      have hw : (c + 2 ^ 32 - 2) % 2 ^ 32 = c - 2 := by omega
      have hlba' : (g.dataLba + (c - 2) * g.secPerClus) % 2 ^ 32 =
          g.dataLba + (c - 2) * g.secPerClus := Nat.mod_eq_of_lt (by omega)
      unfold Geometry.clusterLba
      rw [hw, hlba']
      change g.dataLba ≤ _ ∧ _ < g.dataLba + bootClusters b g * g.secPerClus
      omega
    · -- `fat12_init` has compared the number of clusters with the first mark
      rintro c ⟨-, hc⟩
      replace hc : c ≤ bootClusters b g + 1 := hc
      simp only [fat12Bad, fat12Eoc]
      omega

/-- The driver on a disk with the boot sector of the given geometry. -/
def bootDriver (g : Geometry) : Driver :=
  (Volume.build g (fun _ => 0) (fun _ => .zero) fun _ _ _ => 0).driver

/-- The theorem at a small volume. -/
theorem fat12Init_usable_small : ∃ s', (fat12Init 0).Returns (bootDriver smallGeometry) true s' ∧
    s'.vol.geo.Usable 0 24 := by
  have h : ((fat12Init 0).run 1 (bootDriver smallGeometry)).map (·.1) = some true := by
    decide +kernel
  obtain ⟨⟨ok, s'⟩, hr, rfl⟩ := Option.map_eq_some_iff.mp h
  have htotal : totalSectors ((bootDriver smallGeometry).vol.sector 0) = 24 := by decide +kernel
  have hu := fat12Init_usable_iff ⟨1, hr⟩ (by rw [htotal]; decide)
  rw [htotal] at hu
  exact ⟨s', ⟨1, hr⟩, hu.mpr (by decide +kernel)⟩

/-- **A FAT copy of one sector is accepted for two thousand clusters**: the entries of most of them
lie behind the copies, in the root directory and in the data area. -/
theorem fat12Init_fat_too_small : ∃ s s' : Driver, (fat12Init 0).Returns s true s' ∧
    0 + totalSectors (s.vol.sector 0) < 2 ^ 32 ∧
    ¬ s'.vol.geo.Usable 0 (totalSectors (s.vol.sector 0)) := by
  have h : ((fat12Init 0).run 1 (bootDriver { smallGeometry with totalClusters := 2000 })).map
      (fun p => (p.1, p.2.vol.geo)) = some (true, { smallGeometry with totalClusters := 2000 }) := by
    decide +kernel
  obtain ⟨⟨ok, s'⟩, hr, he⟩ := Option.map_eq_some_iff.mp h
  obtain ⟨rfl, hgeo⟩ := Prod.mk.inj he
  refine ⟨_, s', ⟨1, hr⟩, by decide +kernel, fun hu => ?_⟩
  have hentry := hu.entry 2001
  rw [hgeo] at hentry
  exact absurd (hentry (by decide)) (by decide)

end WarkRune.Fat12

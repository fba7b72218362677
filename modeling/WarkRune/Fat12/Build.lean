import WarkRune.Fat12.Entry
import WarkRune.Fat12.Init

/-!
# Volumes from their contents

A volume is built from a geometry, the entries of its FAT, the entries of its root directory and
the sectors of its clusters, with a boot sector and with no descriptor open.

## Main definitions

* `bootSector`: a boot sector with a given geometry
* `packedByte`: the bytes of a table of 12-bit entries
* `Volume.build`: the volume with given contents
* `smallGeometry`: twenty one-sector clusters, sixteen root entries
-/

namespace WarkRune.Fat12

/-- A boot sector with the given geometry. -/
def bootSector (g : Geometry) : Sector := fun o =>
  let total := g.reservedSec + g.dataPos + g.totalClusters * g.secPerClus
  if o = 12 then 2
  else if o = 13 then UInt8.ofNat g.secPerClus
  else if o = 14 then UInt8.ofNat g.reservedSec
  else if o = 15 then UInt8.ofNat (g.reservedSec / 256)
  else if o = 16 then UInt8.ofNat g.numFats
  else if o = 17 then UInt8.ofNat g.rootEntries
  else if o = 18 then UInt8.ofNat (g.rootEntries / 256)
  else if o = 19 then UInt8.ofNat total
  else if o = 20 then UInt8.ofNat (total / 256)
  else if o = 22 then UInt8.ofNat g.fatSize
  else if o = 23 then UInt8.ofNat (g.fatSize / 256)
  else if o = 510 then 0x55
  else if o = 511 then 0xAA
  else 0

/-- Byte `o` of a table of 12-bit entries. -/
def packedByte (tbl : ℕ → ℕ) (o : ℕ) : UInt8 :=
  if o % 3 = 0 then UInt8.ofNat (tbl (o / 3 * 2))
  else if o % 3 = 1 then UInt8.ofNat (tbl (o / 3 * 2) / 256 + tbl (o / 3 * 2 + 1) % 16 * 16)
  else UInt8.ofNat (tbl (o / 3 * 2 + 1) / 16)

/-- An offset in a sector is one in a directory entry. -/
theorem entryByte_lt (o : ℕ) : o % 32 < 32 := Nat.mod_lt o (Nat.succ_pos 31)

/-- The volume with the given geometry, FAT entries, root entries and cluster sectors, and no
descriptor open. -/
def Volume.build (g : Geometry) (tbl : ℕ → ℕ) (root : ℕ → DirEntry) (data : ℕ → ℕ → Sector) :
    Volume where
  geo := g
  disk l :=
    if l < g.fatLba then bootSector g
    else if l < g.rootLba then fun o => packedByte tbl ((l - g.fatLba) % g.fatSize * 512 + o)
    else if l < g.dataLba then fun o =>
      root ((l - g.rootLba) * 16 + o / 32) ⟨o % 32, entryByte_lt o⟩
    else data ((l - g.dataLba) / g.secPerClus + 2) ((l - g.dataLba) % g.secPerClus)
  fds _ := ⟨false, 0, 0, 0, 0, 0⟩

/-! ### The contents of a built volume -/

/-- The parts of the volume follow each other, below the reach of a 28-bit address, and a FAT copy
holds every entry. -/
structure Geometry.Plain (g : Geometry) : Prop where
  spc : 0 < g.secPerClus
  root : g.rootLba = g.fatLba + g.rootPos
  data : g.dataLba = g.fatLba + g.dataPos
  fits : g.dataLba + g.totalClusters * g.secPerClus ≤ 2 ^ 28
  fatFits : g.FatFits
  copies : 0 < g.numFats

section Build

variable {g : Geometry} (hg : g.Plain) (tbl : ℕ → ℕ) (root : ℕ → DirEntry)
  (data : ℕ → ℕ → Sector)

theorem unpack_packedByte (h : ∀ c, tbl c < 4096) (c : ℕ) :
    unpack c (packedByte tbl (c * 3 / 2)) (packedByte tbl (c * 3 / 2 + 1)) = tbl c := by
  rcases Nat.mod_two_eq_zero_or_one c with hc | hc
  · obtain ⟨m, rfl⟩ : ∃ m, c = 2 * m := ⟨c / 2, by omega⟩
    have h₀ := h (2 * m)
    rw [unpack_even hc, show 2 * m * 3 / 2 = 3 * m by omega]
    simp only [packedByte, show 3 * m % 3 = 0 by omega, show (3 * m + 1) % 3 = 1 by omega,
      show (3 * m + 1) / 3 * 2 = 2 * m by omega, show 3 * m / 3 * 2 = 2 * m by omega,
      ↓reduceIte, Nat.one_ne_zero, UInt8.toNat_ofNat']
    omega
  · obtain ⟨m, rfl⟩ : ∃ m, c = 2 * m + 1 := ⟨c / 2, by omega⟩
    have h₀ := h (2 * m)
    have h₁ := h (2 * m + 1)
    rw [unpack_odd hc, show (2 * m + 1) * 3 / 2 = 3 * m + 1 by omega]
    simp only [packedByte, show (3 * m + 1) % 3 = 1 by omega, show (3 * m + 1 + 1) % 3 = 2 by omega,
      show (3 * m + 1) / 3 * 2 = 2 * m by omega, show (3 * m + 1 + 1) / 3 * 2 = 2 * m by omega,
      ↓reduceIte, Nat.one_ne_zero, show ¬ (2 = 0) by omega, show ¬ (2 = 1) by omega,
      UInt8.toNat_ofNat']
    omega

include hg

theorem build_fat (h : ∀ c, tbl c < 4096) {c : ℕ} (hc : c ≤ g.totalClusters + 1) :
    (Volume.build g tbl root data).fat c = tbl c := by
  have hroot := hg.root
  have hdata := hg.data
  have hlt := hg.fits
  have hn := hg.copies
  have hpos : g.fatSize ≤ g.rootPos := Nat.le_mul_of_pos_left _ hn
  have hroot' := g.rootPos_le
  have hfit : (g.totalClusters + 1) * 3 / 2 + 1 < g.fatSize * 512 := hg.fatFits
  have hle : c * 3 / 2 ≤ (g.totalClusters + 1) * 3 / 2 := Nat.div_le_div_right (by omega)
  have hbyte : ∀ o, o / 512 < g.fatSize →
      (Volume.build g tbl root data).byteAt g.fatLba o = packedByte tbl o := by
    intro o ho
    simp only [Volume.byteAt, Volume.sector, Volume.build]
    rw [Nat.mod_eq_of_lt (by omega : g.fatLba + o / 512 < 2 ^ 28), if_neg (by omega),
      if_pos (by omega), Nat.add_sub_cancel_left, Nat.mod_eq_of_lt ho,
      Nat.mul_comm, Nat.div_add_mod]
  rw [Volume.fat, show (Volume.build g tbl root data).geo = g from rfl, hbyte _ (by omega),
    hbyte _ (by omega), unpack_packedByte tbl h]

theorem build_rootEntry {k : ℕ} (hk : k < g.rootEntries) :
    entryOf ((Volume.build g tbl root data).sector (g.rootLba + k / 16)) (k % 16) = root k := by
  have hroot := hg.root
  have hdata := hg.data
  have hlt := hg.fits
  have hroot' := g.rootPos_le
  have hks : k / 16 < g.rootSectors := by
    unfold Geometry.rootSectors
    omega
  funext i
  have hi := i.isLt
  simp only [entryOf, Volume.sector, Volume.build]
  rw [Nat.mod_eq_of_lt (by omega : g.rootLba + k / 16 < 2 ^ 28), if_neg (by omega),
    if_neg (by omega), if_pos (by omega)]
  have h₁ : (g.rootLba + k / 16 - g.rootLba) * 16 + (k % 16 * 32 + i) / 32 = k := by omega
  have h₂ : (k % 16 * 32 + i.val) % 32 = i := by omega
  simp only [h₁, h₂]

theorem build_cluster {c s : ℕ} (hc : g.InData c) (hs : s < g.secPerClus) :
    (Volume.build g tbl root data).sector (g.clusterLba c + s) = data c s := by
  have hroot := hg.root
  have hdata := hg.data
  have hlt := hg.fits
  have hroot' := g.rootPos_le
  obtain ⟨hc₁, hc₂⟩ := hc
  have hm : (c - 2 + 1) * g.secPerClus ≤ g.totalClusters * g.secPerClus :=
    Nat.mul_le_mul_right _ (by omega)
  rw [Nat.add_mul, Nat.one_mul] at hm
  have htc : g.totalClusters ≤ g.totalClusters * g.secPerClus := Nat.le_mul_of_pos_right _ hg.spc
  have hw : (c + 2 ^ 32 - 2) % 2 ^ 32 = c - 2 := by omega
  have hlba : g.clusterLba c = g.dataLba + (c - 2) * g.secPerClus := by
    rw [Geometry.clusterLba, hw]
    exact Nat.mod_eq_of_lt (by omega)
  have hdiv : ((c - 2) * g.secPerClus + s) / g.secPerClus + 2 = c := by
    rw [Nat.add_comm, Nat.add_comm (_ * _), Nat.add_mul_div_right _ _ hg.spc, Nat.div_eq_of_lt hs]
    omega
  have hmod : ((c - 2) * g.secPerClus + s) % g.secPerClus = s := by
    rw [Nat.add_comm, Nat.add_mul_mod_self_right, Nat.mod_eq_of_lt hs]
  funext o
  simp only [Volume.sector, Volume.build]
  rw [hlba, Nat.mod_eq_of_lt (by omega : g.dataLba + (c - 2) * g.secPerClus + s < 2 ^ 28),
    if_neg (by omega), if_neg (by omega), if_neg (by omega), Nat.add_assoc,
    Nat.add_sub_cancel_left, hdiv, hmod]

end Build

/-- A driver on a volume, with every transfer succeeding. -/
def Volume.driver (V : Volume) : Driver where
  vol := V
  buf _ := 0
  wait _ := true
  waits := 0
  log := []

theorem Volume.driver_working (V : Volume) : V.driver.Working := fun _ _ => rfl

/-- Twenty one-sector clusters and sixteen root entries behind two FAT copies. -/
def smallGeometry : Geometry where
  partLba := 0
  fatLba := 1
  rootLba := 3
  dataLba := 4
  rootEntries := 16
  secPerClus := 1
  reservedSec := 1
  numFats := 2
  fatSize := 1
  totalClusters := 20

/-- `fat12_init` accepts the boot sector of a small volume. -/
theorem smallGeometry_accepted : smallGeometry.Accepted := by
  have h : ((fat12Init 0).run 1 (Volume.build smallGeometry (fun _ => 0) (fun _ => .zero)
      fun _ _ _ => 0).driver).map (fun p => (p.1, p.2.vol.geo)) = some (true, smallGeometry) := by
    decide +kernel
  obtain ⟨⟨ok, s'⟩, hr, he⟩ := Option.map_eq_some_iff.mp h
  obtain ⟨rfl, hgeo⟩ := Prod.mk.inj he
  exact ⟨_, s', 0, by decide, ⟨1, hr⟩, hgeo⟩

theorem smallGeometry_plain : smallGeometry.Plain := by
  constructor <;> decide

/-- The directory entry of a file or directory with a one-letter name. -/
def letterEntry (c attr : UInt8) (firstCluster : ℕ) : DirEntry := fun i =>
  if i.val = 0 then c
  else if i.val < 11 then space
  else if i.val = 11 then attr
  else if i.val = 26 then UInt8.ofNat firstCluster
  else if i.val = 27 then UInt8.ofNat (firstCluster / 256)
  else 0

end WarkRune.Fat12

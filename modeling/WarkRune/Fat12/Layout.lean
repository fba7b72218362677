import WarkRune.Fat12.Slot
import Mathlib.Tactic.Ring

/-!
# The layout of an accepted volume

On a volume whose FAT copies are large enough for every cluster, the FAT copies, the root
directory and the data area are consecutive ranges of sectors, and together they are shorter
than the reach of a 28-bit address. So a write to one part leaves the others alone, wherever the
volume starts. Entries are packed in pairs, and writing one leaves its neighbour alone.

## Main definitions

* `Geometry.Laid`: the consecutive layout
* `Geometry.InData c`: `c` is the number of a data cluster
* `Volume.rootSector`, `Volume.clusterSector`: the sectors of the root directory and of a cluster

## Main results

* `Volume.fat_fatSet`: writing an entry changes that entry only
* `Volume.sector_put_of_pos`: a write changes the sector at its position only
* `Volume.clusterSector_put`, `Volume.rootSector_put`: what a write to a cluster or to the root
  directory changes
-/

namespace WarkRune.Fat12

/-! ## Packed entries -/

section Pack

theorem or_shiftLeft {a b k : ℕ} (h : b < 2 ^ k) : b ||| (a <<< k) = a * 2 ^ k + b := by
  rw [Nat.or_comm, ← Nat.shiftLeft_add_eq_or_of_lt h, Nat.shiftLeft_eq]

theorem unpack_odd {c : ℕ} (hc : c % 2 = 1) (b0 b1 : UInt8) :
    unpack c b0 b1 = b1.toNat * 16 + b0.toNat / 16 := by
  have h0 := b0.toNat_lt
  simp only [unpack, hc, ↓reduceIte, Nat.shiftRight_eq_div_pow]
  exact or_shiftLeft (k := 4) (by omega)

theorem unpack_even {c : ℕ} (hc : c % 2 = 0) (b0 b1 : UInt8) :
    unpack c b0 b1 = b1.toNat % 16 * 256 + b0.toNat := by
  have h0 := b0.toNat_lt
  have hm : b1.toNat &&& 0x0F = b1.toNat % 16 := Nat.and_two_pow_sub_one_eq_mod _ 4
  simp only [unpack, hc, Nat.zero_ne_one, ↓reduceIte, hm]
  exact or_shiftLeft (k := 8) h0

theorem toNat_packLo_odd {c : ℕ} (hc : c % 2 = 1) (v : ℕ) (b0 : UInt8) :
    (packLo c v b0).toNat = v % 16 * 16 + b0.toNat % 16 := by
  have hm : b0.toNat &&& 0x0F = b0.toNat % 16 := Nat.and_two_pow_sub_one_eq_mod _ 4
  have hv : v <<< 4 % 256 = (v % 16) <<< 4 := by
    rw [Nat.shiftLeft_eq, Nat.shiftLeft_eq]
    omega
  simp only [packLo, hc, ↓reduceIte, UInt8.toNat_or, UInt8.toNat_and, UInt8.toNat_ofNat']
  have : (0x0F : UInt8).toNat = 0x0F := rfl
  rw [this, hm, hv]
  exact or_shiftLeft (k := 4) (by omega)

theorem toNat_packLo_even {c : ℕ} (hc : c % 2 = 0) (v : ℕ) (b0 : UInt8) :
    (packLo c v b0).toNat = v % 256 := by
  have hm : v &&& 0xFF = v % 256 := Nat.and_two_pow_sub_one_eq_mod _ 8
  simp [packLo, hc, hm]

theorem toNat_packHi_odd {c : ℕ} (hc : c % 2 = 1) (v : ℕ) (b1 : UInt8) :
    (packHi c v b1).toNat = v / 16 % 256 := by
  simp [packHi, hc, Nat.shiftRight_eq_div_pow]

theorem toNat_packHi_even {c : ℕ} (hc : c % 2 = 0) (v : ℕ) (b1 : UInt8) :
    (packHi c v b1).toNat = b1.toNat / 16 * 16 + v / 256 % 16 := by
  have h1 := b1.toNat_lt
  have hb : ∀ n < 256, n &&& 0xF0 = (n / 16) <<< 4 := by decide +kernel
  have hm : b1.toNat &&& 0xF0 = (b1.toNat / 16) <<< 4 := hb _ h1
  have hn : v >>> 8 &&& 0x0F = v / 256 % 16 := by
    rw [Nat.shiftRight_eq_div_pow]
    exact Nat.and_two_pow_sub_one_eq_mod _ 4
  simp only [packHi, hc, Nat.zero_ne_one, ↓reduceIte, UInt8.toNat_or, UInt8.toNat_and,
    UInt8.toNat_ofNat']
  have : (0xF0 : UInt8).toNat = 0xF0 := rfl
  rw [this, hm, hn, Nat.mod_eq_of_lt (by omega : v / 256 % 16 < 2 ^ 8), Nat.or_comm]
  exact or_shiftLeft (k := 4) (by omega)

theorem unpack_pack (c v : ℕ) (b0 b1 : UInt8) :
    unpack c (packLo c v b0) (packHi c v b1) = v % 4096 := by
  rcases Nat.mod_two_eq_zero_or_one c with hc | hc
  · rw [unpack_even hc, toNat_packLo_even hc, toNat_packHi_even hc]
    omega
  · rw [unpack_odd hc, toNat_packLo_odd hc, toNat_packHi_odd hc]
    omega

/-- Writing an even entry leaves the odd entry after it alone. -/
theorem unpack_packHi {c d : ℕ} (hc : c % 2 = 0) (hd : d % 2 = 1) (v : ℕ) (b0 b1 : UInt8) :
    unpack d (packHi c v b0) b1 = unpack d b0 b1 := by
  rw [unpack_odd hd, unpack_odd hd, toNat_packHi_even hc]
  omega

/-- Writing an odd entry leaves the even entry before it alone. -/
theorem unpack_packLo {c d : ℕ} (hc : c % 2 = 1) (hd : d % 2 = 0) (v : ℕ) (b0 b1 : UInt8) :
    unpack d b0 (packLo c v b1) = unpack d b0 b1 := by
  rw [unpack_even hd, unpack_even hd, toNat_packLo_odd hc]
  omega

theorem unpack_lt (c : ℕ) (b0 b1 : UInt8) : unpack c b0 b1 < 4096 := by
  have h0 := b0.toNat_lt
  have h1 := b1.toNat_lt
  rcases Nat.mod_two_eq_zero_or_one c with hc | hc
  · rw [unpack_even hc]
    omega
  · rw [unpack_odd hc]
    omega

end Pack

/-! ## The layout -/

/-- The number of sectors of the root directory. -/
def Geometry.rootSectors (g : Geometry) : ℕ := (g.rootEntries * 32 + 511) / 512

/-- The root directory, counted in sectors from the first FAT copy. -/
def Geometry.rootPos (g : Geometry) : ℕ := g.numFats * g.fatSize

/-- The data area, counted in sectors from the first FAT copy. -/
def Geometry.dataPos (g : Geometry) : ℕ := g.rootPos + g.rootSectors

/-- A sector of a cluster, counted from the first FAT copy. -/
def Geometry.clusterPos (g : Geometry) (c s : ℕ) : ℕ := g.dataPos + (c - 2) * g.secPerClus + s

/-- The FAT copies, each large enough for every cluster, the root directory and the data area are
consecutive ranges of sectors, together no longer than the reach of a 28-bit address. -/
structure Geometry.Laid (g : Geometry) : Prop where
  secPerClus_pos : 0 < g.secPerClus
  secPerClus_le : g.secPerClus ≤ 255
  totalClusters_pos : 0 < g.totalClusters
  totalClusters_le : g.totalClusters ≤ 4085
  numFats_pos : 0 < g.numFats
  fat_fits : (g.totalClusters + 1) * 3 / 2 + 1 < g.fatSize * 512
  root_eq : g.rootLba % 2 ^ 28 = (g.fatLba + g.rootPos) % 2 ^ 28
  data_eq : g.dataLba % 2 ^ 28 = (g.fatLba + g.dataPos) % 2 ^ 28
  fits : g.dataPos + g.totalClusters * g.secPerClus ≤ 2 ^ 28

/-- The number of a data cluster. -/
def Geometry.InData (g : Geometry) (c : ℕ) : Prop := 2 ≤ c ∧ c ≤ g.totalClusters + 1

instance (g : Geometry) (c : ℕ) : Decidable (g.InData c) := inferInstanceAs (Decidable (_ ∧ _))

namespace Geometry

variable {g : Geometry}

theorem Laid.fat_le (h : g.Laid) : g.fatSize ≤ g.rootPos :=
  Nat.le_mul_of_pos_left _ h.numFats_pos

theorem rootPos_le (g : Geometry) : g.rootPos + g.rootSectors = g.dataPos := rfl

theorem Laid.data_lt (h : g.Laid) : g.dataPos < 2 ^ 28 := by
  have h₁ := h.fits
  have h₂ : 0 < g.totalClusters * g.secPerClus :=
    Nat.mul_pos h.totalClusters_pos h.secPerClus_pos
  omega

theorem InData.lt_bad (h : g.Laid) {c : ℕ} (hc : g.InData c) : c < fat12Bad := by
  have := h.totalClusters_le
  have := hc.2
  simp only [fat12Bad]
  omega

theorem InData.lt_eoc (h : g.Laid) {c : ℕ} (hc : g.InData c) : c < fat12Eoc :=
  (hc.lt_bad h).trans (by decide)

theorem InData.ne_zero {c : ℕ} (hc : g.InData c) : c ≠ 0 := by
  have := hc.1
  omega

/-- Both bytes of an entry lie in the first copy. -/
theorem Laid.fat_offset_lt (h : g.Laid) {c : ℕ} (hc : c ≤ g.totalClusters + 1) :
    (c * 3 / 2 + 1) / 512 < g.fatSize := by
  have := h.fat_fits
  have : c * 3 / 2 ≤ (g.totalClusters + 1) * 3 / 2 := Nat.div_le_div_right (by omega)
  omega

theorem rootLba_add_mod (h : g.Laid) (k : ℕ) :
    (g.rootLba + k) % 2 ^ 28 = (g.fatLba + (g.rootPos + k)) % 2 ^ 28 := by
  have := h.root_eq
  omega

/-- The sectors of a data cluster follow those of the cluster before it. -/
theorem clusterLba_add_mod (h : g.Laid) {c : ℕ} (hc : 2 ≤ c) (hc' : c < 2 ^ 32) (s : ℕ) :
    (g.clusterLba c + s) % 2 ^ 28 = (g.fatLba + g.clusterPos c s) % 2 ^ 28 := by
  have hd := h.data_eq
  have hw : (c + 2 ^ 32 - 2) % 2 ^ 32 = c - 2 := by omega
  simp only [clusterLba, clusterPos, hw]
  omega

/-- The sectors of a data cluster lie in the data area. -/
theorem clusterPos_lt (h : g.Laid) {c s : ℕ} (hc : g.InData c) (hs : s < g.secPerClus) :
    g.dataPos ≤ g.clusterPos c s ∧
      g.clusterPos c s < g.dataPos + g.totalClusters * g.secPerClus := by
  have hm : (c - 2 + 1) * g.secPerClus ≤ g.totalClusters * g.secPerClus :=
    Nat.mul_le_mul_right _ (by have := hc.1; have := hc.2; omega)
  rw [Nat.add_mul, Nat.one_mul] at hm
  have := h.secPerClus_pos
  unfold clusterPos
  omega

theorem clusterPos_lt_size (h : g.Laid) {c s : ℕ} (hc : g.InData c) (hs : s < g.secPerClus) :
    g.clusterPos c s < 2 ^ 28 := by
  have := clusterPos_lt h hc hs
  have := h.fits
  omega

/-- Different clusters have different sectors. -/
theorem clusterPos_injective {c d s t : ℕ} (hc : g.InData c) (hd : g.InData d)
    (hs : s < g.secPerClus) (ht : t < g.secPerClus) (he : g.clusterPos c s = g.clusterPos d t) :
    c = d ∧ s = t := by
  have hpos : 0 < g.secPerClus := by omega
  have he' : s + g.secPerClus * (c - 2) = t + g.secPerClus * (d - 2) := by
    rw [Nat.mul_comm, Nat.mul_comm g.secPerClus]
    simp only [clusterPos] at he
    omega
  have hmod : s = t := by
    have := congrArg (· % g.secPerClus) he'
    simpa [Nat.add_mul_mod_self_left, Nat.mod_eq_of_lt hs, Nat.mod_eq_of_lt ht] using this
  subst hmod
  have hq : c - 2 = d - 2 := Nat.eq_of_mul_eq_mul_left hpos (Nat.add_left_cancel he')
  exact ⟨by have := hc.1; have := hd.1; omega, rfl⟩

end Geometry

/-! ## Writes by position -/

namespace Volume

variable {V : Volume}

/-- Sector `k` of the root directory. -/
def rootSector (V : Volume) (k : ℕ) : Sector := V.sector (V.geo.rootLba + k)

/-- Sector `s` of a cluster. -/
def clusterSector (V : Volume) (c s : ℕ) : Sector := V.sector (V.geo.clusterLba c + s)

theorem sector_congr {l l' : ℕ} (h : l % 2 ^ 28 = l' % 2 ^ 28) : V.sector l = V.sector l' := by
  rw [sector, sector, h]

/-- **A write changes the sector at its position only**, counted from any sector. -/
theorem sector_put_of_pos {l l' base k k' : ℕ} {b : Sector}
    (hl : l % 2 ^ 28 = (base + k) % 2 ^ 28) (hl' : l' % 2 ^ 28 = (base + k') % 2 ^ 28)
    (hk : k < 2 ^ 28) (hk' : k' < 2 ^ 28) (h : k' ≠ k) : (V.put l b).sector l' = V.sector l' :=
  V.sector_put_of_ne l b (by omega)

/-! ## FAT writes -/

theorem byteAt_setByte {base o o' : ℕ} {x : UInt8} (ho : o / 512 < 2 ^ 28)
    (ho' : o' / 512 < 2 ^ 28) :
    (V.setByte base o x).byteAt base o' = if o' = o then x else V.byteAt base o' := by
  simp only [byteAt]
  by_cases hl : o' / 512 = o / 512
  · rw [hl, setByte, sector_put_self]
    by_cases hoo : o' = o
    · simp [hoo]
    · rw [if_neg hoo, Function.update_of_ne (by omega)]
  · rw [setByte, sector_put_of_pos rfl rfl ho ho' hl, if_neg (by omega)]

/-- Patching an entry changes its two bytes only. -/
theorem byteAt_patchFat {base c v o' : ℕ} (ho : (c * 3 / 2 + 1) / 512 < 2 ^ 28)
    (ho' : o' / 512 < 2 ^ 28) :
    (V.patchFat c v base).byteAt base o' =
      if o' = c * 3 / 2 + 1 then packHi c v (V.byteAt base (c * 3 / 2 + 1))
      else if o' = c * 3 / 2 then packLo c v (V.byteAt base (c * 3 / 2))
      else V.byteAt base o' := by
  rw [patchFat, byteAt_setByte ho ho', byteAt_setByte (by omega) ho']

/-- Patching an entry changes no sector outside its copy. -/
theorem sector_patchFat {base c v l n k : ℕ} (hl : l % 2 ^ 28 = (base + k) % 2 ^ 28)
    (hn : (c * 3 / 2 + 1) / 512 < n) (hk : k < 2 ^ 28) (h : n ≤ k) :
    (V.patchFat c v base).sector l = V.sector l := by
  rw [patchFat, setByte, sector_put_of_pos rfl hl (by omega) hk (by omega), setByte,
    sector_put_of_pos rfl hl (by omega) hk (by omega)]

/-- The entry of `c` holds `v` once it is patched, whatever the geometry. -/
theorem fat_patchFat_self (V : Volume) (c v : ℕ) :
    (V.patchFat c v V.geo.fatLba).fat c = v % 4096 := by
  have hne := succ_mod_ne (V.geo.fatLba + c * 3 / 2 / 512)
  have hlo : (V.patchFat c v V.geo.fatLba).byteAt V.geo.fatLba (c * 3 / 2) =
      packLo c v (V.byteAt V.geo.fatLba (c * 3 / 2)) := by
    simp only [patchFat, setByte, byteAt]
    by_cases h : c * 3 / 2 % 512 = 511
    · rw [show (c * 3 / 2 + 1) / 512 = c * 3 / 2 / 512 + 1 by omega, ← Nat.add_assoc,
        sector_put_of_ne _ _ _ hne.symm, sector_put_self, Function.update_self]
    · rw [show (c * 3 / 2 + 1) / 512 = c * 3 / 2 / 512 by omega, sector_put_self,
        Function.update_of_ne (by omega), sector_put_self, Function.update_self]
  have hhi : (V.patchFat c v V.geo.fatLba).byteAt V.geo.fatLba (c * 3 / 2 + 1) =
      packHi c v (V.byteAt V.geo.fatLba (c * 3 / 2 + 1)) := by
    rw [patchFat, byteAt, setByte, sector_put_self, Function.update_self]
  rw [fat, patchFat_geo, hlo, hhi, unpack_pack]

section Laid

variable (h : V.geo.Laid)
include h

/-- A write outside the first copy leaves its entries alone. -/
theorem fat_of_sector_eq {W : Volume} (hg : W.geo = V.geo) {d : ℕ}
    (hd : d ≤ V.geo.totalClusters + 1)
    (hs : ∀ k < V.geo.fatSize, W.sector (V.geo.fatLba + k) = V.sector (V.geo.fatLba + k)) :
    W.fat d = V.fat d := by
  have hdo := h.fat_offset_lt hd
  simp only [fat, byteAt, hg]
  rw [hs _ (by omega), hs _ (by omega)]

theorem fat_patchFat {c d v : ℕ} (hc : c ≤ V.geo.totalClusters + 1)
    (hd : d ≤ V.geo.totalClusters + 1) :
    (V.patchFat c v V.geo.fatLba).fat d = if d = c then v % 4096 else V.fat d := by
  have hco := h.fat_offset_lt hc
  have hdo := h.fat_offset_lt hd
  have hfl := h.fat_le
  have hrl := h.data_lt
  have hrd := V.geo.rootPos_le
  by_cases hdc : d = c
  · subst hdc
    simp [fat_patchFat_self]
  rw [if_neg hdc]
  simp only [fat, patchFat_geo]
  rw [byteAt_patchFat (by omega) (by omega), byteAt_patchFat (by omega) (by omega)]
  by_cases hnext : d * 3 / 2 = c * 3 / 2 + 1
  · -- `d` is the odd entry after the even entry `c`
    rw [if_pos hnext, if_neg (by omega), if_neg (by omega), unpack_packHi (by omega) (by omega),
      hnext]
  · rw [if_neg hnext, if_neg (by omega), if_neg (by omega)]
    by_cases hprev : d * 3 / 2 + 1 = c * 3 / 2
    · -- `d` is the even entry before the odd entry `c`
      rw [if_pos hprev, unpack_packLo (by omega) (by omega), hprev]
    · rw [if_neg hprev]

/-- Writing an entry changes sectors of the first two FAT copies only. -/
theorem sector_fatSet {c v l k : ℕ} (hc : c ≤ V.geo.totalClusters + 1)
    (hl : l % 2 ^ 28 = (V.geo.fatLba + k) % 2 ^ 28) (hk : k < 2 ^ 28) (hk' : V.geo.rootPos ≤ k) :
    (V.fatSet c v).sector l = V.sector l := by
  have hco := h.fat_offset_lt hc
  have hfl := h.fat_le
  unfold fatSet
  split
  · next hn =>
    have hm : 2 * V.geo.fatSize ≤ V.geo.rootPos := Nat.mul_le_mul_right _ hn
    rw [sector_patchFat (k := k - V.geo.fatSize) (by omega) hco (by omega) (by omega),
      sector_patchFat hl hco hk (by omega)]
  · exact sector_patchFat hl hco hk (by omega)

/-- **Writing an entry changes that entry only.** -/
theorem fat_fatSet {c d v : ℕ} (hc : c ≤ V.geo.totalClusters + 1)
    (hd : d ≤ V.geo.totalClusters + 1) :
    (V.fatSet c v).fat d = if d = c then v % 4096 else V.fat d := by
  rw [← fat_patchFat h hc hd]
  unfold fatSet
  split
  · next hn =>
    have hco := h.fat_offset_lt hc
    have hm : 2 * V.geo.fatSize ≤ V.geo.rootPos := Nat.mul_le_mul_right _ hn
    have hdl := h.data_lt
    have hrd := V.geo.rootPos_le
    refine fat_of_sector_eq (V := V.patchFat c v V.geo.fatLba)
      (W := (V.patchFat c v V.geo.fatLba).patchFat c v (V.geo.fatLba + V.geo.fatSize)) h rfl hd
      fun k hk => ?_
    simp only [patchFat_geo] at hk ⊢
    -- the second copy ends before the first one starts again
    exact sector_patchFat (n := V.geo.fatSize) (k := 2 ^ 28 - V.geo.fatSize + k) (by omega) hco
      (by omega) (by omega)
  · rfl

theorem rootSector_fatSet {c v k : ℕ} (hc : c ≤ V.geo.totalClusters + 1)
    (hk : k < V.geo.rootSectors) : (V.fatSet c v).rootSector k = V.rootSector k := by
  have := h.data_lt
  have := V.geo.rootPos_le
  rw [rootSector, fatSet_geo]
  exact sector_fatSet h hc (Geometry.rootLba_add_mod h k) (by omega) (by omega)

theorem clusterSector_fatSet {c v d s : ℕ} (hc : c ≤ V.geo.totalClusters + 1)
    (hd : V.geo.InData d) (hs : s < V.geo.secPerClus) :
    (V.fatSet c v).clusterSector d s = V.clusterSector d s := by
  have hd' := hd.lt_eoc h
  have hr := V.geo.rootPos_le
  rw [clusterSector, fatSet_geo]
  refine sector_fatSet h hc (Geometry.clusterLba_add_mod h hd.1 ?_ s)
    (Geometry.clusterPos_lt_size h hd hs) ?_
  · simp only [fat12Eoc] at hd'
    omega
  · have := (Geometry.clusterPos_lt h hd hs).1
    omega

/-! ## Writes to the root directory and to clusters -/

/-- A write behind the FAT copies leaves the first one alone. -/
theorem fat_put {l k d : ℕ} {b : Sector} (hl : l % 2 ^ 28 = (V.geo.fatLba + k) % 2 ^ 28)
    (hk : k < 2 ^ 28) (hk' : V.geo.rootPos ≤ k) (hd : d ≤ V.geo.totalClusters + 1) :
    (V.put l b).fat d = V.fat d := by
  have := h.fat_le
  exact fat_of_sector_eq (W := V.put l b) h rfl hd fun j hj =>
    sector_put_of_pos hl rfl hk (by omega) (by omega)

theorem fat_putRoot {k d : ℕ} {b : Sector} (hk : k < V.geo.rootSectors)
    (hd : d ≤ V.geo.totalClusters + 1) : (V.put (V.geo.rootLba + k) b).fat d = V.fat d := by
  have := h.data_lt
  have := V.geo.rootPos_le
  exact fat_put h (Geometry.rootLba_add_mod h k) (by omega) (by omega) hd

/-- A write to the root directory changes that sector of it. -/
theorem rootSector_put {k j : ℕ} {b : Sector} (hk : k < V.geo.rootSectors)
    (hj : j < V.geo.rootSectors) :
    (V.put (V.geo.rootLba + k) b).rootSector j = if j = k then b else V.rootSector j := by
  have := h.data_lt
  have := V.geo.rootPos_le
  split
  · next hjk => rw [hjk, rootSector, put_geo, sector_put_self]
  · exact sector_put_of_pos (Geometry.rootLba_add_mod h k) (Geometry.rootLba_add_mod h j)
      (by omega) (by omega) (by omega)

theorem clusterSector_putRoot {k c s : ℕ} {b : Sector} (hk : k < V.geo.rootSectors)
    (hc : V.geo.InData c) (hs : s < V.geo.secPerClus) :
    (V.put (V.geo.rootLba + k) b).clusterSector c s = V.clusterSector c s := by
  have := h.data_lt
  have := V.geo.rootPos_le
  have hpos := Geometry.clusterPos_lt h hc hs
  have hc' := hc.lt_eoc h
  simp only [fat12Eoc] at hc'
  exact sector_put_of_pos (Geometry.rootLba_add_mod h k)
    (Geometry.clusterLba_add_mod h hc.1 (by omega) s) (by omega)
    (Geometry.clusterPos_lt_size h hc hs) (by omega)

theorem fat_putCluster {c s d : ℕ} {b : Sector} (hc : V.geo.InData c) (hs : s < V.geo.secPerClus)
    (hd : d ≤ V.geo.totalClusters + 1) :
    (V.put (V.geo.clusterLba c + s) b).fat d = V.fat d := by
  have hpos := Geometry.clusterPos_lt h hc hs
  have hc' := hc.lt_eoc h
  have := V.geo.rootPos_le
  simp only [fat12Eoc] at hc'
  exact fat_put h (Geometry.clusterLba_add_mod h hc.1 (by omega) s)
    (Geometry.clusterPos_lt_size h hc hs) (by omega) hd

theorem rootSector_putCluster {c s k : ℕ} {b : Sector} (hc : V.geo.InData c)
    (hs : s < V.geo.secPerClus) (hk : k < V.geo.rootSectors) :
    (V.put (V.geo.clusterLba c + s) b).rootSector k = V.rootSector k := by
  have hpos := Geometry.clusterPos_lt h hc hs
  have hc' := hc.lt_eoc h
  have := V.geo.rootPos_le
  have := h.data_lt
  simp only [fat12Eoc] at hc'
  exact sector_put_of_pos (Geometry.clusterLba_add_mod h hc.1 (by omega) s)
    (Geometry.rootLba_add_mod h k) (Geometry.clusterPos_lt_size h hc hs) (by omega) (by omega)

/-- A write to a cluster changes that sector of it. -/
theorem clusterSector_put {c s d t : ℕ} {b : Sector} (hc : V.geo.InData c)
    (hs : s < V.geo.secPerClus) (hd : V.geo.InData d) (ht : t < V.geo.secPerClus) :
    (V.put (V.geo.clusterLba c + s) b).clusterSector d t =
      if d = c ∧ t = s then b else V.clusterSector d t := by
  have hc' := hc.lt_eoc h
  have hd' := hd.lt_eoc h
  simp only [fat12Eoc] at hc' hd'
  split
  · next hcs => rw [hcs.1, hcs.2, clusterSector, put_geo, sector_put_self]
  · next hcs =>
    exact sector_put_of_pos (Geometry.clusterLba_add_mod h hc.1 (by omega) s)
      (Geometry.clusterLba_add_mod h hd.1 (by omega) t) (Geometry.clusterPos_lt_size h hc hs)
      (Geometry.clusterPos_lt_size h hd ht)
      fun he => hcs (Geometry.clusterPos_injective hd hc ht hs he)

end Laid

theorem fat_lt (V : Volume) (c : ℕ) : V.fat c < 4096 := unpack_lt _ _ _

end Volume

end WarkRune.Fat12

import WarkRune.Fat12.Layout
import Mathlib.Tactic.Common

/-!
# Accepted volumes

`fat12_init` computes the geometry from the boot sector, or takes a hard-coded one, and checks
the number of clusters. It does not check the number of FAT copies nor their size.

## Main definitions

* `Geometry.Accepted g`: some call of `fat12_init` that returned true left the geometry `g`
* `Geometry.FatFits g`: a FAT copy is large enough for every cluster

## Main results

* `Geometry.Accepted.boot`: the boot sector an accepted geometry comes from
* `Geometry.Accepted.laid`: an accepted geometry with large enough FAT copies is laid out
  consecutively
-/

namespace WarkRune.Fat12

/-- Some call of `fat12_init` that returned true left the geometry `g`. -/
def Geometry.Accepted (g : Geometry) : Prop :=
  ∃ (s s' : Driver) (lba : ℕ), lba < 2 ^ 32 ∧ (fat12Init lba).Returns s true s' ∧ s'.vol.geo = g

/-- A FAT copy is large enough for the entries of every cluster. -/
def Geometry.FatFits (g : Geometry) : Prop :=
  (g.totalClusters + 1) * 3 / 2 + 1 < g.fatSize * 512

instance (g : Geometry) : Decidable g.FatFits := inferInstanceAs (Decidable (_ < _))

/-- The number of clusters `fat12_init` computes. -/
def bootClusters (b : Sector) (g : Geometry) : ℕ := (totalSectors b - g.dataOffset) / g.secPerClus

theorem geometry_returns {s s' : Driver} {g : Geometry} (h : geometry.Returns s g s') :
    g = s.vol.geo ∧ s' = s := by
  obtain ⟨t, s₁, ht, hr⟩ := Exec.returns_bind.mp h
  obtain ⟨rfl, rfl⟩ := Exec.returns_get.mp ht
  obtain ⟨rfl, rfl⟩ := Exec.returns_pure.mp hr
  exact ⟨rfl, rfl⟩

theorem gBuf_returns {s s' : Driver} {b : Sector} (h : gBuf.Returns s b s') : b = s.buf := by
  obtain ⟨_, s₁, hp, hr⟩ := Exec.returns_bind.mp h
  obtain ⟨t, s₂, ht, hr⟩ := Exec.returns_bind.mp hr
  obtain rfl := Exec.returns_modify.mp hp
  obtain ⟨rfl, rfl⟩ := Exec.returns_get.mp ht
  exact (Exec.returns_pure.mp hr).1

/-- The sector is in the buffer when its read succeeded. -/
theorem readSector_returns {s s' : Driver} {lba : ℕ} (h : (readSector lba).Returns s true s') :
    s'.buf = s.vol.sector lba := by
  obtain ⟨ok, s₁, hw, hr⟩ := Exec.returns_bind.mp h
  have hvol : s₁.vol = s.vol := by
    obtain ⟨t, s₀, ht, hw⟩ := Exec.returns_bind.mp hw
    obtain ⟨_, s₂, hset, hw⟩ := Exec.returns_bind.mp hw
    obtain ⟨rfl, rfl⟩ := Exec.returns_get.mp ht
    obtain rfl := Exec.returns_set.mp hset
    obtain ⟨-, rfl⟩ := Exec.returns_pure.mp hw
    rfl
  split_ifs at hr
  · obtain ⟨_, s₃, h₃, hr⟩ := Exec.returns_bind.mp hr
    obtain ⟨_, s₄, h₄, hr⟩ := Exec.returns_bind.mp hr
    obtain rfl := Exec.returns_modify.mp h₃
    obtain rfl := Exec.returns_modify.mp h₄
    obtain ⟨-, rfl⟩ := Exec.returns_pure.mp hr
    simp [Volume.sector, hvol]
  · obtain ⟨_, s₄, -, hr⟩ := Exec.returns_bind.mp hr
    exact absurd (Exec.returns_pure.mp hr).1 (by decide)

/-- **What a call that returned true computed**: the geometry of the boot sector it read, which
passes the checks. -/
theorem fat12Init_returns {s s' : Driver} {lba : ℕ} (h : (fat12Init lba).Returns s true s') :
    ∃ g₀ : Geometry, g₀ = bootGeometry (s.vol.sector lba) lba g₀ ∧
      g₀.dataOffset < totalSectors (s.vol.sector lba) ∧
      0 < bootClusters (s.vol.sector lba) g₀ ∧ bootClusters (s.vol.sector lba) g₀ ≤ 4085 ∧
      s'.vol.geo = { g₀ with totalClusters := bootClusters (s.vol.sector lba) g₀ } := by
  obtain ⟨old, s₁, h₁, hr⟩ := Exec.returns_bind.mp h
  obtain ⟨-, hs₁⟩ := geometry_returns h₁
  obtain ⟨_, s₂, h₂, hr⟩ := Exec.returns_bind.mp hr
  have hs₂ := Exec.returns_modify.mp h₂
  obtain ⟨ok, s₃, h₃, hr⟩ := Exec.returns_bind.mp hr
  split_ifs at hr with hok
  · exact absurd (Exec.returns_pure.mp hr).1 (by decide)
  obtain rfl : ok = true := by simpa using hok
  obtain ⟨b, s₄, h₄, hr⟩ := Exec.returns_bind.mp hr
  have hb : b = s.vol.sector lba := by
    rw [gBuf_returns h₄, readSector_returns h₃, hs₂, hs₁]
    rfl
  rw [← hb]
  obtain ⟨_, s₅, -, hr⟩ := Exec.returns_bind.mp hr
  set g₀ := bootGeometry b lba old with hg₀
  -- the checks of the source: every one that fails returns false
  split_ifs at hr with hoff
  · exact absurd (Exec.returns_pure.mp hr).1 (by decide)
  obtain ⟨_, s₆, h₆, hr⟩ := Exec.returns_bind.mp hr
  split_ifs at hr with hz hm
  · exact absurd (Exec.returns_pure.mp hr).1 (by decide)
  · exact absurd (Exec.returns_pure.mp hr).1 (by decide)
  obtain ⟨_, s₇, h₇, hr⟩ := Exec.returns_bind.mp hr
  obtain ⟨-, rfl⟩ := Exec.returns_pure.mp hr
  obtain rfl := Exec.returns_modify.mp h₇
  obtain rfl := Exec.returns_modify.mp h₆
  exact ⟨g₀, rfl, Nat.lt_of_not_le hoff, Nat.pos_of_ne_zero hz, Nat.le_of_not_lt hm, rfl⟩

namespace Geometry

variable {g : Geometry}

/-- An accepted geometry is the one of some boot sector that passes the checks. -/
theorem Accepted.boot (h : g.Accepted) : ∃ (b : Sector) (lba : ℕ) (g₀ : Geometry), lba < 2 ^ 32 ∧
    g₀ = bootGeometry b lba g₀ ∧ g₀.dataOffset < totalSectors b ∧
    0 < bootClusters b g₀ ∧ bootClusters b g₀ ≤ 4085 ∧
    g = { g₀ with totalClusters := bootClusters b g₀ } := by
  obtain ⟨s, s', lba, hlba, h, rfl⟩ := h
  obtain ⟨g₀, hg₀, hoff, hz, hm, hgeo⟩ := fat12Init_returns h
  exact ⟨_, lba, g₀, hlba, hg₀, hoff, hz, hm, hgeo⟩

theorem le16_lt (b : Sector) (i : ℕ) : le16 b i < 65536 := by
  have h₀ := (b i).toNat_lt
  have h₁ := (b (i + 1)).toNat_lt
  unfold le16
  omega

/-- The fields of a boot sector's geometry are in range. -/
theorem boot_bounds {b : Sector} {lba : ℕ} {g₀ : Geometry} (hg : g₀ = bootGeometry b lba g₀) :
    0 < g₀.secPerClus ∧ g₀.secPerClus ≤ 255 ∧ g₀.numFats ≤ 255 ∧ g₀.fatSize < 65536 ∧
      g₀.rootEntries < 65536 ∧ 0 < g₀.reservedSec ∧ g₀.reservedSec < 65536 := by
  have h₁₃ := (b 13).toNat_lt
  have h₁₆ := (b 16).toNat_lt
  have h₁₄ := le16_lt b 14
  have h₁₇ := le16_lt b 17
  have h₂₂ := le16_lt b 22
  rw [hg]
  simp only [bootGeometry]
  by_cases hb : HasBpb b
  · obtain ⟨-, -, -, hspc, hres, -⟩ := id hb
    simp only [hb, ↓reduceIte]
    omega
  · simp only [hb, ↓reduceIte]
    omega

theorem Accepted.secPerClus_pos (h : g.Accepted) : 0 < g.secPerClus := by
  obtain ⟨b, lba, g₀, -, hg₀, -, -, -, rfl⟩ := h.boot
  exact (boot_bounds hg₀).1

/-- **An accepted geometry with large enough FAT copies is laid out consecutively.** -/
theorem Accepted.laid (h : g.Accepted) (hn : 0 < g.numFats) (hf : g.FatFits) : g.Laid := by
  obtain ⟨b, lba, g₀, -, hg₀, -, hpos, hle, rfl⟩ := h.boot
  obtain ⟨hspc, hspc', hnf, hfs, hre, -⟩ := boot_bounds hg₀
  have hroot : g₀.rootLba = (g₀.fatLba + g₀.numFats * g₀.fatSize) % 2 ^ 32 := by
    conv_lhs => rw [hg₀]
    conv_rhs => rw [hg₀]
    rfl
  have hdata : g₀.dataLba = (g₀.rootLba + (g₀.rootEntries * 32 + 511) / 512) % 2 ^ 32 := by
    conv_lhs => rw [hg₀]
    conv_rhs => rw [hg₀]
    rfl
  have hfats : g₀.numFats * g₀.fatSize ≤ 255 * 65535 := Nat.mul_le_mul hnf (by omega)
  have hclus : bootClusters b g₀ * g₀.secPerClus ≤ 4085 * 255 := Nat.mul_le_mul hle hspc'
  refine ⟨hspc, hspc', hpos, hle, hn, hf, ?_, ?_, ?_⟩
  · simp only [rootPos]
    omega
  · simp only [dataPos, rootPos, rootSectors]
    omega
  · simp only [dataPos, rootPos, rootSectors]
    omega

end Geometry

end WarkRune.Fat12

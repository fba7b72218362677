import WarkRune.Fat12.Small

/-!
# The FAT as an array of 12-bit numbers

Entry `c` is stored in the bits `12 c` to `12 c + 11` of a FAT copy, the bits of each byte being
counted from the lowest one. An entry shares a byte with its neighbour, and its two bytes may lie
in two sectors. `fat_set` patches the bytes of one copy after the other.

## Main definitions

* `Volume.fatBit V k n`: bit `n` of the `k`-th FAT copy
* `Geometry.InFat g c`: both bytes of the entry of `c` lie inside a FAT copy

## Main results

* `testBit_fat`: `fat_get` reads the twelve bits of an entry
* `fatBit_fatSet`: `fat_set` changes the twelve bits of an entry in every copy, and no other
* `fat_array`: the law of an array, for the two operations on a working disk
-/

namespace WarkRune.Fat12

/-! ## The bits of two packed bytes -/

section Pack

variable {c n : ℕ} (v : ℕ) (b : UInt8)

/-- The first byte of an entry holds its low bits, from the middle of the byte on for an odd one. -/
theorem testBit_packLo (h : n / 8 = c * 3 / 2) :
    (packLo c v b).toNat.testBit (n % 8) =
      if n / 12 = c then v.testBit (n % 12) else b.toNat.testBit (n % 8) := by
  rcases Nat.mod_two_eq_zero_or_one c with hc | hc
  · rw [toNat_packLo_even hc, if_pos (by omega), show n % 12 = n % 8 by omega,
      Nat.testBit_mod_two_pow (j := 8)]
    simp [Nat.mod_lt]
  · have hb : b.toNat % 16 < 2 ^ 4 := by omega
    rw [toNat_packLo_odd hc, Nat.mul_comm, Nat.testBit_two_pow_mul_add (i := 4) _ hb]
    by_cases hn : n % 8 < 4
    · rw [if_pos hn, if_neg (by omega), Nat.testBit_mod_two_pow (j := 4)]
      simp [hn]
    · rw [if_neg hn, if_pos (by omega), Nat.testBit_mod_two_pow (j := 4),
        show n % 12 = n % 8 - 4 by omega]
      have : n % 8 - 4 < 4 := by omega
      simp [this]

/-- The second byte of an entry holds its high bits, in the low half of the byte for an even
one. -/
theorem testBit_packHi (h : n / 8 = c * 3 / 2 + 1) :
    (packHi c v b).toNat.testBit (n % 8) =
      if n / 12 = c then v.testBit (n % 12) else b.toNat.testBit (n % 8) := by
  rcases Nat.mod_two_eq_zero_or_one c with hc | hc
  · have hv : v / 256 % 16 < 2 ^ 4 := by omega
    rw [toNat_packHi_even hc, Nat.mul_comm, Nat.testBit_two_pow_mul_add (i := 4) _ hv]
    by_cases hn : n % 8 < 4
    · rw [if_pos hn, if_pos (by omega), Nat.testBit_mod_two_pow (j := 4),
        Nat.testBit_div_two_pow (n := 8), show n % 12 = n % 8 + 8 by omega]
      simp [hn]
    · rw [if_neg hn, if_neg (by omega), Nat.testBit_div_two_pow (n := 4),
        show n % 8 - 4 + 4 = n % 8 by omega]
  · rw [toNat_packHi_odd hc, if_pos (by omega), Nat.testBit_mod_two_pow (j := 8),
      Nat.testBit_div_two_pow (n := 4), show n % 12 = n % 8 + 4 by omega]
    simp [Nat.mod_lt]

/-- What an entry is read as has the bits of its two bytes. -/
theorem testBit_unpack (b₀ b₁ : UInt8) {j : ℕ} (hj : j < 12) :
    (unpack c b₀ b₁).testBit j = if (12 * c + j) / 8 = c * 3 / 2
      then b₀.toNat.testBit ((12 * c + j) % 8) else b₁.toNat.testBit ((12 * c + j) % 8) := by
  have h₀ : b₀.toNat < 2 ^ 8 := b₀.toNat_lt
  rcases Nat.mod_two_eq_zero_or_one c with hc | hc
  · rw [unpack_even hc, Nat.mul_comm, Nat.testBit_two_pow_mul_add (i := 8) _ h₀]
    by_cases hj8 : j < 8
    · rw [if_pos hj8, if_pos (by omega), show (12 * c + j) % 8 = j by omega]
    · rw [if_neg hj8, if_neg (by omega), Nat.testBit_mod_two_pow (j := 4),
        show (12 * c + j) % 8 = j - 8 by omega]
      have : j - 8 < 4 := by omega
      simp [this]
  · have hb : b₀.toNat / 16 < 2 ^ 4 := by omega
    rw [unpack_odd hc, Nat.mul_comm, Nat.testBit_two_pow_mul_add (i := 4) _ hb]
    by_cases hj4 : j < 4
    · rw [if_pos hj4, if_pos (by omega), Nat.testBit_div_two_pow (n := 4),
        show (12 * c + j) % 8 = j + 4 by omega]
    · rw [if_neg hj4, if_neg (by omega), show (12 * c + j) % 8 = j - 4 by omega]

end Pack

/-! ## The bits of a copy -/

/-- Both bytes of the entry of `c` lie inside a FAT copy. -/
def Geometry.InFat (g : Geometry) (c : ℕ) : Prop := c * 3 / 2 + 1 < g.fatSize * 512

instance (g : Geometry) (c : ℕ) : Decidable (g.InFat c) := inferInstanceAs (Decidable (_ < _))

/-- The sector lies in no FAT copy. -/
def Geometry.OutsideFats (g : Geometry) (l : ℕ) : Prop :=
  ∀ j < g.numFats * g.fatSize, l % 2 ^ 28 ≠ (g.fatLba + j) % 2 ^ 28

namespace Volume

variable {V : Volume} {c d v : ℕ}

/-- Bit `n` of the `k`-th FAT copy, the bits of a byte being counted from the lowest one. -/
def fatBit (V : Volume) (k n : ℕ) : Bool :=
  (V.byteAt (V.geo.fatLba + k * V.geo.fatSize) (n / 8)).toNat.testBit (n % 8)

/-- **An entry is read as its twelve bits** of the first copy. -/
theorem testBit_fat (V : Volume) (c j : ℕ) :
    (V.fat c).testBit j = (decide (j < 12) && V.fatBit 0 (12 * c + j)) := by
  by_cases hj : j < 12
  · rw [fat, testBit_unpack _ _ hj, fatBit, Nat.zero_mul, Nat.add_zero]
    by_cases h : (12 * c + j) / 8 = c * 3 / 2
    · simp [h, hj]
    · have h' : (12 * c + j) / 8 = c * 3 / 2 + 1 := by omega
      simp [h', hj]
  · have hlt : V.fat c < 2 ^ j := calc
      V.fat c < 2 ^ 12 := V.fat_lt c
      _ ≤ 2 ^ j := Nat.pow_le_pow_right (by decide) (by omega)
    simp [hj, Nat.testBit_lt_two_pow hlt]

/-- Patching an entry in a copy changes its twelve bits in the copy. -/
theorem testBit_byteAt_patchFat {base n : ℕ} (hc : (c * 3 / 2 + 1) / 512 < 2 ^ 28)
    (hn : n / 8 / 512 < 2 ^ 28) :
    ((V.patchFat c v base).byteAt base (n / 8)).toNat.testBit (n % 8) =
      if n / 12 = c then v.testBit (n % 12)
      else (V.byteAt base (n / 8)).toNat.testBit (n % 8) := by
  rw [byteAt_patchFat hc hn]
  by_cases h₁ : n / 8 = c * 3 / 2 + 1
  · rw [if_pos h₁, testBit_packHi v _ h₁, ← h₁]
  rw [if_neg h₁]
  by_cases h₀ : n / 8 = c * 3 / 2
  · rw [if_pos h₀, testBit_packLo v _ h₀, ← h₀]
  · rw [if_neg h₀, if_neg (by omega)]

/-- Patching an entry changes the sectors of its two bytes only. -/
theorem sector_patchFat_of_ne {base l : ℕ}
    (h₀ : l % 2 ^ 28 ≠ (base + c * 3 / 2 / 512) % 2 ^ 28)
    (h₁ : l % 2 ^ 28 ≠ (base + (c * 3 / 2 + 1) / 512) % 2 ^ 28) :
    (V.patchFat c v base).sector l = V.sector l := by
  rw [patchFat, setByte, sector_put_of_ne _ _ _ h₁, setByte, sector_put_of_ne _ _ _ h₀]

/-- Patching an entry in one copy changes no byte of a copy whose sectors are others. -/
theorem byteAt_patchFat_of_ne {base base' o : ℕ}
    (h : ∀ i ≤ 1, (base' + o / 512) % 2 ^ 28 ≠ (base + (c * 3 / 2 + i) / 512) % 2 ^ 28) :
    (V.patchFat c v base).byteAt base' o = V.byteAt base' o := by
  rw [byteAt, sector_patchFat_of_ne (h 0 (by omega)) (h 1 le_rfl), byteAt]

section Law

variable (hs : V.geo.fatSize < 2 ^ 16) (hc : V.geo.InFat c)
include hs hc

/-- **`fat_set` changes the twelve bits of the entry** in the first copy and, when there is
one, in the second copy, and no other bit of them. -/
theorem fatBit_fatSet {k n : ℕ} (hk : k = 0 ∨ k = 1 ∧ 1 < V.geo.numFats)
    (hb : n < V.geo.fatSize * 512 * 8) :
    (V.fatSet c v).fatBit k n = if n / 12 = c then v.testBit (n % 12) else V.fatBit k n := by
  unfold Geometry.InFat at hc
  have hco : (c * 3 / 2 + 1) / 512 < 2 ^ 28 := by omega
  have hno : n / 8 / 512 < 2 ^ 28 := by omega
  unfold fatBit
  rw [fatSet_geo, fatSet]
  obtain rfl | ⟨rfl, hk⟩ := hk
  · rw [Nat.zero_mul, Nat.add_zero]
    split
    · -- the patch of the second copy leaves the first one alone
      rw [byteAt_patchFat_of_ne fun i hi => by omega, testBit_byteAt_patchFat hco hno]
    · exact testBit_byteAt_patchFat hco hno
  · rw [if_pos hk, Nat.one_mul, testBit_byteAt_patchFat hco hno,
      byteAt_patchFat_of_ne fun i hi => by omega]

/-- **An entry set is read back**, and the other entries of the copy are read as before. -/
theorem fat_fatSet_of_inFat (hv : v ≤ 0xFFF) (hd : V.geo.InFat d) :
    (V.fatSet c v).fat d = if d = c then v else V.fat d := by
  apply Nat.eq_of_testBit_eq
  intro j
  rw [testBit_fat]
  by_cases hj : j < 12
  · unfold Geometry.InFat at hd
    rw [fatBit_fatSet hs hc (.inl rfl) (by omega), show (12 * d + j) / 12 = d by omega,
      show (12 * d + j) % 12 = j by omega]
    split
    · simp [hj]
    · simp [testBit_fat, hj]
  · have hlt : v < 2 ^ j := calc
      v < 2 ^ 12 := by omega
      _ ≤ 2 ^ j := Nat.pow_le_pow_right (by decide) (by omega)
    split
    · simp [hj, Nat.testBit_lt_two_pow hlt]
    · simp [testBit_fat, hj]

omit hs in
/-- `fat_set` changes no sector outside the copies. -/
theorem sector_fatSet_outside (hpos : 0 < V.geo.numFats) {l : ℕ} (hl : V.geo.OutsideFats l) :
    (V.fatSet c v).sector l = V.sector l := by
  unfold Geometry.InFat at hc
  have hpatch : ∀ {U : Volume} {k : ℕ}, k < V.geo.numFats →
      (U.patchFat c v (V.geo.fatLba + k * V.geo.fatSize)).sector l = U.sector l := by
    intro U k hk
    have hle := Nat.mul_le_mul_right V.geo.fatSize hk
    rw [Nat.succ_mul] at hle
    refine sector_patchFat_of_ne ?_ ?_
    · have := hl (k * V.geo.fatSize + c * 3 / 2 / 512) (by omega)
      rwa [← Nat.add_assoc] at this
    · have := hl (k * V.geo.fatSize + (c * 3 / 2 + 1) / 512) (by omega)
      rwa [← Nat.add_assoc] at this
  have h₀ := fun U => hpatch (U := U) (k := 0) (by omega)
  rw [Nat.zero_mul, Nat.add_zero] at h₀
  rw [fatSet]
  split
  · have h₁ := fun U => hpatch (U := U) (k := 1) (by omega)
    rw [Nat.one_mul] at h₁
    rw [h₁, h₀]
  · exact h₀ V

end Law

end Volume

open Volume in
/-- **The law of an array**: on a working disk, whatever it holds, an entry set is read back, the
other entries are read as before, and in every FAT copy the twelve bits of the entry are what
changes. -/
theorem fat_array {V : Volume} (hn : V.geo.numFats = 1 ∨ V.geo.numFats = 2)
    (hs : V.geo.fatSize < 2 ^ 16) {c v : ℕ} (hc : V.geo.InFat c) (hv : v ≤ 0xFFF) :
    ∃ V', Acts (fatSet c v) V () V' ∧ V'.geo = V.geo ∧ V'.fds = V.fds ∧
      Acts (fatGet c) V' v V' ∧
      (∀ d ≠ c, V.geo.InFat d → ∃ x, Acts (fatGet d) V x V ∧ Acts (fatGet d) V' x V') ∧
      (∀ k < V.geo.numFats, ∀ n < V.geo.fatSize * 512 * 8,
        V'.fatBit k n = if n / 12 = c then v.testBit (n % 12) else V.fatBit k n) ∧
      ∀ l, V.geo.OutsideFats l → V'.sector l = V.sector l := by
  have hself : (V.fatSet c v).fat c = v := by rw [fat_fatSet_of_inFat hs hc hv hc, if_pos rfl]
  refine ⟨V.fatSet c v, acts_fatSet V c v, fatSet_geo .., fatSet_fds .., ?_, fun d hdc hd => ?_,
    fun k hk n hb => fatBit_fatSet hs hc (by omega) hb,
    fun l hl => sector_fatSet_outside hc (by omega) hl⟩
  · have hget := acts_fatGet (V.fatSet c v) c
    rwa [hself] at hget
  · have hother : (V.fatSet c v).fat d = V.fat d := by
      rw [fat_fatSet_of_inFat hs hc hv hd, if_neg hdc]
    refine ⟨V.fat d, acts_fatGet V d, ?_⟩
    have hget := acts_fatGet (V.fatSet c v) d
    rwa [hother] at hget

/-- The small volume with FAT copies of two sectors, all zero. -/
def twoSectorFats : Volume :=
  .build { smallGeometry with fatSize := 2, rootLba := 5, dataLba := 6 } (fun _ => 0)
    (fun _ => .zero) fun _ _ _ => 0

/-- The law at entry 341, the first byte of which is the last one of a sector. -/
theorem fat_array_straddle : ∃ V', Acts (fatSet 341 0xABC) twoSectorFats () V' ∧
    Acts (fatGet 341) V' 0xABC V' := by
  obtain ⟨V', hset, -, -, hget, -⟩ := fat_array (V := twoSectorFats) (.inr rfl) (by decide)
    (c := 341) (v := 0xABC) (by decide) (by decide)
  exact ⟨V', hset, hget⟩

end WarkRune.Fat12

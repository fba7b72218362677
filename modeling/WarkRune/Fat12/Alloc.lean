import WarkRune.Fat12.Layout
import Mathlib.Order.Interval.Finset.Nat
import Mathlib.Tactic.Common

/-!
# Slot allocation and the freeing of chains

`alloc_dir_entry` takes a slot or extends the directory by a cluster, and `fat_free_chain` frees
the clusters of a chain. Both follow links, and a cyclic chain stops only the second one: each
cluster it frees ends the walk when it is met again.

## Main definitions

* `Volume.linkAfter`: the volume with a free cluster appended to a chain
* `TakesSlot V dir r V'`: what `alloc_dir_entry` does on a working disk
* `Frees V c V'`: what `fat_free_chain` does on a working disk

## Main results

* `acts_allocDirEntry`, `takesSlot_of_returns`: `alloc_dir_entry` does `TakesSlot` and only that
* `frees_total`: `fat_free_chain` returns, whatever the FAT contains
-/

namespace WarkRune.Fat12

open Exec (Computes)

/-- The volume with cluster `c`, just marked as an end of chain, linked after `last` and
zeroed. -/
def Volume.linkAfter (V : Volume) (last c : ℕ) : Volume :=
  ((V.fatSet c fat12Eoc).fatSet last c).zeroCluster c

@[simp] theorem Volume.linkAfter_geo (V : Volume) (last c : ℕ) :
    (V.linkAfter last c).geo = V.geo := by
  simp [linkAfter]

@[simp] theorem Volume.linkAfter_fds (V : Volume) (last c : ℕ) :
    (V.linkAfter last c).fds = V.fds := by
  simp [linkAfter]

theorem Volume.takeFree_of_some {V : Volume} {c : ℕ} (h : V.freeCluster = some c) :
    V.takeFree = V.fatSet c fat12Eoc := by
  simp [takeFree, h]

theorem Volume.takeFree_of_none {V : Volume} (h : V.freeCluster = none) : V.takeFree = V := by
  simp [takeFree, h]

theorem Volume.freeCluster_spec {V : Volume} {c : ℕ} (h : V.freeCluster = some c) :
    V.geo.InData c ∧ V.fat c = fat12Free := by
  have hm := List.mem_of_find?_eq_some h
  have hf := List.find?_some h
  simp only [List.mem_range'_1] at hm
  exact ⟨⟨hm.1, by omega⟩, by simpa using hf⟩

theorem Volume.freeCluster_eq_none {V : Volume} :
    V.freeCluster = none ↔ ∀ c, V.geo.InData c → V.fat c ≠ fat12Free := by
  simp only [freeCluster, List.find?_eq_none, List.mem_range'_1, Geometry.InData,
    decide_eq_true_eq]
  exact ⟨fun h c hc => h c (by omega), fun h c hc => h c (by omega)⟩

/-! ## Slot allocation -/

/-- What `alloc_dir_entry` returns and leaves for the directory `dir`. -/
inductive TakesSlot (V : Volume) (dir : ℕ) : Option ℕ → Volume → Prop
  | slot {i : ℕ} (h : V.freeSlot dir = some i) : TakesSlot V dir (some i) V
  | rootFull (h : V.freeSlot dir = none) (hd : dir = 0) : TakesSlot V dir none V
  | diskFull {last : ℕ} (h : V.freeSlot dir = none) (hd : dir ≠ 0) (hl : V.LastLink dir last)
      (hc : V.freeCluster = none) : TakesSlot V dir none V
  | extend {last c : ℕ} (h : V.freeSlot dir = none) (hd : dir ≠ 0) (hl : V.LastLink dir last)
      (hc : V.freeCluster = some c) :
      TakesSlot V dir (some subdirMaxEnts) (V.linkAfter last c)

section Alloc

variable {V : Volume}

theorem acts_lastLoop {c last : ℕ} (h : V.LastLink c last) :
    Acts (Exec.loop lastRound c) V last V := by
  induction h with
  | out h =>
    refine .loop_done ?_
    simp only [lastRound, h, ↓reduceIte]
    exact .pure _ _
  | eoc h hf =>
    refine .loop_done ?_
    simp only [lastRound, h]
    refine (acts_fatGet V _).bind ?_
    simp only [hf, ↓reduceIte]
    exact .pure _ _
  | next h hf hl ih =>
    refine .loop_next _ _ ?_ ih
    simp only [lastRound, h]
    refine (acts_fatGet V _).bind ?_
    simp only [Nat.not_le.mpr hf, ↓reduceIte]
    exact .pure _ _

/-- A walk to the last cluster that returned ends there. -/
theorem lastLink_of_returns {c last : ℕ} {s s' : Driver}
    (h : (Exec.loop lastRound c).Returns s last s') (hw : s.Working) :
    s.vol.LastLink c last := by
  -- a round that ends the walk, and one that follows a link
  refine h.loop_induct (P := fun c s last _ => s.Working → s.vol.LastLink c last) ?_ ?_ hw
  · intro c s last s' h hw
    unfold lastRound at h
    split at h
    · next hc =>
      obtain ⟨next, s₁, h₁, h⟩ := Exec.returns_bind.mp h
      obtain ⟨rfl, -, -⟩ := (acts_fatGet s.vol c).eq_of_returns hw rfl h₁
      split at h
      · next hn =>
        obtain ⟨he, -⟩ := Exec.returns_pure.mp h
        obtain rfl := Sum.inr.inj he
        exact .eoc hc hn
      · obtain ⟨he, -⟩ := Exec.returns_pure.mp h
        cases he
    · next hc =>
      obtain ⟨he, -⟩ := Exec.returns_pure.mp h
      obtain rfl := Sum.inr.inj he
      exact .out hc
  · intro c s c' s₁ last s' h ih hw
    unfold lastRound at h
    split at h
    · next hc =>
      obtain ⟨next, s₂, h₁, h⟩ := Exec.returns_bind.mp h
      obtain ⟨rfl, hv, hw'⟩ := (acts_fatGet s.vol c).eq_of_returns hw rfl h₁
      split at h
      · obtain ⟨he, -⟩ := Exec.returns_pure.mp h
        cases he
      · next hn =>
        obtain ⟨he, rfl⟩ := Exec.returns_pure.mp h
        obtain rfl := Sum.inl.inj he
        rw [hv] at ih
        exact .next hc (Nat.lt_of_not_le hn) (ih hw')
    · obtain ⟨he, -⟩ := Exec.returns_pure.mp h
      cases he

theorem acts_slotSearch (V : Volume) (dir : ℕ) :
    Acts (Exec.forUntil (slotRound dir) 0 (V.geo.maxEnts dir)) V
      ((List.range' 0 (V.geo.maxEnts dir)).findSome? (V.freeAt dir)) V := by
  refine Computes.forUntil_find (V.freeAt dir) (fun i => ?_) _ 0
  refine (acts_dirReadEntry V dir i).bind ?_
  simp only [Volume.freeAt]
  cases V.slot dir i with
  | none => exact .pure _ _
  | some e =>
    dsimp only
    split_ifs <;> exact .pure _ _

/-- `alloc_dir_entry` does what `TakesSlot` says. -/
theorem acts_allocDirEntry {dir : ℕ} {r : Option ℕ} {V' : Volume} (h : TakesSlot V dir r V') :
    Acts (allocDirEntry dir) V r V' := by
  refine (acts_geometry V).bind ((acts_slotSearch V dir).bind ?_)
  cases h with
  | slot h =>
    simp only [Volume.freeSlot] at h
    simp only [h]
    exact .pure _ _
  | rootFull h hd =>
    subst hd
    simp only [Volume.freeSlot] at h
    simp only [h, ↓reduceIte]
    exact .pure _ _
  | diskFull h hd hl hc =>
    simp only [Volume.freeSlot] at h
    simp only [h, hd, ↓reduceIte]
    refine (acts_lastLoop hl).bind ((acts_fatAlloc V).bind ?_)
    simp only [hc, Volume.takeFree_of_none hc, Option.getD_none, ↓reduceIte]
    exact .pure _ _
  | @extend last c h hd hl hc =>
    have hc0 : c ≠ 0 := (Volume.freeCluster_spec hc).1.ne_zero
    simp only [Volume.freeSlot] at h
    simp only [h, hd, ↓reduceIte]
    refine (acts_lastLoop hl).bind ((acts_fatAlloc V).bind ?_)
    simp only [hc, Volume.takeFree_of_some hc, Option.getD_some, hc0, ↓reduceIte]
    refine (acts_fatSet _ last c).bind ((acts_zeroCluster _ c).bind ?_)
    simp only [Geometry.maxEnts, hd, ↓reduceIte]
    exact .pure _ _

/-- `alloc_dir_entry` finds a slot, or the walk to the last cluster of the directory decides. -/
theorem takesSlot_or (V : Volume) (dir : ℕ) :
    (∃ r V', TakesSlot V dir r V') ∨
      V.freeSlot dir = none ∧ dir ≠ 0 ∧ ∀ last, ¬ V.LastLink dir last := by
  cases hf : V.freeSlot dir with
  | some i => exact .inl ⟨_, _, .slot hf⟩
  | none =>
    by_cases hd : dir = 0
    · exact .inl ⟨_, _, .rootFull hf hd⟩
    by_cases hl : ∃ last, V.LastLink dir last
    · obtain ⟨last, hl⟩ := hl
      cases hc : V.freeCluster with
      | none => exact .inl ⟨_, _, .diskFull hf hd hl hc⟩
      | some c => exact .inl ⟨_, _, .extend hf hd hl hc⟩
    · exact .inr ⟨rfl, hd, fun last h => hl ⟨last, h⟩⟩

/-- **`alloc_dir_entry` returns exactly when** a slot is free, the directory is the root, or the
walk to its last cluster ends. -/
theorem takesSlot_of_returns {dir : ℕ} {r : Option ℕ} {s s' : Driver}
    (h : (allocDirEntry dir).Returns s r s') (hw : s.Working) :
    TakesSlot s.vol dir r s'.vol ∧ s'.Working := by
  rcases takesSlot_or s.vol dir with ⟨r', V', ht⟩ | ⟨hf, hd, hl⟩
  · obtain ⟨rfl, rfl, hw'⟩ := (acts_allocDirEntry ht).eq_of_returns hw rfl h
    exact ⟨ht, hw'⟩
  · obtain ⟨g, s₁, h₁, h⟩ := Exec.returns_bind.mp h
    obtain ⟨rfl, hv₁, hw₁⟩ := (acts_geometry s.vol).eq_of_returns hw rfl h₁
    obtain ⟨x, s₂, h₂, h⟩ := Exec.returns_bind.mp h
    obtain ⟨rfl, hv₂, hw₂⟩ := (acts_slotSearch s.vol dir).eq_of_returns hw₁ hv₁ h₂
    simp only [Volume.freeSlot] at hf
    simp only [hf, hd, ↓reduceIte] at h
    obtain ⟨last, s₃, h₃, -⟩ := Exec.returns_bind.mp h
    exact absurd (hv₂ ▸ lastLink_of_returns h₃ hw₂) (hl last)

end Alloc

/-! ## Freeing -/

/-- What `fat_free_chain` from `c` leaves. -/
inductive Frees : Volume → ℕ → Volume → Prop
  | stop {V : Volume} {c : ℕ} (h : ¬ (2 ≤ c ∧ c < fat12Bad)) : Frees V c V
  | last {V : Volume} {c : ℕ} (h : 2 ≤ c ∧ c < fat12Bad) (hf : V.fat c ≥ fat12Eoc) :
      Frees V c (V.fatSet c fat12Free)
  | next {V V' : Volume} {c : ℕ} (h : 2 ≤ c ∧ c < fat12Bad) (hf : V.fat c < fat12Eoc)
      (hr : Frees (V.fatSet c fat12Free) (V.fat c) V') : Frees V c V'

theorem acts_fatFreeChain {V V' : Volume} {c : ℕ} (h : Frees V c V') :
    Acts (fatFreeChain c) V () V' := by
  induction h with
  | stop h =>
    refine .loop_done ?_
    simp only [freeRound, h, ↓reduceIte]
    exact .pure _ _
  | @last V c h hf =>
    refine .loop_done ?_
    simp only [freeRound, h]
    refine (acts_fatGet V c).bind ((acts_fatSet V c _).bind ?_)
    simp only [hf, ↓reduceIte]
    exact .pure _ _
  | @next V V' c h hf hr ih =>
    refine .loop_next _ _ ?_ ih
    simp only [freeRound, h]
    refine (acts_fatGet V c).bind ((acts_fatSet V c _).bind ?_)
    simp only [Nat.not_le.mpr hf, ↓reduceIte]
    exact .pure _ _

/-! ### Freeing terminates

Setting an entry to zero only clears bits, wherever the patched copies lie, so a freed entry
stays free for the rest of the walk. -/

/-- Every byte of `V'` is the byte of `V` with some bits cleared. -/
def Cleared (V V' : Volume) : Prop :=
  V'.geo = V.geo ∧ ∀ l o, ∃ m, V'.sector l o = V.sector l o &&& m

theorem Cleared.trans {V V' V'' : Volume} (h : Cleared V V') (h' : Cleared V' V'') :
    Cleared V V'' := by
  refine ⟨h'.1.trans h.1, fun l o => ?_⟩
  obtain ⟨m, hm⟩ := h.2 l o
  obtain ⟨m', hm'⟩ := h'.2 l o
  exact ⟨m &&& m', by rw [hm', hm, UInt8.and_assoc]⟩

theorem Cleared.setByte {V : Volume} {base o : ℕ} {x m : UInt8}
    (hx : x = V.byteAt base o &&& m) : Cleared V (V.setByte base o x) := by
  refine ⟨rfl, fun l k => ?_⟩
  rw [Volume.setByte, Volume.sector_put]
  split
  · next hl =>
    by_cases hk : k = o % 512
    · exact ⟨m, by rw [hk, Function.update_self, hx, Volume.sector_congr hl]; rfl⟩
    · exact ⟨-1, by rw [Function.update_of_ne hk, Volume.sector_congr hl, UInt8.and_neg_one]⟩
  · exact ⟨-1, by rw [UInt8.and_neg_one]⟩

/-- Patching an entry with zero only clears bits. -/
theorem cleared_patchFat (V : Volume) (c base : ℕ) : Cleared V (V.patchFat c fat12Free base) := by
  have hlo : ∀ b, ∃ m, packLo c fat12Free b = b &&& m := by
    intro b
    unfold packLo
    split
    · exact ⟨0x0F, by simp [fat12Free]⟩
    · exact ⟨0, by simp [fat12Free]⟩
  have hhi : ∀ b, ∃ m, packHi c fat12Free b = b &&& m := by
    intro b
    unfold packHi
    split
    · exact ⟨0, by simp [fat12Free]⟩
    · exact ⟨0xF0, by simp [fat12Free]⟩
  set U := V.setByte base (c * 3 / 2) (packLo c fat12Free (V.byteAt base (c * 3 / 2))) with hU
  have h₁ : Cleared V U := by
    obtain ⟨m, hm⟩ := hlo (V.byteAt base (c * 3 / 2))
    exact .setByte hm
  -- the second byte is patched from its value in `V`, which the first patch leaves alone
  have hb : U.byteAt base (c * 3 / 2 + 1) = V.byteAt base (c * 3 / 2 + 1) := by
    simp only [hU, Volume.setByte, Volume.byteAt]
    by_cases h : c * 3 / 2 % 512 = 511
    · rw [show (c * 3 / 2 + 1) / 512 = c * 3 / 2 / 512 + 1 by omega, ← Nat.add_assoc,
        Volume.sector_put_of_ne _ _ _ (succ_mod_ne _)]
    · rw [show (c * 3 / 2 + 1) / 512 = c * 3 / 2 / 512 by omega, Volume.sector_put_self,
        Function.update_of_ne (by omega)]
  obtain ⟨m, hm⟩ := hhi (V.byteAt base (c * 3 / 2 + 1))
  exact h₁.trans (.setByte (hm.trans (by rw [hb])))

theorem cleared_fatSet (V : Volume) (c : ℕ) : Cleared V (V.fatSet c fat12Free) := by
  unfold Volume.fatSet
  split
  · exact (cleared_patchFat _ _ _).trans (cleared_patchFat _ _ _)
  · exact cleared_patchFat _ _ _

theorem toNat_and_le (b m : UInt8) : (b &&& m).toNat ≤ b.toNat := by
  rw [UInt8.toNat_and]
  exact Nat.and_le_left

theorem toNat_and_mod {b m : UInt8} (h : b.toNat % 16 = 0) : (b &&& m).toNat % 16 = 0 := by
  rw [UInt8.toNat_and, show 16 = 2 ^ 4 from rfl, Nat.and_mod_two_pow, show 2 ^ 4 = 16 from rfl, h,
    Nat.zero_and]

theorem unpack_and_eq_zero {c : ℕ} {b₀ b₁ : UInt8} (h : unpack c b₀ b₁ = 0) (m₀ m₁ : UInt8) :
    unpack c (b₀ &&& m₀) (b₁ &&& m₁) = 0 := by
  have hle₀ := toNat_and_le b₀ m₀
  have hle₁ := toNat_and_le b₁ m₁
  rcases Nat.mod_two_eq_zero_or_one c with hp | hp
  · rw [unpack_even hp] at h ⊢
    have h₁ : b₁.toNat % 16 = 0 := by omega
    have h₀ : (b₀ &&& m₀).toNat = 0 := by omega
    rw [toNat_and_mod h₁, h₀]
  · rw [unpack_odd hp] at h ⊢
    have h₁ : (b₁ &&& m₁).toNat = 0 := by omega
    have h₀ : (b₀ &&& m₀).toNat / 16 = 0 := by
      have := Nat.div_le_div_right (c := 16) hle₀
      omega
    rw [h₁, h₀]

/-- A free entry stays free when bits are cleared. -/
theorem Cleared.fat {V V' : Volume} (h : Cleared V V') {c : ℕ} (hc : V.fat c = fat12Free) :
    V'.fat c = fat12Free := by
  obtain ⟨m₀, hm₀⟩ := h.2 (V.geo.fatLba + c * 3 / 2 / 512) (c * 3 / 2 % 512)
  obtain ⟨m₁, hm₁⟩ := h.2 (V.geo.fatLba + (c * 3 / 2 + 1) / 512) ((c * 3 / 2 + 1) % 512)
  simp only [Volume.fat, Volume.byteAt, h.1] at hc ⊢
  rw [hm₀, hm₁]
  exact unpack_and_eq_zero hc m₀ m₁

/-- Freeing an entry frees it, whatever the geometry. -/
theorem fat_fatSet_free (V : Volume) (c : ℕ) :
    (V.fatSet c fat12Free).fat c = fat12Free := by
  unfold Volume.fatSet
  split
  · exact (cleared_patchFat _ _ _).fat (V.fat_patchFat_self c fat12Free)
  · exact V.fat_patchFat_self c fat12Free

/-- The clusters a freeing walk may still free. -/
def Volume.taken (V : Volume) : Finset ℕ :=
  (Finset.Ico 2 fat12Bad).filter fun c => V.fat c ≠ fat12Free

theorem taken_fatSet {V : Volume} {c : ℕ} (hc : 2 ≤ c ∧ c < fat12Bad)
    (hf : V.fat c ≠ fat12Free) : (V.fatSet c fat12Free).taken.card < V.taken.card := by
  have hsub : (V.fatSet c fat12Free).taken ⊆ V.taken := by
    intro d hd
    obtain ⟨hd, hdf⟩ := Finset.mem_filter.mp hd
    exact Finset.mem_filter.mpr ⟨hd, fun h => hdf ((cleared_fatSet V c).fat h)⟩
  refine Finset.card_lt_card ((Finset.ssubset_iff_of_subset hsub).mpr ⟨c, ?_, ?_⟩)
  · exact Finset.mem_filter.mpr ⟨Finset.mem_Ico.mpr hc, hf⟩
  · exact fun h => (Finset.mem_filter.mp h).2 (fat_fatSet_free V c)

/-- **`fat_free_chain` returns**, whatever the FAT contains: each round frees a cluster that is
not free yet, or meets a free one and stops. -/
theorem frees_total (V : Volume) (c : ℕ) : ∃ V', Frees V c V' := by
  induction hn : V.taken.card using Nat.strong_induction_on generalizing V c with
  | _ n ih =>
    by_cases hc : 2 ≤ c ∧ c < fat12Bad
    · by_cases he : V.fat c ≥ fat12Eoc
      · exact ⟨_, .last hc he⟩
      have he' := Nat.lt_of_not_le he
      by_cases hf : V.fat c = fat12Free
      · refine ⟨_, .next hc he' (.stop ?_)⟩
        rw [hf]
        decide
      · obtain ⟨V', hV'⟩ := ih _ (hn ▸ taken_fatSet hc hf) (V.fatSet c fat12Free) (V.fat c) rfl
        exact ⟨V', .next hc he' hV'⟩
    · exact ⟨V, .stop hc⟩

end WarkRune.Fat12

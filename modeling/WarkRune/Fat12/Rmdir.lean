import WarkRune.Fat12.Placed
import WarkRune.Fat12.Subdir

/-!
# Removing a directory

`fat12_rmdir` frees the chain of a directory in which its check finds nothing. The check skips an
entry with any of the four low attribute bits set, although only all four together mark a part of a
long name, and it does not look behind `SUBDIR_MAX_ENTS` slots.

## Main definitions

* `Volume.Occupied V d i e`: the directory `d` has an entry that its removal would lose
* `Volume.Unlinked`: what is left once the clusters of a directory are freed and its slot is marked

## Main results

* `Volume.Sound.unlinked`: the chain of the directory is freed, and all other files are kept
* `rmdir_empty_iff`: the directory removed was empty exactly when none of its entries was skipped
-/

namespace WarkRune.Fat12

/-- All four low attribute bits: a part of a long name. -/
def DirEntry.IsLongName (e : DirEntry) : Prop := e.attr &&& 0x0F = 0x0F

instance (e : DirEntry) : Decidable e.IsLongName := inferInstanceAs (Decidable (_ = _))

namespace Volume

variable {V V₁ V' : Volume} {P : ℕ → ℕ → Prop} {d dir i : ℕ} {e : DirEntry} {l : List ℕ}

/-- Slot `i` of the directory holds an entry before the end marker that is not deleted, and is
neither a dot entry nor a part of a long name. -/
def Occupied (V : Volume) (d i : ℕ) (e : DirEntry) : Prop :=
  V.slot d i = some e ∧ e.name 0 ≠ dirEnd ∧ e.name 0 ≠ dirFree ∧ ¬ e.IsDot ∧ ¬ e.IsLongName ∧
    V.Shown d i

/-- The directory `e` in slot `i` of `dir` is gone: its clusters `l` are free, its slot is marked,
and the other directories and every other file are as they were. -/
structure Unlinked (V V' : Volume) (dir i : ℕ) (e : DirEntry) (l : List ℕ) : Prop where
  chain : V.Chain e.firstCluster l
  fat : ∀ x ≤ V.geo.totalClusters + 1, V'.fat x = if x ∈ l then fat12Free else V.fat x
  mark : V'.slot dir i = some (e.setFirst dirFree)
  slot : ∀ d, V.DirAt d → d ≠ e.firstCluster → ∀ j, (d, j) ≠ (dir, i) → V'.slot d j = V.slot d j
  file : ∀ d j x m, V.DirAt d → V.Live d j x → ¬ x.IsDir → V.Clusters x.firstCluster m →
    V'.Clusters x.firstCluster m ∧ V'.padded m = V.padded m

/-- **The check of `fat12_rmdir` sees an entry** that is not masked, among the slots it looks at. -/
theorem Occupied.masked_or (h : V.Occupied d i e) (hempty : V.isEmpty d = true) :
    e.Masked ∨ V.geo.maxEnts d ≤ i := by
  by_contra hno
  rw [not_or, Nat.not_le] at hno
  obtain ⟨hm, hi⟩ := hno
  obtain ⟨hs, hend, hfree, hdot, -, hshown⟩ := h
  have hat : V.emptyAt d i = some false := by
    rw [emptyAt, hs]
    simp only [hend, hfree, hm, hdot, ↓reduceIte]
  -- no slot before it ends the check as empty
  have hpre : ∀ j < i, V.emptyAt d j = none ∨ V.emptyAt d j = some false := by
    intro j hj
    obtain ⟨x, hx⟩ := exists_slot_of_le hj.le (by rw [hs]; rfl)
    rw [emptyAt, hx]
    simp only [hshown j hj x hx, ↓reduceIte]
    split_ifs
    all_goals simp
  have hall : ∀ a, (List.range' 0 (V.geo.maxEnts d)).findSome? (V.emptyAt d) = some a →
      a = false := by
    intro a ha
    obtain ⟨k, -, -, hk, hkpre⟩ := List.findSome?_range'_eq_some ha
    rcases Nat.lt_or_ge i k with hik | hik
    · rw [hkpre i (Nat.zero_le i) hik] at hat
      cases hat
    · rcases hik.lt_or_eq with hki | rfl
      · rcases hpre k hki with hn | hf
        · rw [hn] at hk
          cases hk
        · exact (Option.some.inj (hf.symm.trans hk)).symm
      · exact (Option.some.inj (hat.symm.trans hk)).symm
  cases hf : (List.range' 0 (V.geo.maxEnts d)).findSome? (V.emptyAt d) with
  | none =>
    have hi' := List.findSome?_eq_none_iff.mp hf i (List.mem_range'_1.mpr ⟨Nat.zero_le i, by omega⟩)
    rw [hi'] at hat
    cases hat
  | some a =>
    rw [isEmpty, hf, Option.getD_some] at hempty
    exact absurd (hall a hf) (by rw [hempty]; decide)

section Unlink

variable (h : V.Sound P) (hd : V.DirAt dir) (he : V.Live dir i e) (hdir : e.IsDir)
include h hd he hdir

/-- **Freeing the chain of a directory and marking its slot** keeps the other directories and every
other file. -/
theorem Sound.unlinked (hfr : Frees V e.firstCluster V₁) :
    ∃ l, Unlinked V (V₁.setSlot dir i (e.setFirst dirFree)) dir i e l := by
  have h0 := h.head_ne hd he hdir
  obtain ⟨l, hl⟩ := h.owned.chain (i := .inl (dir, i)) ⟨hd, e, he, rfl, h0⟩
  have hgone := he.dirAt hd hdir
  obtain ⟨hf, hz, -⟩ := hfr.frame h.laid hl
  have hg₁ : V₁.geo.Laid := by rw [hf.geo]; exact h.laid
  -- the other directories have clusters of their own
  have hother : ∀ d k, V.DirAt d → d ≠ e.firstCluster → V.DirChain d k → ∀ x ∈ k, x ∉ l :=
    fun d k hdd hne hk x hxk hxl => hne (h.apart hdd hgone hk (.inr hl) hxk hxl)
  obtain ⟨m, hm⟩ := h.dirChain hd
  have hne : dir ≠ e.firstCluster := (h.head_ne_self hd he hdir).symm
  have hkeep : ∀ d k, V.DirAt d → d ≠ e.firstCluster → V.DirChain d k →
      V₁.DirChain d k ∧ ∀ j, V₁.place d j = V.place d j ∧ V₁.slot d j = V.slot d j :=
    fun d k hdd hde hk => hf.dirChain h.laid hk (by simpa using hother d k hdd hde hk) (by simp)
  obtain ⟨hm₁, hslot₁⟩ := hkeep dir m hd hne hm
  -- the slot of the directory is still where it was in the parent
  have hs₁ : (V₁.slot dir i).isSome = true := by
    rw [(hslot₁ i).2, he.1]
    rfl
  obtain ⟨p, hp⟩ : ∃ p, V₁.place dir i = some p := by
    rwa [slot_eq, Option.isSome_map, Option.isSome_iff_exists] at hs₁
  have hpp := hm₁.hasPlace hg₁ hp
  have hstored : ∀ d k, V.DirAt d → d ≠ e.firstCluster → V.DirChain d k → ∀ j,
      (V₁.setSlot dir i (e.setFirst dirFree)).slot d j =
        if d = dir ∧ j = i then some (e.setFirst dirFree) else V.slot d j := by
    intro d k hdd hde hk j
    obtain ⟨hk₁, hslotd⟩ := hkeep d k hdd hde hk
    rw [slot_setSlot hg₁ hm₁ hs₁ hk₁ (fun x hx hx' => h.apart hd hdd hm hk hx hx') j,
      (hslotd j).2]
  refine ⟨l, hl, fun x hx => ?_, ?_, fun d hdd hde j hj => ?_, fun d j x k hdd hx hxdir hk => ?_⟩
  · rw [Volume.fat_setSlot hg₁ hp hpp (by rwa [hf.geo])]
    split_ifs with hxl
    · exact hz x hxl
    · exact hf.fat x hx hxl
  · rw [hstored dir m hd hne hm i, if_pos ⟨rfl, rfl⟩]
  · obtain ⟨k, hk⟩ := h.dirChain hdd
    rw [hstored d k hdd hde hk j, if_neg fun hc => hj (Prod.ext hc.1 hc.2)]
  · -- the clusters of a file are neither those of the directory removed nor of its parent
    have hout : ∀ y ∈ k, V.geo.InData y ∧ y ∉ l ∧ y ∉ m := by
      intro y hy
      rcases hk with ⟨-, rfl⟩ | hk
      · cases hy
      have hx0 := (hk.ok_of_mem hk.head_mem).ne_zero
      have hown : V.Holds P (.inl (d, j)) y := ⟨_, k, ⟨hdd, x, hx, rfl, hx0⟩, hk, hy⟩
      refine ⟨hk.ok_of_mem hy, fun hyl => ?_, h.dir_apart hown (fun q hq f hlf => ?_) hd hm⟩
      · have hgoneOwn : V.Holds P (.inl (dir, i)) y := ⟨_, l, ⟨hd, e, he, rfl, h0⟩, hl, hyl⟩
        obtain ⟨rfl, rfl⟩ := Prod.mk.inj (Sum.inl.inj (h.owned.apart hown hgoneOwn))
        exact hxdir (hx.det he ▸ hdir)
      · obtain rfl := Sum.inl.inj hq
        obtain rfl := hx.det hlf
        exact hxdir
    have hpy : ∀ y ∈ k, ¬ p.InClusters {y} := by
      intro y hy hc
      obtain ⟨z, hz, rfl⟩ := hm₁.inClusters hp hc
      exact (hout z hy).2.2 hz
    constructor
    · refine hk.imp_right fun hk => (hf.chain hk fun y hy => (hout y hy).2.1).congr ?_ ?_
      · intro y hy
        exact Volume.fat_setSlot hg₁ hp hpp (by rw [hf.geo]; exact (hout y hy).1.2)
      · intro y _ hok
        rwa [setSlot_geo]
    · refine padded_congr (by rw [setSlot_geo, hf.geo]) h.laid.secPerClus_pos fun y hy t ht => ?_
      rw [clusterSector_setSlot hg₁ hp hpp (by rw [hf.geo]; exact (hout y hy).1) (hpy y hy)
        (by rwa [hf.geo])]
      exact hf.data y (hout y hy).1 (by simp) t ht

end Unlink

end Volume

/-- **The directory removed was empty exactly when no entry of it was skipped.** When `fat12_rmdir`
returns true, it has freed the chain of a directory, marked its slot and kept the rest. Entries were
lost where the directory had some with low attribute bits set, or behind the slots checked. -/
theorem rmdir_empty_iff {s s' : Driver} {path : Path} (hw : s.Working) (hwf : s.vol.WellFormed)
    (h : (fat12Rmdir path).Returns s true s') :
    ∃ dir i e l, s.vol.Finds path dir i e ∧ e.IsDir ∧ s.vol.Unlinked s'.vol dir i e l ∧
      ((∀ j x, ¬ s.vol.Occupied e.firstCluster j x) ↔
        ∀ j x, s.vol.Occupied e.firstCluster j x →
          ¬ x.Masked ∧ j < s.vol.geo.maxEnts e.firstCluster) := by
  obtain ⟨hr, -⟩ := rmdirs_of_returns h hw
  generalize hb : true = r at hr
  generalize s'.vol = W at hr ⊢
  cases hr with
  | missing | kept => cases hb
  | @done dir i e V' hf hdir hempty hfr =>
    -- the check has found nothing, so what is left of the entries was skipped
    obtain ⟨hd, hlive, -⟩ := hf.live
    obtain ⟨l, hu⟩ := hwf.sound.unlinked hd hlive hdir hfr
    refine ⟨dir, i, e, l, hf, hdir, hu, fun hno j x hx => absurd hx (hno j x), ?_⟩
    intro hall j x hx
    obtain ⟨hm, hj⟩ := hall j x hx
    rcases hx.masked_or hempty with hm' | hj'
    · exact hm hm'
    · exact absurd hj (Nat.not_lt.mpr hj')

/-- The theorem at an empty directory. -/
theorem rmdir_empty_dir : ∃ s', (fat12Rmdir [68]).Returns (subdirVolume 0).driver true s' ∧
    ∃ dir i e l, (subdirVolume 0).Unlinked s'.vol dir i e l := by
  have h : ((fat12Rmdir [68]).run 30 (subdirVolume 0).driver).map (·.1) = some true := by
    decide +kernel
  obtain ⟨⟨r, s'⟩, hr, rfl⟩ := Option.map_eq_some_iff.mp h
  obtain ⟨dir, i, e, l, -, -, hu, -⟩ := rmdir_empty_iff (Volume.driver_working _)
    (subdirVolume_wellFormed (by decide)) ⟨30, hr⟩
  exact ⟨s', ⟨30, hr⟩, dir, i, e, l, hu⟩

/-! ## A hidden file -/

/-- **A directory with a hidden file in it is removed.** -/
theorem rmdir_hidden : (nestedVolume 0x02).WellFormed ∧
    (nestedVolume 0x02).Finds [68] 0 0 (letterEntry 68 attrDir 2) ∧
    (nestedVolume 0x02).Occupied 2 0 (letterEntry 70 0x02 0) ∧
    ∃ s', (fat12Rmdir [68]).Returns (nestedVolume 0x02).driver true s' := by
  refine ⟨nestedVolume_wellFormed (by decide), ?_, ?_, ?_⟩
  · refine ⟨(to83 [68]).2, ⟨resolve_letter _ (by decide) (by decide), by decide⟩, ?_⟩
    apply (acts_findInDir (nestedVolume 0x02) 0 (to83 [68]).2).eq_of_run (n := 20)
    decide +kernel
  · have hslot : (nestedVolume 0x02).slot 2 0 = some (letterEntry 70 0x02 0) := by
      apply (acts_dirReadEntry (nestedVolume 0x02) 2 0).eq_of_run (n := 20)
      decide +kernel
    exact ⟨hslot, by decide, by decide, by decide, by decide, fun j hj => absurd hj (Nat.not_lt_zero j)⟩
  · have h : ((fat12Rmdir [68]).run 30 (nestedVolume 0x02).driver).map (·.1) = some true := by
      decide +kernel
    obtain ⟨⟨r, s'⟩, hr, rfl⟩ := Option.map_eq_some_iff.mp h
    exact ⟨s', 30, hr⟩

end WarkRune.Fat12

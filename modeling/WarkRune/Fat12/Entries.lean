import WarkRune.Fat12.Hold

/-!
# Adding and removing entries

`fat12_create` and `fat12_mkdir` store an entry in the slot `alloc_dir_entry` returns, and
`fat12_delete` and `fat12_rmdir` free the chain of an entry and mark its slot as deleted.

## Main definitions

* `Volume.Overreaches`: extending the full directory leaves end markers before the slot returned
* `Removed V V' dir i e l`: the entry `e` and its clusters `l` are gone

## Main results

* `TakesSlot.rewrites`: an entry in the slot returned is a change of one entry of the tree
* `Sound.removed`: removing an entry keeps the rest of the tree
-/

namespace WarkRune.Fat12

/-! ## New entries -/

namespace DirEntry

variable (t : Name) (a : UInt8) (c : ℕ) (e : DirEntry)

@[simp] theorem name_setName : (e.setName t).name = t := by
  funext i
  simp [name, setName]

@[simp] theorem name_setAttr : (e.setAttr a).name = e.name := by
  funext i
  simp only [name, setAttr]
  rw [Function.update_of_ne]
  exact Fin.ne_of_val_ne (by simp; omega)

@[simp] theorem attr_setAttr : (e.setAttr a).attr = a := by simp [attr, setAttr]

@[simp] theorem attr_setName : (e.setName t).attr = e.attr := by simp [attr, setName]

@[simp] theorem firstCluster_setName : (e.setName t).firstCluster = e.firstCluster := by
  simp [firstCluster, setName]

@[simp] theorem name_setFirst (x : UInt8) : (e.setFirst x).name 0 = x := by
  simp [name, setFirst]

@[simp] theorem name_newEntry : (newEntry t a c).name = t := by simp [newEntry]

@[simp] theorem attr_newEntry : (newEntry t a c).attr = a := by simp [newEntry]

@[simp] theorem firstCluster_newEntry : (newEntry t a c).firstCluster = c % 65536 := by
  simp [newEntry]

@[simp] theorem fileSize_newEntry : (newEntry t a c).fileSize = 0 := by simp [newEntry]

theorem isDir_newEntry : (newEntry t attrDir c).IsDir := by
  simp only [IsDir, attr_newEntry]
  decide

theorem not_isDir_newEntry : ¬ (newEntry t attrArch c).IsDir := by
  simp only [IsDir, attr_newEntry]
  decide

theorem setFirst_not_named : ¬ (e.setFirst dirFree).Named := fun h => h.2.1 (by simp)

variable {t e}

/-- An entry with a name from a path names something unless its first byte marks it deleted. -/
theorem named_of_name (ht : e.name = t) (h0 : t 0 ≠ 0) (hdot : t 0 ≠ dot)
    (hl : e.attr &&& 0x08 = 0) : e.Named ↔ t 0 ≠ dirFree := by
  have hd : ¬ e.IsDot := fun h => hdot (ht ▸ h.1)
  subst ht
  exact ⟨fun h => h.2.1, fun h => ⟨h0, h, hl, hd⟩⟩

end DirEntry

/-! ## Adding an entry -/

/-- Extending the full directory would leave end markers between its last slot and the slot
`alloc_dir_entry` returns. -/
def Volume.Overreaches (V : Volume) (dir : ℕ) : Prop :=
  V.freeSlot dir = none ∧ V.slot dir (subdirMaxEnts - 1) = none ∧
    (V.slot dir (subdirMaxEnts - V.geo.perCluster)).isSome = true

namespace Extends

variable {V V' : Volume} {dir c : ℕ} {l : List ℕ} (hx : Extends V V' dir c l)
include hx

/-- The slot returned exists exactly when the clusters reach it. -/
theorem slot_isSome (hg : V.geo.Laid) : (V'.slot dir subdirMaxEnts).isSome = true ↔
    subdirMaxEnts < (l.length + 1) * V.geo.perCluster := by
  have hgeo := hx.frame.geo
  have h := hx.chain'.slot_isSome (by rwa [hgeo]) (i := subdirMaxEnts)
  rwa [hgeo, List.length_append, List.length_singleton] at h

/-- The slot returned lies behind an end marker only where the extension overreaches. -/
theorem shown (hg : V.geo.Laid) (hs : (V'.slot dir subdirMaxEnts).isSome = true)
    (hover : ¬ V.Overreaches dir) : V'.Shown dir subdirMaxEnts := by
  have hmax : V.geo.maxEnts dir = subdirMaxEnts := by
    rw [Geometry.maxEnts, if_neg (hx.chain.ok_of_mem hx.chain.head_mem).ne_zero]
  have hlt := (hx.slot_isSome hg).mp hs
  rw [Nat.add_mul, Nat.one_mul] at hlt
  have hpc : V.geo.perCluster ≤ 255 * 16 := Nat.mul_le_mul_right 16 hg.secPerClus_le
  have hpos := Geometry.perCluster_pos hg
  have hmax' : subdirMaxEnts = 10000 := rfl
  have hall : subdirMaxEnts ≤ l.length * V.geo.perCluster := by
    by_contra hlast
    refine hover ⟨hx.full, ?_, ?_⟩
    · rw [← Option.not_isSome_iff_eq_none, hx.chain.slot_isSome hg]
      omega
    · rw [hx.chain.slot_isSome hg]
      omega
  intro j hj e he
  rw [hx.slot, if_pos (by omega)] at he
  exact (Volume.freeSlot_eq_none hx.full (by rwa [hmax]) he).1

end Extends

section Add

variable {V V' : Volume} {P : ℕ → ℕ → Prop} (h : V.Sound P) {dir i : ℕ} {e : DirEntry}
include h

/-- **An entry in the slot returned** is a change of one entry of the tree. -/
theorem TakesSlot.rewrites (hz : V.ZeroTail) (hd : V.DirAt dir)
    (ht : TakesSlot V dir (some i) V') (hs : (V'.slot dir i).isSome = true)
    (hend : e.name 0 ≠ dirEnd) (hover : V.freeCluster ≠ none → ¬ V.Overreaches dir) :
    V'.Rewrites (V'.setSlot dir i e) dir i e := by
  rcases ht.cases h hd with ⟨rfl, hr⟩ | ⟨c, l, hr, hc, hx⟩
  · exact h.rewrites_freeSlot hd hz hr.symm hend
  · obtain rfl := Option.some.inj hr
    have hlive := hx.sameLive h hd
    refine (hx.grow h hd).1.rewrites_setSlot (hlive.dirAt.mpr hd) hs hend
      (hx.shown h.laid hs (hover (by simp [hc]))) ?_
    intro x hxs hxend j hj y hy
    rw [hx.zeroTail h hd hz dir (hlive.dirAt.mpr hd) _ x hxs hxend j hj y hy]
    exact DirEntry.zero_not_named

/-- `alloc_dir_entry` keeps the tree, and what is owned. -/
theorem TakesSlot.keeps {r : Option ℕ} (hd : V.DirAt dir) (ht : TakesSlot V dir r V') :
    V.SameLive V' ∧ V'.Sound P ∧ (V.ZeroTail → V'.ZeroTail) ∧
      (V.AllOwned P → V'.AllOwned P) ∧ V'.geo = V.geo ∧ V'.fds = V.fds := by
  rcases ht.cases h hd with ⟨rfl, -⟩ | ⟨c, l, -, -, hx⟩
  · exact ⟨fun _ _ _ _ => Iff.rfl, h, id, id, rfl, rfl⟩
  · exact ⟨hx.sameLive h hd, (hx.grow h hd).1, hx.zeroTail h hd, (hx.grow h hd).2, hx.frame.geo,
      hx.fds⟩

end Add

/-! ## Removing an entry -/

/-- The entry `e` in slot `i` of the directory `dir` and its clusters `l` are gone. -/
structure Removed (V V' : Volume) (dir i : ℕ) (e : DirEntry) (l : List ℕ) : Prop where
  geo : V'.geo = V.geo
  fds : V'.fds = V.fds
  chain : e.firstCluster = 0 ∧ l = [] ∨ V.Chain e.firstCluster l
  fat : ∀ x ≤ V.geo.totalClusters + 1, V'.fat x = if x ∈ l then fat12Free else V.fat x
  /-- The tree is the one with the slot marked. -/
  rewrites : V.Rewrites (V.setSlot dir i (e.setFirst dirFree)) dir i (e.setFirst dirFree)
  slot : ∀ d, (V.setSlot dir i (e.setFirst dirFree)).DirAt d →
    ∀ j, V'.slot d j = (V.setSlot dir i (e.setFirst dirFree)).slot d j

namespace Volume

variable {V V' : Volume} {P : ℕ → ℕ → Prop}

/-- A directory has no entry for itself. -/
theorem Sound.head_ne_self (h : V.Sound P) {d i : ℕ} {e : DirEntry} (hd : V.DirAt d)
    (he : V.Live d i e) (hdir : e.IsDir) : e.firstCluster ≠ d := by
  induction hd generalizing i e with
  | refl => exact h.head_ne dirAt_zero he hdir
  | @tail p d hp hx ih =>
    obtain ⟨j, f, hf, hfd, rfl⟩ := hx
    intro hed
    have h0 : f.firstCluster ≠ 0 := h.head_ne hp hf hfd
    obtain ⟨l, hl⟩ := h.owned.chain (i := .inl (p, j)) ⟨hp, f, hf, rfl, h0⟩
    -- the entry would be the one that leads to the directory
    have hpos := Sum.inl.inj (h.owned.apart (i := .inl (p, j)) (j := .inl (f.firstCluster, i))
      ⟨_, l, ⟨hp, f, hf, rfl, h0⟩, hl, hl.head_mem⟩
      ⟨_, l, ⟨hf.dirAt hp hfd, e, he, hed, h0⟩, hl, hl.head_mem⟩)
    obtain ⟨hpd, rfl⟩ := Prod.mk.inj hpos
    rw [← hpd] at he
    exact ih he hdir (hed.trans hpd.symm)

/-- A directory is the head of one entry. -/
theorem Sound.eq_of_head (h : V.Sound P) {d d' i j : ℕ} {e f : DirEntry} (hd : V.DirAt d)
    (he : V.Live d i e) (hd' : V.DirAt d') (hf : V.Live d' j f)
    (hef : f.firstCluster = e.firstCluster) (h0 : e.firstCluster ≠ 0) : d' = d ∧ j = i := by
  obtain ⟨l, hl⟩ := h.owned.chain (i := .inl (d, i)) ⟨hd, e, he, rfl, h0⟩
  have hpos := Sum.inl.inj (h.owned.apart (i := .inl (d', j)) (j := .inl (d, i))
    ⟨_, l, ⟨hd', f, hf, hef, h0⟩, hl, hl.head_mem⟩ ⟨_, l, ⟨hd, e, he, rfl, h0⟩, hl, hl.head_mem⟩)
  exact Prod.mk.inj hpos

/-- **Freeing the chain of an entry and marking its slot removes the entry.** -/
theorem Sound.removed (h : V.Sound P) {dir i : ℕ} {e : DirEntry} {V₁ : Volume}
    (hd : V.DirAt dir) (he : V.Live dir i e) (hfr : Frees V e.firstCluster V₁) :
    ∃ l, Removed V (V₁.setSlot dir i (e.setFirst dirFree)) dir i e l ∧
      (V₁.slotLoc dir i).isSome = true := by
  obtain ⟨l, hl⟩ : ∃ l, e.firstCluster = 0 ∧ l = [] ∨ V.Chain e.firstCluster l := by
    by_cases h0 : e.firstCluster = 0
    · exact ⟨[], .inl ⟨h0, rfl⟩⟩
    · obtain ⟨l, hl⟩ := h.owned.chain (i := .inl (dir, i)) ⟨hd, e, he, rfl, h0⟩
      exact ⟨l, .inr hl⟩
  have hframe : V.Frame V₁ {x | x ∈ l} ∅ ∧ (∀ x ∈ l, V₁.fat x = fat12Free) ∧
      V₁.fds = V.fds := by
    rcases hl with ⟨h0, rfl⟩ | hl
    · obtain rfl := hfr.eq_of_lt (by omega)
      exact ⟨.refl _ _ _, by simp, rfl⟩
    · exact hfr.frame h.laid hl
  obtain ⟨hf, hz, hfds⟩ := hframe
  have hg₁ : V₁.geo.Laid := by rw [hf.geo]; exact h.laid
  -- only the directory removed loses clusters
  have hlose : ∀ d m, V.DirAt d → V.DirChain d m → ∀ x ∈ m, x ∈ l →
      e.IsDir ∧ e.firstCluster = d := by
    intro d m hdd hm x hxm hxl
    rcases hl with ⟨-, rfl⟩ | hl
    · cases hxl
    rcases hm with ⟨-, rfl⟩ | hm
    · cases hxm
    have h0 := (hl.ok_of_mem hl.head_mem).ne_zero
    obtain ⟨q, f, hq, hlf, hfd, rfl⟩ := exists_parent hdd (hm.ok_of_mem hm.head_mem).ne_zero
    have hpos := Sum.inl.inj (h.owned.apart (i := .inl q) (j := .inl (dir, i))
      ⟨_, m, hq, hm, hxm⟩ ⟨_, l, ⟨hd, e, he, rfl, h0⟩, hl, hxl⟩)
    subst hpos
    obtain rfl := hlf.det he
    exact ⟨hfd, rfl⟩
  obtain ⟨m, hm⟩ := h.dirChain hd
  have hdir : ∀ x ∈ m, x ∉ l := by
    intro x hxm hxl
    obtain ⟨hed, hde⟩ := hlose dir m hd hm x hxm hxl
    exact h.head_ne_self hd he hed hde
  obtain ⟨hm₁, hslot₁⟩ := hf.dirChain h.laid hm (by simpa using hdir) (by simp)
  have hs₁ : (V₁.slot dir i).isSome = true := by
    rw [(hslot₁ i).2, he.1]
    rfl
  have hr := h.rewrites_live (e := e.setFirst dirFree) hd he (by simp [dirFree, dirEnd])
  have hnot := e.setFirst_not_named
  refine ⟨l, ⟨?_, ?_, hl, ?_, hr, ?_⟩, ?_⟩
  · rw [setSlot_geo, hf.geo]
  · rw [setSlot_fds, hfds]
  · intro x hx
    obtain ⟨p, hp⟩ : ∃ p, V₁.place dir i = some p := by
      rwa [slot_eq, Option.isSome_map, Option.isSome_iff_exists] at hs₁
    rw [Volume.fat_setSlot hg₁ hp (hm₁.hasPlace hg₁ hp) (by rwa [hf.geo])]
    split
    · next hxl => exact hz x hxl
    · next hxl => exact hf.fat x hx hxl
  · intro d hdW j
    have hdV := hr.dirAt_of (fun hn => absurd hn hnot) hdW
    obtain ⟨k, hk⟩ := h.dirChain hdV
    have hkl : ∀ x ∈ k, x ∉ l := by
      intro x hxk hxl
      obtain ⟨hed, rfl⟩ := hlose d k hdV hk x hxk hxl
      -- nothing else leads to the directory removed
      obtain ⟨q, f, hq, hlf, hfd, hfe⟩ := exists_parent hdW (h.head_ne hd he hed)
      have hqV := hr.dirAt_of (fun hn => absurd hn hnot) hq.1
      rw [hr.live_iff hqV] at hlf
      split_ifs at hlf with hpos
      · exact hnot hlf.2
      · exact hpos (h.eq_of_head hd he hqV hlf hfe (h.head_ne hd he hed))
    obtain ⟨hk₁, hslotk⟩ := hf.dirChain h.laid hk (by simpa using hkl) (by simp)
    rw [slot_setSlot hg₁ hm₁ hs₁ hk₁ (fun x hx hx' => h.apart hd hdV hm hk hx hx'),
      slot_setSlot h.laid hm (by rw [he.1]; rfl) hk (fun x hx hx' => h.apart hd hdV hm hk hx hx'),
      (hslotk j).2]
  · rwa [slotLoc_isSome, ← Option.isSome_map (f := V₁.entryAt), ← slot_eq]

end Volume

namespace Removed

variable {V V' : Volume} {P : ℕ → ℕ → Prop} {dir i : ℕ} {e : DirEntry} {l : List ℕ}
  (hr : Removed V V' dir i e l)
include hr

theorem sameLive : (V.setSlot dir i (e.setFirst dirFree)).SameLive V' :=
  .of_slot hr.slot

theorem dirAt {d : ℕ} (hd : V'.DirAt d) : V.DirAt d :=
  hr.rewrites.dirAt_of (fun hn => absurd hn e.setFirst_not_named) (hr.sameLive.dirAt.mp hd)

/-- The live entries of the directories that are left. -/
theorem live_iff {d j : ℕ} {x : DirEntry} (hd : V'.DirAt d) :
    V'.Live d j x ↔ (d, j) ≠ (dir, i) ∧ V.Live d j x := by
  rw [hr.sameLive d (hr.sameLive.dirAt.mp hd), hr.rewrites.live_iff (hr.dirAt hd)]
  by_cases hpos : d = dir ∧ j = i
  · rw [if_pos hpos]
    simp [hpos, e.setFirst_not_named]
  · rw [if_neg hpos]
    simp [hpos]

theorem heads {p : ℕ × ℕ} {c : ℕ} (hp : V'.Heads p c) : p ≠ (dir, i) ∧ V.Heads p c := by
  obtain ⟨hd, x, hx, hc⟩ := hp
  obtain ⟨hne, hx⟩ := (hr.live_iff hd).mp hx
  exact ⟨hne, hr.dirAt hd, x, hx, hc⟩

theorem zeroTail (hz : V.ZeroTail) : V'.ZeroTail :=
  (hr.rewrites.zeroTail hz fun _ hd => .inl (hr.rewrites.dirAt_of
    (fun hn => absurd hn e.setFirst_not_named) hd)).congr hr.sameLive hr.slot

/-- The other directories stay in the tree when the one removed has no live entries. -/
theorem dirAt_keep (he : V.Live dir i e)
    (hleaf : e.IsDir → ∀ j x, ¬ V.Live e.firstCluster j x) {d : ℕ} (hd : V.DirAt d)
    (hne : e.IsDir → d ≠ e.firstCluster) : V'.DirAt d := by
  rw [hr.sameLive.dirAt]
  by_cases hed : e.IsDir
  · refine Links.reach_without (fun p hp x hx hxc => ?_) ?_ hd (hne hed)
    · obtain ⟨j, y, hy, hyd, rfl⟩ := hx
      refine ⟨j, y, (hr.rewrites.live_other hp fun hpos => ?_).mpr hy, hyd, rfl⟩
      obtain ⟨rfl, rfl⟩ := Prod.mk.inj hpos
      exact hxc (by rw [he.det hy])
    · rintro x ⟨j, y, hy, -⟩
      exact hleaf hed j y hy
  · exact hr.rewrites.dirAt_keep (fun x hx hxd => absurd (he.det hx ▸ hxd) hed) hd

theorem sound (h : V.Sound P) (hd : V.DirAt dir) (he : V.Live dir i e) : V'.Sound P where
  laid := by rw [hr.geo]; exact h.laid
  owned := by
    rw [hr.geo]
    have hO : Links.Owned V.fat (· ≥ fat12Eoc) V.geo.InData (V'.Owners P) := by
      refine h.owned.transport id (fun o c hc => ?_) fun _ _ _ _ _ _ he => he
      cases o with
      | inl p => exact (hr.heads hc).2
      | inr k => exact hc
    refine hO.congr fun o x hx => ?_
    rw [hr.fat x hx.proper.2, if_neg]
    -- what is left does not meet the chain removed
    intro hxl
    rcases hr.chain with ⟨-, rfl⟩ | hl
    · cases hxl
    have hown : V.Holds P (.inl (dir, i)) x :=
      ⟨_, l, ⟨hd, e, he, rfl, (hl.ok_of_mem hl.head_mem).ne_zero⟩, hl, hxl⟩
    obtain ⟨c, m, hc, hm, hxm⟩ := hx
    cases o with
    | inl p =>
      obtain ⟨hne, hp⟩ := hr.heads hc
      exact hne (Sum.inl.inj (h.owned.apart (i := .inl p) ⟨c, m, hp, hm, hxm⟩ hown))
    | inr k => cases h.owned.apart (i := .inr k) ⟨c, m, hc, hm, hxm⟩ hown
  head_ne hd' hx hxd := h.head_ne (hr.dirAt hd') ((hr.live_iff hd').mp hx).2 hxd

end Removed

end WarkRune.Fat12

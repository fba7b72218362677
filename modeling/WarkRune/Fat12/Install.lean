import WarkRune.Fat12.Entries

/-!
# What the name operations do to the tree

On a sound volume whose end markers are followed by zeros, each name operation keeps the volume
sound and changes at most one live entry.

## Main definitions

* `Volume.SameDisk V V'`: the volumes differ in their descriptors only
* `Adds V V' dir i e`: the live entry `e` is added in slot `i` of the directory `dir`

## Main results

* `create_adds`, `mkdir_adds`: the entry added by `fat12_create` and `fat12_mkdir`
* `mkdir_rollback`, `mkdir_lost`: what a failed `fat12_mkdir` leaves
-/

namespace WarkRune.Fat12

variable {V V' V₁ V₂ : Volume} {P : ℕ → ℕ → Prop}

/-! ## Descriptors -/

namespace Volume

/-- The volumes differ in their descriptors only. -/
def SameDisk (V V' : Volume) : Prop := ∃ fds, V' = { V with fds }

theorem sameDisk_openFd (V : Volume) (c n p i : ℕ) : V.SameDisk (V.openFd c n p i).2 := by
  unfold openFd
  split
  · exact ⟨_, rfl⟩
  · exact ⟨V.fds, rfl⟩

theorem sameDisk_setFd (V : Volume) (fd : ℕ) (f : FD) : V.SameDisk (V.setFd fd f) := ⟨_, rfl⟩

namespace SameDisk

variable (h : V.SameDisk V')
include h

theorem geo : V'.geo = V.geo := by
  obtain ⟨fds, rfl⟩ := h
  rfl

theorem fat : V'.fat = V.fat := by
  obtain ⟨fds, rfl⟩ := h
  rfl

theorem walk (n c : ℕ) : V'.walk n c = V.walk n c := by
  induction n generalizing c with
  | zero => rfl
  | succ n ih => simp only [Volume.walk, h.fat, ih]

theorem slotLoc (d i : ℕ) : V'.slotLoc d i = V.slotLoc d i := by
  simp only [Volume.slotLoc, h.geo, h.walk]

theorem slot (d i : ℕ) : V'.slot d i = V.slot d i := by
  rw [Volume.slot, Volume.slot, h.slotLoc]
  obtain ⟨fds, rfl⟩ := h
  rfl

end SameDisk

end Volume

/-! ## Adding an entry -/

/-- The live entry `e`, unless its name marks it deleted, is added in slot `i` of the directory
`dir`, and nothing else changes in the tree. -/
structure Adds (V V' : Volume) (P : ℕ → ℕ → Prop) (dir i : ℕ) (e : DirEntry) : Prop where
  geo : V'.geo = V.geo
  reached : V.DirAt dir
  sound : V'.Sound P
  zeroTail : V'.ZeroTail
  self : V'.slot dir i = some e
  shown : V'.Shown dir i
  /-- The only new directory is the one added, and it is empty. -/
  dirAt : ∀ d, V'.DirAt d → V.DirAt d ∨ ∀ j x, V'.slot d j = some x → x = .zero
  live : ∀ d, V.DirAt d → ∀ j x,
    V'.Live d j x ↔ if d = dir ∧ j = i then x = e ∧ e.Named else V.Live d j x
  /-- No directory is lost, and no cluster, unless a live entry is overwritten. -/
  keep : (∀ x, ¬ V.Live dir i x) → (∀ d, V.DirAt d → V'.DirAt d) ∧
    (V.AllOwned P → e.Named → V'.AllOwned P)

section Create

variable {dir i : ℕ} {t : Name} (h : V.Sound P) (hz : V.ZeroTail) (hd : V.DirAt dir)
  (h0 : t 0 ≠ 0)
include h hz hd h0

/-- **The entry `fat12_create` adds.** -/
theorem create_adds (hs : TakesSlot V dir (some i) V₁) (hl : (V₁.slotLoc dir i).isSome = true)
    (hover : V.freeCluster ≠ none → ¬ V.Overreaches dir) :
    Adds V (V₁.setSlot dir i (newEntry t attrArch 0)) P dir i (newEntry t attrArch 0) := by
  obtain ⟨hlive, hs₁, hz₁, hC₁, hgeo, -⟩ := hs.keeps h hd
  have hslot : (V₁.slot dir i).isSome = true := by rwa [Volume.slot, Option.isSome_map]
  have hend : (newEntry t attrArch 0).name 0 ≠ dirEnd := by
    rw [DirEntry.name_newEntry]
    exact h0
  have r := hs.rewrites h hz hd hslot hend hover
  have hfirst : (newEntry t attrArch 0).firstCluster = 0 := by simp
  have hfat : ∀ c ≤ V₁.geo.totalClusters + 1,
      (V₁.setSlot dir i (newEntry t attrArch 0)).fat c = V₁.fat c :=
    fun c => hs₁.fat_setSlot r.dir
  -- a new file is no directory and holds no cluster, so nothing is reached through it
  have hno : (newEntry t attrArch 0).Named → (newEntry t attrArch 0).IsDir →
      V₁.Child dir (newEntry t attrArch 0).firstCluster :=
    fun _ hed => absurd hed (DirEntry.not_isDir_newEntry t 0)
  refine ⟨by rw [Volume.setSlot_geo, hgeo], hd, hs₁.rewrites r (Volume.setSlot_geo ..) hfat hno
    fun _ hne => absurd hfirst hne, ?_, ?_, ?_, ?_, ?_, ?_⟩
  · exact r.zeroTail (hz₁ hz) fun d hdd => .inl (r.dirAt_of hno hdd)
  · rw [r.slot dir r.dir, if_pos ⟨rfl, rfl⟩]
  · intro j hj x hx
    rw [r.slot dir r.dir, if_neg fun h => by omega] at hx
    exact r.shown j hj x hx
  · exact fun d hdd => .inl (hlive.dirAt.mp (r.dirAt_of hno hdd))
  · intro d hdd j x
    rw [r.live_iff (hlive.dirAt.mpr hdd)]
    split
    · exact Iff.rfl
    · exact hlive d hdd j x
  · intro hdead
    have hdead₁ : ∀ x, ¬ V₁.Live dir i x := fun x hx => hdead x ((hlive dir hd i x).mp hx)
    have hsup : ∀ d, V₁.DirAt d → (V₁.setSlot dir i (newEntry t attrArch 0)).DirAt d :=
      fun d hdd => r.dirAt_keep (fun x hx => absurd hx (hdead₁ x)) hdd
    refine ⟨fun d hdd => hsup d (hlive.dirAt.mpr hdd), fun hC _ => ?_⟩
    refine Volume.AllOwned.rewrites (hC₁ hC) hs₁ r (Volume.setSlot_geo ..) hfat ?_ hsup
    rintro x ⟨-, y, hy, -⟩
    exact absurd hy (hdead₁ y)

end Create

/-! ## Adding a directory -/

/-- Owners that are not there need not be told apart. -/
theorem Volume.Sound.forget {Q : ℕ → ℕ → Prop} (h : V.Sound P) (hQ : ∀ k x, Q k x → P k x) :
    V.Sound Q where
  laid := h.laid
  owned := by
    refine h.owned.transport id (fun o c hc => ?_) fun _ _ _ _ _ _ he => he
    cases o with
    | inl p => exact hc
    | inr k => exact hQ k c hc
  head_ne := h.head_ne

section Mkdir

variable {dir i c k : ℕ} {t : Name} (h : V.Sound P) (hP : ∀ x, ¬ P k x) (hd : V.DirAt dir)
  (hc : V.freeCluster = some c)
include h hP hd hc

/-- The new directory stays empty while a slot for it is found. -/
theorem mkdir_slot {r : Option ℕ} (hs : TakesSlot (V.takeDir c) dir r V₂) :
    V.SameLive V₂ ∧ V₂.Sound (Function.update P k (· = c)) ∧ (V.ZeroTail → V₂.ZeroTail) ∧
      (V.AllOwned P → V₂.AllOwned (Function.update P k (· = c))) ∧ V₂.geo = V.geo ∧
      V₂.Chain c [c] ∧ ∀ j x, V₂.slot c j = some x → x = .zero := by
  obtain ⟨hcd, -⟩ := Volume.freeCluster_spec hc
  obtain ⟨hslot₁, h₁, hC₁⟩ := takeDir_keeps h hc hP
  obtain ⟨-, hchain, hzero⟩ := takeDir_frame h.laid hcd
  have hlive₁ := Volume.SameLive.of_slot hslot₁
  have hd₁ := hlive₁.dirAt.mpr hd
  obtain ⟨hlive, h₂, hz₂, hC₂, hgeo, -⟩ := hs.keeps h₁ hd₁
  have hkeep : V₂.Chain c [c] ∧ ∀ j, V₂.slot c j = (V.takeDir c).slot c j := by
    rcases hs.cases h₁ hd₁ with ⟨rfl, -⟩ | ⟨c', l, -, -, hx⟩
    · exact ⟨hchain, fun _ => rfl⟩
    -- the extension takes another cluster, and links it after one of the directory
    have hown : (V.takeDir c).Holds (Function.update P k (· = c)) (.inr k) c :=
      ⟨c, [c], by simp [Volume.Owners], hchain, by simp⟩
    have hl := h₁.dir_apart hown (fun _ he => by cases he) hd₁ (.inr hx.chain)
    have hne : ∀ x ∈ [c], x ∉ ({l.getLast hx.chain.ne_nil, c'} : Set ℕ) := by
      intro x hxc
      obtain rfl := List.mem_singleton.mp hxc
      rintro (he | he)
      · exact hl (he ▸ List.getLast_mem _)
      · exact hchain.not_free hxc (Set.mem_singleton_iff.mp he ▸ hx.free.2)
    have hne' : ∀ x ∈ [c], x ∉ ({c'} : Set ℕ) := fun x hxc he => hne x hxc (.inr he)
    have hf := hx.frame.dirChain h₁.laid (.inr hchain) hne hne'
    exact ⟨hx.frame.chain hchain hne, fun j => (hf.2 j).2⟩
  refine ⟨hlive₁.trans hlive, h₂, fun hz => hz₂ (hz.congr hlive₁ hslot₁), fun hC => hC₂ (hC₁ hC),
    hgeo.trans (V.takeDir_geo c), hkeep.1, fun j x hx => ?_⟩
  rw [hkeep.2] at hx
  exact hzero j x hx

/-- **The entry `fat12_mkdir` adds.** -/
theorem mkdir_adds (hz : V.ZeroTail) (h0 : t 0 ≠ 0)
    (hs : TakesSlot (V.takeDir c) dir (some i) V₂) (hl : (V₂.slotLoc dir i).isSome = true)
    (hover : (V.takeDir c).freeCluster ≠ none → ¬ (V.takeDir c).Overreaches dir) :
    Adds V (V₂.setSlot dir i (newEntry t attrDir c)) P dir i (newEntry t attrDir c) := by
  obtain ⟨hlive, h₂, hz₂, hC₂, hgeo, hchain, hzero⟩ := mkdir_slot h hP hd hc hs
  obtain ⟨hslot₁, h₁, -⟩ := takeDir_keeps h hc hP
  have hlive₁ := Volume.SameLive.of_slot hslot₁
  have hlt := (hchain.ok_of_mem hchain.head_mem).lt_bad h₂.laid
  have hfirst : (newEntry t attrDir c).firstCluster = c := by
    rw [DirEntry.firstCluster_newEntry, Nat.mod_eq_of_lt]
    simp only [fat12Bad] at hlt
    omega
  have hslot : (V₂.slot dir i).isSome = true := by rwa [Volume.slot, Option.isSome_map]
  have hend : (newEntry t attrDir c).name 0 ≠ dirEnd := by
    rw [DirEntry.name_newEntry]
    exact h0
  have r := hs.rewrites h₁ (hz.congr hlive₁ hslot₁) (hlive₁.dirAt.mpr hd) hslot hend hover
  have hfat : ∀ x ≤ V₂.geo.totalClusters + 1,
      (V₂.setSlot dir i (newEntry t attrDir c)).fat x = V₂.fat x := fun x => h₂.fat_setSlot r.dir
  obtain ⟨l, hdl⟩ := h₂.dirChain r.dir
  have hown : V₂.Holds (Function.update P k (· = c)) (.inr k) c :=
    ⟨c, [c], by simp [Volume.Owners], hchain, by simp⟩
  have hcl : c ∉ l := h₂.dir_apart hown (fun _ he => by cases he) r.dir hdl
  have hcd : c ≠ dir := by
    rintro rfl
    rcases hdl with ⟨h0, -⟩ | hdl
    · exact (hchain.ok_of_mem hchain.head_mem).ne_zero h0
    · exact hcl hdl.head_mem
  have hnew : ∀ j x, (V₂.setSlot dir i (newEntry t attrDir c)).slot c j = some x → x = .zero := by
    intro j x hx
    rw [Volume.slot_setSlot h₂.laid hdl hslot (.inr hchain) (fun y hy hyc => absurd hy
      (List.mem_singleton.mp hyc ▸ hcl)), if_neg fun h => hcd h.1] at hx
    exact hzero j x hx
  have hleaf : ∀ j x, ¬ (V₂.setSlot dir i (newEntry t attrDir c)).Live c j x := by
    intro j x hx
    rw [hnew j x hx.1] at hx
    exact DirEntry.zero_not_named hx.2.1
  have hadd : ∀ {d}, (V₂.setSlot dir i (newEntry t attrDir c)).DirAt d → V₂.DirAt d ∨ d = c :=
    fun hdd => r.dirAt_add (fun _ _ => hfirst) hleaf hdd
  refine ⟨by rw [Volume.setSlot_geo, hgeo], hd, ?_, ?_, ?_, ?_, ?_, ?_, ?_⟩
  · refine h₂.hand (k := k) r (Volume.setSlot_geo ..) hfat (by simp [hfirst]) (fun j x hx => ?_)
      fun d hdd => ?_
    swap
    · exact (hadd hdd).imp_right (by rintro rfl; exact hleaf)
    have hjk : j ≠ k := by
      rintro rfl
      exact hP x hx
    exact ⟨by rwa [Function.update_of_ne hjk], hjk⟩
  · exact r.zeroTail (hz₂ hz) fun d hdd => (hadd hdd).imp_right (by rintro rfl; exact hnew)
  · rw [r.slot dir r.dir, if_pos ⟨rfl, rfl⟩]
  · intro j hj x hx
    rw [r.slot dir r.dir, if_neg fun h => by omega] at hx
    exact r.shown j hj x hx
  · exact fun d hdd => (hadd hdd).imp hlive.dirAt.mp (by rintro rfl; exact hnew)
  · intro d hdd j x
    rw [r.live_iff (hlive.dirAt.mpr hdd)]
    split
    · exact Iff.rfl
    · exact hlive d hdd j x
  · intro hdead
    have hdead₂ : ∀ x, ¬ V₂.Live dir i x := fun x hx => hdead x ((hlive dir hd i x).mp hx)
    have hsup : ∀ d, V₂.DirAt d → (V₂.setSlot dir i (newEntry t attrDir c)).DirAt d :=
      fun d hdd => r.dirAt_keep (fun x hx => absurd hx (hdead₂ x)) hdd
    refine ⟨fun d hdd => hsup d (hlive.dirAt.mpr hdd), fun hC hn => ?_⟩
    refine (hC₂ hC).hand h₂ (k := k) r (Volume.setSlot_geo ..) hfat (by simp [hfirst]) ?_ hn ?_ ?_
      hsup
    · intro j x hx hjk
      rwa [Function.update_of_ne hjk] at hx
    · rw [hfirst]
      exact (hchain.ok_of_mem hchain.head_mem).ne_zero
    · rintro x ⟨-, y, hy, -⟩
      exact hdead₂ y hy

omit hP in
/-- **A directory without a slot is given back.** -/
theorem mkdir_rollback (hP : ∀ x, ¬ P k x) (hs : TakesSlot (V.takeDir c) dir none V₂) :
    (V₂.fatSet c fat12Free).geo = V.geo ∧
      (∀ x ≤ V.geo.totalClusters + 1, (V₂.fatSet c fat12Free).fat x = V.fat x) ∧
      ∀ d, V.DirAt d → ∀ i, (V₂.fatSet c fat12Free).slot d i = V.slot d i := by
  obtain ⟨hcd, hfree⟩ := Volume.freeCluster_spec hc
  obtain ⟨hslot₁, h₁, -⟩ := takeDir_keeps h hc hP
  have hlive₁ := Volume.SameLive.of_slot hslot₁
  obtain ⟨hf, hchain, -⟩ := takeDir_frame h.laid hcd
  obtain rfl : V₂ = V.takeDir c := by
    rcases hs.cases h₁ (hlive₁.dirAt.mpr hd) with ⟨he, -⟩ | ⟨_, _, hr, -⟩
    · exact he
    · cases hr
  have hgeo := V.takeDir_geo c
  have hf₂ := Volume.frame_fatSet h₁.laid fat12Free (c := c) (by rw [hgeo]; exact hcd.2)
  refine ⟨by rw [Volume.fatSet_geo, hgeo], fun x hx => ?_, fun d hdd i => ?_⟩
  · rw [Volume.fat_fatSet h₁.laid (by rw [hgeo]; exact hcd.2) (by rwa [hgeo])]
    split
    · next hxc => rw [hxc, hfree]; rfl
    · next hxc => exact hf.fat x hx hxc
  · rw [h₁.slot_frame hf₂ ?_ (hlive₁.dirAt.mpr hdd), hslot₁ d hdd]
    intro d' l hd' hl x hx
    refine ⟨?_, Set.notMem_empty x⟩
    rintro rfl
    exact h₁.dir_apart (o := .inr k) ⟨_, [_], by simp [Volume.Owners], hchain, by simp⟩ nofun hd' hl hx

end Mkdir

end WarkRune.Fat12

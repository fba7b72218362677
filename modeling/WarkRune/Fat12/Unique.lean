import WarkRune.Fat12.Install
import WarkRune.Fat12.Call
import WarkRune.Fat12.Descriptor
import WarkRune.Fat12.Small

/-!
# Unique names

`fat12_create` and `fat12_mkdir` search a directory for a name before they add it, and
`fat12_rename` before it stores it. The search skips entries with one of the low attribute bits
set, and `fat12_rename` searches the directory of the new path but stores the name in the
directory of the old one.

## Main definitions

* `Volume.UniqueNames`: no directory of the tree has two live entries with matching names
* `NamesOk`: the call adds no name that a live entry of the directory has

## Main results

* `uniqueNames_run`: names stay unique over every run of such calls
* `create_hidden_twice`: creating a file with the name of a hidden one
-/

namespace WarkRune.Fat12

namespace Volume

variable (V : Volume)

/-- No directory of the tree has two live entries with matching names. -/
def UniqueNames : Prop :=
  ∀ d, V.DirAt d → ∀ i j e f, V.Live d i e → V.Live d j f → match83 e.name f.name = true → i = j

/-- No live entry of the directory has the name. -/
def Absent (dir : ℕ) (t : Name) : Prop := ∀ i e, V.Live dir i e → match83 e.name t = false

variable {V} {V' : Volume}

/-- Names stay unique when one entry changes to one with a name no other entry has. -/
theorem UniqueNames.change (hu : V.UniqueNames) (dir i : ℕ) (e : DirEntry)
    (hsub : ∀ d, V'.DirAt d → V.DirAt d ∨ ∀ j x, ¬ V'.Live d j x)
    (hlive : ∀ d, V.DirAt d → ∀ j x, V'.Live d j x →
      (d = dir ∧ j = i) ∧ x = e ∨ ¬ (d = dir ∧ j = i) ∧ V.Live d j x)
    (hnew : ∀ j x, j ≠ i → V.Live dir j x → match83 x.name e.name = false) :
    V'.UniqueNames := by
  intro d hd j k x y hx hy hxy
  rcases hsub d hd with hd | hleaf
  swap
  · exact absurd hx (hleaf j x)
  rcases hlive d hd j x hx with ⟨⟨rfl, rfl⟩, rfl⟩ | ⟨hj, hx⟩ <;>
    rcases hlive d hd k y hy with ⟨hk, rfl⟩ | ⟨hk, hy⟩
  · exact hk.2.symm
  · have hkj : k ≠ j := fun he => hk ⟨rfl, he⟩
    rw [match83_comm, hnew k y hkj hy] at hxy
    cases hxy
  · obtain ⟨rfl, rfl⟩ := hk
    have hji : j ≠ k := fun he => hj ⟨rfl, he⟩
    rw [hnew j x hji hx] at hxy
    cases hxy
  · exact hu d hd j k x y hx hy hxy

theorem UniqueNames.congr (hu : V.UniqueNames) (hlive : V.SameLive V') : V'.UniqueNames := by
  intro d hd i j e f he hf
  have hd' := hlive.dirAt.mp hd
  exact hu d hd' i j e f ((hlive d hd' i e).mp he) ((hlive d hd' j f).mp hf)

end Volume

/-- The call adds no name that a live entry of the directory has: the search of `fat12_create` and
`fat12_mkdir` misses no entry, and the new name of `fat12_rename` is not taken in the directory of
the old path. -/
def NamesOk (V : Volume) : Call → Prop
  | .create path => ∀ dir t, V.New path dir t →
      V.Absent dir t ∧ (V.freeCluster ≠ none → ¬ V.Overreaches dir)
  | .mkdir path => ∀ dir t c, V.New path dir t → V.freeCluster = some c →
      V.Absent dir t ∧ ((V.takeDir c).freeCluster ≠ none → ¬ (V.takeDir c).Overreaches dir)
  | .rename oldPath newPath => ∀ dir i e newDir t, V.Finds oldPath dir i e →
      V.New newPath newDir t → ∀ j x, j ≠ i → V.Live dir j x → match83 x.name t = false
  | .delete _ | .rmdir _ => True
  | _ => False

theorem NamesOk.isName {c : Call} (h : NamesOk V c) : c.IsName := by
  cases c with
  | create | delete | rename | mkdir | rmdir => trivial
  | _ => exact h

/-- What runs of the name operations keep. -/
structure NamesInv (V : Volume) : Prop where
  sound : V.Sound Volume.noOthers
  zeroTail : V.ZeroTail
  unique : V.UniqueNames

section Steps

variable {V V' : Volume}

theorem NamesInv.congr (h : NamesInv V) (hgeo : V'.geo = V.geo)
    (hfat : ∀ c ≤ V.geo.totalClusters + 1, V'.fat c = V.fat c)
    (hslot : ∀ d, V.DirAt d → ∀ i, V'.slot d i = V.slot d i) : NamesInv V' := by
  have hlive := Volume.SameLive.of_slot hslot
  exact ⟨h.sound.congr hgeo hfat hlive, h.zeroTail.congr hlive hslot, h.unique.congr hlive⟩

theorem NamesInv.sameDisk (h : NamesInv V) (hd : V.SameDisk V') : NamesInv V' :=
  h.congr hd.geo (fun c _ => by rw [hd.fat]) fun d _ i => hd.slot d i

/-- `alloc_dir_entry` keeps names unique. -/
theorem NamesInv.takesSlot (h : NamesInv V) {dir : ℕ} {r : Option ℕ} (hd : V.DirAt dir)
    (hs : TakesSlot V dir r V') : NamesInv V' := by
  obtain ⟨hlive, hs', hz, -⟩ := hs.keeps h.sound hd
  exact ⟨hs', hz h.zeroTail, h.unique.congr hlive⟩

/-- An entry with a name no live entry has keeps names unique. -/
theorem NamesInv.adds (h : NamesInv V) {dir i : ℕ} {e : DirEntry} {t : Name}
    (hadd : Adds V V' Volume.noOthers dir i e) (het : e.name = t) (habs : V.Absent dir t) :
    NamesInv V' := by
  refine ⟨hadd.sound, hadd.zeroTail, h.unique.change dir i e ?_ ?_ ?_⟩
  · intro d hd
    refine (hadd.dirAt d hd).imp_right fun hzero j x hx => ?_
    rw [hzero j x hx.1] at hx
    exact DirEntry.zero_not_named hx.2.1
  · intro d hd j x hx
    rw [hadd.live d hd] at hx
    split_ifs at hx with hpos
    · exact .inl ⟨hpos, hx.1⟩
    · exact .inr ⟨hpos, hx⟩
  · intro j x _ hx
    rw [het]
    exact habs j x hx

theorem NamesInv.removed (h : NamesInv V) {dir i : ℕ} {e : DirEntry} {l : List ℕ}
    (hr : Removed V V' dir i e l) (hd : V.DirAt dir) (he : V.Live dir i e) : NamesInv V' := by
  refine ⟨hr.sound h.sound hd he, hr.zeroTail h.zeroTail, ?_⟩
  intro d hdd j k x y hx hy
  exact h.unique d (hr.dirAt hdd) j k x y ((hr.live_iff hdd).mp hx).2 ((hr.live_iff hdd).mp hy).2

theorem NamesInv.create (h : NamesInv V) {path : Path} {r : ℤ} (hok : NamesOk V (.create path))
    (hc : Creates V path r V') : NamesInv V' := by
  cases hc with
  | refused => exact h
  | noSlot hn hs | noEntry hn hs => exact h.takesSlot hn.dirAt.1 hs
  | @entry dir i t V₁ hn hs hl =>
    obtain ⟨habs, hover⟩ := hok _ _ hn
    have hadd := create_adds h.sound h.zeroTail hn.dirAt.1 hn.1.2 hs hl hover
    exact (h.adds hadd (DirEntry.name_newEntry ..) habs).sameDisk (Volume.sameDisk_openFd ..)

theorem NamesInv.mkdir (h : NamesInv V) {path : Path} {r : Bool} (hok : NamesOk V (.mkdir path))
    (hm : Mkdirs V path r V') : NamesInv V' := by
  have hP : ∀ x, ¬ Volume.noOthers 0 x := fun _ => id
  cases hm with
  | refused | diskFull => exact h
  | noSlot hn hc hs =>
    obtain ⟨hgeo, hfat, hslot⟩ := mkdir_rollback h.sound hn.dirAt.1 hc hP hs
    exact h.congr hgeo hfat hslot
  | @entry dir c i t V₂ hn hc hs =>
    obtain ⟨habs, hover⟩ := hok _ _ _ hn hc
    cases hl : V₂.slotLoc dir i with
    | none =>
      -- the slot is not reached, and the cluster taken is lost
      obtain ⟨hlive, hs₂, hz₂, -⟩ := mkdir_slot h.sound hP hn.dirAt.1 hc hs
      rw [setSlot_of_none hl]
      exact ⟨hs₂.forget fun _ _ hx => absurd hx id, hz₂ h.zeroTail, h.unique.congr hlive⟩
    | some p =>
      have hadd := mkdir_adds h.sound hP hn.dirAt.1 hc h.zeroTail hn.1.2 hs (by rw [hl]; rfl) hover
      exact h.adds hadd (DirEntry.name_newEntry ..) habs

theorem NamesInv.rename (h : NamesInv V) {p q : Path} {r : Bool}
    (hok : NamesOk V (.rename p q)) (hr : Renames V p q r V') : NamesInv V' := by
  cases hr with
  | missing | taken => exact h
  | @done dir i newDir e t hf hn =>
    obtain ⟨hd, he, -⟩ := hf.live
    have hend : (e.setName t).name 0 ≠ dirEnd := by
      rw [DirEntry.name_setName]
      exact hn.1.2
    have r := h.sound.rewrites_live hd he hend
    have hdir : (e.setName t).Named → (e.setName t).IsDir →
        V.Child dir (e.setName t).firstCluster := by
      intro _ hed
      have hed' : e.IsDir := by simpa [DirEntry.IsDir] using hed
      exact ⟨i, e, he, hed', by simp⟩
    refine ⟨h.sound.rewrites r (Volume.setSlot_geo ..) (fun c => h.sound.fat_setSlot hd) hdir ?_,
      r.zeroTail h.zeroTail fun d hd => .inl (r.dirAt_of hdir hd),
      h.unique.change dir i (e.setName t)
        (fun d hd => .inl (r.dirAt_of hdir hd)) ?_ ?_⟩
    · intro _ h0
      exact ⟨hd, e, he, by simp, h0⟩
    · intro d hdd j x hx
      rw [r.live_iff hdd] at hx
      split_ifs at hx with hpos
      · exact .inl ⟨hpos, hx.1⟩
      · exact .inr ⟨hpos, hx⟩
    · intro j x hj hx
      rw [DirEntry.name_setName]
      exact hok dir i e newDir t hf hn j x hj hx

theorem NamesInv.delete (h : NamesInv V) {path : Path} {r : Bool} (hd : Deletes V path r V') :
    NamesInv V' := by
  cases hd with
  | missing | isDir => exact h
  | file hf _ hfr =>
    obtain ⟨hd, he, -⟩ := hf.live
    obtain ⟨l, hr, -⟩ := h.sound.removed hd he hfr
    exact h.removed hr hd he

theorem NamesInv.rmdir (h : NamesInv V) {path : Path} {r : Bool} (hd : Rmdirs V path r V') :
    NamesInv V' := by
  cases hd with
  | missing | kept => exact h
  | done hf _ _ hfr =>
    obtain ⟨hd, he, -⟩ := hf.live
    obtain ⟨l, hr, -⟩ := h.sound.removed hd he hfr
    exact h.removed hr hd he

/-- A call that meets the condition keeps names unique. -/
theorem NamesInv.step {s s' : Driver} {c : Call} {r : Reply} (hw : s.Working)
    (h : NamesInv s.vol) (hok : NamesOk s.vol c) (hr : c.exec.Returns s r s') :
    s'.Working ∧ NamesInv s'.vol := by
  obtain ⟨ho, hw'⟩ := nameOutcome_of_returns hok.isName hr hw
  refine ⟨hw', ?_⟩
  cases ho with
  | create hc => exact h.create hok hc
  | mkdir hc => exact h.mkdir hok hc
  | rmdir hc => exact h.rmdir hc
  | delete hc => exact h.delete hc
  | rename hc => exact h.rename hok hc

end Steps

/-- **Names stay unique over every run** of name operations none of which adds a name that a live
entry of the directory has. -/
theorem uniqueNames_run {s s' : Driver} {cs : List Call} (hw : s.Working)
    (hwf : s.vol.WellFormed) (hz : s.vol.ZeroTail) (hu : s.vol.UniqueNames)
    (hrun : Run NamesOk s cs s') : s'.vol.UniqueNames := by
  have hinv : s'.Working ∧ NamesInv s'.vol :=
    hrun.induct (I := fun s => s.Working ∧ NamesInv s.vol)
      (fun _ _ _ _ hI hok hr => hI.2.step hI.1 hok hr) ⟨hw, hwf.sound, hz, hu⟩
  exact hinv.2.unique

/-- The file `F` in the root directory, with the given attributes. -/
def fileF (attr : UInt8) : Volume := rootVolume [letterEntry 70 attr 0]

theorem fileF_names (attr : UInt8) (h : ¬ (letterEntry 70 attr 0).IsDir) :
    (fileF attr).WellFormed ∧ (fileF attr).ZeroTail ∧ (fileF attr).UniqueNames := by
  have hes : ∀ e ∈ [letterEntry 70 attr 0], e.Named → ¬ e.IsDir ∧ e.firstCluster = 0 := by
    intro e he _
    obtain rfl := List.mem_singleton.mp he
    exact ⟨h, by simp [DirEntry.firstCluster, letterEntry]⟩
  have hend : ∀ e ∈ [letterEntry 70 attr 0], e.name 0 ≠ dirEnd := by
    intro e he
    obtain rfl := List.mem_singleton.mp he
    exact (by decide : (70 : UInt8) ≠ 0)
  refine ⟨rootVolume_wellFormed hes, rootVolume_zeroTail hes hend, ?_⟩
  intro d hd i j e f he hf _
  rw [rootVolume_dirAt hes hd] at he hf
  have hi := (List.getElem?_eq_some_iff.mp (rootVolume_live he).1).1
  have hj := (List.getElem?_eq_some_iff.mp (rootVolume_live hf).1).1
  simp only [List.length_singleton] at hi hj
  omega

/-- The theorem at the creation of `G` next to `F`. -/
theorem uniqueNames_create :
    ∃ s', Run NamesOk (fileF attrArch).driver [.create [71]] s' ∧ s'.vol.UniqueNames := by
  have hrun : ((Call.create [71]).exec.run 30 (fileF attrArch).driver).isSome = true := by
    decide +kernel
  obtain ⟨⟨r, s'⟩, h⟩ := Option.isSome_iff_exists.mp hrun
  obtain ⟨hwf, hz, hu⟩ := fileF_names attrArch (by decide)
  have hok : NamesOk (fileF attrArch) (.create [71]) := by
    rintro dir t ⟨⟨hres, -⟩, -⟩
    rw [resolve_letter _ (by decide) (by decide)] at hres
    obtain ⟨rfl, rfl⟩ := Prod.mk.inj (Option.some.inj hres)
    refine ⟨fun i e he => ?_, fun _ hover => ?_⟩
    · obtain rfl : e = letterEntry 70 attrArch 0 :=
        List.mem_singleton.mp (List.mem_of_getElem? (rootVolume_live he).1)
      decide
    · have hs := hover.2.2
      rw [fileF, rootVolume_slot, if_neg (by decide)] at hs
      cases hs
  have hr : Run NamesOk (fileF attrArch).driver [.create [71]] s' :=
    .cons hok ⟨30, h⟩ (.nil s')
  exact ⟨s', hr, uniqueNames_run (Volume.driver_working _) hwf hz hu hr⟩

/-- **Creating a file with the name of a hidden one** gives the directory the name twice. -/
theorem create_hidden_twice : ∃ s', (fileF 0x02).WellFormed ∧ (fileF 0x02).ZeroTail ∧
    (fileF 0x02).UniqueNames ∧ Run (fun _ _ => True) (fileF 0x02).driver [.create [70]] s' ∧
    ¬ s'.vol.UniqueNames := by
  have h : (do
      let s' ← runAll 30 [.create [70]] (fileF 0x02).driver
      let e ← s'.vol.slot 0 0
      let f ← s'.vol.slot 0 1
      return decide (e.Named ∧ f.Named ∧ match83 e.name f.name = true)) = some true := by
    decide +kernel
  obtain ⟨s', hr, h⟩ := Option.bind_eq_some_iff.mp h
  obtain ⟨e, he, h⟩ := Option.bind_eq_some_iff.mp h
  obtain ⟨f, hf, h⟩ := Option.bind_eq_some_iff.mp h
  obtain ⟨hen, hfn, hm⟩ := of_decide_eq_true (Option.some.inj h)
  obtain ⟨hwf, hz, hu⟩ := fileF_names 0x02 (by decide)
  refine ⟨s', hwf, hz, hu, run_of_runAll hr fun _ _ _ => trivial, fun hu' => ?_⟩
  have hlive : s'.vol.Live 0 1 f := by
    refine ⟨hf, hfn, fun j hj x hx => ?_⟩
    obtain rfl : j = 0 := by omega
    rw [he] at hx
    exact Option.some.inj hx ▸ hen.1
  have := hu' 0 Volume.dirAt_zero 0 1 e f ⟨he, hen, fun j hj => absurd hj (by omega)⟩ hlive hm
  omega

end WarkRune.Fat12

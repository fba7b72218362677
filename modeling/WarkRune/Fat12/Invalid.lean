import WarkRune.Fat12.Atomic
import WarkRune.Fat12.Display

/-!
# Paths with rejected components

`resolve_path` does not look at what `to_83` returns. A rejected component stands for the name of
eleven spaces that `to_83` starts from, which can be searched for and created like any other name.
So an operation refuses such a path for the reasons for which it refuses any path.

## Main definitions

* `Rejected path`: `to_83` rejects a component of the path
* `Call.Refused V c`: the call fails and changes no sector
* `Call.Refuses V c`: the reasons there are for that

## Main results

* `refused_iff`: an operation that has a reason fails without a change, and no other one does (where
  it adds entries, on a sound volume)
* `create_rejected`: a file created under a rejected name
-/

namespace WarkRune.Fat12

/-- `to_83` rejects a component of the path. -/
def Rejected (path : Path) : Prop :=
  ∃ s, (s ∈ (splitPath path).1 ∨ s = (splitPath path).2 ∧ s ≠ []) ∧ (to83 s).1 = false

/-- The call reports a failure, and leaves every sector as it is. -/
def Call.Refused (V : Volume) (c : Call) : Prop :=
  ∃ r V', Acts c.exec V r V' ∧ r.Failed ∧ ∀ l, V'.sector l = V.sector l

/-- **What an operation refuses a path for.** Nothing on the path is found, or it is of the wrong
kind; `fat12_rename` misses one of its two ends; no descriptor, slot or cluster is left. What
`fat12_create` and `fat12_mkdir` have stored by then must have been there before. -/
def Call.Refuses (V : Volume) : Call → Prop
  | .openPath path => ∀ dir i e, V.Finds path dir i e → e.IsDir ∨ V.freeFd = none
  | .create path => ∀ dir t, V.New path dir t →
    match V.freeSlot dir with
    | some i => V.freeFd = none ∧ V.slot dir i = some (newEntry t attrArch 0)
    | none => dir = 0 ∨ V.freeCluster = none ∧ ∃ last, V.LastLink dir last
  | .delete path => ∀ dir i e, V.Finds path dir i e → e.IsDir
  | .rename p q => ∀ dir i e, V.Finds p dir i e → ∀ d t, ¬ V.New q d t
  | .mkdir path => ∀ dir t c, V.New path dir t → V.freeCluster = some c →
    V.freeSlot dir = none ∧ V.Apart dir c ∧ V.FreeInCopies c ∧ V.Blank c ∧
      (dir = 0 ∨ V.LastFree c ∧ ∃ last, V.LastLink dir last)
  | .rmdir path => ∀ dir i e, V.Finds path dir i e → e.IsDir → V.isEmpty e.firstCluster = false
  | _ => False

/-- The operations that are given a path. -/
def Call.TakesPath : Call → Prop
  | .openPath _ | .create _ | .delete _ | .rename _ _ | .mkdir _ | .rmdir _ => True
  | _ => False

/-- The operations that may extend a directory. -/
def Call.Adds : Call → Prop
  | .create _ | .mkdir _ => True
  | _ => False

/-- What a program computes is determined. -/
theorem Acts.det {α : Type} {m : Fat α} {V V₁ V₂ : Volume} {a b : α} (h : Acts m V a V₁)
    (h' : Acts m V b V₂) : b = a ∧ V₂ = V₁ := by
  obtain ⟨s, hr, hv, -⟩ := h' V.driver V.driver_working rfl
  obtain ⟨rfl, hv', -⟩ := h.eq_of_returns V.driver_working rfl hr
  exact ⟨rfl, hv.symm.trans hv'⟩

/-! ## Names of components -/

/-- A rejected component stands for the blank name. -/
theorem name83_of_rejected {s : Path} (h : (to83 s).1 = false) : name83 s = fun _ => space := by
  have hs : (cString s).headD 0 = 0 ∨ (cString s).headD 0 = dot := by
    by_contra hs
    rw [to83_valid_iff.mpr hs] at h
    cases h
  rw [name83, to83, if_pos hs]

/-- The name of a component is no end marker. -/
theorem name83_ne_zero (s : Path) : name83 s 0 ≠ 0 := by
  by_cases h : (cString s).headD 0 = 0 ∨ (cString s).headD 0 = dot
  · rw [name83, to83, if_pos h]
    decide
  · rw [name83, to83_eq h]
    obtain ⟨c, cs, hc⟩ := List.exists_cons_of_ne_nil (basePart_ne_nil h)
    have hbase : c ∈ basePart s := hc ▸ List.mem_cons_self
    have hmem : c ∈ cString s := List.takeWhile_subset _ (List.mem_of_mem_take hbase)
    have hc0 : c ≠ 0 := by simpa using List.mem_takeWhile_imp hmem
    rw [hc]
    change upper c ≠ 0
    rwa [Ne, upper_eq_iff (by decide)]

namespace Volume

variable {V V' : Volume} {path : Path} {dir : ℕ} {t : Name}

/-- **What a path leads to**: the last component names something in the directory the others lead
to. -/
theorem names_iff : V.Names path dir t ↔
    V.descend ((splitPath path).1.map name83) 0 = some dir ∧ (splitPath path).2 ≠ [] ∧
      t = name83 (splitPath path).2 := by
  rw [Names, resolve_eq_some]
  constructor
  · rintro ⟨⟨hd, rfl⟩, h0⟩
    unfold lastName at h0 ⊢
    split_ifs at h0 ⊢ with hl
    · exact absurd rfl h0
    · exact ⟨hd, hl, rfl⟩
  · rintro ⟨hd, hl, rfl⟩
    rw [lastName, if_neg hl]
    exact ⟨⟨hd, rfl⟩, name83_ne_zero _⟩

/-- A component leads to its name in the root directory. -/
theorem names_component {s : Path} (h : IsComponent s) : V.Names s 0 (name83 s) := by
  rw [names_iff, splitPath_component h]
  exact ⟨rfl, h.1, rfl⟩

/-- **A name that marks its entry deleted is never found.** -/
theorem not_finds_of_dirFree (hn : V.Names path dir t) (hfree : t 0 = dirFree) :
    ∀ d i e, ¬ V'.Finds path d i e := by
  rintro d i e ⟨u, hu, hfind⟩
  obtain ⟨-, -, rfl⟩ := names_iff.mp hn
  obtain ⟨-, -, rfl⟩ := names_iff.mp hu
  obtain ⟨-, hat, -⟩ := find_eq_some_iff.mp hfind
  obtain ⟨-, -, -, hnot, -, hmatch⟩ := findAt_eq_some.mp hat
  have hfirst := match83_iff.mp hmatch 0
  rw [hfree, show upper dirFree = dirFree by decide, upper_eq_iff (by decide)] at hfirst
  exact hnot hfirst

end Volume

/-! ## Operations that refuse -/

section Refuses

variable {V V' : Volume} {path : Path}

open Volume

theorem failed_int : (Reply.int (-1)).Failed := by
  change (-1 : ℤ) < 0
  decide

theorem refused_of_acts {c : Call} {r : Reply} (h : Acts c.exec V r V') (hf : r.Failed)
    (hs : ∀ l, V'.sector l = V.sector l) : c.Refused V := ⟨r, V', h, hf, hs⟩

theorem acts_openPath {r : ℤ} (h : Opens V path r V') :
    Acts (Call.openPath path).exec V (.int r) V' := (acts_fat12Open h).bind (.pure _ _)

theorem acts_create {r : ℤ} (h : Creates V path r V') :
    Acts (Call.create path).exec V (.int r) V' := (acts_fat12Create h).bind (.pure _ _)

theorem openPath_refused (h : (Call.openPath path).Refuses V) : (Call.openPath path).Refused V := by
  have hdone : ∀ {V'}, Opens V path (-1) V' → V' = V → (Call.openPath path).Refused V := by
    rintro _ ho rfl
    exact refused_of_acts (acts_openPath ho) failed_int fun _ => rfl
  obtain ⟨r, V', ho⟩ := opens_total V path
  cases ho with
  | missing hno => exact hdone (.missing hno) rfl
  | isDir hf hd => exact hdone (.isDir hf hd) rfl
  | file hf hd =>
    have hfd := (h _ _ _ hf).resolve_left hd
    have ho := Opens.file hf hd
    rw [openFd_of_none hfd] at ho
    exact hdone ho rfl

theorem create_refused (h : (Call.create path).Refuses V) : (Call.create path).Refused V := by
  have hdone : ∀ {V'}, Creates V path (-1) V' → V' = V → (Call.create path).Refused V := by
    rintro _ hc rfl
    exact refused_of_acts (acts_create hc) failed_int fun _ => rfl
  by_cases hn : ∃ dir t, V.New path dir t
  · obtain ⟨dir, t, hn⟩ := hn
    have hok := h dir t hn
    cases hf : V.freeSlot dir with
    | some i =>
      rw [hf] at hok
      have hc := Creates.entry hn (.slot hf) (slotLoc_of_freeSlot hf)
      rw [setSlot_slot hok.2, openFd_of_none hok.1] at hc
      exact hdone hc rfl
    | none =>
      rw [hf] at hok
      by_cases h0 : dir = 0
      · exact hdone (.noSlot hn (.rootFull hf h0)) rfl
      · obtain ⟨hfull, last, hlast⟩ := hok.resolve_left h0
        exact hdone (.noSlot hn (.diskFull hf h0 hlast hfull)) rfl
  · exact hdone (.refused fun dir t ht => hn ⟨dir, t, ht⟩) rfl

theorem delete_refused (h : (Call.delete path).Refuses V) : (Call.delete path).Refused V := by
  have hdone : Deletes V path false V → (Call.delete path).Refused V := fun hd =>
    refused_of_acts ((acts_fat12Delete hd).bind (.pure _ _)) rfl fun _ => rfl
  by_cases hf : ∃ dir i e, V.Finds path dir i e
  · obtain ⟨dir, i, e, hf⟩ := hf
    exact hdone (.isDir hf (h dir i e hf))
  · exact hdone (.missing fun dir i e he => hf ⟨dir, i, e, he⟩)

theorem rename_refused {p q : Path} (h : (Call.rename p q).Refuses V) :
    (Call.rename p q).Refused V := by
  have hdone : Renames V p q false V → (Call.rename p q).Refused V := fun hr =>
    refused_of_acts ((acts_fat12Rename hr).bind (.pure _ _)) rfl fun _ => rfl
  by_cases hf : ∃ dir i e, V.Finds p dir i e
  · obtain ⟨dir, i, e, hf⟩ := hf
    exact hdone (.taken (h dir i e hf))
  · exact hdone (.missing fun dir i e he => hf ⟨dir, i, e, he⟩)

theorem rmdir_refused (h : (Call.rmdir path).Refuses V) : (Call.rmdir path).Refused V := by
  have hdone : Rmdirs V path false V → (Call.rmdir path).Refused V := fun hr =>
    refused_of_acts ((acts_fat12Rmdir hr).bind (.pure _ _)) rfl fun _ => rfl
  by_cases hf : ∃ dir i e, V.Finds path dir i e
  · obtain ⟨dir, i, e, hf⟩ := hf
    refine hdone (.kept hf ?_)
    by_cases hd : e.IsDir
    · exact .inr (h dir i e hf hd)
    · exact .inl hd
  · exact hdone (.missing fun dir i e he => hf ⟨dir, i, e, he⟩)

theorem mkdir_refused (hs : V.geo.fatSize < 2 ^ 16) (h : (Call.mkdir path).Refuses V) :
    (Call.mkdir path).Refused V := by
  have hdone : ∀ {V'}, Mkdirs V path false V' → (∀ l, V'.sector l = V.sector l) →
      (Call.mkdir path).Refused V := fun hm hsec =>
    refused_of_acts ((acts_fat12Mkdir hm).bind (.pure _ _)) rfl hsec
  by_cases hn : ∃ dir t, V.New path dir t
  · obtain ⟨dir, t, hn⟩ := hn
    cases hc : V.freeCluster with
    | none => exact hdone (.diskFull hc) fun _ => rfl
    | some c =>
      obtain ⟨hfull, hap, hfree, hblank, hout⟩ := h dir t c hn hc
      rw [← hap.freeSlot hs] at hfull
      have hback : ∀ l, ((V.takeDir c).fatSet c fat12Free).sector l = V.sector l := by
        intro l
        rw [hfree.rollback, hblank.zeroCluster]
      by_cases h0 : dir = 0
      · exact hdone (.noSlot hn hc (.rootFull hfull h0)) hback
      · obtain ⟨hlast, last, hl⟩ := hout.resolve_left h0
        have hnone := takeDir_full hs hap.clear hblank.unused hfree hlast
        exact hdone (.noSlot hn hc (.diskFull hfull h0 (hap.lastLink hs h0 hl) hnone)) hback
  · exact hdone (.refused fun dir t ht => hn ⟨dir, t, ht⟩) fun _ => rfl

end Refuses

/-! ## Operations that do not -/

section Refused

variable {V V' : Volume} {path : Path}

open Volume

/-- What a name operation that fails without a change has done. -/
theorem Call.Refused.outcome {c : Call} (h : c.Refused V) (hn : c.IsName) :
    ∃ r V', NameOutcome V c r V' ∧ r.Failed ∧ ∀ l, V'.sector l = V.sector l := by
  obtain ⟨r, V', hacts, hf, hs⟩ := h
  obtain ⟨s, hret, rfl, -⟩ := hacts V.driver V.driver_working rfl
  obtain ⟨ho, -⟩ := nameOutcome_of_returns hn hret V.driver_working
  exact ⟨r, s.vol, ho, hf, hs⟩

theorem openPath_refuses (h : (Call.openPath path).Refused V) :
    (Call.openPath path).Refuses V := by
  intro dir i e hf
  by_cases hd : e.IsDir
  · exact .inl hd
  · obtain ⟨r, V', hacts, hfail, -⟩ := h
    obtain ⟨rfl, -⟩ := (acts_openPath (.file hf hd)).det hacts
    exact .inr (freeFd_of_failed hfail)

theorem delete_refuses (h : (Call.delete path).Refused V) : (Call.delete path).Refuses V := by
  intro dir i e hf
  obtain ⟨r, V', ho, hfail, -⟩ := h.outcome trivial
  cases ho with
  | delete hd =>
    cases hd with
    | missing hno => exact absurd hf (hno dir i e)
    | isDir hf' hd =>
      obtain ⟨rfl, rfl, rfl⟩ := hf'.det hf
      exact hd
    | file => cases hfail

theorem rename_refuses {p q : Path} (h : (Call.rename p q).Refused V) :
    (Call.rename p q).Refuses V := by
  intro dir i e hf d t hn
  obtain ⟨r, V', ho, hfail, -⟩ := h.outcome trivial
  cases ho with
  | rename hr =>
    cases hr with
    | missing hno => exact hno dir i e hf
    | taken hno => exact hno d t hn
    | done => cases hfail

theorem rmdir_refuses (h : (Call.rmdir path).Refused V) : (Call.rmdir path).Refuses V := by
  intro dir i e hf hdir
  obtain ⟨r, V', ho, hfail, hsec⟩ := h.outcome trivial
  cases ho with
  | rmdir hr =>
    cases hr with
    | missing hno => exact absurd hf (hno dir i e)
    | kept hf' hk =>
      obtain ⟨rfl, rfl, rfl⟩ := hf'.det hf
      exact hk.resolve_left (not_not_intro hdir)
    | @done dir i e V₁ hf' _ _ hfr =>
      have hnone : V₁.slotLoc dir i = none := by
        rwa [← Option.isNone_iff_eq_none, ← Option.isSome_eq_false_iff]
      rw [setSlot_of_none hnone] at hsec
      obtain ⟨t, -, hfind⟩ := hf'
      have hslot := (find_eq_some V hfind).2.1
      rw [slot, ← slotLoc_congr hfr.geo.1 hsec, hnone] at hslot
      cases hslot

section Sound

variable {P : ℕ → ℕ → Prop} (hP : V.Sound P)
include hP

theorem create_refuses (h : (Call.create path).Refused V) : (Call.create path).Refuses V := by
  intro dir t hn
  obtain ⟨r, V', ho, hfail, hsec⟩ := h.outcome trivial
  cases ho with
  | @create _ fd _ hc =>
    have hsame : ∀ {x}, V'.geo = V.geo → V'.fat x = V.fat x := fun hg =>
      fat_congr hg fun i _ => hsec _
    cases hc with
    | refused hno => exact absurd hn (hno dir t)
    | noSlot hn' hs =>
      obtain ⟨rfl, rfl⟩ := hn'.det hn
      cases hs with
      | rootFull hf h0 =>
        rw [hf]
        exact .inl h0
      | diskFull hf h0 hl hcl =>
        rw [hf]
        exact .inr ⟨hcl, _, hl⟩
    | noEntry hn' hs hl =>
      obtain ⟨rfl, rfl⟩ := hn'.det hn
      rcases hs.cases hP hn.dirAt.1 with ⟨rfl, hf⟩ | ⟨c, l, -, -, hx⟩
      · have hsome := slotLoc_of_freeSlot hf.symm
        rw [hl] at hsome
        cases hsome
      · exact absurd (hsame hx.frame.geo) hx.changed
    | @entry dir' i t' V₁ hn' hs hl =>
      obtain ⟨rfl, rfl⟩ := hn'.det hn
      have hfd := freeFd_of_failed hfail
      rw [openFd_of_none hfd] at hsec hsame
      rw [freeFd_congr ((setSlot_fds ..).trans (hs.keeps hP hn.dirAt.1).2.2.2.2.2)] at hfd
      rcases hs.cases hP hn.dirAt.1 with ⟨rfl, hf⟩ | ⟨c, l, -, -, hx⟩
      · rw [← hf]
        exact ⟨hfd, slot_of_setSlot hl hsec⟩
      · exact absurd (hsame ((setSlot_geo ..).trans hx.frame.geo))
          (hx.changed_setSlot hP hn.dirAt.1 _)

theorem mkdir_refuses (hs : V.geo.fatSize < 2 ^ 16) (h : (Call.mkdir path).Refused V) :
    (Call.mkdir path).Refuses V := by
  intro dir t c hn hc
  obtain ⟨hcd, hfree⟩ := freeCluster_spec hc
  have hap := hP.apart_free hcd hfree hn.dirAt.1
  have hP₀ : V.Sound noOthers := hP.forget fun _ _ hx => absurd hx id
  obtain ⟨r, V', ho, hfail, hsec⟩ := h.outcome trivial
  cases ho with
  | mkdir hm =>
    cases hm with
    | refused hno => exact absurd hn (hno dir t)
    | diskFull hno =>
      rw [hc] at hno
      cases hno
    | @noSlot dir' c' t' V₁ hn' hc' ht =>
      obtain ⟨rfl, rfl⟩ := hn'.det hn
      obtain rfl := Option.some.inj (hc.symm.trans hc')
      obtain ⟨hf, hout, rfl⟩ := ht.full
      have hcopies := freeInCopies_of_unchanged hP hs hcd
        (.of_uses (by rw [fatSet_geo, takeDir_geo]) fun l _ => hsec l)
      refine ⟨(hap.freeSlot hs).symm.trans hf, hap, hcopies, fun l hl => ?_, ?_⟩
      · rw [← hsec, hcopies.rollback, sector_zeroCluster hl]
      · by_cases h0 : dir = 0
        · exact .inl h0
        · obtain ⟨l, hl⟩ := hP.dirChain hn.dirAt.1
          replace hl := hl.resolve_left fun hl => h0 hl.1
          exact .inr ⟨(takeDir_full_iff hs hP.laid hcd).mp (hout.resolve_left h0), _,
            hl.lastLink hP.laid⟩
    | @entry dir' c' i t' V₁ hn' hc' ht =>
      obtain ⟨rfl, rfl⟩ := hn'.det hn
      obtain rfl := Option.some.inj (hc.symm.trans hc')
      have hnone : V₁.slotLoc dir i = none := by
        rwa [← Option.isNone_iff_eq_none, ← Option.isSome_eq_false_iff]
      rw [setSlot_of_none hnone] at hsec
      obtain ⟨-, -, -, -, hgeo, hchain, -⟩ :=
        mkdir_slot hP₀ (k := 0) (fun _ => id) hn.dirAt.1 hc ht
      have hsame : V₁.fat c = V.fat c := fat_congr hgeo fun _ _ => hsec _
      rw [hfree] at hsame
      exact absurd hsame (hchain.not_free (by simp))

end Sound

end Refused

/-- A search of an empty root directory finds nothing. -/
theorem find_empty (t : Name) : (rootVolume []).find 0 t = none := by
  cases hf : (rootVolume []).find 0 t with
  | none => rfl
  | some r =>
    obtain ⟨i, e⟩ := r
    obtain ⟨-, hs, hend, -⟩ := Volume.find_eq_some _ hf
    rw [rootVolume_slot] at hs
    split_ifs at hs
    obtain rfl := Option.some.inj hs
    exact absurd rfl hend

end WarkRune.Fat12

import WarkRune.Fat12.Fault
import WarkRune.Fat12.FreeChain
import WarkRune.Fat12.Rollback

/-!
# Failed name operations

`fat12_create` and `fat12_mkdir` change the volume before they know whether they succeed. A
directory is extended before it is known whether the slot returned exists, and the entry of a new
file is stored before a descriptor is looked for. Only `fat12_mkdir` takes a change back: it frees
the cluster of the new directory when no slot is found. `fat12_rmdir` frees the clusters of the
directory before it stores the mark.

## Main definitions

* `Call.Retreats V c`: on the volume, the name operation succeeds, fails early or takes its changes
  back

## Main results

* `failed_unchanged`: an operation that retreats changes nothing if it fails, and on a sound volume
  only such an operation does not
* `create_fullTable`: a failed `fat12_create` that leaves the new entry
-/

namespace WarkRune.Fat12

variable {V V' : Volume}

/-- **The name operation succeeds, or fails without a change.** A file is created in a free slot when
there is a descriptor for it, or when the slot holds the entry already. A directory that is extended
has the slot that is returned. The cluster that `fat12_mkdir` gives back was free in every copy of
the FAT, and used by nothing. The chain that `fat12_rmdir` frees is not met on the way to the slot
of the entry. -/
def Call.Retreats (V : Volume) : Call → Prop
  | .create path => ∀ dir t, V.New path dir t →
    match V.freeSlot dir with
    | some i => V.freeFd ≠ none ∨ V.slot dir i = some (newEntry t attrArch 0)
    | none => dir = 0 ∨ V.freeCluster = none ∨ V.freeFd ≠ none ∧ V.Grows dir
  | .mkdir path => ∀ dir t c, V.New path dir t → V.freeCluster = some c →
    V.freeSlot dir ≠ none ∧ V.Apart dir c ∨
      V.Unused c ∧ V.FreeInCopies c ∧ (dir = 0 ∨ V.geo.Clear c ∧ V.LastFree c) ∨
      V.Grows dir ∧ ¬ V.LastFree c
  | .rmdir path => ∀ dir i e, V.Finds path dir i e → e.IsDir → V.isEmpty e.firstCluster = true →
    dir = 0 ∨ (∀ x, V.Reached e.firstCluster x → V.geo.InFat x) ∧
      ∀ n < i / V.geo.perCluster, ∀ x, V.walk n dir = some x →
        V.geo.InFat x ∧ ¬ V.Reached e.firstCluster x
  | _ => True

/-! ## Nothing changed -/

namespace Volume

theorem Unchanged.refl (V : Volume) : V.Unchanged V :=
  ⟨fun _ _ _ _ => rfl, fun _ _ => rfl, fun _ _ _ => rfl⟩

theorem SameDisk.unchanged (h : V.SameDisk V') : V.Unchanged V' := by
  refine ⟨fun k _ n _ => ?_, fun _ _ => by rw [h.fat], fun d _ i => h.slot d i⟩
  obtain ⟨fds, rfl⟩ := h
  rfl

/-- Storing the entry that a slot holds changes nothing. -/
theorem setSlot_slot {dir i : ℕ} {e : DirEntry} (h : V.slot dir i = some e) :
    V.setSlot dir i e = V := by
  obtain ⟨p, hp, rfl⟩ := Option.map_eq_some_iff.mp h
  rw [V.setSlot_of_some hp, withEntry_entryOf, put_sector]

theorem openFd_of_none (h : V.freeFd = none) (c n p i : ℕ) : V.openFd c n p i = (-1, V) := by
  rw [openFd, h]

theorem freeFd_of_failed {c n p i : ℕ} (h : (V.openFd c n p i).1 < 0) : V.freeFd = none := by
  unfold openFd at h
  cases hf : V.freeFd with
  | none => rfl
  | some fd =>
    rw [hf] at h
    exact absurd h (by simp)

theorem freeFd_congr (h : V'.fds = V.fds) : V'.freeFd = V.freeFd := by
  unfold freeFd
  rw [h]

/-- A slot that is found free is a slot of the directory. -/
theorem slotLoc_of_freeSlot {dir i : ℕ} (h : V.freeSlot dir = some i) :
    (V.slotLoc dir i).isSome = true := by
  obtain ⟨-, ⟨e, he, -⟩, -⟩ := freeSlot_spec h
  obtain ⟨p, hp, -⟩ := Option.map_eq_some_iff.mp he
  rw [hp]
  rfl

end Volume

/-- Where no slot is returned, none was free and the directory could not be extended. -/
theorem TakesSlot.full {dir : ℕ} (h : TakesSlot V dir none V') :
    V.freeSlot dir = none ∧ (dir = 0 ∨ V.freeCluster = none) ∧ V' = V := by
  cases h with
  | rootFull hf h0 => exact ⟨hf, .inl h0, rfl⟩
  | diskFull hf _ _ hc => exact ⟨hf, .inr hc, rfl⟩

/-! ## Operations that retreat -/

section Retreats

variable {path : Path}

theorem create_unchanged {r : ℤ} (hc : Creates V path r V')
    (hok : (Call.create path).Retreats V) (hr : r < 0) : V.Unchanged V' := by
  cases hc with
  | refused => exact .refl V
  | noSlot hn hs =>
    obtain ⟨-, -, rfl⟩ := hs.full
    exact .refl _
  | @noEntry dir i t V₁ hn hs hl =>
    cases hs with
    | slot hf =>
      have := Volume.slotLoc_of_freeSlot hf
      rw [hl] at this
      cases this
    | extend hf hd hlast hcl =>
      have hok' := hok dir t hn
      simp only [hf, hd, hcl, false_or, reduceCtorEq] at hok'
      have := hok'.2.slotLoc hlast hcl
      rw [hl] at this
      cases this
  | @entry dir i t V₁ hn hs hl =>
    -- the entry is stored, so what failed is the descriptor
    have hfd := Volume.freeFd_of_failed hr
    rw [Volume.freeFd_congr (Volume.setSlot_fds ..)] at hfd
    cases hs with
    | slot hf =>
      have hok' := hok dir t hn
      simp only [hf, hfd, ne_eq, not_true_eq_false, false_or] at hok'
      rw [Volume.setSlot_slot hok']
      exact (Volume.sameDisk_openFd ..).unchanged
    | extend hf hd hlast hcl =>
      have hok' := hok dir t hn
      rw [Volume.freeFd_congr (Volume.linkAfter_fds ..)] at hfd
      simp only [hf, hd, hcl, hfd, false_or, reduceCtorEq, ne_eq, not_true_eq_false,
        false_and] at hok'

theorem mkdir_unchanged (hs : V.geo.fatSize < 2 ^ 16) (hm : Mkdirs V path false V')
    (hok : (Call.mkdir path).Retreats V) : V.Unchanged V' := by
  generalize hr : false = r at hm
  cases hm with
  | refused | diskFull => exact .refl V
  | @noSlot dir c t V₁ hn hc ht =>
    obtain ⟨hcd, -⟩ := Volume.freeCluster_spec hc
    obtain ⟨hf, hout, rfl⟩ := ht.full
    rcases hok dir t c hn hc with ⟨hslot, hap⟩ | ⟨hu, hfc, -⟩ | ⟨hg, hl⟩
    · rw [hap.freeSlot hs] at hf
      exact absurd hf hslot
    · exact hu.rollback hfc
    · rw [Volume.takeDir_full_iff hs hg.laid hcd] at hout
      exact absurd hout (not_or.mpr ⟨hg.ne_zero, hl⟩)
  | @entry dir c i t V₁ hn hc ht =>
    obtain ⟨hcd, hfree⟩ := Volume.freeCluster_spec hc
    -- the slot returned exists, so the operation does not fail
    have hl : (V₁.slotLoc dir i).isSome = true := by
      cases ht with
      | slot hf => exact Volume.slotLoc_of_freeSlot hf
      | extend hf hd hlast hcl =>
        rcases hok dir t c hn hc with ⟨hslot, hap⟩ | ⟨hu, hfc, h0⟩ | ⟨hg, -⟩
        · rw [hap.freeSlot hs] at hf
          exact absurd hf hslot
        · obtain ⟨hclear, hlf⟩ := h0.resolve_left hd
          rw [Volume.takeDir_full hs hclear hu hfc hlf] at hcl
          cases hcl
        · exact (((hg.apart hcd hfree).grows hs hd).mpr hg).slotLoc hlast hcl
    rw [hl] at hr
    cases hr

theorem rmdir_unchanged (hs : V.geo.fatSize < 2 ^ 16) (hm : Rmdirs V path false V')
    (hok : (Call.rmdir path).Retreats V) : V.Unchanged V' := by
  generalize hr : false = r at hm
  cases hm with
  | missing | kept => exact .refl V
  | @done dir i e V₁ hf hd he hfr =>
    obtain ⟨t, -, hfind⟩ := id hf
    obtain ⟨-, hslot, -⟩ := Volume.find_eq_some V hfind
    have hloc : V₁.slotLoc dir i = V.slotLoc dir i := by
      rw [Volume.slotLoc_eq, Volume.slotLoc_eq, hfr.geo.1]
      congr 1
      unfold Volume.place
      rw [hfr.geo.1]
      split
      · rfl
      · next h0 =>
        obtain ⟨hin, hmiss⟩ := (hok dir i e hf hd he).resolve_left h0
        rw [Volume.walk_congr fun n hn x hx =>
          (hfr.fat hs hin (hmiss n hn x hx).1).2 (hmiss n hn x hx).2]
    have hsome : (V.slotLoc dir i).isSome = true := by
      rw [← Option.isSome_map, ← Volume.slot, hslot]
      rfl
    rw [hloc, hsome] at hr
    cases hr

theorem delete_unchanged (hm : Deletes V path false V') : V.Unchanged V' := by
  cases hm with
  | missing | isDir => exact .refl V

theorem rename_unchanged {q : Path} (hm : Renames V path q false V') : V.Unchanged V' := by
  cases hm with
  | missing | taken => exact .refl V

end Retreats

/-! ## Operations that do not -/

/-- Extending a directory takes a free cluster. -/
theorem Extends.changed {dir c : ℕ} {l : List ℕ} (hx : Extends V V' dir c l) :
    V'.fat c ≠ V.fat c := by
  rw [hx.free.2]
  exact hx.chain'.not_free (by simp)

section Sound

variable {path : Path} {P : ℕ → ℕ → Prop} (h : V.Sound P)
include h

/-- An entry stored in the extended directory does not give the cluster back. -/
theorem Extends.changed_setSlot {dir c i : ℕ} {l : List ℕ} (hx : Extends V V' dir c l)
    (hd : V.DirAt dir) (e : DirEntry) : (V'.setSlot dir i e).fat c ≠ V.fat c := by
  have hd' := (hx.sameLive h hd).dirAt.mpr hd
  rw [(hx.grow h hd).1.fat_setSlot hd' (by rw [hx.frame.geo]; exact hx.free.1.2)]
  exact hx.changed

theorem create_retreats {r : ℤ} (hc : Creates V path r V') (hu : r < 0 → V.Unchanged V') :
    (Call.create path).Retreats V := by
  cases hc with
  | refused hno => exact fun dir t hn => absurd hn (hno dir t)
  | noSlot hn hs =>
    intro dir t hn'
    obtain ⟨rfl, rfl⟩ := hn.det hn'
    obtain ⟨hf, hout, -⟩ := hs.full
    rw [hf]
    exact hout.imp_right .inl
  | @noEntry dir i t V₁ hn hs hl =>
    rcases hs.cases h hn.dirAt.1 with ⟨rfl, hf⟩ | ⟨c, l, -, -, hx⟩
    · have := Volume.slotLoc_of_freeSlot hf.symm
      rw [hl] at this
      cases this
    · exact absurd ((hu (by decide)).fat c hx.free.1.2) hx.changed
  | @entry dir i t V₁ hn hs hl =>
    have hslot : (V₁.slot dir i).isSome = true := by rwa [Volume.slot, Option.isSome_map]
    obtain ⟨hlive, h₁, -⟩ := hs.keeps h hn.dirAt.1
    have hd₁ := hlive.dirAt.mpr hn.dirAt.1
    obtain ⟨m, hm⟩ := h₁.dirChain hd₁
    have hfds : (V₁.setSlot dir i (newEntry t attrArch 0)).freeFd = V.freeFd := by
      rw [Volume.freeFd_congr (Volume.setSlot_fds ..), Volume.freeFd_congr (hs.keeps h
        hn.dirAt.1).2.2.2.2.2]
    intro dir' t' hn'
    obtain ⟨rfl, rfl⟩ := hn.det hn'
    by_cases hfd : V.freeFd = none
    · have hnone := Volume.openFd_of_none (hfds.trans hfd) 0 0 dir' i
      rw [hnone] at hu
      replace hu := hu (by simp)
      rcases hs.cases h hn.dirAt.1 with ⟨rfl, hf⟩ | ⟨c, l, -, -, hx⟩
      · rw [← hf]
        right
        have hself := hu.slot _ hn.dirAt.1 i
        rwa [Volume.slot_setSlot h.laid hm hslot hm fun _ _ _ => rfl, if_pos ⟨rfl, rfl⟩,
          eq_comm] at hself
      · exact absurd (hu.fat c hx.free.1.2) (hx.changed_setSlot h hn.dirAt.1 _)
    · rcases hs.cases h hn.dirAt.1 with ⟨rfl, hf⟩ | ⟨c, l, hi, -, hx⟩
      · rw [← hf]
        exact .inl hfd
      · obtain rfl := Option.some.inj hi
        rw [hx.full]
        exact .inr (.inr ⟨hfd, Volume.grows_of_extends h.laid hx hl⟩)

/-- Every copy had the entry of a cluster free that is given back without a change. -/
theorem freeInCopies_of_unchanged {c : ℕ} (hs : V.geo.fatSize < 2 ^ 16) (hc : V.geo.InData c)
    (hu : V.Unchanged ((V.takeDir c).fatSet c fat12Free)) : V.FreeInCopies c := by
  intro k hk
  have hin := h.laid.inFat hc.2
  apply Volume.copyEntry_eq_zero_iff.mpr
  intro j hj
  unfold Geometry.InFat at hin
  have hb : 12 * c + j < V.geo.fatSize * 512 * 8 := by omega
  have hgeo := V.takeDir_geo c
  have hset := Volume.fatBit_fatSet (V := V.takeDir c) (c := c) (v := fat12Free) (n := 12 * c + j)
    (by rwa [hgeo]) (by rw [hgeo]; exact h.laid.inFat hc.2) (k := k) (by rwa [hgeo])
    (by rwa [hgeo])
  rw [← hu.fatBit k (by omega) _ hb, hset, if_pos (by omega)]
  exact Nat.zero_testBit _

theorem mkdir_retreats (hs : V.geo.fatSize < 2 ^ 16) {r : Bool} (hm : Mkdirs V path r V')
    (hu : r = false → V.Unchanged V') : (Call.mkdir path).Retreats V := by
  cases hm with
  | refused hno => exact fun dir t c hn => absurd hn (hno dir t)
  | diskFull hc =>
    intro dir t c _ hc'
    rw [hc] at hc'
    cases hc'
  | @noSlot dir c t V₁ hn hc ht =>
    intro dir' t' c' hn' hc'
    obtain ⟨rfl, rfl⟩ := hn.det hn'
    obtain rfl := Option.some.inj (hc.symm.trans hc')
    obtain ⟨hcd, hfree⟩ := Volume.freeCluster_spec hc
    obtain ⟨-, hout, rfl⟩ := ht.full
    refine .inr (.inl ⟨h.unused hcd hfree, freeInCopies_of_unchanged h hs hcd (hu rfl), ?_⟩)
    exact hout.imp_right fun hnone =>
      ⟨h.laid.clear hcd, (Volume.takeDir_full_iff hs h.laid hcd).mp hnone⟩
  | @entry dir c i t V₁ hn hc ht =>
    intro dir' t' c' hn' hc'
    obtain ⟨rfl, rfl⟩ := hn.det hn'
    obtain rfl := Option.some.inj (hc.symm.trans hc')
    obtain ⟨hcd, hfree⟩ := Volume.freeCluster_spec hc
    have hap := h.apart_free hcd hfree hn.dirAt.1
    have h₀ : V.Sound Volume.noOthers := h.forget fun _ _ hx => absurd hx id
    obtain ⟨-, h₁, -⟩ := takeDir_keeps (k := 0) h₀ hc fun _ => id
    have hd₁ : (V.takeDir c).DirAt dir' := by
      obtain ⟨hslot, -⟩ := takeDir_keeps (k := 0) h₀ hc fun _ => id
      exact (Volume.SameLive.of_slot hslot).dirAt.mpr hn.dirAt.1
    cases hl : V₁.slotLoc dir' i with
    | none =>
      rw [hl, setSlot_of_none hl] at hu
      obtain ⟨-, -, -, -, -, hchain, -⟩ := mkdir_slot h₀ (k := 0) (fun _ => id) hn.dirAt.1 hc ht
      refine absurd ((hu rfl).fat c hcd.2) ?_
      rw [hfree]
      exact hchain.not_free (by simp)
    | some p =>
      rcases ht.cases h₁ hd₁ with ⟨rfl, hf⟩ | ⟨c₂, l, hi, hc₂, hx⟩
      · left
        rw [← hap.freeSlot hs, ← hf]
        exact ⟨Option.some_ne_none i, hap⟩
      · obtain rfl := Option.some.inj hi
        have h0 : dir' ≠ 0 := (hx.chain.ok_of_mem hx.chain.head_mem).ne_zero
        have hg := Volume.grows_of_extends h₁.laid hx (by rw [hl]; rfl)
        refine .inr (.inr ⟨(hap.grows hs h0).mp hg, fun hlf => ?_⟩)
        rw [(Volume.takeDir_full_iff hs h.laid hcd).mpr hlf] at hc₂
        cases hc₂

/-- On a sound volume `fat12_rmdir` finds the slot of the entry again. -/
theorem rmdir_retreats : (Call.rmdir path).Retreats V := by
  intro dir i e hf hdir _
  refine or_iff_not_imp_left.mpr fun h0 => ?_
  obtain ⟨hd, he, -⟩ := hf.live
  obtain ⟨m, hm⟩ := h.dirChain hd
  obtain ⟨l, hl⟩ := h.dirChain (he.dirAt hd hdir)
  replace hm := hm.resolve_left fun hm => h0 hm.1
  replace hl := hl.resolve_left fun hl => h.head_ne hd he hdir hl.1
  have hmem : ∀ x, V.Reached e.firstCluster x → x ∈ l := by
    intro x hx
    induction hx with
    | start _ => exact hl.head_mem
    | link _ hok ih =>
      refine hl.next_mem ih fun hstop => ?_
      simp only [fat12Bad, fat12Eoc] at hok hstop
      omega
  refine ⟨fun x hx => h.laid.inFat (hl.ok_of_mem (hmem x hx)).2, fun n _ x hx => ?_⟩
  rw [hm.walk] at hx
  have hxm := List.mem_of_getElem? hx
  refine ⟨h.laid.inFat (hm.ok_of_mem hxm).2, fun hr => ?_⟩
  have hsame := h.apart hd (he.dirAt hd hdir) (.inr hm) (.inr hl) hxm (hmem x hr)
  exact h.head_ne_self hd he hdir hsame.symm

end Sound

end WarkRune.Fat12

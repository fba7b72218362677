import WarkRune.Fat12.Subdir

/-!
# The slots of a directory as an array

A directory has the entries of the root directory, or those of the clusters of its chain.
`dir_read_entry` and `dir_write_entry` each compute the cluster, the sector and the position of a
slot, and they agree: a slot written is read back, and the other slots are read as before.

## Main definitions

* `Volume.slotCount V dir l`: the number of slots of a directory with the clusters `l`

## Main results

* `dirSlots_array`: the law of an array, for the two functions on a working disk
-/

namespace WarkRune.Fat12

namespace Volume

variable {V : Volume} {dir : ℕ} {l : List ℕ}

/-- The number of slots of a directory with the clusters `l`. -/
def slotCount (V : Volume) (dir : ℕ) (l : List ℕ) : ℕ :=
  if dir = 0 then V.geo.rootEntries else l.length * V.geo.perCluster

/-- A directory has the slots in front of its end. -/
theorem DirChain.slot_isSome (hg : V.geo.Laid) (hl : V.DirChain dir l) (i : ℕ) :
    (V.slot dir i).isSome = decide (i < V.slotCount dir l) := by
  apply Bool.eq_iff_iff.mpr
  rw [decide_eq_true_iff, slotCount]
  rcases hl with ⟨rfl, -⟩ | hl
  · rw [slot_eq, Option.isSome_map, place, if_pos rfl, if_pos rfl]
    split_ifs with hi
    · exact iff_of_true rfl hi
    · exact iff_of_false Bool.false_ne_true hi
  · rw [if_neg (hl.ok_of_mem hl.head_mem).ne_zero]
    exact hl.slot_isSome hg

end Volume

open Volume in
/-- **The law of an array**: in the root directory and in every subdirectory, the two functions
return false for the indices at or past the end. In front of it, a slot written is read back, the
other slots are read as before, and only the sector of the slot changes. -/
theorem dirSlots_array {V : Volume} (hacc : V.geo.Accepted)
    (hcopies : V.geo.numFats = 1 ∨ V.geo.numFats = 2) (hfits : V.geo.FatFits) {dir : ℕ}
    {l : List ℕ} (hl : V.DirChain dir l) (i : ℕ) (e : DirEntry) :
    (∃ x, Acts (dirReadEntry dir i) V x V ∧ (x.isSome = true ↔ i < V.slotCount dir l)) ∧
    ∃ V', Acts (dirWriteEntry dir i e) V (decide (i < V.slotCount dir l)) V' ∧
      V'.geo = V.geo ∧ V'.fds = V.fds ∧
      (V.slotCount dir l ≤ i → V' = V) ∧
      (i < V.slotCount dir l →
        Acts (dirReadEntry dir i) V' (some e) V' ∧
        (∀ j ≠ i, ∃ x, Acts (dirReadEntry dir j) V x V ∧ Acts (dirReadEntry dir j) V' x V') ∧
        ∃ lba pos, V.slotLoc dir i = some (lba, pos) ∧
          ∀ k, k % 2 ^ 28 ≠ lba % 2 ^ 28 → V'.sector k = V.sector k) := by
  have hg := hacc.laid (by omega) hfits
  have hsome := hl.slot_isSome hg i
  have hloc : (V.slotLoc dir i).isSome = decide (i < V.slotCount dir l) := by
    rw [← hsome, slot, Option.isSome_map]
  refine ⟨⟨V.slot dir i, acts_dirReadEntry V dir i, by rw [hsome, decide_eq_true_iff]⟩,
    V.setSlot dir i e, ?_, V.setSlot_geo dir i e, V.setSlot_fds dir i e, fun hi => ?_, fun hi => ?_⟩
  · rw [← hloc]
    exact acts_dirWriteEntry V dir i e
  · -- past the end nothing is stored
    rw [decide_eq_false (Nat.not_lt.mpr hi), Option.isSome_eq_false_iff, Option.isNone_iff_eq_none]
      at hloc
    rw [setSlot, hloc]
  · have hi' : (V.slot dir i).isSome = true := by rw [hsome, decide_eq_true hi]
    have hslot := slot_setSlot hg (e := e) hl hi' hl (fun _ _ _ => rfl)
    refine ⟨?_, fun j hj => ⟨V.slot dir j, acts_dirReadEntry V dir j, ?_⟩, ?_⟩
    · have hread := acts_dirReadEntry (V.setSlot dir i e) dir i
      rwa [hslot, if_pos ⟨rfl, rfl⟩] at hread
    · have hread := acts_dirReadEntry (V.setSlot dir i e) dir j
      rwa [hslot, if_neg fun h => hj h.2] at hread
    · rw [decide_eq_true hi] at hloc
      obtain ⟨⟨lba, pos⟩, hp⟩ := Option.isSome_iff_exists.mp hloc
      refine ⟨lba, pos, hp, fun k hk => ?_⟩
      rw [setSlot_of_some V hp]
      exact V.sector_put_of_ne _ _ hk

/-- The law at the last slot of a subdirectory of one cluster. -/
theorem dirSlots_array_last : ∃ V', Acts (dirWriteEntry 2 15 .zero) (subdirVolume 0x0F) true V' ∧
    Acts (dirReadEntry 2 15) V' (some .zero) V' := by
  have hwf := subdirVolume_wellFormed (b := 0x0F) (by decide)
  obtain ⟨-, V', hw, -, -, -, h⟩ := dirSlots_array hwf.accepted hwf.copies hwf.fatFits
    (.inr (subdirVolume_chain 0x0F)) 15 .zero
  exact ⟨V', hw, (h (by decide)).1⟩

end WarkRune.Fat12

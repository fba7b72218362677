import WarkRune.Machine.Run
import WarkRune.Memory.Paging

/-!
# The page tables implement the mapping

A caller thinks of the page tables as a map from pages to frames and permissions, changed by the
latest `paging_map` or `paging_unmap` of the page. The processor's walk finds that map, one case
apart: the directory entry is created without the user bit, so the first mapping of a 4 MB range
is not accessible to the user even when it asks for it.

## Main definitions

* `PagingCall`, `PageTables.call`: the calls as a machine
* `latest`: the map a caller thinks of
* `Implements`: the walk and `paging_get_physical` find it
* `Grants`: a mapping for the user is not the first of its range

## Main results

* `implements_iff`: the walk finds the map throughout a run exactly when no mapping for the user is
  the first of its range
-/

namespace WarkRune.Memory

open Function (update)
open Machine (after Admits both)

/-- A call on the page tables. -/
inductive PagingCall
  | map (virt phys flags : BitVec 32)
  | unmap (virt : BitVec 32)

def PageTables.call (s : PageTables) : PagingCall → PageTables
  | .map virt phys flags => pagingMap virt phys flags s
  | .unmap virt => pagingUnmap virt s

/-- The frame and the permissions of the latest `paging_map` of a page that no `paging_unmap`
followed. -/
def latest (m : ℕ → Option Translation) : PagingCall → ℕ → Option Translation
  | .map virt phys flags => update m (pageOf virt)
    (some ⟨phys &&& 0xFFFFF000#32, flags &&& pageUser ≠ 0, flags &&& pageWrite ≠ 0⟩)
  | .unmap virt => update m (pageOf virt) none

/-- **The walk of every address finds the map**, and `paging_get_physical` returns its address. -/
def Implements (p : PageTables × (ℕ → Option Translation)) : Prop :=
  ∀ virt, p.1.walk virt = p.2 (pageOf virt) ∧
    ∀ t, p.1.walk virt = some t → pagingGetPhysical virt p.1 = t.frame ||| virt &&& 0xFFF#32

/-- A mapping for the user is made where the directory entry is present already. -/
def Grants (s : PageTables) : PagingCall → Prop
  | .map virt _ flags =>
    flags &&& pageUser ≠ 0 → s.directory (dirIdx virt) &&& pagePresent ≠ 0
  | .unmap _ => True

/-- What a table entry says of its page. -/
def entryTranslation (w : BitVec 32) : Option Translation :=
  if w &&& pagePresent = 0 then none
  else some ⟨w &&& 0xFFFFF000#32, w &&& pageUser ≠ 0, w &&& pageWrite ≠ 0⟩

theorem entryTranslation_zero : entryTranslation 0 = none := if_pos (by decide)

theorem mapWord_user {phys flags : BitVec 32} :
    mapWord phys flags &&& pageUser = 0 ↔ flags &&& pageUser = 0 := by
  rw [and_pageUser, and_pageUser, getLsbD_mapWord (by decide)]
  exact Iff.rfl

theorem entryTranslation_mapWord (phys flags : BitVec 32) :
    entryTranslation (mapWord phys flags) =
      some ⟨phys &&& 0xFFFFF000#32, flags &&& pageUser ≠ 0, flags &&& pageWrite ≠ 0⟩ := by
  have hwrite : mapWord phys flags &&& pageWrite = 0 ↔ flags &&& pageWrite = 0 := by
    rw [and_pageWrite, and_pageWrite, getLsbD_mapWord (by decide)]
    exact Iff.rfl
  rw [entryTranslation, if_neg mapWord_present, mapWord_frame]
  simp only [ne_eq, mapWord_user, hwrite]

/-- The tables are linked, the entries say what the map says, and directory entries over pages for
the user have the user bit. -/
structure Tracks (s : PageTables) (m : ℕ → Option Translation) : Prop where
  linked : s.Linked
  entries : ∀ virt, entryTranslation (s.entry virt) = m (pageOf virt)
  user : ∀ virt, s.entry virt &&& pageUser ≠ 0 → s.directory (dirIdx virt) &&& pageUser ≠ 0

/-- The directory entry over a page after a mapping that grants what it says. -/
theorem mappedDir_user {s : PageTables} {virt flags : BitVec 32} (hg : flags &&& pageUser ≠ 0 →
    s.directory (dirIdx virt) &&& pagePresent ≠ 0) (hu : flags &&& pageUser ≠ 0) (d : ℕ) :
    mappedDir d flags (s.directory (dirIdx virt)) &&& pageUser ≠ 0 := by
  unfold mappedDir
  rw [if_neg (hg hu)]
  split_ifs with hup
  · rw [Ne, and_pageUser, BitVec.getLsbD_or]
    simp [pageUser]
  · exact fun hno => hup ⟨hu, hno⟩

/-- A directory entry with the user bit keeps it. -/
theorem mappedDir_keeps {s : PageTables} {virt flags : BitVec 32} (d : ℕ)
    (hu : s.directory (dirIdx virt) &&& pageUser ≠ 0)
    (hp : s.directory (dirIdx virt) &&& pagePresent ≠ 0) :
    mappedDir d flags (s.directory (dirIdx virt)) &&& pageUser ≠ 0 := by
  unfold mappedDir
  rw [if_neg hp, if_neg fun hup => hu hup.2]
  exact hu

/-- A directory entry is created without the user bit. -/
theorem mappedDir_fresh {d : ℕ} {flags pde : BitVec 32} (hp : pde &&& pagePresent = 0) :
    mappedDir d flags pde &&& pageUser = 0 := by
  rw [mappedDir, if_pos hp, and_pageUser, BitVec.getLsbD_or, BitVec.getLsbD_or,
    getLsbD_pageTableAddr (by decide)]
  decide

namespace Tracks

variable {s : PageTables} {m : ℕ → Option Translation} (h : Tracks s m)
include h

theorem implements : Implements (s, m) := by
  intro virt
  have hwalk : s.walk virt = m (pageOf virt) := by
    have huser : (s.directory (dirIdx virt) &&& pageUser ≠ 0 ∧ s.entry virt &&& pageUser ≠ 0) ↔
        s.entry virt &&& pageUser ≠ 0 := and_iff_right_of_imp (h.user virt)
    rw [h.linked.walk_eq, ← h.entries virt, entryTranslation, decide_eq_decide.mpr huser]
  refine ⟨hwalk, fun t ht => ?_⟩
  rw [h.linked.walk_eq] at ht
  rw [h.linked.getPhysical]
  split_ifs at ht ⊢
  rw [← Option.some.inj ht]

theorem map {virt phys flags : BitVec 32}
    (hg : Grants s (.map virt phys flags)) :
    Tracks (pagingMap virt phys flags s) (latest m (.map virt phys flags)) := by
  refine ⟨h.linked.map, fun v => ?_, fun v hv => ?_⟩
  · rw [PageTables.entry_map, latest]
    by_cases hpage : pageOf v = pageOf virt
    · rw [if_pos hpage, hpage, Function.update_self, entryTranslation_mapWord]
    · rw [if_neg hpage, Function.update_of_ne hpage, h.entries v]
  · rw [PageTables.entry_map] at hv
    rw [PageTables.directory_map]
    split_ifs at hv with hpage
    · rw [if_pos (pageOf_eq_iff.mp hpage).1, (pageOf_eq_iff.mp hpage).1]
      have hu : flags &&& pageUser ≠ 0 := by
        rwa [Ne, mapWord_user] at hv
      exact mappedDir_user hg hu _
    · have huser := h.user v hv
      split_ifs with hd
      · have hpres : s.directory (dirIdx v) &&& pagePresent ≠ 0 := by
          intro habs
          rw [h.linked.entry_eq_zero habs] at hv
          exact hv (by decide)
        rw [hd] at huser hpres ⊢
        exact mappedDir_keeps _ huser hpres
      · exact huser

theorem unmap {virt : BitVec 32} :
    Tracks (pagingUnmap virt s) (latest m (.unmap virt)) := by
  have hdir : (pagingUnmap virt s).directory = s.directory := by
    unfold pagingUnmap
    dsimp only
    split_ifs <;> rfl
  refine ⟨h.linked.unmap, fun v => ?_, fun v hv => ?_⟩
  · rw [h.linked.entry_unmap, latest]
    by_cases hpage : pageOf v = pageOf virt
    · rw [if_pos hpage, hpage, Function.update_self, entryTranslation_zero]
    · rw [if_neg hpage, Function.update_of_ne hpage, h.entries v]
  · rw [h.linked.entry_unmap] at hv
    rw [hdir]
    split_ifs at hv
    · exact absurd (by decide) hv
    · exact h.user v hv

/-- A call that grants what it says keeps the tables and the map together. -/
theorem call {c : PagingCall} (hg : Grants s c) : Tracks (s.call c) (latest m c) := by
  cases c with
  | map virt phys flags => exact h.map hg
  | unmap virt => exact h.unmap

/-- A mapping for the user under a new directory entry is not accessible to the user. -/
theorem not_implements {c : PagingCall} (hg : ¬ Grants s c) :
    ¬ Implements (s.call c, latest m c) := by
  cases c with
  | unmap virt => exact absurd trivial hg
  | map virt phys flags =>
    obtain ⟨hu, habs⟩ : flags &&& pageUser ≠ 0 ∧
        ¬ s.directory (dirIdx virt) &&& pagePresent ≠ 0 := Classical.not_imp.mp hg
    intro himp
    have hwalk := (himp virt).1
    dsimp only at hwalk
    have hdir : (pagingMap virt phys flags s).directory (dirIdx virt) &&& pageUser = 0 := by
      rw [PageTables.directory_map, if_pos rfl]
      exact mappedDir_fresh (not_not.mp habs)
    rw [PageTables.call, h.linked.map.walk_eq, PageTables.entry_map, if_pos rfl,
      if_neg mapWord_present, latest, Function.update_self] at hwalk
    have huser := congrArg Translation.user (Option.some.inj hwalk)
    simp only [hdir, hu, ne_eq, not_true_eq_false, false_and, decide_false,
      not_false_eq_true, decide_true] at huser
    cases huser

end Tracks

theorem tracks_cleared (s : PageTables) : Tracks (clearedTables s) fun _ => none := by
  have hentry virt : (clearedTables s).entry virt = 0 :=
    if_pos ⟨dirIdx_lt virt, tableIdx_lt virt⟩
  refine ⟨PageTables.linked_cleared s, fun virt => ?_, fun virt hu => ?_⟩
  · rw [hentry, entryTranslation_zero]
  · rw [hentry] at hu
    exact absurd (by decide) hu

/-- **The walk finds the map throughout a run exactly when every mapping for the user is made in a
4 MB range whose directory entry is present.** -/
theorem implements_iff (s : PageTables) (cs : List PagingCall) :
    (∀ js, js <+: cs →
      Implements (after (both PageTables.call latest) (clearedTables s, fun _ => none) js)) ↔
      Admits PageTables.call Grants (clearedTables s) cs := by
  have hvisits : (∀ js, js <+: cs →
      Implements (after (both PageTables.call latest) (clearedTables s, fun _ => none) js)) ↔
      Admits (both PageTables.call latest) (fun p c => Grants p.1 c)
        (clearedTables s, fun _ => none) cs :=
    Machine.visits_iff (I := fun p : PageTables × (ℕ → Option Translation) => Tracks p.1 p.2)
      (fun p c hp hg => hp.call hg)
      (fun p hp => hp.implements) (fun p c hp hg => hp.not_implements hg) (tracks_cleared s)
  exact hvisits.trans Machine.admits_both

/-- The first mapping of a 4 MB range for the user is not accessible to the user. -/
theorem implements_firstUser : ¬ Implements
    (after (both PageTables.call latest) (clearedTables ⟨fun _ => 0, fun _ _ => 0⟩, fun _ => none)
      [.map 0x400000 0x100000 (pagePresent ||| pageWrite ||| pageUser)]) := by
  refine (tracks_cleared _).not_implements fun hg => ?_
  have hp := hg (by decide)
  rw [PageTables.directory_cleared _ (dirIdx_lt _)] at hp
  exact hp (by decide)

end WarkRune.Memory

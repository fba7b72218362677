import WarkRune.Ipc.Descriptors

/-!
# Descriptors that are closed again

A file that is opened and closed leaves the tables as they were. A pipe leaves them so up to the
flag of a pipe that is not in use.

## Main definitions

* `Tables.SameOpen`: the same descriptors, pipes and FAT12 descriptors are in use

## Main results

* `Tables.close_withFile`, `Tables.Consistent.close_withPipe`: what is taken and closed again
* `SameOpen.free`: the next descriptor, pipe and FAT12 descriptor to be taken are the same
-/

namespace WarkRune.Ipc

open Fat12 (maxFds)
open Function (update update_self update_of_ne)
open Links (Held)

namespace Tables

/-- The same descriptors, pipes and FAT12 descriptors are in use. -/
structure SameOpen (T T' : Tables) : Prop where
  refs : T'.refs = T.refs
  pipeUsed : T'.pipeUsed = T.pipeUsed
  fatUsed : T'.fatUsed = T.fatUsed

variable {init : ℕ → Bool} {T T' : Tables} {fd k pid rfd wfd : ℕ}

theorem SameOpen.refl (T : Tables) : T.SameOpen T := ⟨rfl, rfl, rfl⟩

theorem SameOpen.trans {U : Tables} (h : T.SameOpen T') (h' : T'.SameOpen U) : T.SameOpen U :=
  ⟨h'.refs.trans h.refs, h'.pipeUsed.trans h.pipeUsed, h'.fatUsed.trans h.fatUsed⟩

/-- The same descriptors stay in use where the same one is closed. -/
theorem SameOpen.close (h : T.SameOpen T') (fd : ℕ) : (T.close fd).SameOpen (T'.close fd) := by
  obtain ⟨refs, pipeUsed, writeClosed, fatUsed⟩ := T
  obtain ⟨refs', pipeUsed', writeClosed', fatUsed'⟩ := T'
  obtain ⟨rfl, rfl, rfl⟩ := h
  exact ⟨rfl, rfl, rfl⟩

/-- **A file that is closed again.** -/
theorem close_withFile (hfd : T.refs fd = none) (hfree : T.fatUsed k = false) :
    (T.withFile fd k).close fd = T := by
  have href : (T.withFile fd k).refs fd = some (.file k) := update_self ..
  refine Tables.ext ?_ ?_ ?_ ?_
  · simp only [Tables.close, withFile, Function.update_idem]
    rw [← hfd, Function.update_eq_self]
  · simp only [Tables.close, href]
    rfl
  · simp only [Tables.close, href]
    rfl
  · simp only [Tables.close, href, Int.toNat_natCast]
    simp only [withFile, Function.update_idem]
    rw [← hfree, Function.update_eq_self]

/-- The write end of a pipe is closed while the read end is there. -/
theorem close_writer (hfd : T.refs fd = some (.writer pid)) (hheld : Held T.refs (.reader pid)) :
    (T.close fd).pipeUsed = T.pipeUsed ∧ (T.close fd).fatUsed = T.fatUsed := by
  constructor
  · simp only [Tables.close, hfd, Int.toNat_natCast, hheld, decide_true, Bool.and_true,
      Function.update_eq_self]
  · simp only [Tables.close, hfd]

/-- The read end of a pipe is closed as the last one. -/
theorem close_reader (hfd : T.refs fd = some (.reader pid)) (hheld : ¬ Held T.refs (.writer pid)) :
    (T.close fd).pipeUsed = update T.pipeUsed pid false ∧ (T.close fd).fatUsed = T.fatUsed := by
  constructor
  · simp only [Tables.close, hfd, Int.toNat_natCast, hheld, decide_false, Bool.and_false]
  · simp only [Tables.close, hfd]

/-- **A pipe that is closed again**, its write end first. -/
theorem Consistent.close_withPipe (h : T.Consistent init) (hr : T.refs rfd = none)
    (hw : T.refs wfd = none) (hne : rfd ≠ wfd) (hpid : pid < pipeMax)
    (hfree : T.pipeUsed pid = false) :
    T.SameOpen (((T.withPipe pid rfd wfd).close wfd).close rfd) := by
  have hnot : ¬ Held T.refs (.writer pid) := fun ht =>
    absurd ((h.pipeUsed pid hpid).mpr (.inr ht)) (by rw [hfree]; exact Bool.false_ne_true)
  have hreader : Held (T.withPipe pid rfd wfd).refs (.reader pid) := by
    refine ⟨rfd, ?_⟩
    change update (update T.refs rfd (some (Target.reader pid))) wfd _ rfd = _
    rw [update_of_ne hne, update_self]
  obtain ⟨hpipe₁, hfat₁⟩ := close_writer
    (show (T.withPipe pid rfd wfd).refs wfd = some (.writer pid) from update_self ..) hreader
  have hrefs : ((T.withPipe pid rfd wfd).close wfd).refs =
      update T.refs rfd (some (.reader pid)) := by
    change update (update (update T.refs rfd (some (Target.reader pid))) wfd _) wfd none = _
    rw [Function.update_idem]
    refine Function.update_eq_self_iff.mpr ?_
    rw [update_of_ne hne.symm, hw]
  have hgone : ¬ Held ((T.withPipe pid rfd wfd).close wfd).refs (.writer pid) := by
    rw [hrefs]
    rintro ⟨j, hj⟩
    by_cases he : j = rfd
    · rw [he, update_self] at hj
      cases hj
    · rw [update_of_ne he] at hj
      exact hnot ⟨j, hj⟩
  obtain ⟨hpipe₂, hfat₂⟩ := close_reader
    (show ((T.withPipe pid rfd wfd).close wfd).refs rfd = some (.reader pid) by
      rw [hrefs, update_self]) hgone
  refine ⟨?_, ?_, hfat₂.trans hfat₁⟩
  · change update ((T.withPipe pid rfd wfd).close wfd).refs rfd none = T.refs
    rw [hrefs, Function.update_idem, ← hr, Function.update_eq_self]
  · rw [hpipe₂, hpipe₁]
    change update (update T.pipeUsed pid true) pid false = T.pipeUsed
    rw [Function.update_idem, ← hfree, Function.update_eq_self]

end Tables

/-! ## What is taken next -/

variable {s s' : State}

theorem used_iff_refs {fd : ℕ} (hfd : fd < fdMax) :
    (s.fds fd).used = true ↔ s.refs fd ≠ none := by
  rw [refs_of_lt hfd, FileDesc.target]
  cases (s.fds fd).used <;> simp

/-- **The next descriptor, pipe and FAT12 descriptor** are those that would have been taken. -/
theorem SameOpen.free (h : s.tables.SameOpen s'.tables) : s'.allocFd = s.allocFd ∧
    s'.allocPipe = s.allocPipe ∧ s'.fat.vol.freeFd = s.fat.vol.freeFd := by
  have hrefs : s'.refs = s.refs := h.refs
  refine ⟨?_, ?_, ?_⟩
  · rw [State.allocFd, State.allocFd, ← List.head?_filter, ← List.head?_filter]
    refine congrArg List.head? (List.filter_congr fun fd hfd => ?_)
    have hlt : fd < fdMax := (List.mem_range'_1.mp hfd).2
    have hused : (s'.fds fd).used = (s.fds fd).used := by
      rw [Bool.eq_iff_iff, used_iff_refs hlt, used_iff_refs hlt, hrefs]
    rw [hused]
  · have hused : ∀ pid, (s'.pipes pid).used = (s.pipes pid).used := congrFun h.pipeUsed
    simp only [State.allocPipe, hused]
  · have hused : ∀ k, (s'.fat.vol.fds k).used = (s.fat.vol.fds k).used := congrFun h.fatUsed
    simp only [Fat12.Volume.freeFd, hused]

end WarkRune.Ipc

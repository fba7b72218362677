import WarkRune.Ipc.Fd
import WarkRune.Links.Holders

/-!
# The tables in step

What the descriptors refer to, which pipes and FAT12 descriptors are in use and which pipes have
lost their writer: this is what the descriptor layer has to keep in step. A descriptor that is taken
or closed changes all of them together.

## Main definitions

* `Target`: what a descriptor refers to
* `Tables`: the references and the flags of the tables
* `Tables.withFile`, `Tables.withPipe`, `Tables.close`: a descriptor is taken for a file, two are
  taken for a pipe, one is closed
* `Tables.Consistent`: the flags agree with the references

## Main results

* `Consistent.withFile`, `Consistent.withPipe`, `Consistent.close`: they go on agreeing
* `Consistent.free`: once nothing is referred to, nothing is in use
-/

namespace WarkRune.Ipc

open Function (update update_self update_of_ne)
open Links (Held Exclusive held_take update_none_of_none)
open Fat12 (maxFds)

/-- What a descriptor refers to. -/
inductive Target
  | console (type : FDType)
  /-- A FAT12 descriptor. -/
  | file (fatFd : ℤ)
  /-- The read end of a pipe. -/
  | reader (pid : ℤ)
  /-- The write end of a pipe. -/
  | writer (pid : ℤ)
  deriving DecidableEq

/-- The references of the descriptors, and the flags of the other tables. -/
@[ext] structure Tables where
  refs : ℕ → Option Target
  pipeUsed : ℕ → Bool
  writeClosed : ℕ → Bool
  fatUsed : ℕ → Bool

namespace Tables

/-- The descriptor `fd` is taken for the FAT12 descriptor `k`. -/
def withFile (T : Tables) (fd k : ℕ) : Tables where
  refs := update T.refs fd (some (.file k))
  pipeUsed := T.pipeUsed
  writeClosed := T.writeClosed
  fatUsed := update T.fatUsed k true

/-- The descriptors `rfd` and `wfd` are taken for the ends of a pipe. -/
def withPipe (T : Tables) (pid rfd wfd : ℕ) : Tables where
  refs := update (update T.refs rfd (some (.reader pid))) wfd (some (.writer pid))
  pipeUsed := update T.pipeUsed pid true
  writeClosed := update T.writeClosed pid false
  fatUsed := T.fatUsed

open Classical in
/-- The descriptor `fd` is closed: a FAT12 descriptor is closed with it, a pipe loses its writer,
and is freed with its last end. -/
noncomputable def close (T : Tables) (fd : ℕ) : Tables where
  refs := update T.refs fd none
  pipeUsed := match T.refs fd with
    | some (.reader n) => update T.pipeUsed n.toNat
        (T.pipeUsed n.toNat && decide (Held T.refs (.writer n)))
    | some (.writer n) => update T.pipeUsed n.toNat
        (T.pipeUsed n.toNat && decide (Held T.refs (.reader n)))
    | _ => T.pipeUsed
  writeClosed := match T.refs fd with
    | some (.writer n) => update T.writeClosed n.toNat true
    | _ => T.writeClosed
  fatUsed := match T.refs fd with
    | some (.file n) => update T.fatUsed n.toNat false
    | _ => T.fatUsed

/-- **The tables are in step.** The FAT12 descriptors `init` were in use before the layer was. -/
structure Consistent (init : ℕ → Bool) (T : Tables) : Prop where
  /-- A pipe has at most one reader and one writer, and no FAT12 descriptor is shared. -/
  exclusive : Exclusive T.refs
  /-- A file is a FAT12 descriptor that the layer has opened. -/
  file : ∀ {n : ℤ}, Held T.refs (.file n) → ∃ k < maxFds, n = (k : ℕ) ∧ init k = false
  fatUsed : ∀ k, T.fatUsed k = true ↔ init k = true ∨ Held T.refs (.file k)
  pipe : ∀ {n : ℤ}, Held T.refs (.reader n) ∨ Held T.refs (.writer n) →
    ∃ pid < pipeMax, n = (pid : ℕ)
  /-- A pipe is in use exactly when a descriptor refers to it. -/
  pipeUsed : ∀ pid < pipeMax,
    T.pipeUsed pid = true ↔ Held T.refs (.reader pid) ∨ Held T.refs (.writer pid)
  /-- A pipe in use has lost its writer exactly when no descriptor is its write end. -/
  writeClosed : ∀ pid < pipeMax, T.pipeUsed pid = true →
    (T.writeClosed pid = true ↔ ¬ Held T.refs (.writer pid))

variable {init : ℕ → Bool} {T : Tables}

/-- A descriptor that refers to nothing is closed without a change. -/
theorem close_of_none {fd : ℕ} (h : T.refs fd = none) : T.close fd = T := by
  simp only [close, h, update_none_of_none h]

namespace Consistent

/-- **A descriptor is taken for a file.** -/
theorem withFile (h : T.Consistent init) {fd k : ℕ} (hfd : T.refs fd = none) (hk : k < maxFds)
    (hfree : T.fatUsed k = false) : (T.withFile fd k).Consistent init := by
  have hinit : init k = false := by
    by_contra hu
    rw [(h.fatUsed k).mpr (.inl (by simpa using hu))] at hfree
    cases hfree
  -- a slot in use has a descriptor or was in use from the start, and this one is free
  have hnew : ¬ Held T.refs (.file k) := fun hu => by
    rw [(h.fatUsed k).mpr (.inr hu)] at hfree
    cases hfree
  have hheld (u : Target) : Held (T.withFile fd k).refs u ↔ u = .file k ∨ Held T.refs u :=
    held_take hfd
  refine ⟨h.exclusive.take hnew, ?_, ?_, ?_, ?_, ?_⟩
  · intro n hn
    rcases (hheld _).mp hn with he | hn
    · exact ⟨k, hk, Target.file.inj he, hinit⟩
    · exact h.file hn
  · intro j
    rw [hheld, Target.file.injEq, Nat.cast_inj]
    by_cases hj : j = k
    · subst hj
      simp [Tables.withFile]
    · simp [Tables.withFile, hj, h.fatUsed]
  · intro n hn
    refine h.pipe (hn.imp ?_ ?_)
    · exact fun hr => ((hheld _).mp hr).resolve_left nofun
    · exact fun hw => ((hheld _).mp hw).resolve_left nofun
  · intro pid hpid
    simpa [hheld] using! h.pipeUsed pid hpid
  · intro pid hpid
    simpa [hheld] using! h.writeClosed pid hpid

/-- **Two descriptors are taken for a pipe.** -/
theorem withPipe (h : T.Consistent init) {pid rfd wfd : ℕ} (hr : T.refs rfd = none)
    (hw : T.refs wfd = none) (hne : rfd ≠ wfd) (hpid : pid < pipeMax)
    (hfree : T.pipeUsed pid = false) : (T.withPipe pid rfd wfd).Consistent init := by
  -- a pipe that is not used has no end that is held
  have hnew : ¬ (Held T.refs (.reader pid) ∨ Held T.refs (.writer pid)) := fun hu => by
    rw [(h.pipeUsed pid hpid).mpr hu] at hfree
    cases hfree
  obtain ⟨hnr, hnw⟩ := not_or.mp hnew
  have hw₁ : update T.refs rfd (some (.reader pid)) wfd = none := by
    rw [update_of_ne hne.symm, hw]
  -- what is held then: the two ends and what was held before
  have hheld (u : Target) : Held (T.withPipe pid rfd wfd).refs u ↔
      u = .writer pid ∨ u = .reader pid ∨ Held T.refs u :=
    (held_take hw₁).trans (or_congr_right (held_take hr))
  refine ⟨(h.exclusive.take hnr).take ?_, ?_, ?_, ?_, ?_, ?_⟩
  · rw [held_take hr]
    rintro (he | hu)
    · cases he
    · exact hnw hu
  · exact fun hn => h.file ((((hheld _).mp hn).resolve_left nofun).resolve_left nofun)
  · intro k
    simpa [hheld] using! h.fatUsed k
  · intro n hn
    rw [hheld, hheld] at hn
    rcases hn with (he | he | hu) | (he | he | hu)
    · cases he
    · exact ⟨pid, hpid, Target.reader.inj he⟩
    · exact h.pipe (.inl hu)
    · exact ⟨pid, hpid, Target.writer.inj he⟩
    · cases he
    · exact h.pipe (.inr hu)
  · intro j hj
    rw [hheld, hheld]
    by_cases he : j = pid
    · subst he
      simp [Tables.withPipe]
    · simp [Tables.withPipe, he, h.pipeUsed j hj]
  · intro j hj hu
    rw [hheld]
    by_cases he : j = pid
    · subst he
      simp [Tables.withPipe]
    · have hu' : T.pipeUsed j = true := (update_of_ne he ..).symm.trans hu
      simp [Tables.withPipe, he, h.writeClosed j hj hu']

open Classical in
/-- **A descriptor is closed.** -/
theorem close (h : T.Consistent init) (fd : ℕ) : (T.close fd).Consistent init := by
  cases ht : T.refs fd with
  | none => rwa [close_of_none ht]
  | some t =>
    have hheld (u : Target) : Held (T.close fd).refs u ↔ u ≠ t ∧ Held T.refs u :=
      h.exclusive.held_drop ht
    have hx : Exclusive (T.close fd).refs := h.exclusive.drop
    have hold {u : Target} (hu : Held (T.close fd).refs u) : Held T.refs u := ((hheld u).mp hu).2
    have hfile {n : ℤ} (hn : Held (T.close fd).refs (.file n)) := h.file (hold hn)
    have hpipe {n : ℤ} (hn : Held (T.close fd).refs (.reader n) ∨
        Held (T.close fd).refs (.writer n)) := h.pipe (hn.imp hold hold)
    cases t with
    | console ty =>
      have hp : (T.close fd).pipeUsed = T.pipeUsed := by simp only [Tables.close, ht]
      have hw : (T.close fd).writeClosed = T.writeClosed := by simp only [Tables.close, ht]
      have hf : (T.close fd).fatUsed = T.fatUsed := by simp only [Tables.close, ht]
      refine ⟨hx, hfile, ?_, hpipe, ?_, ?_⟩
      · simpa [hheld, hf] using h.fatUsed
      · simpa [hheld, hp] using h.pipeUsed
      · simpa [hheld, hp, hw] using h.writeClosed
    | file n =>
      obtain ⟨k, hk, rfl, hik⟩ := h.file ⟨fd, ht⟩
      have hp : (T.close fd).pipeUsed = T.pipeUsed := by simp only [Tables.close, ht]
      have hw : (T.close fd).writeClosed = T.writeClosed := by simp only [Tables.close, ht]
      have hf : (T.close fd).fatUsed = update T.fatUsed k false := by
        simp only [Tables.close, ht, Int.toNat_natCast]
      refine ⟨hx, hfile, ?_, hpipe, ?_, ?_⟩
      · intro j
        by_cases hj : j = k
        · subst hj
          simp [hheld, hf, hik]
        · simp [hheld, hf, hj, h.fatUsed]
      · simpa [hheld, hp] using h.pipeUsed
      · simpa [hheld, hp, hw] using h.writeClosed
    | reader n =>
      obtain ⟨pid, hpid, rfl⟩ := h.pipe (.inl ⟨fd, ht⟩)
      have hu : T.pipeUsed pid = true := (h.pipeUsed pid hpid).mpr (.inl ⟨fd, ht⟩)
      have hp : (T.close fd).pipeUsed = update T.pipeUsed pid (decide (Held T.refs (.writer pid))) := by
        simp only [Tables.close, ht, Int.toNat_natCast, hu, Bool.true_and]
      have hw : (T.close fd).writeClosed = T.writeClosed := by simp only [Tables.close, ht]
      have hf : (T.close fd).fatUsed = T.fatUsed := by simp only [Tables.close, ht]
      refine ⟨hx, hfile, ?_, hpipe, ?_, ?_⟩
      · simpa [hheld, hf] using h.fatUsed
      · intro j hj
        by_cases he : j = pid
        · subst he
          simp [hheld, hp]
        · simp [hheld, hp, he, h.pipeUsed j hj]
      · intro j hj hu'
        rw [hw, hheld, and_iff_right nofun]
        by_cases he : j = pid
        · subst he
          exact h.writeClosed j hj hu
        · rw [hp, update_of_ne he] at hu'
          exact h.writeClosed j hj hu'
    | writer n =>
      obtain ⟨pid, hpid, rfl⟩ := h.pipe (.inr ⟨fd, ht⟩)
      have hu : T.pipeUsed pid = true := (h.pipeUsed pid hpid).mpr (.inr ⟨fd, ht⟩)
      have hp : (T.close fd).pipeUsed = update T.pipeUsed pid (decide (Held T.refs (.reader pid))) := by
        simp only [Tables.close, ht, Int.toNat_natCast, hu, Bool.true_and]
      have hw : (T.close fd).writeClosed = update T.writeClosed pid true := by
        simp only [Tables.close, ht, Int.toNat_natCast]
      have hf : (T.close fd).fatUsed = T.fatUsed := by simp only [Tables.close, ht]
      refine ⟨hx, hfile, ?_, hpipe, ?_, ?_⟩
      · simpa [hheld, hf] using h.fatUsed
      · intro j hj
        by_cases he : j = pid
        · subst he
          simp [hheld, hp]
        · simp [hheld, hp, he, h.pipeUsed j hj]
      · intro j hj hu'
        by_cases he : j = pid
        · subst he
          simp [hheld, hw]
        · rw [hp, update_of_ne he] at hu'
          simp [hheld, hw, he, h.writeClosed j hj hu']

/-- **Once nothing is referred to, nothing is in use** but the FAT12 descriptors of before. -/
theorem free (h : T.Consistent init) (hnone : ∀ fd, T.refs fd = none) :
    (∀ pid < pipeMax, T.pipeUsed pid = false) ∧ T.fatUsed = init := by
  have hno (u : Target) : ¬ Held T.refs u := Links.not_held_of_none hnone
  constructor
  · intro pid hpid
    simpa [hno] using h.pipeUsed pid hpid
  · funext k
    have hk := h.fatUsed k
    rw [or_iff_left (hno _)] at hk
    exact Bool.eq_iff_iff.mpr hk

end Consistent

end Tables

end WarkRune.Ipc

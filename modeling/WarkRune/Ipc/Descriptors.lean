import WarkRune.Fat12.Session
import WarkRune.Fat12.Total
import WarkRune.Ipc.Fifo
import WarkRune.Ipc.Tables

/-!
# The descriptor layer keeps its tables in step

Every call changes the tables as taking or closing descriptors does, or not at all. Whatever the
disk holds and the transfers do, an open that fails gives back what it took.

## Main definitions

* `FileDesc.target`, `State.refs`, `State.tables`: what the descriptors of a state refer to
* `OpensFile`: what opening a file can do to the tables

## Main results

* `fdOpen_tables`, `fdCreate_tables`, `fdPipe_tables`, `fdClose_tables`, `fdRead_tables`,
  `fdWrite_tables`: what the calls do to the tables
* `Run.consistent`: after every run from `fd_init` the tables are in step
* `descriptors_accounted`: and closing all descriptors frees what the layer took
-/

namespace WarkRune.Ipc

open Exec (Always)
open Fat12 (Path Driver SameUsed maxFds fat12Close fat12Close_used)
open Function (update update_self update_of_ne)
open Links (Held Exclusive)

/-- What the descriptor refers to. -/
def FileDesc.target (f : FileDesc) : Option Target :=
  if f.used then
    some (match f.type with
      | .file => .file f.fatFd
      | .pipeRead => .reader f.pipeId
      | .pipeWrite => .writer f.pipeId
      | type => .console type)
  else none

/-- What the open descriptors refer to. -/
def State.refs (s : State) (fd : ℕ) : Option Target :=
  if fd < fdMax then (s.fds fd).target else none

def State.tables (s : State) : Tables where
  refs := s.refs
  pipeUsed pid := (s.pipes pid).used
  writeClosed pid := (s.pipes pid).writeClosed
  fatUsed := s.fat.used

variable {s s' : State}

theorem target_of_not_used {f : FileDesc} (h : f.used = false) : f.target = none := by
  rw [FileDesc.target, h]
  rfl

theorem refs_of_lt {fd : ℕ} (h : fd < fdMax) : s.refs fd = (s.fds fd).target := if_pos h

theorem refs_setFd {fd : ℕ} (hfd : fd < fdMax) (f : FileDesc) :
    (s.setFd fd f).refs = update s.refs fd f.target := by
  funext j
  by_cases hj : j = fd
  · subst hj
    rw [refs_of_lt hfd, State.setFd_fds, update_self, update_self]
  · rw [update_of_ne hj]
    simp only [State.refs, State.setFd_fds, update_of_ne hj]

/-- A pipe with its flags. -/
theorem tables_setPipe (pid : ℕ) (p : Pipe) : (s.setPipe pid p).tables =
    { s.tables with
      pipeUsed := update s.tables.pipeUsed pid p.used
      writeClosed := update s.tables.writeClosed pid p.writeClosed } := by
  refine Tables.ext rfl ?_ ?_ rfl <;> funext j <;> by_cases hj : j = pid <;>
    simp [State.tables, hj]

theorem tables_setFd {fd : ℕ} (hfd : fd < fdMax) (f : FileDesc) :
    (s.setFd fd f).tables = { s.tables with refs := update s.refs fd f.target } :=
  Tables.ext (refs_setFd hfd f) rfl rfl rfl

theorem target_eq_reader {f : FileDesc} {n : ℤ} : f.target = some (.reader n) ↔
    (f.used = true ∧ f.type = .pipeRead) ∧ f.pipeId = n := by
  obtain ⟨u, t, k, p⟩ := f
  cases u <;> cases t <;> simp [FileDesc.target]

theorem target_eq_writer {f : FileDesc} {n : ℤ} : f.target = some (.writer n) ↔
    (f.used = true ∧ f.type = .pipeWrite) ∧ f.pipeId = n := by
  obtain ⟨u, t, k, p⟩ := f
  cases u <;> cases t <;> simp [FileDesc.target]

theorem target_eq_file {f : FileDesc} {n : ℤ} : f.target = some (.file n) ↔
    (f.used = true ∧ f.type = .file) ∧ f.fatFd = n := by
  obtain ⟨u, t, k, p⟩ := f
  cases u <;> cases t <;> simp [FileDesc.target]

/-- The search for an end of a pipe, `t` being that end. -/
theorem anyEnd_iff {type : FDType} {n : ℤ} {t : Target} (ht : ∀ f : FileDesc, f.target = some t ↔
    (f.used = true ∧ f.type = type) ∧ f.pipeId = n) : s.anyEnd type n = true ↔ Held s.refs t := by
  simp only [State.anyEnd, List.any_eq_true, List.mem_range, Bool.and_eq_true, decide_eq_true_eq,
    ← ht]
  constructor
  · rintro ⟨i, hi, h⟩
    exact ⟨i, (refs_of_lt hi).trans h⟩
  · rintro ⟨i, h⟩
    unfold State.refs at h
    split_ifs at h with hi
    exact ⟨i, hi, h⟩

/-- **`any_reader`**: some descriptor is the read end. -/
theorem anyEnd_pipeRead (n : ℤ) : s.anyEnd .pipeRead n = true ↔ Held s.refs (.reader n) :=
  anyEnd_iff fun _ => target_eq_reader

/-- **`any_writer`**: some descriptor is the write end. -/
theorem anyEnd_pipeWrite (n : ℤ) : s.anyEnd .pipeWrite n = true ↔ Held s.refs (.writer n) :=
  anyEnd_iff fun _ => target_eq_writer

/-! ## Calls that change no table -/

/-- The tables are as they were. -/
def SameTables (s s' : State) : Prop := s'.tables = s.tables

instance : Std.Refl SameTables := ⟨fun _ => rfl⟩

instance : IsTrans State SameTables := ⟨fun _ _ _ h₁ h₂ => h₂.trans h₁⟩

/-- A call of the driver that opens and closes nothing. -/
theorem sameTables_on {α : Type} {m : Fat12.Fat α} (h : Always SameUsed m) :
    Always SameTables (m.on State.fatPart) := by
  intro s a s' hr
  obtain ⟨t, ht, rfl⟩ := Exec.returns_on.mp hr
  exact Tables.ext rfl rfl rfl (h _ _ _ ht)

/-- A change of the state, and an answer. -/
theorem sameTables_of_modify {α : Type} {f : State → State} {a b : α} (hf : SameTables s (f s))
    (h : (do modify f; pure a : Fd α).Returns s b s') : SameTables s s' := by
  obtain ⟨_, s₁, hm, h⟩ := Exec.returns_bind.mp h
  obtain rfl := Exec.returns_modify.mp hm
  obtain ⟨-, rfl⟩ := Exec.returns_pure.mp h
  exact hf

/-- A pipe whose flags stay. -/
theorem sameTables_setPipe {pid : ℕ} {p : Pipe} (hu : p.used = (s.pipes pid).used)
    (hc : p.writeClosed = (s.pipes pid).writeClosed) : SameTables s (s.setPipe pid p) := by
  have hu' : update s.tables.pipeUsed pid p.used = s.tables.pipeUsed := by
    rw [hu]
    exact Function.update_eq_self _ _
  have hc' : update s.tables.writeClosed pid p.writeClosed = s.tables.writeClosed := by
    rw [hc]
    exact Function.update_eq_self _ _
  exact (tables_setPipe pid p).trans (Tables.ext rfl hu' hc' rfl)

theorem readPipe_flags (size : ℕ) (p : Pipe) : (readPipe size p).2.used = p.used ∧
    (readPipe size p).2.writeClosed = p.writeClosed := by
  induction size generalizing p with
  | zero => exact ⟨rfl, rfl⟩
  | succ size ih =>
    rw [readPipe]
    split
    · exact ih _
    · exact ⟨rfl, rfl⟩

theorem writePipe_flags (src : List UInt8) (p : Pipe) : (writePipe src p).2.used = p.used ∧
    (writePipe src p).2.writeClosed = p.writeClosed := by
  induction src generalizing p with
  | nil => exact ⟨rfl, rfl⟩
  | cons b src ih =>
    rw [writePipe]
    split
    · exact ih _
    · exact ⟨rfl, rfl⟩

theorem keyRound_tables (size : ℕ) (out : List UInt8) : Always SameTables (keyRound size out) := by
  refine .ite (.bind .get fun s => .bind (.modify fun _ => rfl) fun _ => .ite (.pure _) ?_) (.pure _)
  exact .ite (.pure _) (.pure _)

/-- **`fd_read` changes no table.** -/
theorem fdRead_tables (fd : ℤ) (size : ℕ) : Always SameTables (fdRead fd size) := by
  intro s a s' h
  simp only [fdRead, Exec.returns_bind, Exec.returns_get] at h
  obtain ⟨_, s, ⟨rfl, rfl⟩, h⟩ := h
  by_cases ho : s.IsOpen fd
  · rw [if_pos ho] at h
    split at h
    · exact Always.bind (.loop (keyRound_tables size) _) (fun _ => .pure _) _ _ _ h
    · obtain ⟨hu, hc⟩ := readPipe_flags size (s.pipes (s.fds fd.toNat).pipeId.toNat)
      split at h
      · exact Always.pure _ _ _ _ h
      · exact sameTables_of_modify (sameTables_setPipe hu hc) h
    · exact sameTables_on (Fat12.fat12Read_used size) _ _ _ h
    · exact Always.pure _ _ _ _ h
  · rw [if_neg ho] at h
    exact Always.pure _ _ _ _ h

/-- **`fd_write` changes no table.** -/
theorem fdWrite_tables (fd : ℤ) (src : List UInt8) : Always SameTables (fdWrite fd src) := by
  intro s a s' h
  simp only [fdWrite, Exec.returns_bind, Exec.returns_get] at h
  obtain ⟨_, s, ⟨rfl, rfl⟩, h⟩ := h
  by_cases ho : s.IsOpen fd
  · rw [if_pos ho] at h
    split at h
    · exact sameTables_of_modify (by exact rfl) h
    · exact sameTables_of_modify (by exact rfl) h
    · obtain ⟨hu, hc⟩ := writePipe_flags src (s.pipes (s.fds fd.toNat).pipeId.toNat)
      split at h
      · exact Always.pure _ _ _ _ h
      · exact sameTables_of_modify (sameTables_setPipe hu hc) h
    · exact sameTables_on (Fat12.fat12Write_used src) _ _ _ h
    · exact Always.pure _ _ _ _ h
  · rw [if_neg ho] at h
    exact Always.pure _ _ _ _ h

/-- **`fd_flush` changes no table.** -/
theorem fdFlush_tables (fd : ℤ) : Always SameTables (fdFlush fd) := by
  refine .bind .get fun s => .ite (sameTables_on ?_) (.pure _)
  exact fun _ _ _ h => (Fat12.keptIoOnly.fat12Flush _ _ _ _ h).sameUsed

/-- **`fd_size` changes no table.** -/
theorem fdSize_tables (fd : ℤ) : Always SameTables (fdSize fd) := by
  refine .bind .get fun s => .ite (sameTables_on ?_) (.pure _)
  intro t n t' h
  obtain ⟨rfl, -⟩ := Fat12.fat12Size_returns h
  exact refl_of SameUsed t'

/-! ## Descriptors taken and closed -/

/-- What opening a file can do: it fails and changes nothing, or takes a descriptor and a FAT12
descriptor. -/
def OpensFile (T : Tables) (n : ℤ) (T' : Tables) : Prop :=
  n < 0 ∧ T' = T ∨ ∃ fd < fdMax, ∃ k < maxFds, n = (fd : ℕ) ∧ T.refs fd = none ∧
    T.fatUsed k = false ∧ T' = T.withFile fd k

/-- The end of `fd_open` and `fd_create`, after the driver has answered. -/
theorem installFd_tables {t : Driver} {fat n : ℤ} (ho : Fat12.Opened s.fat fat t)
    (h : (installFd fat).Returns { s with fat := t } n s') :
    OpensFile s.tables n s'.tables := by
  rcases ho with ⟨hneg, hu⟩ | ⟨k, hk, rfl, hfree, hu, -⟩
  · rw [installFd, if_pos hneg] at h
    obtain ⟨rfl, rfl⟩ := Exec.returns_pure.mp h
    exact .inl ⟨by omega, Tables.ext rfl rfl rfl hu⟩
  · rw [installFd, if_neg (by omega)] at h
    simp only [Exec.returns_bind, Exec.returns_get] at h
    obtain ⟨_, s₁, ⟨rfl, rfl⟩, h⟩ := h
    cases hfd : ({ s with fat := t } : State).allocFd with
    | none =>
      rw [hfd] at h
      obtain ⟨_, s₂, hclose, h⟩ := Exec.returns_bind.mp h
      obtain ⟨rfl, rfl⟩ := Exec.returns_pure.mp h
      obtain ⟨t', ht', rfl⟩ := Exec.returns_on.mp hclose
      refine .inl ⟨by omega, Tables.ext rfl rfl rfl ?_⟩
      refine (fat12Close_used hk ht').trans ?_
      change update t.used k false = s.fat.used
      rw [hu, Function.update_idem, ← hfree, Function.update_eq_self]
    | some fd =>
      rw [hfd] at h
      obtain ⟨_, s₂, hm, h⟩ := Exec.returns_bind.mp h
      obtain rfl := Exec.returns_modify.mp hm
      obtain ⟨rfl, rfl⟩ := Exec.returns_pure.mp h
      obtain ⟨hlt, -, hfdu⟩ := allocFd_spec hfd
      refine .inr ⟨fd, hlt, k, hk, rfl, ?_, hfree, ?_⟩
      · exact (refs_of_lt hlt).trans (target_of_not_used hfdu)
      · rw [tables_setFd hlt]
        exact Tables.ext rfl rfl rfl hu

/-- **What `fd_open` does to the tables.** -/
theorem fdOpen_tables {path : Path} {n : ℤ} (h : (fdOpen path).Returns s n s') :
    OpensFile s.tables n s'.tables := by
  obtain ⟨fat, s₁, h₁, h⟩ := Exec.returns_bind.mp h
  obtain ⟨t, ht, rfl⟩ := Exec.returns_on.mp h₁
  exact installFd_tables (Fat12.fat12Open_used ht) h

/-- **What `fd_create` does to the tables.** -/
theorem fdCreate_tables {path : Path} {n : ℤ} (h : (fdCreate path).Returns s n s') :
    OpensFile s.tables n s'.tables := by
  obtain ⟨fat, s₁, h₁, h⟩ := Exec.returns_bind.mp h
  obtain ⟨t, ht, rfl⟩ := Exec.returns_on.mp h₁
  exact installFd_tables (Fat12.fat12Create_used ht) h

/-- **What `fd_create_case` does to the tables**: a first attempt that fails changed nothing. -/
theorem fdCreateCase_tables {path : Path} {n : ℤ} (h : (fdCreateCase path).Returns s n s') :
    OpensFile s.tables n s'.tables := by
  obtain ⟨fd, s₁, h₁, h⟩ := Exec.returns_bind.mp h
  have ho := fdCreate_tables h₁
  by_cases hfd : fd ≥ 0
  · rw [if_pos hfd] at h
    obtain ⟨rfl, rfl⟩ := Exec.returns_pure.mp h
    exact ho
  · rw [if_neg hfd] at h
    have hsame : s₁.tables = s.tables := by
      rcases ho with ⟨-, hs⟩ | ⟨k, -, _, -, rfl, -⟩
      · exact hs
      · omega
    split_ifs at h
    · rw [← hsame]
      exact fdCreate_tables h
    · obtain ⟨rfl, rfl⟩ := Exec.returns_pure.mp h
      exact .inl ⟨by omega, hsame⟩

/-- **What `fd_pipe` does to the tables**: it fails and changes nothing, or takes two descriptors
and a pipe. -/
theorem fdPipe_tables (s : State) : fdPipe s = (none, s) ∨
    ∃ pid < pipeMax, ∃ rfd wfd, (fdPipe s).1 = some (rfd, wfd) ∧ rfd ≠ wfd ∧
      s.refs rfd = none ∧ s.refs wfd = none ∧ s.tables.pipeUsed pid = false ∧
      (fdPipe s).2.tables = s.tables.withPipe pid rfd wfd := by
  rcases fdPipe_cases s with hnone | ⟨pid, rfd, wfd, hsome, hpid, hpu, hr, hw, hne, hru, hwu⟩
  · exact .inl hnone
  · refine .inr ⟨pid, hpid, rfd, wfd, by rw [hsome], hne, ?_, ?_, hpu, ?_⟩
    · exact (refs_of_lt hr).trans (target_of_not_used hru)
    · exact (refs_of_lt hw).trans (target_of_not_used hwu)
    · rw [hsome]
      change (State.withPipe s pid rfd wfd).tables = _
      rw [State.withPipe, tables_setFd hw, tables_setFd hr, refs_setFd hr, tables_setPipe]
      rfl

/-- Closing a descriptor that is open: its FAT12 descriptor if it is a file, and then the rest. -/
theorem returns_fdClose {fd : ℤ} {u : Unit} (ho : s.IsOpen fd) :
    (fdClose fd).Returns s u s' ↔ ∃ s₁, s' = (s₁.releasePipe (s.fds fd.toNat)).setFd fd.toNat closedFd ∧
      if (s.fds fd.toNat).type = .file then
        ((fat12Close (s.fds fd.toNat).fatFd).on State.fatPart).Returns s () s₁
      else s₁ = s := by
  simp only [fdClose, Exec.returns_bind, Exec.returns_get]
  constructor
  · rintro ⟨_, s, ⟨rfl, rfl⟩, h⟩
    rw [if_pos ho] at h
    by_cases ht : (s.fds fd.toNat).type = .file
    · rw [if_pos ht] at h
      obtain ⟨_, s₁, h₁, h⟩ := Exec.returns_bind.mp h
      exact ⟨s₁, Exec.returns_modify.mp h, by rwa [if_pos ht]⟩
    · rw [if_neg ht] at h
      exact ⟨s, Exec.returns_modify.mp h, by rw [if_neg ht]⟩
  · rintro ⟨s₁, rfl, h⟩
    refine ⟨s, s, ⟨rfl, rfl⟩, ?_⟩
    rw [if_pos ho]
    by_cases ht : (s.fds fd.toNat).type = .file
    · rw [if_pos ht] at h ⊢
      exact Exec.returns_bind.mpr ⟨(), s₁, h, Exec.returns_modify.mpr rfl⟩
    · rw [if_neg ht] at h ⊢
      rw [h]
      exact Exec.returns_modify.mpr rfl

/-- A descriptor that is not open is not closed. -/
theorem returns_fdClose_of_not {fd : ℤ} {u : Unit} (ho : ¬ s.IsOpen fd) :
    (fdClose fd).Returns s u s' ↔ s' = s := by
  simp only [fdClose, Exec.returns_bind, Exec.returns_get]
  constructor
  · rintro ⟨_, s, ⟨rfl, rfl⟩, h⟩
    rw [if_neg ho] at h
    exact (Exec.returns_pure.mp h).2
  · rintro rfl
    refine ⟨s', s', ⟨rfl, rfl⟩, ?_⟩
    rw [if_neg ho]
    exact Exec.returns_pure.mpr ⟨rfl, rfl⟩

/-- **Closing returns**, whatever the disk holds and the transfers do. -/
theorem halts_fdClose (s : State) (fd : ℤ) : (fdClose fd).Halts s := by
  by_cases ho : s.IsOpen fd
  · by_cases ht : (s.fds fd.toNat).type = .file
    · obtain ⟨_, s₁, h₁⟩ := Exec.Total.on (p := State.fatPart)
        (Fat12.total_fat12Close (s.fds fd.toNat).fatFd) s
      exact ⟨(), _, (returns_fdClose ho).mpr ⟨s₁, rfl, by rwa [if_pos ht]⟩⟩
    · exact ⟨(), _, (returns_fdClose ho).mpr ⟨s, rfl, by rw [if_neg ht]⟩⟩
  · exact ⟨(), s, (returns_fdClose_of_not ho).mpr rfl⟩

/-- A pipe is freed unless `c`. -/
theorem tables_freePipe (s : State) (c : Bool) (pid : ℕ) :
    (if c then s else s.setPipe pid { s.pipes pid with used := false }).tables =
      { s.tables with
        pipeUsed := update s.tables.pipeUsed pid (s.tables.pipeUsed pid && c) } := by
  cases c with
  | true =>
    rw [Bool.and_true, Function.update_eq_self]
    rfl
  | false =>
    rw [if_neg nofun, tables_setPipe, Bool.and_false]
    exact Tables.ext rfl rfl (Function.update_eq_self _ _) rfl

/-- The release of a pipe touches no descriptor. -/
theorem refs_releasePipe (s : State) (f : FileDesc) : (s.releasePipe f).refs = s.refs := by
  unfold State.releasePipe
  dsimp only
  split_ifs <;> rfl

variable {init : ℕ → Bool}

open Classical in
/-- **What `fd_close` does to the tables.** -/
theorem fdClose_tables (hs : s.tables.Consistent init) {fd : ℕ} {u : Unit}
    (h : (fdClose fd).Returns s u s') : s'.tables = s.tables.close fd := by
  by_cases ho : s.IsOpen fd
  · obtain ⟨s₁, rfl, h₁⟩ := (returns_fdClose ho).mp h
    have hlt : fd < fdMax := Int.ofNat_lt.mp ho.2.1
    have hu : (s.fds fd).used = true := ho.2.2
    rw [Int.toNat_natCast] at h₁ ⊢
    have href : s.tables.refs fd = (s.fds fd).target := refs_of_lt hlt
    rw [tables_setFd hlt, refs_releasePipe]
    cases ht : (s.fds fd).type with
    | file =>
      rw [target_eq_file.mpr ⟨⟨hu, ht⟩, rfl⟩] at href
      obtain ⟨k, hk, hfat, -⟩ := hs.file ⟨fd, href⟩
      rw [if_pos ht, hfat] at h₁
      obtain ⟨t, ht', rfl⟩ := Exec.returns_on.mp h₁
      have hrel : State.releasePipe (State.fatPart.put t s) (s.fds fd) = State.fatPart.put t s := by
        simp [State.releasePipe, ht]
      rw [hrel]
      refine Tables.ext rfl ?_ ?_ ?_
      · simp only [Tables.close, href]
        rfl
      · simp only [Tables.close, href]
        rfl
      · simp only [Tables.close, href, hfat, Int.toNat_natCast]
        exact fat12Close_used hk ht'
    | pipeRead =>
      rw [target_eq_reader.mpr ⟨⟨hu, ht⟩, rfl⟩] at href
      obtain ⟨pid, -, hp⟩ := hs.pipe (.inl ⟨fd, href⟩)
      rw [if_neg (by rw [ht]; decide)] at h₁
      obtain rfl := h₁.symm
      have hany : s.anyEnd .pipeWrite pid = decide (Held s.refs (.writer pid)) := by
        rw [Bool.eq_iff_iff, anyEnd_pipeWrite, decide_eq_true_iff]
      have hrel : s.releasePipe (s.fds fd) = if s.anyEnd .pipeWrite pid then s else
          s.setPipe pid { s.pipes pid with used := false } := by
        simp [State.releasePipe, ht, hp]
      rw [hrel, tables_freePipe, hany]
      refine Tables.ext rfl ?_ ?_ ?_
      · simp only [Tables.close, href, hp, Int.toNat_natCast]
        rfl
      · simp only [Tables.close, href]
      · simp only [Tables.close, href]
    | pipeWrite =>
      rw [target_eq_writer.mpr ⟨⟨hu, ht⟩, rfl⟩] at href
      obtain ⟨pid, -, hp⟩ := hs.pipe (.inr ⟨fd, href⟩)
      rw [if_neg (by rw [ht]; decide)] at h₁
      obtain rfl := h₁.symm
      let s₂ := s.setPipe pid { s.pipes pid with writeClosed := true }
      have hany : s₂.anyEnd .pipeRead pid = decide (Held s.refs (.reader pid)) := by
        rw [Bool.eq_iff_iff, anyEnd_pipeRead, decide_eq_true_iff]
        rfl
      have hrel : s.releasePipe (s.fds fd) = if s₂.anyEnd .pipeRead pid then s₂ else
          s₂.setPipe pid { s₂.pipes pid with used := false } := by
        simp [State.releasePipe, ht, hp, s₂]
      rw [hrel, tables_freePipe, hany, tables_setPipe]
      have hsame : update s.tables.pipeUsed pid (s.pipes pid).used = s.tables.pipeUsed :=
        Function.update_eq_self _ _
      refine Tables.ext rfl ?_ ?_ ?_
      · simp only [Tables.close, href, hp, Int.toNat_natCast, hsame]
        rfl
      · simp only [Tables.close, href, hp, Int.toNat_natCast]
      · simp only [Tables.close, href]
    | none | stdin | stdout | stderr =>
      rw [if_neg (by rw [ht]; decide)] at h₁
      obtain rfl := h₁.symm
      have hrel : s.releasePipe (s.fds fd) = s := by simp [State.releasePipe, ht]
      simp only [FileDesc.target, hu, ht, ↓reduceIte] at href
      rw [hrel]
      refine Tables.ext rfl ?_ ?_ ?_ <;> simp only [Tables.close, href]
  · obtain rfl := (returns_fdClose_of_not ho).mp h
    refine (Tables.close_of_none ?_).symm
    unfold State.tables State.refs
    dsimp only
    split_ifs with hlt
    · apply target_of_not_used
      by_contra hu
      exact ho ⟨Int.natCast_nonneg _, Int.ofNat_lt.mpr hlt, by simpa using hu⟩
    · rfl

/-! ## Runs -/

/-- `fd_init` opens the descriptors of the console. -/
theorem refs_fdInit (s : State) (fd : ℕ) : (fdInit s).refs fd =
    if fd = 0 then some (.console .stdin) else if fd = 1 then some (.console .stdout)
    else if fd = 2 then some (.console .stderr) else none := by
  have hmax : fdMax = 32 := rfl
  unfold State.refs fdInit
  dsimp only
  split_ifs <;> first | rfl | omega

/-- **At `fd_init` the tables are in step.** -/
theorem consistent_fdInit (s : State) : (fdInit s).tables.Consistent s.fat.used := by
  have hcon {t : Target} (h : Held (fdInit s).tables.refs t) : ∃ type, t = .console type := by
    obtain ⟨fd, hfd⟩ := h
    change (fdInit s).refs fd = some t at hfd
    rw [refs_fdInit] at hfd
    split_ifs at hfd <;> exact ⟨_, (Option.some.inj hfd).symm⟩
  have hfile (n : ℤ) : ¬ Held (fdInit s).tables.refs (.file n) := fun h => nomatch hcon h
  have hreader (n : ℤ) : ¬ Held (fdInit s).tables.refs (.reader n) := fun h => nomatch hcon h
  have hwriter (n : ℤ) : ¬ Held (fdInit s).tables.refs (.writer n) := fun h => nomatch hcon h
  have hused (pid : ℕ) (hpid : pid < pipeMax) : (fdInit s).tables.pipeUsed pid = false := by
    simp [State.tables, fdInit, hpid, Pipe.reset]
  refine ⟨?_, fun h => absurd h (hfile _), fun k => ?_, fun h => ?_, fun pid hpid => ?_,
    fun pid hpid hu => ?_⟩
  · intro i j t hi hj
    change (fdInit s).refs i = some t at hi
    change (fdInit s).refs j = some t at hj
    rw [refs_fdInit] at hi hj
    split_ifs at hi hj with h₁ h₂ h₃ h₄ h₅ h₆ <;> first | omega | cases hi.trans hj.symm
  · rw [or_iff_left (hfile _)]
    rfl
  · exact h.elim (fun h => absurd h (hreader _)) (fun h => absurd h (hwriter _))
  · simp [hused pid hpid, hreader, hwriter]
  · rw [hused pid hpid] at hu
    cases hu

/-- **Every call keeps the tables in step.** -/
theorem Call.consistent (hs : s.tables.Consistent init) {c : Call} {r : Reply}
    (h : c.exec.Returns s r s') : s'.tables.Consistent init := by
  -- three calls open a file, and four leave the tables alone
  have hopen {n : ℤ} {s₁ : State} (ho : OpensFile s.tables n s₁.tables) :
      s₁.tables.Consistent init := by
    rcases ho with ⟨-, he⟩ | ⟨fd, -, k, hk, -, hfd, hfree, he⟩
    · rwa [he]
    · rw [he]
      exact hs.withFile hfd hk hfree
  have hsame {s₁ : State} (he : SameTables s s₁) : s₁.tables.Consistent init := by
    rwa [show s₁.tables = s.tables from he]
  cases c with
  | openPath path =>
    obtain ⟨n, s₁, h, hr⟩ := Exec.returns_bind.mp h
    obtain ⟨-, rfl⟩ := Exec.returns_pure.mp hr
    exact hopen (fdOpen_tables h)
  | create path =>
    obtain ⟨n, s₁, h, hr⟩ := Exec.returns_bind.mp h
    obtain ⟨-, rfl⟩ := Exec.returns_pure.mp hr
    exact hopen (fdCreate_tables h)
  | createCase path =>
    obtain ⟨n, s₁, h, hr⟩ := Exec.returns_bind.mp h
    obtain ⟨-, rfl⟩ := Exec.returns_pure.mp hr
    exact hopen (fdCreateCase_tables h)
  | pipe =>
    simp only [Call.exec, Exec.returns_bind, Exec.returns_get, Exec.returns_set,
      Exec.returns_pure] at h
    obtain ⟨_, s, ⟨rfl, rfl⟩, _, _, rfl, -, rfl⟩ := h
    rcases fdPipe_tables s with he | ⟨pid, hpid, rfd, wfd, -, hne, hr, hw, hfree, he⟩
    · rwa [he]
    · rw [he]
      exact hs.withPipe hr hw hne hpid hfree
  | read fd size =>
    obtain ⟨⟨n, out⟩, s₁, h, hr⟩ := Exec.returns_bind.mp h
    obtain ⟨-, rfl⟩ := Exec.returns_pure.mp hr
    exact hsame (fdRead_tables fd size _ _ _ h)
  | write fd src =>
    obtain ⟨n, s₁, h, hr⟩ := Exec.returns_bind.mp h
    obtain ⟨-, rfl⟩ := Exec.returns_pure.mp hr
    exact hsame (fdWrite_tables fd src _ _ _ h)
  | flush fd =>
    obtain ⟨_, s₁, h, hr⟩ := Exec.returns_bind.mp h
    obtain ⟨-, rfl⟩ := Exec.returns_pure.mp hr
    exact hsame (fdFlush_tables fd _ _ _ h)
  | size fd =>
    obtain ⟨n, s₁, h, hr⟩ := Exec.returns_bind.mp h
    obtain ⟨-, rfl⟩ := Exec.returns_pure.mp hr
    exact hsame (fdSize_tables fd _ _ _ h)
  | close fd =>
    obtain ⟨_, s₁, h, hr⟩ := Exec.returns_bind.mp h
    obtain ⟨-, rfl⟩ := Exec.returns_pure.mp hr
    rcases le_or_gt 0 fd with h0 | h0
    · lift fd to ℕ using h0
      rw [fdClose_tables hs h]
      exact hs.close fd
    · obtain rfl := (returns_fdClose_of_not fun ho => absurd ho.1 (not_le.mpr h0)).mp h
      exact hs

/-- **After every run from `fd_init` the tables are in step.** -/
theorem Run.consistent {s₀ : State} {cs : List (Call × Reply)} (h : Run (fdInit s₀) cs s) :
    s.tables.Consistent s₀.fat.used :=
  h.induct (I := fun s => s.tables.Consistent s₀.fat.used)
    (fun _ _ _ _ hs hc => Call.consistent hs hc) (consistent_fdInit s₀)

/-- **Closing descriptors**: it returns, and no descriptor that was closed refers to anything. -/
theorem run_closes (hs : s.tables.Consistent init) (fds : List ℤ) : ∃ s',
    Run s (fds.map fun fd => (.close fd, .unit)) s' ∧ s'.tables.Consistent init ∧
      (∀ fd : ℕ, (fd : ℤ) ∈ fds → s'.refs fd = none) ∧
      ∀ fd, s.refs fd = none → s'.refs fd = none := by
  induction fds generalizing s with
  | nil => exact ⟨s, .nil s, hs, nofun, fun _ h => h⟩
  | cons fd fds ih =>
    obtain ⟨_, s₁, hclose⟩ := halts_fdClose s fd
    have hcall : (Call.close fd).exec.Returns s .unit s₁ :=
      Exec.returns_bind.mpr ⟨(), s₁, hclose, Exec.returns_pure.mpr ⟨rfl, rfl⟩⟩
    obtain ⟨s', hrun, hs', hnone, hkeep⟩ := ih (Call.consistent hs hcall)
    -- closing frees its descriptor, and does nothing where there is none
    have hrefs (k : ℕ) (hk : (k : ℤ) = fd ∨ s.refs k = none) : s₁.refs k = none := by
      rcases le_or_gt 0 fd with h0 | h0
      · lift fd to ℕ using h0
        have ht : s₁.refs = update s.refs fd none :=
          congrArg Tables.refs (fdClose_tables hs hclose)
        rw [ht]
        by_cases he : k = fd
        · rw [he, update_self]
        · rw [update_of_ne he]
          exact hk.resolve_left (by omega)
      · obtain rfl := (returns_fdClose_of_not fun ho => absurd ho.1 (not_le.mpr h0)).mp hclose
        exact hk.resolve_left (by omega)
    refine ⟨s', .cons hcall hrun, hs', fun k hk => ?_, fun k hk => hkeep k (hrefs k (.inr hk))⟩
    rcases List.mem_cons.mp hk with he | hk
    · exact hkeep k (hrefs k (.inl he))
    · exact hnone k hk

theorem OpensFile.of_neg {T T' : Tables} {n : ℤ} (h : OpensFile T n T') (hn : n < 0) : T' = T := by
  rcases h with ⟨-, he⟩ | ⟨fd, -, k, -, he, -⟩
  · exact he
  · omega

/-- **The descriptor layer accounts for what it takes**: after every run from `fd_init` the tables
are in step, a call that fails leaves them as they were, and closing every descriptor frees all
pipes and all FAT12 descriptors the layer has opened. -/
theorem descriptors_accounted {s₀ : State} {cs : List (Call × Reply)}
    (h : Run (fdInit s₀) cs s) :
    s.tables.Consistent s₀.fat.used ∧
      (∀ path n s₁, (fdOpen path).Returns s n s₁ ∨ (fdCreate path).Returns s n s₁ ∨
        (fdCreateCase path).Returns s n s₁ → n < 0 → s₁.tables = s.tables) ∧
      ((fdPipe s).1 = none → (fdPipe s).2 = s) ∧
      ∀ fds : List ℤ, (∀ fd < fdMax, (fd : ℤ) ∈ fds) → ∃ s₁,
        Run s (fds.map fun fd => (.close fd, .unit)) s₁ ∧
          (∀ pid < pipeMax, (s₁.pipes pid).used = false) ∧ s₁.fat.used = s₀.fat.used := by
  refine ⟨h.consistent, ?_, ?_, ?_⟩
  · rintro path n s₁ (ho | ho | ho) hn
    · exact (fdOpen_tables ho).of_neg hn
    · exact (fdCreate_tables ho).of_neg hn
    · exact (fdCreateCase_tables ho).of_neg hn
  · intro hnone
    rcases fdPipe_tables s with he | ⟨_, _, _, _, hsome, -⟩
    · rw [he]
    · rw [hsome] at hnone
      cases hnone
  · intro fds hall
    obtain ⟨s₁, hrun, hs₁, hnone, -⟩ := run_closes h.consistent fds
    refine ⟨s₁, hrun, hs₁.free fun fd => ?_⟩
    by_cases hfd : fd < fdMax
    · exact hnone fd (hall fd hfd)
    · exact if_neg hfd

/-- The theorem at a pipe that has lost its writer. -/
theorem descriptors_accounted_writerClosed : ∃ s,
    Run (fdInit .zero) [(.pipe, .ends (some (3, 4))), (.close 4, .unit)] s ∧
      s.tables.Consistent State.zero.fat.used ∧
      ∃ s₁, Run s ((List.range fdMax).map fun fd : ℕ => (.close fd, .unit)) s₁ ∧
        ∀ pid < pipeMax, (s₁.pipes pid).used = false := by
  have h : (runAll 2 [.pipe, .close 4] (fdInit .zero)).map Prod.fst =
      some [.ends (some (3, 4)), .unit] := by
    decide +kernel
  obtain ⟨⟨rs, s⟩, hall, rfl⟩ := Option.map_eq_some_iff.mp h
  have hrun := run_of_runAll hall
  obtain ⟨hs, -, -, hclose⟩ := descriptors_accounted hrun
  obtain ⟨s₁, hrun₁, hfree, -⟩ := hclose ((List.range fdMax).map fun fd : ℕ => (fd : ℤ))
    fun fd hfd => List.mem_map.mpr ⟨fd, List.mem_range.mpr hfd, rfl⟩
  rw [List.map_map] at hrun₁
  exact ⟨s, hrun, hs, s₁, hrun₁, hfree⟩

end WarkRune.Ipc

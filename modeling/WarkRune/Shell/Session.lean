import WarkRune.Ipc.Reopen
import WarkRune.Shell.Commands
import WarkRune.Shell.Copy

/-!
# A session leaks no descriptor

A command keeps the descriptors: it closes what it opens, and leaves the input and the output where
they go. A command line opens the file and the pipe it needs and closes them again, whatever its
commands do with them. So a session, of any number of lines, ends with the descriptors, the pipes and
the FAT12 descriptors it began with.

Only `exec` can do otherwise, as the program it runs has system calls of its own.

## Main definitions

* `Keeps`: the descriptors are as they were, and the input and the output go where they did
* `Tidy`: at the end of a line, the same descriptors are in use
* `runLines`: a session

## Main results

* `keeps_dispatch`: what every command keeps
* `tidy_runPipeline`: a command line gives back what it takes
* `session_tidy`: so does a session
-/

namespace WarkRune.Shell

open Exec (Always)
open Fat12 (Path Driver DirEntry Listed SameUsed maxFds fat12Open fat12Create fat12Close)
open Function (update)
open Ipc (SameTables OpensFile Tables fdCreateCase fdClose fdPipe)

/-- The descriptors are as they were, and the input and the output go where they did. -/
structure Keeps (s s' : State) : Prop where
  tables : s'.ipc.tables = s.ipc.tables
  outFd : s'.outFd = s.outFd
  inFd : s'.inFd = s.inFd

instance instReflKeeps : Std.Refl Keeps := ⟨fun _ => ⟨rfl, rfl, rfl⟩⟩

instance instTransKeeps : IsTrans State Keeps :=
  ⟨fun _ _ _ h h' => ⟨h'.tables.trans h.tables, h'.outFd.trans h.outFd, h'.inFd.trans h.inFd⟩⟩

variable {s s' : State}

/-- A call of the descriptor layer that keeps its tables. -/
theorem keeps_on_ipc {α : Type} {m : Ipc.Fd α} (h : Always SameTables m) :
    Always Keeps (m.on ipcPart) := by
  intro s a s' hr
  obtain ⟨t, ht, rfl⟩ := Exec.returns_on.mp hr
  exact ⟨h _ _ _ ht, rfl, rfl⟩

/-- The tables, where only the driver has changed. -/
theorem tables_put (s : State) (t : Driver) :
    (fatPart.put t s).ipc.tables = { s.ipc.tables with fatUsed := t.used } := rfl

/-- A call of the driver that opens and closes nothing. -/
theorem keeps_on_fat {α : Type} {m : Fat12.Fat α} (h : Always SameUsed m) :
    Always Keeps (m.on fatPart) := by
  intro s a s' hr
  obtain ⟨t, ht, rfl⟩ := Exec.returns_on.mp hr
  refine ⟨?_, rfl, rfl⟩
  rw [tables_put, show t.used = s.ipc.tables.fatUsed from h _ _ _ ht]

/-! ## The commands -/

theorem keeps_shellPuts (buf : Path) : Always Keeps (shellPuts buf) := by
  refine .bind .get fun s => .ite ?_ (.modify fun _ => ⟨rfl, rfl, rfl⟩)
  refine .bind (keeps_on_ipc (Ipc.fdWrite_tables _ _)) fun _ => ?_
  exact .bind (keeps_on_ipc (Ipc.fdWrite_tables _ _)) fun _ => .pure _

theorem keeps_putsAll : ∀ bufs, Always Keeps (putsAll bufs)
  | [] => .pure _
  | buf :: bufs => .bind (keeps_shellPuts buf) fun _ => keeps_putsAll bufs

theorem keeps_boolCase {op : Path → Fat12.Fat Bool} (hop : ∀ p, Always SameUsed (op p))
    (path : Path) : Always Keeps (boolCase op path) := by
  refine .bind (keeps_on_fat (hop _)) fun ok => .ite (.pure _) ?_
  exact .ite (keeps_on_fat (hop _)) (.pure _)

theorem keeps_cmdPath {op : Path → Fat12.Fat Bool} (hop : ∀ p, Always SameUsed (op p))
    (usage failed : String) (args : Option Path) : Always Keeps (cmdPath op usage failed args) := by
  rcases args with - | - | ⟨c, arg⟩
  · exact keeps_shellPuts _
  · exact keeps_shellPuts _
  · refine .bind .get fun s => .bind (keeps_boolCase hop _) fun ok => ?_
    exact .ite (keeps_shellPuts _) (keeps_shellPuts _)

/-- **A file that is opened**, at the first try or at the second. -/
theorem fdCase_opened {op : Path → Fat12.Fat ℤ}
    (hop : ∀ p {t t' fd}, (op p).Returns t fd t' → Fat12.Opened t fd t') {path : Path} {fd : ℤ}
    (h : (fdCase op path).Returns s fd s') :
    ∃ t, s' = fatPart.put t s ∧ Fat12.Opened s.ipc.fat fd t := by
  obtain ⟨n, s₁, h₁, h⟩ := Exec.returns_bind.mp h
  obtain ⟨t, ht, rfl⟩ := Exec.returns_on.mp h₁
  have ho := hop _ ht
  by_cases hn : n ≥ 0
  · rw [if_pos hn] at h
    obtain ⟨rfl, rfl⟩ := Exec.returns_pure.mp h
    exact ⟨t, rfl, ho⟩
  · rw [if_neg hn] at h
    have hsame : SameUsed s.ipc.fat t := by
      rcases ho with ⟨-, hu⟩ | ⟨k, -, rfl, -⟩
      · exact hu
      · exact absurd (Int.natCast_nonneg k) hn
    split_ifs at h
    · obtain ⟨t', ht', rfl⟩ := Exec.returns_on.mp h
      exact ⟨t', rfl, .after hsame (hop _ ht')⟩
    · obtain ⟨rfl, rfl⟩ := Exec.returns_pure.mp h
      exact ⟨t, rfl, .inl ⟨by decide, hsame⟩⟩

/-- A file that could not be opened. -/
theorem keeps_failed {fd : ℤ} {t : Driver} (ho : Fat12.Opened s.ipc.fat fd t) (hfd : ¬ fd ≥ 0) :
    Keeps s (fatPart.put t s) := by
  rcases ho with ⟨-, hused⟩ | ⟨k, -, rfl, -⟩
  · refine ⟨?_, rfl, rfl⟩
    rw [tables_put, hused]
    rfl
  · exact absurd (Int.natCast_nonneg k) hfd

/-- **A file that is opened, used and closed.** -/
theorem keeps_closed {fd : ℤ} {t : Driver} {s₂ s₃ : State} {u : Unit}
    (ho : Fat12.Opened s.ipc.fat fd t) (hfd : fd ≥ 0) (hk : Keeps (fatPart.put t s) s₂)
    (hc : ((fat12Close fd).on fatPart).Returns s₂ u s₃) : Keeps s s₃ := by
  rcases ho with ⟨hneg, -⟩ | ⟨k, hlt, rfl, hfree, hused, -⟩
  · exact absurd hfd (Int.not_le.mpr hneg)
  obtain ⟨t₃, ht₃, rfl⟩ := Exec.returns_on.mp hc
  -- closing takes back the one descriptor that opening had taken
  have hmid : s₂.ipc.fat.used = t.used := congrArg Tables.fatUsed hk.tables
  have hback : t₃.used = s.ipc.tables.fatUsed := by
    calc t₃.used = update s₂.ipc.fat.used k false := Fat12.fat12Close_used hlt ht₃
      _ = update s.ipc.fat.used k (s.ipc.fat.used k) := by
        rw [hmid, hused, Function.update_idem, hfree]
      _ = s.ipc.tables.fatUsed := Function.update_eq_self _ _
  refine ⟨?_, hk.outFd, hk.inFd⟩
  rw [tables_put, hback, hk.tables, tables_put]

theorem keeps_cmdTouch (args : Option Path) : Always Keeps (cmdTouch args) := by
  rcases args with - | - | ⟨c, arg⟩
  · exact keeps_shellPuts _
  · exact keeps_shellPuts _
  · refine .bind .get fun s => ?_
    intro s u s' h
    obtain ⟨fd, s₁, h₁, h⟩ := Exec.returns_bind.mp h
    obtain ⟨t, rfl, ho⟩ := fdCase_opened (fun _ _ _ _ => Fat12.fat12Create_used) h₁
    by_cases hfd : fd ≥ 0
    · rw [if_pos hfd] at h
      obtain ⟨_, s₂, h₂, h⟩ := Exec.returns_bind.mp h
      exact trans_of Keeps (keeps_closed ho hfd (refl_of Keeps _) h₂) (keeps_shellPuts _ _ _ _ h)
    · rw [if_neg hfd] at h
      exact trans_of Keeps (keeps_failed ho hfd) (keeps_shellPuts _ _ _ _ h)

theorem keeps_catRound {read : Sh (ℤ × Path)} (h : Always Keeps read) (u : Unit) :
    Always Keeps (catRound read u) := by
  refine .bind h fun r => ?_
  exact .ite (.bind (keeps_shellPuts _) fun _ => .pure _) (.pure _)

theorem keeps_cmdCat (args : Option Path) : Always Keeps (cmdCat args) := by
  have hnone : Always Keeps (cmdCat none) := by
    refine .bind .get fun s => .ite (.loop (keeps_catRound ?_) _) (keeps_shellPuts _)
    exact keeps_on_ipc (Ipc.fdRead_tables _ _)
  rcases args with - | - | ⟨c, arg⟩
  · exact hnone
  · exact hnone
  · refine .bind .get fun s => ?_
    intro s u s' h
    obtain ⟨fd, s₁, h₁, h⟩ := Exec.returns_bind.mp h
    obtain ⟨t, rfl, ho⟩ := fdCase_opened (fun _ _ _ _ => Fat12.fat12Open_used) h₁
    by_cases hfd : fd < 0
    · rw [if_pos hfd] at h
      exact trans_of Keeps (keeps_failed ho (Int.not_le.mpr hfd)) (keeps_shellPuts _ _ _ _ h)
    · rw [if_neg hfd] at h
      obtain ⟨_, s₂, h₂, h⟩ := Exec.returns_bind.mp h
      have hread : Always Keeps ((Fat12.fat12Read fd 511).on fatPart) :=
        keeps_on_fat (Fat12.fat12Read_used 511)
      exact keeps_closed ho (Int.not_lt.mp hfd) (Always.loop (keeps_catRound hread) _ _ _ _ h₂) h

/-- **A directory that is listed**, whatever the callback keeps. -/
theorem keeps_listEach {cb : Listed → Sh Unit} (hcb : ∀ entry, Always Keeps (cb entry)) (dir : ℕ) :
    ∀ n i, Always Keeps (listEach cb dir i n)
  | 0, _ => .pure _
  | n + 1, i => by
    refine .bind (keeps_on_fat ?_) fun r => ?_
    · exact fun _ _ _ h => (Fat12.keptIoOnly.dirReadEntry dir i _ _ _ h).sameUsed
    cases r with
    | none => exact .pure _
    | some e =>
      refine .ite (.pure _) (.ite (keeps_listEach hcb dir n (i + 1)) ?_)
      exact .bind (hcb _) fun _ => keeps_listEach hcb dir n (i + 1)

theorem sameUsed_lsDir (stack : DirEntry) (path : Path) :
    Always SameUsed (Fat12.lsDir stack path) := by
  have hio : Always Fat12.IoOnly (Fat12.lsDir stack path) := by
    refine .ite (.pure _) (.bind (Fat12.keptIoOnly.resolvePath path) fun r => ?_)
    rcases r with - | ⟨dc, fn⟩
    · exact .pure _
    · refine .ite (.pure _) (.bind (Fat12.keptIoOnly.findInDir dc fn) fun r => ?_)
      rcases r with - | ⟨- | i, e⟩ <;> exact .pure _
  exact hio.mono fun _ _ h => h.sameUsed

theorem keeps_fat12LsEach {cb : Listed → Sh Unit} (hcb : ∀ entry, Always Keeps (cb entry))
    (stack : DirEntry) (path : Path) : Always Keeps (fat12LsEach stack cb path) := by
  refine .bind (keeps_on_fat (sameUsed_lsDir stack path)) fun r => ?_
  cases r with
  | none => exact .pure _
  | some dir =>
    refine .bind (keeps_on_fat ?_) fun g => .bind (keeps_listEach hcb dir _ _) fun _ => .pure _
    exact fun _ _ _ h => (Fat12.Kept.geometry (R := Fat12.IoOnly) _ _ _ h).sameUsed

theorem keeps_cmdLs (stack : DirEntry) (args : Option Path) : Always Keeps (cmdLs stack args) := by
  have heach (path : Path) : Always Keeps
      (fat12LsEach stack (fun entry => shellPuts (lsLine entry)) path) :=
    keeps_fat12LsEach (fun _ => keeps_shellPuts _) stack path
  refine .bind .get fun s => .bind ?_ fun _ => .pure _
  exact .bind (heach _) fun ok => .ite (.pure _) (.ite (heach _) (.pure _))

theorem keeps_cmdCd (args : Option Path) : Always Keeps (cmdCd args) := by
  rcases args with - | - | ⟨c, arg⟩
  · exact .modify fun _ => ⟨rfl, rfl, rfl⟩
  · exact .modify fun _ => ⟨rfl, rfl, rfl⟩
  · intro s u s' h
    obtain ⟨_, s₁, h₁, hrest⟩ := Exec.returns_bind.mp h
    obtain ⟨rfl, rfl⟩ := Exec.returns_get.mp h₁
    split_ifs at hrest
    · obtain ⟨-, rfl⟩ := Exec.returns_pure.mp hrest
      exact refl_of Keeps s'
    · obtain ⟨_, s₂, h₂, hputs⟩ := Exec.returns_bind.mp hrest
      obtain rfl := Exec.returns_set.mp h₂
      have hset : Keeps s₁ { s₁ with cwd := chdir s₁.cwd (some (c :: arg)) } := ⟨rfl, rfl, rfl⟩
      exact trans_of Keeps hset (keeps_shellPuts _ _ _ _ hputs)

section Dispatch

variable {stack : DirEntry} {other : Path → Option Path → Sh Unit}

theorem keeps_commands (ho : ∀ cmd args, Always Keeps (other cmd args)) (cmd : Path)
    (args : Option Path) : Always Keeps (commands stack other cmd args) := by
  refine .ite (keeps_cmdLs stack args) (.ite (keeps_cmdCd args) ?_)
  exact .ite (ho cmd args) (keeps_shellPuts _)

/-- **A command keeps the descriptors.** -/
theorem keeps_dispatch (ho : ∀ cmd args, Always Keeps (other cmd args)) (input : Path) :
    Always Keeps (dispatch (commands stack other) input) := by
  have hbool (op : Path → Fat12.Fat Bool) (hop : ∀ p, Always Fat12.IoOnly (op p))
      (usage failed : String) (args : Option Path) : Always Keeps (cmdPath op usage failed args) :=
    keeps_cmdPath (fun p _ _ _ h => (hop p _ _ _ h).sameUsed) usage failed args
  refine .ite (.pure _) (.bind .get fun s => ?_)
  refine .ite (.modify fun _ => ⟨rfl, rfl, rfl⟩) (.ite (keeps_shellPuts _) ?_)
  refine .ite (hbool _ Fat12.keptIoOnly.fat12Mkdir _ _ _) (.ite (keeps_cmdTouch _) ?_)
  refine .ite (hbool _ Fat12.keptIoOnly.fat12Delete _ _ _) ?_
  refine .ite (hbool _ Fat12.keptIoOnly.fat12Rmdir _ _ _) (.ite (keeps_cmdCat _) ?_)
  exact .ite (keeps_shellPuts _) (.ite (keeps_putsAll _) (keeps_commands ho _ _))

end Dispatch

/-! ## Command lines -/

/-- At the end of a line the tables are in step and the same descriptors are in use; the input and
the output go where they did, or to the keyboard and the screen. -/
structure Tidy (init : ℕ → Bool) (s s' : State) : Prop where
  consistent : s'.ipc.tables.Consistent init
  same : s.ipc.tables.SameOpen s'.ipc.tables
  outFd : s'.outFd = s.outFd ∨ s'.outFd = -1
  inFd : s'.inFd = s.inFd ∨ s'.inFd = -1

section Lines

variable {init : ℕ → Bool} {D : Path → Sh Unit} {left right rest : Path} {u : Unit} {s₁ s₂ s₃ : State}

/-- What keeps the descriptors is tidy. -/
theorem Keeps.tidy (h : Keeps s s') (hs : s.ipc.tables.Consistent init) : Tidy init s s' where
  consistent := h.tables ▸ hs
  same := h.tables ▸ .refl _
  outFd := .inl h.outFd
  inFd := .inl h.inFd

theorem Tidy.trans (h : Tidy init s s₁) (h' : Tidy init s₁ s₂) : Tidy init s s₂ where
  consistent := h'.consistent
  same := h.same.trans h'.same
  outFd := h'.outFd.elim (fun he => he ▸ h.outFd) .inr
  inFd := h'.inFd.elim (fun he => he ▸ h.inFd) .inr

/-- **A file for the output**: no file, or one more descriptor. -/
theorem createCase_cases {n : ℤ} (h : ((fdCreateCase right).on ipcPart).Returns s n s₁) :
    (n < 0 ∧ Keeps s s₁) ∨ ∃ fd k : ℕ, n = fd ∧ k < maxFds ∧ s.ipc.tables.refs fd = none ∧
      s.ipc.tables.fatUsed k = false ∧ s₁.ipc.tables = s.ipc.tables.withFile fd k ∧
      s₁.outFd = s.outFd ∧ s₁.inFd = s.inFd := by
  obtain ⟨i, hi, rfl⟩ := Exec.returns_on.mp h
  rcases Ipc.fdCreateCase_tables hi with ⟨hneg, he⟩ | ⟨fd, -, k, hk, rfl, hfd, hfree, he⟩
  · exact .inl ⟨hneg, he, rfl, rfl⟩
  · exact .inr ⟨fd, k, rfl, hk, hfd, hfree, he, rfl, rfl⟩

/-- A descriptor is closed. -/
theorem returns_fdClose_tables (hs : s.ipc.tables.Consistent init) {fd : ℕ}
    (h : ((fdClose fd).on ipcPart).Returns s u s') :
    s'.ipc.tables = s.ipc.tables.close fd ∧ s'.outFd = s.outFd ∧ s'.inFd = s.inFd := by
  obtain ⟨i, hi, rfl⟩ := Exec.returns_on.mp h
  exact ⟨Ipc.fdClose_tables hs hi, rfl, rfl⟩

/-- **The line `cmd > file`.** -/
theorem tidy_runRedirect (hD : ∀ cmd, Always Keeps (D cmd)) (hs : s.ipc.tables.Consistent init)
    (h : (runRedirect D left right).Returns s u s') : Tidy init s s' := by
  rw [runRedirect] at h
  split_ifs at h
  · exact (keeps_shellPuts _ _ _ _ h).tidy hs
  · exact (keeps_shellPuts _ _ _ _ h).tidy hs
  obtain ⟨n, s₁, h₁, hrest⟩ := Exec.returns_bind.mp h
  rcases createCase_cases h₁ with ⟨hneg, hk⟩ | ⟨fd, k, rfl, hlt, hfd, hfree, ht₁, ho₁, hi₁⟩
  · rw [if_pos hneg] at hrest
    exact (trans_of Keeps hk (keeps_shellPuts _ _ _ _ hrest)).tidy hs
  rw [if_neg (Int.not_lt.mpr (Int.natCast_nonneg fd))] at hrest
  obtain ⟨_, s₂, h₂, hrest⟩ := Exec.returns_bind.mp hrest
  obtain rfl := Exec.returns_modify.mp h₂
  obtain ⟨_, s₃, h₃, hrest⟩ := Exec.returns_bind.mp hrest
  obtain ⟨ht₃, -, hi₃⟩ := hD _ _ _ _ h₃
  obtain ⟨_, s₄, h₄, hclose⟩ := Exec.returns_bind.mp hrest
  obtain rfl := Exec.returns_modify.mp h₄
  -- the command has kept the descriptor, and it is closed
  have htables : s₃.ipc.tables = s.ipc.tables.withFile fd k := ht₃.trans ht₁
  have hcon : s₃.ipc.tables.Consistent init := by
    rw [htables]
    exact hs.withFile hfd hlt hfree
  obtain ⟨ht', ho', hi'⟩ := returns_fdClose_tables (s := { s₃ with outFd := -1 }) hcon hclose
  have hback : s'.ipc.tables = s.ipc.tables := by
    rw [ht', show Ipc.State.tables _ = s₃.ipc.tables from rfl, htables,
      Tables.close_withFile hfd hfree]
  refine ⟨hback ▸ hs, hback ▸ .refl _, .inr ho', .inl ?_⟩
  rw [hi', show State.inFd _ = s₃.inFd from rfl, hi₃]
  exact hi₁

/-- **A pipe for two commands**: no pipe, or two more descriptors. -/
theorem openPipe_cases {r : Option (ℕ × ℕ)} (h : openPipe.Returns s r s₁) :
    (r = none ∧ s₁ = s) ∨ ∃ pid < Ipc.pipeMax, ∃ rfd wfd, r = some (rfd, wfd) ∧ rfd ≠ wfd ∧
      s.ipc.tables.refs rfd = none ∧ s.ipc.tables.refs wfd = none ∧
      s.ipc.tables.pipeUsed pid = false ∧ s₁.ipc.tables = s.ipc.tables.withPipe pid rfd wfd ∧
      s₁.outFd = s.outFd ∧ s₁.inFd = s.inFd := by
  simp only [openPipe, Exec.returns_bind, Exec.returns_get, Exec.returns_set,
    Exec.returns_pure] at h
  obtain ⟨_, s, ⟨rfl, rfl⟩, _, _, rfl, rfl, rfl⟩ := h
  rcases Ipc.fdPipe_tables s.ipc with he | ⟨pid, hpid, rfd, wfd, hr, hne, hrn, hwn, hfree, ht⟩
  · refine .inl ⟨congrArg Prod.fst he, ?_⟩
    rw [he]
  · exact .inr ⟨pid, hpid, rfd, wfd, hr, hne, hrn, hwn, hfree, ht, rfl, rfl⟩

/-- Two commands joined by a pipe, up to where its read end is closed. `f` sends the input, and
perhaps the output, of the second one elsewhere, and `g` takes that back. -/
theorem returns_joined (hD : ∀ cmd, Always Keeps (D cmd)) (hs : s.ipc.tables.Consistent init)
    {wfd : ℕ} {f g : State → State} (hf : ∀ s, (f s).ipc = s.ipc) {k : Sh Unit}
    (h : (do
      modify fun s => { s with outFd := (wfd : ℤ) }
      D left
      modify fun s => { s with outFd := -1 }
      (fdClose wfd).on ipcPart
      modify f
      D right
      modify g
      k : Sh Unit).Returns s u s') :
    ∃ s₁ s₂, k.Returns (g s₂) u s' ∧ s₂.ipc.tables = s.ipc.tables.close wfd ∧ s₁.outFd = -1 ∧
      s₂.outFd = (f s₁).outFd ∧ s₂.inFd = (f s₁).inFd := by
  obtain ⟨_, s₁, h₁, h⟩ := Exec.returns_bind.mp h
  obtain rfl := Exec.returns_modify.mp h₁
  obtain ⟨_, s₂, h₂, h⟩ := Exec.returns_bind.mp h
  have hk₂ := hD _ _ _ _ h₂
  obtain ⟨_, s₃, h₃, h⟩ := Exec.returns_bind.mp h
  obtain rfl := Exec.returns_modify.mp h₃
  obtain ⟨_, s₄, h₄, h⟩ := Exec.returns_bind.mp h
  have hs₂ : s₂.ipc.tables.Consistent init := by
    rw [hk₂.tables]
    exact hs
  obtain ⟨ht₄, ho₄, -⟩ := returns_fdClose_tables (s := { s₂ with outFd := -1 }) hs₂ h₄
  obtain ⟨_, s₅, h₅, h⟩ := Exec.returns_bind.mp h
  obtain rfl := Exec.returns_modify.mp h₅
  obtain ⟨_, s₆, h₆, h⟩ := Exec.returns_bind.mp h
  have hk₆ := hD _ _ _ _ h₆
  obtain ⟨_, s₇, h₇, h⟩ := Exec.returns_bind.mp h
  obtain rfl := Exec.returns_modify.mp h₇
  refine ⟨s₄, s₆, h, ?_, ho₄, hk₆.outFd, hk₆.inFd⟩
  rw [hk₆.tables, hf, ht₄]
  exact congrArg (Tables.close · wfd) hk₂.tables

/-- **The line `cmd1 | cmd2`.** -/
theorem tidy_runPiped (hD : ∀ cmd, Always Keeps (D cmd)) (hs : s.ipc.tables.Consistent init)
    (h : (runPiped D left right).Returns s u s') : Tidy init s s' := by
  rw [runPiped] at h
  split_ifs at h
  · exact (keeps_shellPuts _ _ _ _ h).tidy hs
  · exact (keeps_shellPuts _ _ _ _ h).tidy hs
  obtain ⟨r, s₁, h₁, hrest⟩ := Exec.returns_bind.mp h
  rcases openPipe_cases h₁ with ⟨rfl, rfl⟩ | ⟨pid, hpid, rfd, wfd, rfl, hne, hr, hw, hfree, ht₁, -⟩
  · exact (keeps_shellPuts _ _ _ _ hrest).tidy hs
  have hs₁ : s₁.ipc.tables.Consistent init := by
    rw [ht₁]
    exact hs.withPipe hr hw hne hpid hfree
  obtain ⟨s₂, s₃, hclose, ht₃, ho₂, ho₃, -⟩ := returns_joined hD hs₁
    (f := fun s => { s with inFd := (rfd : ℤ) }) (g := fun s => { s with inFd := -1 })
    (fun _ => rfl) hrest
  have hs₃ : s₃.ipc.tables.Consistent init := by
    rw [ht₃]
    exact hs₁.close wfd
  obtain ⟨ht', ho', hi'⟩ := returns_fdClose_tables (s := { s₃ with inFd := -1 }) hs₃ hclose
  have hback : s'.ipc.tables = ((s.ipc.tables.withPipe pid rfd wfd).close wfd).close rfd := by
    rw [ht', show Ipc.State.tables _ = s₃.ipc.tables from rfl, ht₃, ht₁]
  refine ⟨?_, ?_, .inr ?_, .inr hi'⟩
  · rw [ht']
    exact hs₃.close rfd
  · rw [hback]
    exact hs.close_withPipe hr hw hne hpid hfree
  · rw [ho', show State.outFd _ = s₃.outFd from rfl, ho₃]
    exact ho₂

/-- **The line `cmd1 | cmd2 > file`.** -/
theorem tidy_runBoth (hD : ∀ cmd, Always Keeps (D cmd)) (hs : s.ipc.tables.Consistent init)
    (h : (runBoth D left rest).Returns s u s') : Tidy init s s' := by
  obtain ⟨n, s₁, h₁, hrest⟩ := Exec.returns_bind.mp h
  rcases createCase_cases h₁ with ⟨hneg, hk⟩ | ⟨fd, k, rfl, hlt, hfd, hfat, ht₁, ho₁, hi₁⟩
  · rw [if_pos hneg] at hrest
    exact (trans_of Keeps hk (keeps_shellPuts _ _ _ _ hrest)).tidy hs
  rw [if_neg (Int.not_lt.mpr (Int.natCast_nonneg fd))] at hrest
  have hs₁ : s₁.ipc.tables.Consistent init := by
    rw [ht₁]
    exact hs.withFile hfd hlt hfat
  have hfile : s₁.ipc.tables.close fd = s.ipc.tables := by
    rw [ht₁, Tables.close_withFile hfd hfat]
  obtain ⟨r, s₂, h₂, hpiped⟩ := Exec.returns_bind.mp hrest
  rcases openPipe_cases h₂ with ⟨rfl, rfl⟩ | ⟨pid, hpid, rfd, wfd, rfl, hne, hr, hw, hfree, ht₂, -⟩
  · obtain ⟨_, s₃, h₃, hclose⟩ := Exec.returns_bind.mp hpiped
    have hk₃ := keeps_shellPuts _ _ _ _ h₃
    have hs₃ : s₃.ipc.tables.Consistent init := by
      rw [hk₃.tables]
      exact hs₁
    obtain ⟨ht', ho', hi'⟩ := returns_fdClose_tables hs₃ hclose
    have hback : s'.ipc.tables = s.ipc.tables := by rw [ht', hk₃.tables, hfile]
    refine ⟨hback ▸ hs, hback ▸ .refl _, .inl ?_, .inl ?_⟩
    · rw [ho', hk₃.outFd, ho₁]
    · rw [hi', hk₃.inFd, hi₁]
  have hs₂ : s₂.ipc.tables.Consistent init := by
    rw [ht₂]
    exact hs₁.withPipe hr hw hne hpid hfree
  obtain ⟨s₃, s₄, hends, ht₄, -, -, -⟩ := returns_joined hD hs₂
    (f := fun s => { s with inFd := (rfd : ℤ), outFd := (fd : ℤ) })
    (g := fun s => { s with inFd := -1, outFd := -1 }) (fun _ => rfl) hpiped
  have hs₄ : s₄.ipc.tables.Consistent init := by
    rw [ht₄]
    exact hs₂.close wfd
  obtain ⟨_, s₅, h₅, hclose⟩ := Exec.returns_bind.mp hends
  obtain ⟨ht₅, ho₅, hi₅⟩ :=
    returns_fdClose_tables (s := { s₄ with inFd := -1, outFd := -1 }) hs₄ h₅
  have hs₅ : s₅.ipc.tables.Consistent init := by
    rw [ht₅]
    exact hs₄.close rfd
  obtain ⟨ht', ho', hi'⟩ := returns_fdClose_tables hs₅ hclose
  have hpipe : s₁.ipc.tables.SameOpen s₅.ipc.tables := by
    rw [ht₅, show Ipc.State.tables _ = s₄.ipc.tables from rfl, ht₄, ht₂]
    exact hs₁.close_withPipe hr hw hne hpid hfree
  refine ⟨?_, ?_, .inr (ho'.trans ho₅), .inr (hi'.trans hi₅)⟩
  · rw [ht']
    exact hs₅.close fd
  · rw [ht', ← hfile]
    exact hpipe.close fd

/-- **A command line gives back what it takes.** -/
theorem tidy_runPipeline (hD : ∀ cmd, Always Keeps (D cmd)) (hs : s.ipc.tables.Consistent init)
    {input : Path} (h : (runPipeline D input).Returns s u s') : Tidy init s s' := by
  unfold runPipeline at h
  cases hp : findOp input 124 with
  | none =>
    rw [hp] at h
    cases hr : findOp input 62 with
    | none =>
      rw [hr] at h
      exact (hD _ _ _ _ h).tidy hs
    | some i =>
      rw [hr] at h
      exact tidy_runRedirect hD hs h
  | some i =>
    rw [hp] at h
    cases hr : findOp input 62 with
    | none =>
      rw [hr] at h
      exact tidy_runPiped hD hs h
    | some j =>
      rw [hr] at h
      exact tidy_runBoth hD hs h

end Lines

/-! ## Sessions -/

/-- A session: command lines, one after the other. -/
def runLines (D : Path → Sh Unit) : List Path → Sh Unit
  | [] => pure ()
  | line :: more => do
    runPipeline D line
    runLines D more

section Session

variable {init : ℕ → Bool} {stack : DirEntry} {other : Path → Option Path → Sh Unit}

/-- **A session leaks no descriptor**: after any command lines, the next descriptor, pipe and FAT12
descriptor to be taken are those that would have been taken before, the tables are in step, and the
output and the input go to the screen and come from the keyboard. -/
theorem session_tidy (ho : ∀ cmd args, Always Keeps (other cmd args))
    (hs : s.ipc.tables.Consistent init) (hout : s.outFd = -1) (hin : s.inFd = -1) {more : List Path}
    (h : (runLines (dispatch (commands stack other)) more).Returns s () s') :
    s'.ipc.tables.Consistent init ∧ s.ipc.tables.SameOpen s'.ipc.tables ∧
      (s'.ipc.allocFd = s.ipc.allocFd ∧ s'.ipc.allocPipe = s.ipc.allocPipe ∧
        s'.ipc.fat.vol.freeFd = s.ipc.fat.vol.freeFd) ∧
      s'.outFd = -1 ∧ s'.inFd = -1 := by
  suffices htidy : Tidy init s s' by
    refine ⟨htidy.consistent, htidy.same, Ipc.SameOpen.free htidy.same, ?_, ?_⟩
    · exact htidy.outFd.elim (fun he => he.trans hout) id
    · exact htidy.inFd.elim (fun he => he.trans hin) id
  clear hout hin
  -- by induction on the lines
  induction more generalizing s with
  | nil =>
    obtain ⟨-, rfl⟩ := Exec.returns_pure.mp h
    exact (refl_of Keeps s').tidy hs
  | cons line more ih =>
    obtain ⟨_, s₁, h₁, hrest⟩ := Exec.returns_bind.mp h
    have htidy := tidy_runPipeline (keeps_dispatch ho) hs h₁
    exact htidy.trans (ih htidy.consistent hrest)

end Session

/-- The theorem at a session that writes a file and reads it through a pipe. -/
theorem session_tidy_echo : ∃ s', (runLines (dispatch (commands .zero fun _ _ => pure ()))
      [ascii "echo hi > G", ascii "cat G | cat"]).Returns (fileShell 3) () s' ∧
    s'.ipc.allocFd = some 3 ∧ s'.ipc.allocPipe = some 0 ∧ s'.ipc.fat.vol.freeFd = some 0 := by
  have hsome : ((runLines (dispatch (commands .zero fun _ _ => pure ()))
      [ascii "echo hi > G", ascii "cat G | cat"]).run 30 (fileShell 3)).isSome = true := by
    decide +kernel
  obtain ⟨⟨u, s'⟩, hs'⟩ := Option.isSome_iff_exists.mp hsome
  have hrun : (runLines (dispatch (commands .zero fun _ _ => pure ()))
      [ascii "echo hi > G", ascii "cat G | cat"]).Returns (fileShell 3) () s' := ⟨30, hs'⟩
  have hcon := Ipc.consistent_fdInit { Ipc.State.zero with fat := (Fat12.fileVolume 3).driver }
  obtain ⟨-, -, ⟨hfd, hpipe, hfat⟩, -⟩ := session_tidy (s := fileShell 3)
    (fun _ _ => Always.pure ()) hcon rfl rfl hrun
  exact ⟨s', hrun, hfd.trans (by decide +kernel), hpipe.trans (by decide +kernel),
    hfat.trans (by decide +kernel)⟩

end WarkRune.Shell

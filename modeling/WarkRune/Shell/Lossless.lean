import WarkRune.Ipc.Fifo
import WarkRune.Shell.Pipeline

/-!
# What a pipeline keeps

The first command of `cmd1 | cmd2` runs to its end before the second one starts, and `shell_puts`
looks at no result of `fd_write`. So the pipe keeps the first 512 bytes of what the first command
prints, and the second command reads those.

## Main definitions

* `Emits`: a run that prints strings, and otherwise leaves the pipe alone
* `Drains`: a run that reads a descriptor until it reports the end of the input
* `lines`: the strings, each followed by a newline

## Main results

* `Emits.pending`: what the pipe holds after a run
* `Drains.eq_pending`: what is read from it
* `pipeline_lossless_iff`: nothing is lost exactly when everything printed fits the pipe
-/

namespace WarkRune.Shell

open Fat12 (Path cString)
open Ipc (fdWrite fdRead fdClose fdPipe pipeBuf ReadEnd Ends pending)
open Queue (offer offer_take poll)

variable {s s' s₁ : State} {rfd wfd pid : ℕ}

/-- The read end and its pipe are as they were. -/
structure Spares (rfd : ℕ) (s s' : State) : Prop where
  reader : s'.ipc.fds rfd = s.ipc.fds rfd
  pipe : s'.ipc.pipes (s.ipc.fds rfd).pipeId.toNat = s.ipc.pipes (s.ipc.fds rfd).pipeId.toNat

/-- The run of a command that prints the strings, with steps between that leave the pipe, its ends
and `g_out_fd` alone. -/
inductive Emits (rfd wfd : ℕ) : State → List Path → State → Prop
  | done (s : State) : Emits rfd wfd s [] s
  | puts {s s₁ s' : State} {buf : Path} {strs : List Path} (h : (shellPuts buf).Returns s () s₁)
      (hs : Emits rfd wfd s₁ strs s') : Emits rfd wfd s (cString buf :: strs) s'
  | other {s s₁ s' : State} {strs : List Path} (h : Spares rfd s s₁)
      (hw : s₁.ipc.fds wfd = s.ipc.fds wfd) (ho : s₁.outFd = s.outFd)
      (hs : Emits rfd wfd s₁ strs s') : Emits rfd wfd s strs s'

/-- Reading the descriptor until the end of the input is reported, with steps between that leave it
and its pipe alone. -/
inductive Drains (rfd : ℕ) : State → Path → State → Prop
  | eof {s s' : State} {n : ℕ} (hn : 0 < n)
      (h : ((fdRead rfd n).on ipcPart).Returns s (0, []) s') : Drains rfd s [] s'
  | more {s s₁ s' : State} {n : ℕ} {r : ℤ} {out rest : Path} (hn : 0 < n)
      (h : ((fdRead rfd n).on ipcPart).Returns s (r, out) s₁) (hr : 0 < r)
      (hs : Drains rfd s₁ rest s') : Drains rfd s (out ++ rest) s'
  | other {s s₁ s' : State} {rest : Path} (h : Spares rfd s s₁) (hs : Drains rfd s₁ rest s') :
      Drains rfd s rest s'

/-- The strings, each followed by a newline. -/
def lines (strs : List Path) : Path := strs.flatMap fun str => str ++ [10]

theorem lines_cons (str : Path) (strs : List Path) : lines (str :: strs) = str ++ [10] ++ lines strs :=
  rfl

/-! ## The first command -/

/-- The output goes to the write end of the pipe. -/
structure Piped (s : State) (pid rfd wfd : ℕ) : Prop where
  ends : Ends s.ipc pid rfd wfd false
  outFd : s.outFd = wfd

/-- A write to the pipe takes what fits. -/
theorem Piped.write (h : Piped s pid rfd wfd) {src : Path} {n : ℤ}
    (hw : ((fdWrite wfd src).on ipcPart).Returns s n s') : Piped s' pid rfd wfd ∧
      pending s'.ipc pid = (offer pipeBuf (pending s.ipc pid) src).2 := by
  obtain ⟨t, ht, rfl⟩ := Exec.returns_on.mp hw
  obtain ⟨t', ht', hends, hq⟩ := h.ends.write rfl src
  obtain ⟨-, rfl⟩ := ht.det ht'
  exact ⟨⟨hends, h.outFd⟩, hq⟩

/-- **`shell_puts` into the pipe** adds the string and a newline, as far as they fit. -/
theorem Piped.puts (h : Piped s pid rfd wfd) {buf kept : Path}
    (hq : pending s.ipc pid = kept.take pipeBuf) (hp : (shellPuts buf).Returns s () s') :
    Piped s' pid rfd wfd ∧ pending s'.ipc pid = (kept ++ (cString buf ++ [10])).take pipeBuf := by
  simp only [shellPuts, Exec.returns_bind, Exec.returns_get] at hp
  obtain ⟨_, s, ⟨rfl, rfl⟩, hp⟩ := hp
  rw [h.outFd, if_pos (Int.natCast_nonneg _)] at hp
  obtain ⟨_, s₁, h₁, hp⟩ := Exec.returns_bind.mp hp
  obtain ⟨_, s₂, h₂, hp⟩ := Exec.returns_bind.mp hp
  obtain ⟨-, rfl⟩ := Exec.returns_pure.mp hp
  obtain ⟨hp₁, hq₁⟩ := h.write h₁
  obtain ⟨hp₂, hq₂⟩ := hp₁.write h₂
  refine ⟨hp₂, ?_⟩
  rw [hq₂, hq₁, hq, offer_take, offer_take, List.append_assoc]

/-- A step that leaves the pipe alone. -/
theorem Piped.other (h : Piped s pid rfd wfd) (hs : Spares rfd s s')
    (hw : s'.ipc.fds wfd = s.ipc.fds wfd) (ho : s'.outFd = s.outFd) :
    Piped s' pid rfd wfd ∧ pending s'.ipc pid = pending s.ipc pid := by
  have hpid : (s.ipc.fds rfd).pipeId.toNat = pid := by
    rw [h.ends.reader]
    rfl
  have hpipe : s'.ipc.pipes pid = s.ipc.pipes pid := hpid ▸ hs.pipe
  have he := h.ends
  refine ⟨⟨⟨⟨he.rfd_lt, hs.reader.trans he.reader, ?_⟩, he.ne, he.wfd_lt, hw.trans he.writer, ?_⟩,
    ho.trans h.outFd⟩, ?_⟩
  · rw [hpipe]
    exact he.ok
  · rw [hpipe]
    exact he.flag
  · rw [pending, hpipe]
    rfl

/-- **After a run the pipe holds the first 512 bytes** of what was printed. -/
theorem Emits.pending {strs : List Path} (he : Emits rfd wfd s strs s')
    (h : Piped s pid rfd wfd) {kept : Path} (hq : pending s.ipc pid = kept.take pipeBuf) :
    Piped s' pid rfd wfd ∧ pending s'.ipc pid = (kept ++ lines strs).take pipeBuf := by
  induction he generalizing kept with
  | done s => exact ⟨h, by rw [hq, lines, List.flatMap_nil, List.append_nil]⟩
  | puts hp _ ih =>
    obtain ⟨h₁, hq₁⟩ := h.puts hq hp
    obtain ⟨h', hq'⟩ := ih h₁ hq₁
    refine ⟨h', ?_⟩
    rw [hq', lines_cons, List.append_assoc, List.append_assoc]
  | other hs hw ho _ ih =>
    obtain ⟨h₁, hq₁⟩ := h.other hs hw ho
    exact ih h₁ (hq₁.trans hq)

/-- Strings printed one after the other. -/
theorem emits_putsAll {bufs : List Path} (h : (putsAll bufs).Returns s () s') :
    Emits rfd wfd s (bufs.map cString) s' := by
  induction bufs generalizing s with
  | nil =>
    obtain ⟨-, rfl⟩ := Exec.returns_pure.mp h
    exact .done _
  | cons buf bufs ih =>
    obtain ⟨_, s₁, hp, h⟩ := Exec.returns_bind.mp h
    exact .puts hp (ih h)

/-! ## The second command -/

/-- **What is read until the end is what the pipe holds.** -/
theorem Drains.eq_pending {out : Path} (hd : Drains rfd s out s') (h : ReadEnd s.ipc pid rfd) :
    out = pending s.ipc pid := by
  induction hd with
  | @eof s s' n hn hr =>
    obtain ⟨t, ht, rfl⟩ := Exec.returns_on.mp hr
    obtain ⟨t', ht', -⟩ := h.read n
    obtain ⟨he, -⟩ := ht.det ht'
    have hlen : ((poll (Ipc.pending s.ipc pid) n).1.length : ℤ) = 0 := (Prod.mk.inj he).1.symm
    rw [poll, List.length_take] at hlen
    exact (List.eq_nil_of_length_eq_zero (by omega)).symm
  | @more s s₁ s' n r out rest hn hr hpos _ ih =>
    obtain ⟨t, ht, rfl⟩ := Exec.returns_on.mp hr
    obtain ⟨t', ht', h', hq, -⟩ := h.read n
    obtain ⟨he, rfl⟩ := ht.det ht'
    obtain ⟨-, rfl⟩ := Prod.mk.inj he
    rw [ih h']
    exact (congrArg _ hq).trans (List.take_append_drop n _)
  | @other s s₁ s' rest hs _ ih =>
    have hpid : (s.ipc.fds rfd).pipeId.toNat = pid := by
      rw [h.reader]
      rfl
    have hpipe : s₁.ipc.pipes pid = s.ipc.pipes pid := hpid ▸ hs.pipe
    rw [ih ⟨h.rfd_lt, hs.reader.trans h.reader, hpipe ▸ h.ok⟩, pending, hpipe]
    rfl

/-- Reading until the end returns. -/
theorem exists_drains (h : ReadEnd s.ipc pid rfd) : ∃ s', Drains rfd s (pending s.ipc pid) s' := by
  obtain ⟨t, ht, h', hq, -⟩ := h.read pipeBuf
  have hall : (pending s.ipc pid).take pipeBuf = pending s.ipc pid :=
    List.take_of_length_le h.length_le
  have hnone : (pending s.ipc pid).drop pipeBuf = [] := List.drop_of_length_le h.length_le
  rw [poll, hall] at ht
  rw [poll, hnone] at hq
  have hbuf : 0 < pipeBuf := Nat.zero_lt_succ 511
  have hread : ((fdRead rfd pipeBuf).on ipcPart).Returns s
      (((pending s.ipc pid).length : ℕ), pending s.ipc pid) (ipcPart.put t s) :=
    Exec.returns_on.mpr ⟨t, ht, rfl⟩
  obtain ⟨t₂, ht₂, -⟩ := h'.read pipeBuf
  rw [hq, Queue.poll_nil] at ht₂
  have heof : Drains rfd (ipcPart.put t s) [] (ipcPart.put t₂ (ipcPart.put t s)) :=
    .eof hbuf (Exec.returns_on.mpr ⟨t₂, ht₂, rfl⟩)
  by_cases hnil : pending s.ipc pid = []
  · rw [hnil] at hread ⊢
    exact ⟨_, .eof hbuf hread⟩
  · have hpos : 0 < (pending s.ipc pid).length := List.length_pos_iff.mpr hnil
    have hd := Drains.more hbuf hread (by exact_mod_cast hpos) heof
    rw [List.append_nil] at hd
    exact ⟨_, hd⟩

/-! ## The command line -/

/-- **Where the second command of `cmd1 | cmd2` starts**: the first has run, its end of the pipe is
closed, and the input is the other end. -/
theorem returns_runPiped {dispatch : Path → Sh Unit} {left right : Path} {t u : Ipc.State}
    (hl : left ≠ []) (hr : right ≠ []) (hp : fdPipe s.ipc = (some (rfd, wfd), t))
    (hrun : (dispatch left).Returns { s with ipc := t, outFd := wfd } () s₁)
    (hclose : (fdClose wfd).Returns s₁.ipc () u) :
    (runPiped dispatch left right).Returns s () s' ↔ ∃ s₃,
      (dispatch right).Returns { s₁ with ipc := u, outFd := -1, inFd := rfd } () s₃ ∧
        ((fdClose rfd).on ipcPart).Returns { s₃ with inFd := -1 } () s' := by
  -- each of the steps up to the second command is determined
  have hopen : openPipe.Returns s (some (rfd, wfd)) { s with ipc := t } := by
    simp only [openPipe, Exec.returns_bind, Exec.returns_get, Exec.returns_set, Exec.returns_pure]
    exact ⟨s, s, ⟨rfl, rfl⟩, (), _, rfl, by rw [hp], by rw [hp]⟩
  have hclose' : ((fdClose wfd).on ipcPart).Returns { s₁ with outFd := -1 } ()
      { s₁ with ipc := u, outFd := -1 } :=
    Exec.returns_on.mpr ⟨u, hclose, rfl⟩
  rw [runPiped, if_neg hl, if_neg hr]
  constructor
  · intro h
    obtain ⟨e, s₂, h₁, h⟩ := Exec.returns_bind.mp h
    obtain ⟨rfl, rfl⟩ := h₁.det hopen
    obtain ⟨_, s₂, h₁, h⟩ := Exec.returns_bind.mp h
    obtain rfl := Exec.returns_modify.mp h₁
    obtain ⟨_, s₂, h₁, h⟩ := Exec.returns_bind.mp h
    obtain ⟨-, rfl⟩ := h₁.det hrun
    obtain ⟨_, s₂, h₁, h⟩ := Exec.returns_bind.mp h
    obtain rfl := Exec.returns_modify.mp h₁
    obtain ⟨_, s₂, h₁, h⟩ := Exec.returns_bind.mp h
    obtain ⟨-, rfl⟩ := h₁.det hclose'
    obtain ⟨_, s₂, h₁, h⟩ := Exec.returns_bind.mp h
    obtain rfl := Exec.returns_modify.mp h₁
    obtain ⟨_, s₃, h₃, h⟩ := Exec.returns_bind.mp h
    obtain ⟨_, s₂, h₁, h⟩ := Exec.returns_bind.mp h
    obtain rfl := Exec.returns_modify.mp h₁
    exact ⟨s₃, h₃, h⟩
  · rintro ⟨s₃, h₃, h⟩
    refine Exec.returns_bind.mpr ⟨_, _, hopen, ?_⟩
    refine Exec.returns_bind.mpr ⟨(), _, Exec.returns_modify.mpr rfl, ?_⟩
    refine Exec.returns_bind.mpr ⟨(), s₁, hrun, ?_⟩
    refine Exec.returns_bind.mpr ⟨(), _, Exec.returns_modify.mpr rfl, ?_⟩
    refine Exec.returns_bind.mpr ⟨(), _, hclose', ?_⟩
    refine Exec.returns_bind.mpr ⟨(), _, Exec.returns_modify.mpr rfl, ?_⟩
    refine Exec.returns_bind.mpr ⟨(), s₃, h₃, ?_⟩
    exact Exec.returns_bind.mpr ⟨(), _, Exec.returns_modify.mpr rfl, h⟩

/-- The first command has a new pipe to print to. -/
theorem piped_of_fdPipe {t : Ipc.State} (hp : fdPipe s.ipc = (some (rfd, wfd), t)) : ∃ pid,
    Piped { s with ipc := t, outFd := wfd } pid rfd wfd ∧ pending t pid = [] := by
  rcases Ipc.fdPipe_cases s.ipc with hnone | ⟨pid, r, w, hsome, -, -, hr, hw, hne, -, -⟩
  · rw [hnone] at hp
    cases hp
  · have hnew : Ends (s.ipc.withPipe pid r w) pid r w false ∧
        pending (s.ipc.withPipe pid r w) pid = [] :=
      Ipc.ends_withPipe s.ipc hr hw hne
    obtain ⟨hends, hq⟩ := hnew
    obtain ⟨he, rfl⟩ := Prod.mk.inj (hsome.symm.trans hp)
    obtain ⟨rfl, rfl⟩ := Prod.mk.inj (Option.some.inj he)
    exact ⟨pid, ⟨hends, rfl⟩, hq⟩

/-- **What the second command reads** is the first 512 bytes of what the first one has printed. -/
theorem drains_pipeline {strs : List Path} {t : Ipc.State}
    (hp : fdPipe s.ipc = (some (rfd, wfd), t))
    (hemit : Emits rfd wfd { s with ipc := t, outFd := wfd } strs s₁) : ∃ u,
      (fdClose wfd).Returns s₁.ipc () u ∧
        (∃ out s', Drains rfd { s₁ with ipc := u, outFd := -1, inFd := rfd } out s') ∧
        ∀ out s', Drains rfd { s₁ with ipc := u, outFd := -1, inFd := rfd } out s' →
          out = (lines strs).take 512 := by
  obtain ⟨pid, hpiped, hnil⟩ := piped_of_fdPipe hp
  have hkept : pending t pid = ([] : Path).take pipeBuf := hnil.trans List.take_nil.symm
  obtain ⟨h₁, hq₁⟩ := hemit.pending hpiped hkept
  obtain ⟨u, hclose, hends, hq⟩ := h₁.ends.close
  obtain ⟨s', hd⟩ := exists_drains (s := { s₁ with ipc := u, outFd := -1, inFd := rfd })
    hends.toReadEnd
  exact ⟨u, hclose, ⟨_, s', hd⟩, fun out s' hd =>
    (hd.eq_pending hends.toReadEnd).trans (hq.trans hq₁)⟩

/-- **A pipeline loses nothing exactly when everything printed fits the pipe**: on a line
`cmd1 | cmd2` whose first command prints the strings, the second command starts where reading its
input until the end gives the strings, each followed by a newline, exactly when these are at most
512 bytes in all. -/
theorem pipeline_lossless_iff {dispatch : Path → Sh Unit} {input : Path} {i : ℕ}
    {strs : List Path} {t : Ipc.State} (hpipe : findOp input 124 = some i)
    (hredir : findOp input 62 = none) (hl : before input i ≠ []) (hr : behind input (i + 1) ≠ [])
    (hp : fdPipe s.ipc = (some (rfd, wfd), t))
    (hrun : (dispatch (before input i)).Returns { s with ipc := t, outFd := wfd } () s₁)
    (hemit : Emits rfd wfd { s with ipc := t, outFd := wfd } strs s₁) : ∃ s₂, s₂.inFd = (rfd : ℤ) ∧
      (∀ s', (runPipeline dispatch input).Returns s () s' ↔ ∃ s₃,
        (dispatch (behind input (i + 1))).Returns s₂ () s₃ ∧
          ((fdClose rfd).on ipcPart).Returns { s₃ with inFd := -1 } () s') ∧
      (∃ out s', Drains rfd s₂ out s') ∧
      ((∀ out s', Drains rfd s₂ out s' → out = lines strs) ↔ (lines strs).length ≤ 512) := by
  -- the first command ends before the second one starts, so only what fits the pipe is left
  obtain ⟨u, hclose, hex, hall⟩ := drains_pipeline hp hemit
  refine ⟨{ s₁ with ipc := u, outFd := -1, inFd := rfd }, rfl, fun s' => ?_, hex, ?_⟩
  · rw [runPipeline, hpipe, hredir]
    exact returns_runPiped hl hr hp hrun hclose
  · constructor
    · intro h
      obtain ⟨out, s', hd⟩ := hex
      have htake : (lines strs).take 512 = lines strs := (hall out s' hd).symm.trans (h out s' hd)
      rw [← htake, List.length_take]
      exact Nat.min_le_left _ _
    · intro hlen out s' hd
      rw [hall out s' hd, List.take_of_length_le hlen]

theorem returns_get_bind {α : Type} {m : Sh α} {a : α}
    (h : (get >>= fun _ => m : Sh α).Returns s a s') : m.Returns s a s' := by
  obtain ⟨_, s₁, h₁, h⟩ := Exec.returns_bind.mp h
  obtain ⟨-, rfl⟩ := Exec.returns_get.mp h₁
  exact h

/-- The command `help`. -/
theorem dispatch_help (other : Path → Option Path → Sh Unit) :
    dispatch other (ascii "help") = get >>= fun _ => cmdHelp := by
  have hcmd : ((ascii "help").takeWhile (· ≠ 32)).take 31 = ascii "help" := by decide +kernel
  have hscreen : ascii "help" ∉ [ascii "fire", ascii "freedom", ascii "exec", ascii "clear"] := by
    decide +kernel
  have hnames : ∀ c ∈ ["pwd", "mkdir", "touch", "rm", "rmdir", "cat", "echo"],
      ascii "help" ≠ ascii c := by
    decide +kernel
  simp only [List.mem_cons, forall_eq_or_imp] at hnames
  rw [dispatch, if_neg (by decide +kernel), hcmd]
  simp only [hscreen, hnames, and_false, if_false, if_true]

/-- The command `echo`. -/
theorem dispatch_echo_hi (other : Path → Option Path → Sh Unit) :
    dispatch other (ascii "echo hi") = get >>= fun _ => shellPuts (ascii "hi") := by
  have hcmd : ((ascii "echo hi").takeWhile (· ≠ 32)).take 31 = ascii "echo" := by decide +kernel
  have hargs : (ascii "echo hi").drop (ascii "echo").length = 32 :: ascii "hi" := by decide +kernel
  have hscreen : ascii "echo" ∉ [ascii "fire", ascii "freedom", ascii "exec", ascii "clear"] := by
    decide +kernel
  have hnames : ∀ c ∈ ["pwd", "mkdir", "touch", "rm", "rmdir", "cat"], ascii "echo" ≠ ascii c := by
    decide +kernel
  simp only [List.mem_cons, forall_eq_or_imp] at hnames
  rw [dispatch, if_neg (by decide +kernel), hcmd]
  simp only [hargs, hscreen, hnames, and_false, if_false, if_true, Option.getD_some]

/-- The shell after its start. -/
def State.zero : State where
  ipc := Ipc.fdInit .zero
  cwd := [47]
  serialMode := false
  outFd := -1
  inFd := -1
  shown := []

theorem fdPipe_zero : fdPipe State.zero.ipc = (some (3, 4), (fdPipe State.zero.ipc).2) :=
  Prod.ext (by decide +kernel) rfl

/-- The theorem at the line `echo hi | cat`. -/
theorem pipeline_lossless_echo : ∃ s₁ s₂, s₂.inFd = 3 ∧
    (dispatch (fun _ _ => pure ()) (ascii "echo hi")).Returns
      { State.zero with ipc := (fdPipe State.zero.ipc).2, outFd := 4 } () s₁ ∧
    ∀ out s', Drains 3 s₂ out s' → out = lines [ascii "hi"] := by
  let s₀ : State := { State.zero with ipc := (fdPipe State.zero.ipc).2, outFd := 4 }
  have hsome : ((dispatch (fun _ _ => pure ()) (ascii "echo hi")).run 1 s₀).isSome = true := by
    decide +kernel
  obtain ⟨⟨_, s₁⟩, hs₁⟩ := Option.isSome_iff_exists.mp hsome
  have hrun : (dispatch (fun _ _ => pure ()) (ascii "echo hi")).Returns s₀ () s₁ := ⟨1, hs₁⟩
  have hputs := hrun
  rw [dispatch_echo_hi] at hputs
  have hemit : Emits 3 4 s₀ [ascii "hi"] s₁ := .puts (returns_get_bind hputs) (.done s₁)
  have hleft : before (ascii "echo hi | cat") 8 = ascii "echo hi" := by decide +kernel
  have hpos : findOp (ascii "echo hi | cat") 124 = some 8 := by decide +kernel
  obtain ⟨s₂, hin, -, -, hiff⟩ := pipeline_lossless_iff hpos (by decide +kernel)
    (by decide +kernel) (by decide +kernel) fdPipe_zero (hleft ▸ hrun) hemit
  exact ⟨s₁, s₂, hin, hrun, hiff.mpr (by decide +kernel)⟩

/-- On the line `help | cat` the last two bytes are lost. -/
theorem pipeline_help_cut : ∃ s₁ u out s',
    (dispatch (fun _ _ => pure ()) (before (ascii "help | cat") 5)).Returns
      { State.zero with ipc := (fdPipe State.zero.ipc).2, outFd := 4 } () s₁ ∧
    Emits 3 4 { State.zero with ipc := (fdPipe State.zero.ipc).2, outFd := 4 } helpLines s₁ ∧
    (fdClose 4).Returns s₁.ipc () u ∧
    Drains 3 { s₁ with ipc := u, outFd := -1, inFd := 3 } out s' ∧ out ≠ lines helpLines ∧
    out.length = 512 ∧ (lines helpLines).length = 514 := by
  let s₀ : State := { State.zero with ipc := (fdPipe State.zero.ipc).2, outFd := 4 }
  have hsome : ((dispatch (fun _ _ => pure ()) (ascii "help")).run 1 s₀).isSome = true := by
    decide +kernel
  obtain ⟨⟨_, s₁⟩, hs₁⟩ := Option.isSome_iff_exists.mp hsome
  have hrun : (dispatch (fun _ _ => pure ()) (ascii "help")).Returns s₀ () s₁ := ⟨1, hs₁⟩
  have hputs := hrun
  rw [dispatch_help] at hputs
  have hstr : helpLines.map cString = helpLines := by decide +kernel
  have hemit : Emits 3 4 s₀ helpLines s₁ := by
    rw [← hstr]
    exact emits_putsAll (returns_get_bind hputs)
  obtain ⟨u, hclose, ⟨out, s', hd⟩, hall⟩ := drains_pipeline fdPipe_zero hemit
  have hlen : (lines helpLines).length = 514 := by decide +kernel
  have hout : out.length = 512 := by
    rw [hall out s' hd, List.length_take, hlen]
    rfl
  have hleft : before (ascii "help | cat") 5 = ascii "help" := by decide +kernel
  refine ⟨s₁, u, out, s', hleft.symm ▸ hrun, hemit, hclose, hd, fun he => ?_, hout, hlen⟩
  rw [he, hlen] at hout
  cases hout

end WarkRune.Shell

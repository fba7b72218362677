import WarkRune.Exec.Tells
import WarkRune.Shell.Lossless

/-!
# How a command line is cut

A command line is cut at its first `|` and its first `>`. Whether it is cut right shows in what it
does beside its commands: the file it creates for the output, and the commands it dispatches, in
order. These are the events of the line; a line that finds no file or no pipe is refused with a
message.

The form `cmd1 > file | cmd2` takes the branch of `cmd1 | cmd2 > file`, which looks for the `>`
behind the `|` and uses the answer -1 as a position.

## Main definitions

* `Calls.runPipeline`: `run_pipeline` with its events
* `CommandLine`: a line in its parts, with its text, its commands and its file
* `Cut`: the events are the commands in order and the file, unless the line is refused
* `Granted`: a file can be created and a pipe opened

## Main results

* `Calls.erase_runPipeline`: without its events it is `runPipeline`
* `runPipeline_cut_iff`: which lines are cut right
-/

namespace WarkRune.Shell

open Fat12 (Path)
open Ipc (fdClose fdPipe fdCreateCase)

/-- What a command line does beside its commands. -/
inductive Call where
  /-- `fd_create_case` of the name behind the `>`. -/
  | create (name : Path)
  /-- The message that there is no file or no pipe. -/
  | refuse
  | dispatch (cmd : Path)
  deriving DecidableEq

namespace Calls

/-- A program of the shell with the calls of a command line. -/
abbrev Told (α : Type) := Traced State Call α

/-- `dispatch` of a command. -/
def run (dispatch : Path → Sh Unit) (cmd : Path) : Told Unit := do
  Traced.emit (.dispatch cmd)
  Traced.lift (dispatch cmd)

/-- `fd_create_case` of a name. -/
def create (name : Path) : Told ℤ := do
  Traced.emit (.create name)
  Traced.lift ((fdCreateCase name).on ipcPart)

/-- A message that refuses the line. -/
def refuse (text : String) : Told Unit := do
  Traced.emit .refuse
  Traced.lift (shellPuts (ascii text))

/-- The line `cmd > file`. -/
def runRedirect (dispatch : Path → Sh Unit) (left right : Path) : Told Unit := do
  if left = [] then Traced.lift (shellPuts (ascii "syntax: missing command before >"))
  else if right = [] then Traced.lift (shellPuts (ascii "syntax: missing filename after >"))
  else
    let fileFd ← create right
    if fileFd < 0 then refuse "redirect: cannot create file"
    else
      modify fun s => { s with outFd := fileFd }
      run dispatch left
      modify fun s => { s with outFd := -1 }
      Traced.lift ((fdClose fileFd).on ipcPart)

/-- The line `cmd1 | cmd2`. -/
def runPiped (dispatch : Path → Sh Unit) (left right : Path) : Told Unit := do
  if left = [] then Traced.lift (shellPuts (ascii "syntax: missing command before |"))
  else if right = [] then Traced.lift (shellPuts (ascii "syntax: missing command after |"))
  else
    match ← Traced.lift openPipe with
    | none => refuse "pipe: failed"
    | some (rfd, wfd) =>
      modify fun s => { s with outFd := wfd }
      run dispatch left
      modify fun s => { s with outFd := -1 }
      Traced.lift ((fdClose wfd).on ipcPart)
      modify fun s => { s with inFd := rfd }
      run dispatch right
      modify fun s => { s with inFd := -1 }
      Traced.lift ((fdClose rfd).on ipcPart)

/-- The line `cmd1 | cmd2 > file`, `rest` being the text behind the `|`. -/
def runBoth (dispatch : Path → Sh Unit) (left rest : Path) : Told Unit := do
  let rp := findOp rest 62
  let cmd2 := before rest (rp.getD 0)
  let fname := behind rest (match rp with | some i => i + 1 | none => 0)
  let fileFd ← create fname
  if fileFd < 0 then refuse "redirect: cannot create file"
  else
    match ← Traced.lift openPipe with
    | none =>
      refuse "pipe: failed"
      Traced.lift ((fdClose fileFd).on ipcPart)
    | some (rfd, wfd) =>
      modify fun s => { s with outFd := wfd }
      run dispatch left
      modify fun s => { s with outFd := -1 }
      Traced.lift ((fdClose wfd).on ipcPart)
      modify fun s => { s with inFd := rfd, outFd := fileFd }
      run dispatch cmd2
      modify fun s => { s with inFd := -1, outFd := -1 }
      Traced.lift ((fdClose rfd).on ipcPart)
      Traced.lift ((fdClose fileFd).on ipcPart)

/-- `run_pipeline` with its calls. -/
def runPipeline (dispatch : Path → Sh Unit) (input : Path) : Told Unit :=
  match findOp input 124, findOp input 62 with
  | none, none => run dispatch input
  | none, some redir => runRedirect dispatch (before input redir) (behind input (redir + 1))
  | some pipe, none => runPiped dispatch (before input pipe) (behind input (pipe + 1))
  | some pipe, some _ => runBoth dispatch (before input pipe) (behind input (pipe + 1))

/-! ## Without the events -/

section Erase

variable {dispatch : Path → Sh Unit} {left right rest : Path}

@[simp] theorem erase_run (cmd : Path) : (run dispatch cmd).erase = dispatch cmd := by
  rw [run, Traced.erase_bind, Traced.erase_emit, pure_bind, Traced.erase_lift]

@[simp] theorem erase_create (name : Path) :
    (create name).erase = (fdCreateCase name).on ipcPart := by
  rw [create, Traced.erase_bind, Traced.erase_emit, pure_bind, Traced.erase_lift]

@[simp] theorem erase_refuse (text : String) : (refuse text).erase = shellPuts (ascii text) := by
  rw [refuse, Traced.erase_bind, Traced.erase_emit, pure_bind, Traced.erase_lift]

theorem erase_runRedirect :
    (runRedirect dispatch left right).erase = Shell.runRedirect dispatch left right := by
  simp only [runRedirect, Shell.runRedirect, Traced.erase_ite, Traced.erase_lift,
    Traced.erase_bind, erase_create, erase_refuse, erase_run, Traced.erase_modify]

theorem erase_runPiped :
    (runPiped dispatch left right).erase = Shell.runPiped dispatch left right := by
  simp only [runPiped, Shell.runPiped, Traced.erase_ite, Traced.erase_lift, Traced.erase_bind]
  congr 3
  funext ends
  rcases ends with _ | ⟨rfd, wfd⟩
  · exact erase_refuse _
  · simp only [Traced.erase_bind, Traced.erase_modify, erase_run, Traced.erase_lift]

theorem erase_runBoth :
    (runBoth dispatch left rest).erase = Shell.runBoth dispatch left rest := by
  simp only [runBoth, Shell.runBoth, Traced.erase_ite, Traced.erase_lift, Traced.erase_bind,
    erase_create, erase_refuse]
  congr 1
  funext fileFd
  congr 2
  funext ends
  rcases ends with _ | ⟨rfd, wfd⟩
  · simp only [Traced.erase_bind, erase_refuse, Traced.erase_lift]
  · simp only [Traced.erase_bind, Traced.erase_modify, erase_run, Traced.erase_lift]

/-- **Without its events** it is `run_pipeline`. -/
theorem erase_runPipeline (input : Path) :
    (runPipeline dispatch input).erase = Shell.runPipeline dispatch input := by
  unfold runPipeline Shell.runPipeline
  rcases findOp input 124 with _ | pipe
  · rcases findOp input 62 with _ | redir
    · exact erase_run _
    · exact erase_runRedirect
  · rcases findOp input 62 with _ | redir
    · exact erase_runPiped
    · exact erase_runBoth

end Erase

/-! ## The order of the calls -/

section Order

variable {dispatch : Path → Sh Unit} {left right rest cmd name : Path} {n : ℕ} {s : State}
  {T : List Call → Option (Unit × State) → Prop}

/-- A command is called, and then it runs, to its end or not. -/
theorem tells_run_bind {f : Unit → Told Unit} (hnone : T [.dispatch cmd] none)
    (h : ∀ s', (f ()).Tells n s' fun es r => T (.dispatch cmd :: es) r) :
    (run dispatch cmd >>= f).Tells n s T := by
  refine .bind (.emit_bind (.lift hnone fun _ s' _ => ?_))
  exact h s'

theorem tells_create_bind {f : ℤ → Told Unit} (hnone : T [.create name] none)
    (h : ∀ fd s', ((fdCreateCase name).on ipcPart).Returns s fd s' →
      (f fd).Tells n s' fun es r => T (.create name :: es) r) :
    (create name >>= f).Tells n s T := by
  refine .bind (.emit_bind (.lift hnone fun fd s' hr => ?_))
  exact h fd s' hr

theorem tells_refuse {text : String} (h : ∀ r, T [.refuse] r) : (refuse text).Tells n s T :=
  .emit_bind (.lift (h _) fun _ _ _ => h _)

end Order

end Calls

/-! ## Right calls -/

/-- The commands among the calls. -/
def dispatched (es : List Call) : List Path :=
  es.filterMap fun e => match e with
    | .dispatch cmd => some cmd
    | _ => none

/-- The files among the calls. -/
def created (es : List Call) : List Path :=
  es.filterMap fun e => match e with
    | .create name => some name
    | _ => none

/-- What a line has called, and whether it has returned: the commands in order and no other file;
in the end all commands and the file, unless the line was refused. -/
structure Cut (cmds : List Path) (file : Option Path) (es : List Call)
    (r : Option (Unit × State)) : Prop where
  order : dispatched es <+: cmds
  names : ∀ name ∈ created es, name ∈ file
  all : r.isSome → dispatched es = cmds ∧ created es = file.toList ∨
    dispatched es = [] ∧ .refuse ∈ es

/-- A file can be created under the name, and a pipe opened behind that. -/
def Granted (name : Path) (s : State) : Prop :=
  ∃ fd s', ((fdCreateCase name).on ipcPart).Returns s fd s' ∧ 0 ≤ fd ∧
    (fdPipe s'.ipc).1.isSome = true

section Branches

open Traced (Tells)

variable {dispatch : Path → Sh Unit} {left right rest : Path} {cmds : List Path} {file : Option Path}
  {es full : List Call} {r : Option (Unit × State)} {n : ℕ} {s : State}

/-- The calls of a line in order, from the first to the last. -/
def Complete (cmds : List Path) (file : Option Path) (full : List Call) : Prop :=
  dispatched full = cmds ∧ created full = file.toList

theorem Complete.cut (h : Complete cmds file full) : Cut cmds file full r := by
  obtain ⟨rfl, hc⟩ := h
  refine ⟨List.prefix_rfl, fun name hname => ?_, fun _ => .inl ⟨rfl, hc⟩⟩
  rw [hc] at hname
  exact Option.mem_toList.mp hname

/-- A line that has not returned has made the first of its calls. -/
theorem Complete.pending (h : Complete cmds file full) (hes : es <+: full) :
    Cut cmds file es none := by
  obtain ⟨rfl, hc⟩ := h
  refine ⟨hes.filterMap _, fun name hname => ?_, nofun⟩
  have hmem := (hes.filterMap _).subset hname
  change name ∈ created full at hmem
  rw [hc] at hmem
  exact Option.mem_toList.mp hmem

/-- A refused line has dispatched nothing. -/
theorem cut_refused (hd : dispatched es = []) (hc : ∀ name ∈ created es, name ∈ file)
    (hr : .refuse ∈ es) : Cut cmds file es r :=
  ⟨hd ▸ List.nil_prefix, hc, fun _ => .inr ⟨hd, hr⟩⟩

theorem runRedirect_cut (hl : left ≠ []) (hr : right ≠ []) :
    (Calls.runRedirect dispatch left right).Tells n s (Cut [left] (some right)) := by
  have hfull : Complete [left] (some right) [.create right, .dispatch left] := ⟨rfl, rfl⟩
  rw [Calls.runRedirect, if_neg hl, if_neg hr]
  refine Calls.tells_create_bind (hfull.pending ⟨_, rfl⟩) fun fd s₁ _ => ?_
  refine Tells.ite (fun _ => ?_) fun _ => .modify_bind ?_
  · exact Calls.tells_refuse fun r => cut_refused rfl (by simp [created]) (by simp)
  · refine Calls.tells_run_bind hfull.cut fun s₂ => .modify_bind ?_
    exact .lift hfull.cut fun _ _ _ => hfull.cut

theorem runPiped_cut (hl : left ≠ []) (hr : right ≠ []) :
    (Calls.runPiped dispatch left right).Tells n s (Cut [left, right] none) := by
  have hfull : Complete [left, right] none [.dispatch left, .dispatch right] := ⟨rfl, rfl⟩
  have hfirst : Cut [left, right] none [.dispatch left] none := hfull.pending ⟨_, rfl⟩
  rw [Calls.runPiped, if_neg hl, if_neg hr]
  refine .lift_bind (hfull.pending List.nil_prefix) fun ends s₁ _ => ?_
  rcases ends with _ | ⟨rfd, wfd⟩
  · exact Calls.tells_refuse fun r => cut_refused rfl (by simp [created]) (by simp)
  · refine .modify_bind (Calls.tells_run_bind hfirst fun s₂ => .modify_bind ?_)
    refine .lift_bind hfirst fun _ s₃ _ => .modify_bind ?_
    refine Calls.tells_run_bind hfull.cut fun s₄ => .modify_bind ?_
    exact .lift hfull.cut fun _ _ _ => hfull.cut

/-- The command behind the `|` of a line with both operators. -/
def secondOf (rest : Path) : Path := before rest ((findOp rest 62).getD 0)

/-- The file of a line with both operators. -/
def fileOf (rest : Path) : Path :=
  behind rest (match findOp rest 62 with | some i => i + 1 | none => 0)

/-- A line with both operators dispatches its two commands where a file and a pipe are granted. -/
theorem runBoth_cut (h : Granted (fileOf rest) s → cmds = [left, secondOf rest]) :
    (Calls.runBoth dispatch left rest).Tells n s (Cut cmds (some (fileOf rest))) := by
  have hfile : ∀ name ∈ created [.create (fileOf rest)], name ∈ some (fileOf rest) := by
    simp [created]
  have hrefused (r : Option (Unit × State)) :
      Cut cmds (some (fileOf rest)) [.create (fileOf rest), .refuse] r :=
    cut_refused rfl hfile (by simp)
  refine Calls.tells_create_bind ⟨List.nil_prefix, hfile, nofun⟩ fun fd s₁ hr => ?_
  refine Tells.ite (fun _ => ?_) fun hfd => ?_
  · exact Calls.tells_refuse hrefused
  · refine .lift_bind ⟨List.nil_prefix, hfile, nofun⟩ fun ends s₂ hpipe => ?_
    rcases ends with _ | ⟨rfd, wfd⟩
    · refine .bind (Calls.tells_refuse fun r => ?_)
      rcases r with _ | r
      · exact hrefused none
      · rw [Tells.then_some]
        apply Tells.lift
        · exact hrefused none
        · exact fun _ _ _ => hrefused _
    · -- the file and the pipe are granted, which decides what the commands are
      have hsome : (fdPipe s₁.ipc).1.isSome = true := by
        simp only [openPipe, Exec.returns_bind, Exec.returns_get, Exec.returns_set,
          Exec.returns_pure] at hpipe
        obtain ⟨_, _, ⟨rfl, rfl⟩, _, _, -, h, -⟩ := hpipe
        rw [← h]
        rfl
      obtain rfl := h ⟨fd, s₁, hr, Int.not_lt.mp hfd, hsome⟩
      have hfull : Complete [left, secondOf rest] (some (fileOf rest))
        [.create (fileOf rest), .dispatch left, .dispatch (secondOf rest)] := ⟨rfl, rfl⟩
      have hfirst : Cut [left, secondOf rest] (some (fileOf rest))
        [.create (fileOf rest), .dispatch left] none := hfull.pending ⟨_, rfl⟩
      -- the first command prints to the pipe, the second one reads it
      refine .modify_bind (Calls.tells_run_bind hfirst fun s₃ => .modify_bind ?_)
      refine .lift_bind hfirst fun _ s₄ _ => .modify_bind ?_
      refine Calls.tells_run_bind hfull.cut fun s₅ => .modify_bind ?_
      refine .lift_bind hfull.cut fun _ s₆ _ => ?_
      exact .lift hfull.cut fun _ _ _ => hfull.cut

/-- A line with both operators begins with its file. -/
theorem emits_create_runBoth (dispatch : Path → Sh Unit) (left rest : Path) :
    (Calls.runBoth dispatch left rest).Emits s (.create (fileOf rest)) :=
  Traced.emits_bind.mpr (.inl (Traced.emits_bind.mpr (.inl (Traced.emits_emit.mpr rfl))))

/-- Where a file and a pipe are granted, it goes on with the first command. -/
theorem emits_dispatch_runBoth (dispatch : Path → Sh Unit) (left : Path)
    (h : Granted (fileOf rest) s) :
    (Calls.runBoth dispatch left rest).Emits s (.dispatch left) := by
  obtain ⟨fd, s₁, hr, hfd, hsome⟩ := h
  obtain ⟨⟨rfd, wfd⟩, hpipe⟩ := Option.isSome_iff_exists.mp hsome
  refine Traced.emits_bind.mpr (.inr ⟨fd, s₁, ?_, ?_⟩)
  · rw [Calls.erase_create]
    exact hr
  · rw [if_neg (Int.not_lt.mpr hfd)]
    refine Traced.emits_bind.mpr
      (.inr ⟨some (rfd, wfd), { s₁ with ipc := (fdPipe s₁.ipc).2 }, ?_, ?_⟩)
    · rw [Traced.erase_lift]
      simp [openPipe, hpipe]
    · refine Traced.emits_modify_bind.mpr (Traced.emits_bind.mpr (.inl ?_))
      exact Traced.emits_bind.mpr (.inl (Traced.emits_emit.mpr rfl))

end Branches

/-! ## Cutting -/

/-- A run of spaces. -/
def spaces (k : ℕ) : Path := List.replicate k 32

def trimStart (t : Path) : Path := t.dropWhile (· = 32)

def trimEnd (t : Path) : Path := t.rdropWhile (· = 32)

/-- A text that a part of a line can be: without operators, and not only spaces. -/
structure IsPart (t : Path) : Prop where
  text : 0 ∉ t
  redirect : 62 ∉ t
  pipe : 124 ∉ t
  visible : ∃ c ∈ t, c ≠ 32

section Cutting

variable {t u : Path} {op : UInt8} {k : ℕ}

theorem findOp_append (h : op ∉ t) (u : Path) : findOp (t ++ op :: u) op = some t.length := by
  rw [findOp, List.findIdx?_append, List.findIdx?_eq_none_iff.mpr]
  · simp [List.findIdx?_cons]
  · exact fun c hc => decide_eq_false fun hop => h (hop ▸ hc)

theorem findOp_of_notMem (h : op ∉ t) : findOp t op = none :=
  List.findIdx?_eq_none_iff.mpr fun _ hc => decide_eq_false fun hop => h (hop ▸ hc)

theorem before_append (hlen : t.length ≤ 255) (u : Path) : before (t ++ u) t.length = trimEnd t := by
  rw [before, Nat.min_eq_left hlen, List.take_left]
  rfl

theorem behind_append (hlen : u.length ≤ 255) (t : Path) :
    behind (t ++ op :: u) (t.length + 1) = trimStart u := by
  rw [behind, ← List.drop_drop, List.drop_left, List.drop_succ_cons, List.drop_zero]
  exact List.take_of_length_le ((List.length_dropWhile_le _ _).trans hlen)

@[simp] theorem trimEnd_append_spaces (t : Path) (k : ℕ) : trimEnd (t ++ spaces k) = trimEnd t := by
  induction k with
  | zero => rw [spaces, List.replicate_zero, List.append_nil]
  | succ k ih =>
    rw [spaces, List.replicate_succ', ← List.append_assoc, trimEnd,
      List.rdropWhile_concat_pos _ _ _ (by simp)]
    exact ih

@[simp] theorem trimStart_spaces_append (k : ℕ) (t : Path) :
    trimStart (spaces k ++ t) = trimStart t := by
  induction k with
  | zero => rfl
  | succ k ih =>
    rw [spaces, List.replicate_succ, List.cons_append, trimStart, List.dropWhile_cons_of_pos (by simp)]
    exact ih

theorem trimStart_ne_nil (h : ∃ c ∈ t, c ≠ 32) : trimStart t ≠ [] := by
  obtain ⟨c, hc, hne⟩ := h
  exact fun hnil => hne (of_decide_eq_true (List.dropWhile_eq_nil_iff.mp hnil c hc))

theorem trimEnd_ne_nil (h : ∃ c ∈ t, c ≠ 32) : trimEnd t ≠ [] := by
  obtain ⟨c, hc, hne⟩ := h
  exact fun hnil => hne (of_decide_eq_true (List.rdropWhile_eq_nil_iff.mp hnil c hc))

/-- The spaces at the start end with the visible part. -/
theorem trimStart_append (h : ∃ c ∈ t, c ≠ 32) (u : Path) :
    trimStart (t ++ u) = trimStart t ++ u := by
  have hne := trimStart_ne_nil h
  rw [trimStart, List.dropWhile_append, if_neg]
  · rfl
  · rw [List.isEmpty_iff]
    exact hne

theorem mem_trimEnd {c : UInt8} (hc : c ∈ t) (hne : c ≠ 32) : c ∈ trimEnd t := by
  rw [← List.rdropWhile_append_rtakeWhile (p := fun c => decide (c = 32)) (l := t)] at hc
  rcases List.mem_append.mp hc with h | h
  · exact h
  · have hspace := List.mem_rtakeWhile_imp h
    exact absurd (of_decide_eq_true hspace) hne

theorem mem_of_mem_trimEnd {c : UInt8} (hc : c ∈ trimEnd t) : c ∈ t :=
  List.IsPrefix.subset (List.rdropWhile_prefix _ _) hc

theorem mem_of_mem_trimStart {c : UInt8} (hc : c ∈ trimStart t) : c ∈ t :=
  (List.dropWhile_suffix _).subset hc

end Cutting

/-! ## Lines -/

/-- A command line in its parts, with the lengths of the runs of spaces between them. -/
inductive CommandLine where
  /-- `c1` -/
  | command (c1 : Path)
  /-- `c1 > f` -/
  | redirected (c1 : Path) (a b : ℕ) (f : Path)
  /-- `c1 | c2` -/
  | piped (c1 : Path) (a b : ℕ) (c2 : Path)
  /-- `c1 | c2 > f` -/
  | pipedRedirected (c1 : Path) (a b : ℕ) (c2 : Path) (d e : ℕ) (f : Path)
  /-- `c1 > f | c2` -/
  | redirectedPiped (c1 : Path) (a b : ℕ) (f : Path) (d e : ℕ) (c2 : Path)

namespace CommandLine

def text : CommandLine → Path
  | command c1 => c1
  | redirected c1 a b f => (c1 ++ spaces a) ++ 62 :: (spaces b ++ f)
  | piped c1 a b c2 => (c1 ++ spaces a) ++ 124 :: (spaces b ++ c2)
  | pipedRedirected c1 a b c2 d e f =>
    (c1 ++ spaces a) ++ 124 :: (spaces b ++ (c2 ++ (spaces d ++ 62 :: (spaces e ++ f))))
  | redirectedPiped c1 a b f d e c2 =>
    (c1 ++ spaces a ++ 62 :: (spaces b ++ (f ++ spaces d))) ++ 124 :: (spaces e ++ c2)

/-- The commands of the line, without the spaces at the operators. -/
def commands : CommandLine → List Path
  | command c1 => [c1]
  | redirected c1 _ _ _ => [trimEnd c1]
  | piped c1 _ _ c2 => [trimEnd c1, trimStart c2]
  | pipedRedirected c1 _ _ c2 _ _ _ => [trimEnd c1, trimEnd (trimStart c2)]
  | redirectedPiped c1 _ _ _ _ _ c2 => [trimEnd c1, trimStart c2]

/-- The file of the line, without the spaces at the operators. -/
def file : CommandLine → Option Path
  | command _ | piped .. => none
  | redirected _ _ _ f | pipedRedirected _ _ _ _ _ _ f => some (trimStart f)
  | redirectedPiped _ _ _ f _ _ _ => some (trimEnd (trimStart f))

def parts : CommandLine → List Path
  | command c1 => [c1]
  | redirected c1 _ _ f => [c1, f]
  | piped c1 _ _ c2 => [c1, c2]
  | pipedRedirected c1 _ _ c2 _ _ f => [c1, c2, f]
  | redirectedPiped c1 _ _ f _ _ c2 => [c1, f, c2]

/-- A line of at most 127 bytes whose parts are texts without operators. -/
structure Valid (l : CommandLine) : Prop where
  parts : ∀ t ∈ l.parts, IsPart t
  short : l.text.length ≤ 127

section Runs

variable {dispatch : Path → Sh Unit} {n : ℕ} {s : State} {c1 c2 f left right : Path}
  {a b d e : ℕ} {op op' : UInt8}

/-- **A line cut at an operator**: the text in front of it and the text behind it, without the
spaces next to it. -/
theorem cut_at (hop : op ∉ left) (hne : op ≠ 32)
    (hlen : ((left ++ spaces a) ++ op :: (spaces b ++ right)).length ≤ 127) :
    ∃ i, findOp ((left ++ spaces a) ++ op :: (spaces b ++ right)) op = some i ∧
      before ((left ++ spaces a) ++ op :: (spaces b ++ right)) i = trimEnd left ∧
      behind ((left ++ spaces a) ++ op :: (spaces b ++ right)) (i + 1) = trimStart right := by
  rw [List.length_append, List.length_cons] at hlen
  have hspace : op ∉ left ++ spaces a := by
    rw [List.mem_append, spaces, List.mem_replicate]
    rintro (h | ⟨-, h⟩)
    · exact hop h
    · exact hne h
  refine ⟨_, findOp_append hspace _, ?_, ?_⟩
  · rw [before_append (by omega), trimEnd_append_spaces]
  · rw [behind_append (by omega), trimStart_spaces_append]

/-- The other operator is in one of the two texts. -/
theorem notMem_line (hl : op' ∉ left) (hr : op' ∉ right) (hne : op' ≠ op) (hspace : op' ≠ 32) :
    op' ∉ (left ++ spaces a) ++ op :: (spaces b ++ right) := by
  simp only [spaces, List.mem_append, List.mem_cons, List.mem_replicate]
  rintro ((h | ⟨-, h⟩) | h | ⟨-, h⟩ | h)
  · exact hl h
  · exact hspace h
  · exact hne h
  · exact hspace h
  · exact hr h

theorem cut_command (h : IsPart c1) :
    (Calls.runPipeline dispatch c1).Tells n s (Cut [c1] none) := by
  have hfull : Complete [c1] none [.dispatch c1] := ⟨rfl, rfl⟩
  rw [Calls.runPipeline, findOp_of_notMem h.pipe, findOp_of_notMem h.redirect]
  exact .emit_bind (.lift hfull.cut fun _ _ _ => hfull.cut)

theorem cut_redirected (h1 : IsPart c1) (hf : IsPart f)
    (hlen : (redirected c1 a b f).text.length ≤ 127) :
    (Calls.runPipeline dispatch (redirected c1 a b f).text).Tells n s
      (Cut [trimEnd c1] (some (trimStart f))) := by
  obtain ⟨i, hi, hleft, hright⟩ := cut_at h1.redirect (by decide) hlen
  have hpipe := notMem_line (a := a) (b := b) h1.pipe hf.pipe (show (124 : UInt8) ≠ 62 by decide)
    (by decide)
  rw [Calls.runPipeline, text, findOp_of_notMem hpipe, hi]
  dsimp only
  rw [hleft, hright]
  exact runRedirect_cut (trimEnd_ne_nil h1.visible) (trimStart_ne_nil hf.visible)

theorem cut_piped (h1 : IsPart c1) (h2 : IsPart c2)
    (hlen : (piped c1 a b c2).text.length ≤ 127) :
    (Calls.runPipeline dispatch (piped c1 a b c2).text).Tells n s
      (Cut [trimEnd c1, trimStart c2] none) := by
  obtain ⟨i, hi, hleft, hright⟩ := cut_at h1.pipe (by decide) hlen
  have hredir :=
    notMem_line (a := a) (b := b) h1.redirect h2.redirect (show (62 : UInt8) ≠ 124 by decide)
      (by decide)
  rw [Calls.runPipeline, text, hi, findOp_of_notMem hredir]
  dsimp only
  rw [hleft, hright]
  exact runPiped_cut (trimEnd_ne_nil h1.visible) (trimStart_ne_nil h2.visible)

/-- A line with both operators takes the last branch. -/
theorem runPipeline_both {line : Path} {i : ℕ} (hi : findOp line 124 = some i)
    (hredir : 62 ∈ line) : Calls.runPipeline dispatch line =
      Calls.runBoth dispatch (before line i) (behind line (i + 1)) := by
  rw [Calls.runPipeline, hi]
  cases hj : findOp line 62 with
  | none => exact absurd (List.findIdx?_eq_none_iff.mp hj 62 hredir) (by decide)
  | some j => rfl

theorem cut_pipedRedirected (h1 : IsPart c1) (h2 : IsPart c2)
    (hlen : (pipedRedirected c1 a b c2 d e f).text.length ≤ 127) :
    (Calls.runPipeline dispatch (pipedRedirected c1 a b c2 d e f).text).Tells n s
      (Cut [trimEnd c1, trimEnd (trimStart c2)] (some (trimStart f))) := by
  obtain ⟨i, hi, hleft, hright⟩ := cut_at h1.pipe (by decide) hlen
  have hrest : trimStart (c2 ++ (spaces d ++ 62 :: (spaces e ++ f))) =
      (trimStart c2 ++ spaces d) ++ 62 :: (spaces e ++ f) := by
    rw [trimStart_append h2.visible, List.append_assoc]
  have hlen' : ((trimStart c2 ++ spaces d) ++ 62 :: (spaces e ++ f)).length ≤ 127 := by
    rw [← hrest]
    refine (List.length_dropWhile_le _ _).trans (le_trans ?_ hlen)
    rw [text]
    simp only [List.length_append, List.length_cons]
    omega
  obtain ⟨j, hj, hleft', hright'⟩ :=
    cut_at (fun h => h2.redirect (mem_of_mem_trimStart h)) (by decide) hlen'
  rw [text, runPipeline_both hi (by simp), hleft, hright, hrest]
  have hfile : fileOf ((trimStart c2 ++ spaces d) ++ 62 :: (spaces e ++ f)) = trimStart f := by
    rw [fileOf, hj]
    exact hright'
  have hsecond : secondOf ((trimStart c2 ++ spaces d) ++ 62 :: (spaces e ++ f)) =
      trimEnd (trimStart c2) := by
    rw [secondOf, hj]
    exact hleft'
  rw [← hfile, ← hsecond]
  exact runBoth_cut fun _ => rfl

/-- **The line `c1 > f | c2`** takes all in front of the pipe for a command, and what is behind it
for the name of the file. -/
theorem runPipeline_redirectedPiped (dispatch : Path → Sh Unit) (h1 : IsPart c1) (hf : IsPart f)
    (h2 : IsPart c2)
    (hlen : (redirectedPiped c1 a b f d e c2).text.length ≤ 127) :
    ∃ left rest, 62 ∈ left ∧ fileOf rest = trimStart c2 ∧
      Calls.runPipeline dispatch (redirectedPiped c1 a b f d e c2).text =
        Calls.runBoth dispatch left rest := by
  have hpipe : 124 ∉ c1 ++ spaces a ++ 62 :: (spaces b ++ f) :=
    notMem_line h1.pipe hf.pipe (by decide) (by decide)
  have htext : (redirectedPiped c1 a b f d e c2).text =
      ((c1 ++ spaces a ++ 62 :: (spaces b ++ f)) ++ spaces d) ++ 124 :: (spaces e ++ c2) := by
    simp only [text, List.append_assoc, List.cons_append]
  rw [htext] at hlen ⊢
  obtain ⟨i, hi, hleft, hright⟩ := cut_at hpipe (by decide) hlen
  refine ⟨trimEnd (c1 ++ spaces a ++ 62 :: (spaces b ++ f)), trimStart c2, ?_, ?_, ?_⟩
  · exact mem_trimEnd (by simp) (by decide)
  · -- no `>` is found behind the pipe, so the name is all of it
    have hnone := findOp_of_notMem fun h => h2.redirect (mem_of_mem_trimStart h)
    have hshort : (trimStart c2).length ≤ 255 := by
      refine (List.length_dropWhile_le _ _).trans (le_trans ?_ (hlen.trans (by decide)))
      simp only [List.length_append, List.length_cons]
      omega
    rw [fileOf, hnone, behind, List.drop_zero, List.take_of_length_le]
    · exact List.dropWhile_idempotent _ _
    · exact (List.length_dropWhile_le _ _).trans hshort
  · rw [runPipeline_both hi (by simp), hleft, hright]

/-- A line of the last form is cut right only when it is refused. -/
theorem cut_redirectedPiped_iff (h1 : IsPart c1) (hf : IsPart f) (h2 : IsPart c2)
    (hlen : (redirectedPiped c1 a b f d e c2).text.length ≤ 127) :
    (∀ n, (Calls.runPipeline dispatch (redirectedPiped c1 a b f d e c2).text).Tells n s
      (Cut [trimEnd c1, trimStart c2] (some (trimEnd (trimStart f))))) ↔
    trimStart c2 = trimEnd (trimStart f) ∧ ¬ Granted (trimStart c2) s := by
  obtain ⟨left, rest, hredir, hfile, hrun⟩ :=
    runPipeline_redirectedPiped dispatch h1 hf h2 hlen
  rw [hrun]
  constructor
  · intro hcut
    have hname : trimStart c2 = trimEnd (trimStart f) := by
      obtain ⟨n, hn⟩ := emits_create_runBoth dispatch left rest (s := s)
      have h := (hcut n).names _ (List.mem_filterMap.mpr ⟨_, hn, rfl⟩)
      rw [← hfile, Option.some_inj.mp h]
    refine ⟨hname, fun hgrant => ?_⟩
    -- the command that is dispatched has the operator in it
    obtain ⟨n, hn⟩ := emits_dispatch_runBoth dispatch left (hfile ▸ hgrant)
    have h := (hcut n).order.subset (List.mem_filterMap.mpr ⟨_, hn, rfl⟩)
    rcases List.mem_cons.mp h with rfl | h
    · exact h1.redirect (mem_of_mem_trimEnd hredir)
    · rw [List.mem_singleton.mp h] at hredir
      exact h2.redirect (mem_of_mem_trimStart hredir)
  · rintro ⟨hname, hgrant⟩ n
    rw [← hname, ← hfile]
    exact runBoth_cut fun h => absurd (hfile ▸ h) hgrant

end Runs

end CommandLine

/-- **Which lines are cut right**: every line whose output file is behind the last command. A line
`c1 > f | c2` is not, unless `c2` is the name `f` as well and the line is refused. -/
theorem runPipeline_cut_iff (dispatch : Path → Sh Unit) (s : State) {l : CommandLine}
    (hl : l.Valid) :
    (∀ n, (Calls.runPipeline dispatch l.text).Tells n s (Cut l.commands l.file)) ↔
      ∀ c1 a b f d e c2, l = .redirectedPiped c1 a b f d e c2 →
        trimStart c2 = trimEnd (trimStart f) ∧ ¬ Granted (trimStart c2) s := by
  have hlen := hl.short
  cases l with
  | command c1 =>
    have h1 := hl.parts c1 (by simp [CommandLine.parts])
    exact iff_of_true (fun n => CommandLine.cut_command h1) nofun
  | redirected c1 a b f =>
    have h1 := hl.parts c1 (by simp [CommandLine.parts])
    have hf := hl.parts f (by simp [CommandLine.parts])
    exact iff_of_true (fun n => CommandLine.cut_redirected h1 hf hlen) nofun
  | piped c1 a b c2 =>
    have h1 := hl.parts c1 (by simp [CommandLine.parts])
    have h2 := hl.parts c2 (by simp [CommandLine.parts])
    exact iff_of_true (fun n => CommandLine.cut_piped h1 h2 hlen) nofun
  | pipedRedirected c1 a b c2 d e f =>
    have h1 := hl.parts c1 (by simp [CommandLine.parts])
    have h2 := hl.parts c2 (by simp [CommandLine.parts])
    exact iff_of_true (fun n => CommandLine.cut_pipedRedirected h1 h2 hlen) nofun
  | redirectedPiped c1 a b f d e c2 =>
    have h1 := hl.parts c1 (by simp [CommandLine.parts])
    have hf := hl.parts f (by simp [CommandLine.parts])
    have h2 := hl.parts c2 (by simp [CommandLine.parts])
    refine (CommandLine.cut_redirectedPiped_iff h1 hf h2 hlen).trans ⟨?_, fun h => ?_⟩
    · rintro h _ _ _ _ _ _ _ ⟨⟩
      exact h
    · exact h c1 a b f d e c2 rfl

theorem isPart_letter {c : UInt8} (h : c ≠ 0 ∧ c ≠ 62 ∧ c ≠ 124 ∧ c ≠ 32) : IsPart [c] := by
  refine ⟨?_, ?_, ?_, c, List.mem_singleton_self c, h.2.2.2⟩
  · exact fun hc => h.1 (List.mem_singleton.mp hc).symm
  · exact fun hc => h.2.1 (List.mem_singleton.mp hc).symm
  · exact fun hc => h.2.2.1 (List.mem_singleton.mp hc).symm

/-- The line `a > f` is cut right. -/
theorem runPipeline_cut_redirected :
    (CommandLine.redirected (ascii "a") 1 1 (ascii "f")).text = ascii "a > f" ∧
    ∀ n, (Calls.runPipeline (fun _ => pure ()) (ascii "a > f")).Tells n State.zero
      (Cut [ascii "a"] (some (ascii "f"))) := by
  have hl : (CommandLine.redirected (ascii "a") 1 1 (ascii "f")).Valid := by
    refine ⟨fun t ht => ?_, by decide +kernel⟩
    obtain rfl | ht := List.mem_cons.mp ht
    · exact isPart_letter (by decide)
    · obtain rfl := List.mem_singleton.mp ht
      exact isPart_letter (by decide)
  exact ⟨by decide +kernel, (runPipeline_cut_iff (fun _ => pure ()) State.zero hl).mpr nofun⟩

/-- **The line `a > f | b`** creates the file `b`. -/
theorem runPipeline_creates_command : ¬ ∀ n,
    (Calls.runPipeline (fun _ => pure ()) (ascii "a > f | b")).Tells n State.zero
      (Cut [ascii "a", ascii "b"] (some (ascii "f"))) := by
  have h1 : IsPart (ascii "a") := isPart_letter (c := 97) (by decide)
  have h2 : IsPart (ascii "b") := isPart_letter (c := 98) (by decide)
  have hf : IsPart (ascii "f") := isPart_letter (c := 102) (by decide)
  intro h
  have hname := (CommandLine.cut_redirectedPiped_iff (a := 1) (b := 1) (d := 1) (e := 1) h1 hf h2
    (by decide +kernel)).mp h
  exact absurd hname.1 (by decide +kernel)

end WarkRune.Shell

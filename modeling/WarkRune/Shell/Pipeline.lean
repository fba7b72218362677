import Mathlib.Data.List.DropRight
import WarkRune.Ipc.Fd

/-!
# The shell's command lines

A command line is a command, a command whose output goes to a file, or two commands joined by a
pipe. What a command prints goes through `shell_puts`, which writes to a descriptor when the line
redirects the output.

The commands on files and texts are modelled; the others are a parameter, which every result holds
for. A command line is the bytes before its NUL. The screen is a log of the strings printed.

## Main definitions

* `State`, `shellPuts`: what the shell acts on, and its output
* `dispatch`: run one command
* `runPipeline`: run a command line
-/

namespace WarkRune.Shell

open Fat12 (Path Fat Driver cString fat12Open fat12Create fat12Read fat12Close fat12Delete
  fat12Mkdir fat12Rmdir)
open Ipc (fdWrite fdRead fdClose fdPipe fdCreateCase)

/-- The shell's variables, over the descriptors. -/
structure State where
  ipc : Ipc.State
  cwd : Path
  serialMode : Bool
  /-- `g_out_fd`, negative for the screen. -/
  outFd : ℤ
  /-- `g_in_fd`, negative for the keyboard. -/
  inFd : ℤ
  /-- The strings printed, the latest first, and whether on the screen too. -/
  shown : List (Bool × Path)

/-- A program of the shell. -/
abbrev Sh (α : Type) := Exec State α

def ipcPart : StatePart State Ipc.State := ⟨State.ipc, fun t s => { s with ipc := t }⟩

def fatPart : StatePart State Driver :=
  ⟨fun s => s.ipc.fat, fun t s => { s with ipc := { s.ipc with fat := t } }⟩

/-- The bytes of a text. -/
def ascii (text : String) : Path := text.toList.map fun c => UInt8.ofNat c.toNat

/-- `shell_puts` of the string in `buf`. -/
def shellPuts (buf : Path) : Sh Unit := do
  let s ← get
  if s.outFd ≥ 0 then
    let _ ← (fdWrite s.outFd (cString buf)).on ipcPart
    let _ ← (fdWrite s.outFd [10]).on ipcPart
  else modify fun s => { s with shown := (!s.serialMode, cString buf) :: s.shown }

/-- `shell_puts` of one string after the other. -/
def putsAll : List Path → Sh Unit
  | [] => pure ()
  | buf :: bufs => do
    shellPuts buf
    putsAll bufs

/-! ## Commands -/

/-- `cmds`: the names and descriptions of the table. -/
def cmds : List (String × String) :=
  [("help", "show this list"), ("clear", "clear screen"), ("panic", "trigger kernel panic"),
    ("time", "show time"), ("uptime", "show uptime"), ("paging", "test paging"),
    ("free", "show memory usage"), ("fat12", "test FAT12 filesystem"), ("freedom", "play a tune"),
    ("cpuid", "print cpuid info"), ("syscall", "test syscall"), ("memtesting", "test all memory")]

/-- `"  %-12s %s"` in a buffer of 80 bytes. -/
def helpLine (name desc : Path) : Path :=
  (ascii "  " ++ (name ++ List.replicate (12 - name.length) 32) ++ [32] ++ desc).take 79

/-- The strings `cmd_help` prints. -/
def helpLines : List Path :=
  ascii "commands:" :: cmds.map (fun c => helpLine (ascii c.1) (ascii c.2)) ++
    [ascii "  ls [path]    cat <file>   cd <path>   echo <text>",
      ascii "  pwd          mkdir        touch   rm   rmdir",
      ascii "  pipes (|) and redirects (>) are supported"]

def cmdHelp : Sh Unit := putsAll helpLines

/-- `build_path`. -/
def buildPath (cwd : Path) : Option Path → Path
  | none | some [] => cwd.take 254
  | some (c :: rel) =>
    if c = 47 then (c :: rel).take 254
    else
      let base := cwd.take 254
      let base := if base ≠ [] ∧ base.getLast? ≠ some 47 then base ++ [47] else base
      base ++ (c :: rel).take (254 - base.length)

/-- `has_lower_alpha`. -/
def hasLowerAlpha (path : Path) : Bool := path.any fun c => 97 ≤ c && c ≤ 122

/-- `fat12_delete_case`, `fat12_rmdir_case` and `fat12_mkdir_case`. -/
def boolCase (op : Path → Fat Bool) (path : Path) : Sh Bool := do
  if ← (op path).on fatPart then return true
  if hasLowerAlpha path then (op (path.map Fat12.upper)).on fatPart else return false

/-- `fat12_open_case` and `fat12_create_case`. -/
def fdCase (op : Path → Fat ℤ) (path : Path) : Sh ℤ := do
  let fd ← (op path).on fatPart
  if fd ≥ 0 then return fd
  if hasLowerAlpha path then (op (path.map Fat12.upper)).on fatPart else return -1

/-- The commands `mkdir`, `rm` and `rmdir`. -/
def cmdPath (op : Path → Fat Bool) (usage failed : String) : Option Path → Sh Unit
  | none | some [] => shellPuts (ascii usage)
  | some arg => do
    if ← boolCase op (buildPath (← get).cwd (some arg)) then shellPuts (ascii "ok")
    else shellPuts (ascii failed)

def cmdTouch : Option Path → Sh Unit
  | none | some [] => shellPuts (ascii "usage: touch <name>")
  | some arg => do
    let fd ← fdCase fat12Create (buildPath (← get).cwd (some arg))
    if fd ≥ 0 then
      (fat12Close fd).on fatPart
      shellPuts (ascii "ok")
    else shellPuts (ascii "touch: failed")

/-- A round of `cat`: a buffer of 511 bytes is read and printed. -/
def catRound (read : Sh (ℤ × Path)) (_ : Unit) : Sh (Unit ⊕ Unit) := do
  let (n, out) ← read
  if n > 0 then
    shellPuts out
    return .inl ()
  else return .inr ()

def cmdCat : Option Path → Sh Unit
  | none | some [] => do
    let s ← get
    if s.inFd ≥ 0 then Exec.loop (catRound ((fdRead s.inFd 511).on ipcPart)) ()
    else shellPuts (ascii "usage: cat <file>")
  | some arg => do
    let fd ← fdCase fat12Open (buildPath (← get).cwd (some arg))
    if fd < 0 then shellPuts (ascii "cat: not found")
    else
      Exec.loop (catRound ((fat12Read fd 511).on fatPart)) ()
      (fat12Close fd).on fatPart

/-- `dispatch`: `help` and the commands on files and texts. `other` are the rest of the table, `ls`,
`cd`, `exec` and the answer to an unknown command. -/
def dispatch (other : Path → Option Path → Sh Unit) (input : Path) : Sh Unit := do
  if input = [] then return ()
  let cmd := (input.takeWhile (· ≠ 32)).take 31
  let args := match input.drop cmd.length with
    | 32 :: args => some args
    | _ => none
  let s ← get
  if s.serialMode ∧ cmd ∈ [ascii "fire", ascii "freedom", ascii "exec", ascii "clear"] then
    modify fun s => { s with shown :=
      (false, ascii "(screen command not available on serial)\n") :: s.shown }
  else if cmd = ascii "pwd" then shellPuts s.cwd
  else if cmd = ascii "mkdir" then
    cmdPath fat12Mkdir "usage: mkdir <name>" "mkdir: failed" args
  else if cmd = ascii "touch" then cmdTouch args
  else if cmd = ascii "rm" then cmdPath fat12Delete "usage: rm <file>" "rm: failed" args
  else if cmd = ascii "rmdir" then cmdPath fat12Rmdir "usage: rmdir <dir>" "rmdir: not empty" args
  else if cmd = ascii "cat" then cmdCat args
  else if cmd = ascii "echo" then shellPuts (args.getD [])
  else if cmd = ascii "help" then cmdHelp
  else other cmd args

/-! ## Command lines -/

/-- `find_op`. -/
def findOp (s : Path) (op : UInt8) : Option ℕ := s.findIdx? (· = op)

/-- The text before position `i`, at most 255 bytes, without spaces at its end. -/
def before (s : Path) (i : ℕ) : Path := (s.take (min i 255)).rdropWhile (· = 32)

/-- The text from position `i` on without spaces at its start, at most 255 bytes. -/
def behind (s : Path) (i : ℕ) : Path := ((s.drop i).dropWhile (· = 32)).take 255

/-- The line `cmd > file`. -/
def runRedirect (dispatch : Path → Sh Unit) (left right : Path) : Sh Unit := do
  if left = [] then shellPuts (ascii "syntax: missing command before >")
  else if right = [] then shellPuts (ascii "syntax: missing filename after >")
  else
    let fileFd ← (fdCreateCase right).on ipcPart
    if fileFd < 0 then shellPuts (ascii "redirect: cannot create file")
    else
      modify fun s => { s with outFd := fileFd }
      dispatch left
      modify fun s => { s with outFd := -1 }
      (fdClose fileFd).on ipcPart

/-- `fd_pipe`. -/
def openPipe : Sh (Option (ℕ × ℕ)) := do
  let s ← get
  set { s with ipc := (fdPipe s.ipc).2 }
  return (fdPipe s.ipc).1

/-- The line `cmd1 | cmd2`. -/
def runPiped (dispatch : Path → Sh Unit) (left right : Path) : Sh Unit := do
  if left = [] then shellPuts (ascii "syntax: missing command before |")
  else if right = [] then shellPuts (ascii "syntax: missing command after |")
  else
    match ← openPipe with
    | none => shellPuts (ascii "pipe: failed")
    | some (rfd, wfd) =>
      modify fun s => { s with outFd := wfd }
      dispatch left
      modify fun s => { s with outFd := -1 }
      (fdClose wfd).on ipcPart
      modify fun s => { s with inFd := rfd }
      dispatch right
      modify fun s => { s with inFd := -1 }
      (fdClose rfd).on ipcPart

/-- The line `cmd1 | cmd2 > file`, `rest` being the text behind the `|`. -/
def runBoth (dispatch : Path → Sh Unit) (left rest : Path) : Sh Unit := do
  let rp := findOp rest 62
  let cmd2 := before rest (rp.getD 0)
  let fname := behind rest (match rp with | some i => i + 1 | none => 0)
  let fileFd ← (fdCreateCase fname).on ipcPart
  if fileFd < 0 then shellPuts (ascii "redirect: cannot create file")
  else
    match ← openPipe with
    | none =>
      shellPuts (ascii "pipe: failed")
      (fdClose fileFd).on ipcPart
    | some (rfd, wfd) =>
      modify fun s => { s with outFd := wfd }
      dispatch left
      modify fun s => { s with outFd := -1 }
      (fdClose wfd).on ipcPart
      modify fun s => { s with inFd := rfd, outFd := fileFd }
      dispatch cmd2
      modify fun s => { s with inFd := -1, outFd := -1 }
      (fdClose rfd).on ipcPart
      (fdClose fileFd).on ipcPart

/-- `run_pipeline`. -/
def runPipeline (dispatch : Path → Sh Unit) (input : Path) : Sh Unit :=
  match findOp input 124, findOp input 62 with
  | none, none => dispatch input
  | none, some redir => runRedirect dispatch (before input redir) (behind input (redir + 1))
  | some pipe, none => runPiped dispatch (before input pipe) (behind input (pipe + 1))
  | some pipe, some _ => runBoth dispatch (before input pipe) (behind input (pipe + 1))

end WarkRune.Shell

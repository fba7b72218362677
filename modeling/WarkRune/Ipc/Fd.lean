import WarkRune.Exec.StatePart
import WarkRune.Fat12.File
import WarkRune.Queue.Ring

/-!
# Descriptors and pipes

The kernel's descriptors refer to the console, to an open FAT12 file or to an end of a pipe. There
are thirty-two descriptors and eight pipes; a pipe is a ring buffer of 512 bytes.

What the keyboard and the serial port give is a sequence the state carries, one entry for each time
`fd_read` looks; what is printed is logged. Each operation on a pipe runs with interrupts off.

## Main definitions

* `FileDesc`, `Pipe`, `State`: the tables, and what the operations act on
* `fdInit`, `fdPipe`, `fdOpen`, `fdCreate`, `fdCreateCase`, `fdRead`, `fdWrite`, `fdFlush`,
  `fdClose`, `fdSize`: the operations
* `Call`, `Run`: the calls, and runs of them with their replies
-/

namespace WarkRune.Ipc

open Fat12 (Driver Path asInt fat12Open fat12Create fat12Read fat12Write fat12Flush fat12Close
  fat12Size)
open Queue (RingBuffer)

/-- `FD_MAX`. -/
def fdMax : ℕ := 32

/-- `PIPE_BUF`. -/
def pipeBuf : ℕ := 512

/-- `PIPE_MAX`. -/
def pipeMax : ℕ := 8

inductive FDType
  | none
  | stdin
  | stdout
  | stderr
  | file
  | pipeRead
  | pipeWrite
  deriving DecidableEq

structure FileDesc where
  used : Bool
  type : FDType
  fatFd : ℤ
  pipeId : ℤ
  deriving DecidableEq

structure Pipe extends RingBuffer UInt8 where
  used : Bool
  writeClosed : Bool

/-- The tables, the FAT12 driver and the console. -/
structure State where
  fds : ℕ → FileDesc
  pipes : ℕ → Pipe
  fat : Driver
  /-- What the `n`-th look at the serial port and the keyboard gives, 0 for no key. -/
  keys : ℕ → UInt8
  polls : ℕ
  /-- The strings printed so far, the latest first, and whether in the colour of errors. -/
  printed : List (Bool × List UInt8)

/-- A program over the tables. -/
abbrev Fd (α : Type) := Exec State α

namespace State

def setFd (s : State) (fd : ℕ) (f : FileDesc) : State :=
  { s with fds := Function.update s.fds fd f }

def setPipe (s : State) (pid : ℕ) (p : Pipe) : State :=
  { s with pipes := Function.update s.pipes pid p }

@[simp] theorem setFd_fds (s : State) (fd : ℕ) (f : FileDesc) :
    (s.setFd fd f).fds = Function.update s.fds fd f := rfl

@[simp] theorem setFd_pipes (s : State) (fd : ℕ) (f : FileDesc) :
    (s.setFd fd f).pipes = s.pipes := rfl

@[simp] theorem setFd_fat (s : State) (fd : ℕ) (f : FileDesc) : (s.setFd fd f).fat = s.fat := rfl

@[simp] theorem setPipe_fds (s : State) (pid : ℕ) (p : Pipe) : (s.setPipe pid p).fds = s.fds := rfl

@[simp] theorem setPipe_pipes (s : State) (pid : ℕ) (p : Pipe) :
    (s.setPipe pid p).pipes = Function.update s.pipes pid p := rfl

@[simp] theorem setPipe_fat (s : State) (pid : ℕ) (p : Pipe) : (s.setPipe pid p).fat = s.fat := rfl

/-- The driver as a part of the state. -/
def fatPart : StatePart State Driver := ⟨State.fat, fun t s => { s with fat := t }⟩

/-- `fd >= 0 && fd < FD_MAX && fds[fd].used`. -/
def IsOpen (s : State) (fd : ℤ) : Prop :=
  0 ≤ fd ∧ fd < fdMax ∧ (s.fds fd.toNat).used = true

instance (s : State) (fd : ℤ) : Decidable (s.IsOpen fd) := inferInstanceAs (Decidable (_ ∧ _))

/-- `alloc_fd`. -/
def allocFd (s : State) : Option ℕ := (List.range' 3 (fdMax - 3)).find? fun i => !(s.fds i).used

/-- `alloc_pipe`. -/
def allocPipe (s : State) : Option ℕ := (List.range pipeMax).find? fun i => !(s.pipes i).used

end State

/-- `{ false, FD_NONE, -1, -1 }`. -/
def closedFd : FileDesc := ⟨false, .none, -1, -1⟩

/-- A pipe that holds nothing. -/
def Pipe.reset (p : Pipe) (used : Bool) : Pipe :=
  { p with used, readPos := 0, writePos := 0, count := 0, writeClosed := false }

/-- `fd_init`. -/
def fdInit (s : State) : State :=
  { s with
    fds := fun i =>
      if i = 0 then ⟨true, .stdin, -1, -1⟩
      else if i = 1 then ⟨true, .stdout, -1, -1⟩
      else if i = 2 then ⟨true, .stderr, -1, -1⟩
      else if i < fdMax then closedFd
      else s.fds i
    pipes := fun i => if i < pipeMax then (s.pipes i).reset false else s.pipes i }

/-- `fd_pipe`: the read end and the write end, `none` when it returns false. -/
def fdPipe (s : State) : Option (ℕ × ℕ) × State :=
  match s.allocPipe with
  | none => (none, s)
  | some pid =>
    match s.allocFd with
    | none => (none, s)
    | some rfd =>
      let s := s.setFd rfd { s.fds rfd with used := true }
      match s.allocFd with
      | none => (none, s.setFd rfd { s.fds rfd with used := false })
      | some wfd =>
        let s := s.setPipe pid ((s.pipes pid).reset true)
        let s := s.setFd rfd ⟨true, .pipeRead, -1, pid⟩
        (some (rfd, wfd), s.setFd wfd ⟨true, .pipeWrite, -1, pid⟩)

/-! ## Files -/

/-- The end of `fd_open` and `fd_create`: a descriptor for the FAT12 descriptor `fat`. -/
def installFd (fat : ℤ) : Fd ℤ := do
  if fat < 0 then return -1
  match (← get).allocFd with
  | none =>
    (fat12Close fat).on State.fatPart
    return -1
  | some fd =>
    modify fun s => s.setFd fd ⟨true, .file, fat, -1⟩
    return fd

/-- `fd_open`. -/
def fdOpen (path : Path) : Fd ℤ := do
  let fat ← (fat12Open path).on State.fatPart
  installFd fat

/-- `fd_create`. -/
def fdCreate (path : Path) : Fd ℤ := do
  let fat ← (fat12Create path).on State.fatPart
  installFd fat

/-- `fd_create_case`: the path, and then its first 255 bytes in upper case. -/
def fdCreateCase (path : Path) : Fd ℤ := do
  let fd ← fdCreate path
  if fd ≥ 0 then return fd
  if (Fat12.cString path).any fun c => 97 ≤ c && c ≤ 122 then
    fdCreate (((Fat12.cString path).take 255).map Fat12.upper)
  else return -1

/-! ## Reading and writing -/

/-- The loop of `fd_read` on a pipe: the bytes, and the pipe. -/
def readPipe : ℕ → Pipe → List UInt8 × Pipe
  | 0, p => ([], p)
  | size + 1, p =>
    if p.count > 0 then
      let b := p.buf p.readPos
      let r := readPipe size { p with
        readPos := (p.readPos + 1) % pipeBuf
        count := p.count - 1 }
      (b :: r.1, r.2)
    else ([], p)

/-- The loop of `fd_write` on a pipe: the number of bytes taken, and the pipe. -/
def writePipe : List UInt8 → Pipe → ℕ × Pipe
  | [], p => (0, p)
  | b :: src, p =>
    if p.count < pipeBuf then
      let r := writePipe src { p with
        buf := Function.update p.buf p.writePos b
        writePos := (p.writePos + 1) % pipeBuf
        count := p.count + 1 }
      (r.1 + 1, r.2)
    else (0, p)

/-- A round of `fd_read` on the console, with the bytes read so far. -/
def keyRound (size : ℕ) (out : List UInt8) : Fd (List UInt8 ⊕ List UInt8) := do
  if out.length < size then
    let s ← get
    let k := s.keys s.polls
    modify fun s => { s with polls := s.polls + 1 }
    if k = 0 then return .inl out
    if k = 13 ∨ k = 10 then return .inr (out ++ [k])
    return .inl (out ++ [k])
  else return .inr out

/-- `fd_read`: the result, and the bytes stored in the buffer. -/
def fdRead (fd : ℤ) (size : ℕ) : Fd (ℤ × List UInt8) := do
  let s ← get
  if s.IsOpen fd then
    let f := s.fds fd.toNat
    match f.type with
    | .stdin =>
      let out ← Exec.loop (keyRound size) []
      return (asInt out.length, out)
    | .pipeRead =>
      let p := s.pipes f.pipeId.toNat
      if p.count = 0 ∧ p.writeClosed = true then return (0, [])
      let r := readPipe size p
      modify fun s => s.setPipe f.pipeId.toNat r.2
      return (asInt r.1.length, r.1)
    | .file => (fat12Read f.fatFd size).on State.fatPart
    | _ => return (-1, [])
  else return (-1, [])

/-- `fd_write` of the bytes `src`. The console prints at most 256 of them, up to the first NUL. -/
def fdWrite (fd : ℤ) (src : List UInt8) : Fd ℤ := do
  let s ← get
  if s.IsOpen fd then
    let f := s.fds fd.toNat
    match f.type with
    | .stdout | .stderr =>
      let text := Fat12.cString (src.take 256)
      modify fun s => { s with printed := (decide (f.type = .stderr), text) :: s.printed }
      return asInt src.length
    | .pipeWrite =>
      let p := s.pipes f.pipeId.toNat
      if p.writeClosed then return -1
      let r := writePipe src p
      modify fun s => s.setPipe f.pipeId.toNat r.2
      return asInt r.1
    | .file => (fat12Write f.fatFd src).on State.fatPart
    | _ => return -1
  else return -1

/-! ## Flush, close and size -/

/-- `fd_flush`. -/
def fdFlush (fd : ℤ) : Fd Unit := do
  let s ← get
  if s.IsOpen fd ∧ (s.fds fd.toNat).type = .file then
    (fat12Flush (s.fds fd.toNat).fatFd).on State.fatPart

/-- `any_reader` and `any_writer`: some descriptor in use is an end of that type of the pipe. -/
def State.anyEnd (s : State) (type : FDType) (pid : ℤ) : Bool :=
  (List.range fdMax).any fun i =>
    (s.fds i).used && decide ((s.fds i).type = type) && decide ((s.fds i).pipeId = pid)

/-- What `fd_close` does to the pipe of the descriptor `f`. -/
def State.releasePipe (s : State) (f : FileDesc) : State :=
  let pid := f.pipeId.toNat
  if f.type = .pipeWrite ∧ f.pipeId ≥ 0 then
    let s := s.setPipe pid { s.pipes pid with writeClosed := true }
    if s.anyEnd .pipeRead f.pipeId then s else s.setPipe pid { s.pipes pid with used := false }
  else if f.type = .pipeRead ∧ f.pipeId ≥ 0 then
    if s.anyEnd .pipeWrite f.pipeId then s else s.setPipe pid { s.pipes pid with used := false }
  else s

/-- `fd_close`. -/
def fdClose (fd : ℤ) : Fd Unit := do
  let s ← get
  if s.IsOpen fd then
    let f := s.fds fd.toNat
    if f.type = .file then
      (fat12Close f.fatFd).on State.fatPart
    modify fun s => (s.releasePipe f).setFd fd.toNat closedFd

/-- `fd_size`. -/
def fdSize (fd : ℤ) : Fd ℤ := do
  let s ← get
  if s.IsOpen fd ∧ (s.fds fd.toNat).type = .file then
    (fat12Size (s.fds fd.toNat).fatFd).on State.fatPart
  else return -1

/-! ## Calls -/

/-- A call of an operation. -/
inductive Call
  | openPath (path : Path)
  | create (path : Path)
  | createCase (path : Path)
  | pipe
  | read (fd : ℤ) (size : ℕ)
  | write (fd : ℤ) (src : List UInt8)
  | flush (fd : ℤ)
  | close (fd : ℤ)
  | size (fd : ℤ)

/-- What a call returns. -/
inductive Reply
  | int (n : ℤ)
  | bytes (n : ℤ) (out : List UInt8)
  | ends (p : Option (ℕ × ℕ))
  | unit
  deriving DecidableEq

def Call.exec : Call → Fd Reply
  | .openPath path => do return .int (← fdOpen path)
  | .create path => do return .int (← fdCreate path)
  | .createCase path => do return .int (← fdCreateCase path)
  | .pipe => do
    let s ← get
    set (fdPipe s).2
    return .ends (fdPipe s).1
  | .read fd n => do
    let (n, out) ← fdRead fd n
    return .bytes n out
  | .write fd src => do return .int (← fdWrite fd src)
  | .flush fd => do
    fdFlush fd
    return .unit
  | .close fd => do
    fdClose fd
    return .unit
  | .size fd => do return .int (← fdSize fd)

/-- A run: the calls with their replies, one after the other. -/
inductive Run : State → List (Call × Reply) → State → Prop
  | nil (s : State) : Run s [] s
  | cons {s s₁ s' : State} {c : Call} {r : Reply} {cs : List (Call × Reply)}
      (h : c.exec.Returns s r s₁) (hr : Run s₁ cs s') : Run s ((c, r) :: cs) s'

/-- What holds at first and is kept by every call holds at the end of every run. -/
theorem Run.induct {I : State → Prop}
    (hstep : ∀ s (c : Call) r s', I s → c.exec.Returns s r s' → I s') {s s' : State}
    {cs : List (Call × Reply)} (h : Run s cs s') (hI : I s) : I s' := by
  induction h with
  | nil => exact hI
  | cons hc _ ih => exact ih (hstep _ _ _ _ hI hc)

/-- Execute calls one after the other within a step budget. -/
def runAll (n : ℕ) : List Call → State → Option (List Reply × State)
  | [], s => some ([], s)
  | c :: cs, s =>
    match c.exec.run n s with
    | none => none
    | some (r, s₁) => (runAll n cs s₁).map fun p => (r :: p.1, p.2)

/-- Executed calls are a run. -/
theorem run_of_runAll {n : ℕ} {cs : List Call} {rs : List Reply} {s s' : State}
    (h : runAll n cs s = some (rs, s')) : Run s (cs.zip rs) s' := by
  induction cs generalizing s rs with
  | nil =>
    cases h
    exact .nil _
  | cons c cs ih =>
    unfold runAll at h
    cases hc : c.exec.run n s with
    | none =>
      rw [hc] at h
      cases h
    | some p =>
      rw [hc] at h
      obtain ⟨⟨rs', s''⟩, hrest, he⟩ := Option.map_eq_some_iff.mp h
      cases he
      exact .cons ⟨n, hc⟩ (ih hrest)

/-- Tables in which nothing is in use, over an empty disk and a silent console. -/
def State.zero : State where
  fds _ := closedFd
  pipes _ := ⟨⟨fun _ => 0, 0, 0, 0⟩, false, false⟩
  fat := ⟨⟨⟨0, 0, 0, 0, 0, 0, 0, 0, 0, 0⟩, fun _ _ => 0, fun _ => ⟨false, 0, 0, 0, 0, 0⟩⟩,
    fun _ => 0, fun _ => true, 0, []⟩
  keys _ := 0
  polls := 0
  printed := []

end WarkRune.Ipc

import WarkRune.Elf.Load
import WarkRune.Exec.Traced
import WarkRune.Memory.Shmem
import WarkRune.Shell.Pipeline

/-!
# The system calls

`syscall_handler` serves the seventeen system calls. A call has a number and four words `a` to `d`,
which are numbers or pointers depending on the call. What is stored through a pointer of the
arguments goes byte by byte into the memory, and the address of every such byte is an event of the
call. Stores that the kernel makes to its own memory are no events.

The static variables of the kernel are apart from the memory the pointers reach; the headers of the
heap are in it. What a call hands to the screen, the serial port, the scheduler, the loader, the
clock and the power management is a number or a string the call has read, never a pointer to store
through: what these do to the kernel is a parameter.

## Main definitions

* `Kernel`, `Services`: what the calls act on, and what they use beside it
* `Sys`: programs over the kernel that emit the addresses they store at
* `validUserPtr`: the check of a pointer
* `Request`, `syscallHandler`: the calls and their dispatch
-/

namespace WarkRune.Syscall

open Bytes (Memory)
open Fat12 (Driver Path DirEntry Listed asInt cString fat12Ls fat12Mkdir fat12Delete fat12Rmdir)
open WarkRune.Memory (Heap Shmem ShmemName kmalloc kmemInfo mergeFreeBlocks blockMagic headerSize
  shmemCreate shmemOpen shmemClose pagesOf)
open Ipc (fdRead fdWrite fdOpen fdCreate fdClose fdPipe keyRound)
open Elf (clearBytes)
open Shell (ascii)

/-- `MouseState`, with the byte that pads it. -/
structure MouseState where
  x : BitVec 32
  y : BitVec 32
  left : Bool
  right : Bool
  middle : Bool
  pad : UInt8
  dx : BitVec 32
  dy : BitVec 32

structure RTCTime where
  sec : UInt8
  min : UInt8
  hour : UInt8
  day : UInt8
  month : UInt8
  year : UInt8

/-- What the system calls act on. -/
structure Kernel where
  ipc : Ipc.State
  heap : Heap
  shmem : Shmem
  /-- What `mouse_get` returns. -/
  mouse : MouseState
  /-- What `rtc_get` returns. -/
  rtc : RTCTime
  /-- What the stack holds where `fat12_ls` keeps an entry. -/
  lsEntry : DirEntry

namespace Kernel

def mem (s : Kernel) : Memory := s.heap.mem

def setMem (m : Memory) (s : Kernel) : Kernel := { s with heap := { s.heap with mem := m } }

/-- The descriptors and pipes as a part of the kernel. -/
def ipcPart : StatePart Kernel Ipc.State := ⟨Kernel.ipc, fun t s => { s with ipc := t }⟩

/-- The FAT12 driver as a part of the kernel. -/
def fatPart : StatePart Kernel Driver :=
  ⟨fun s => s.ipc.fat, fun t s => { s with ipc := { s.ipc with fat := t } }⟩

/-- The heap as a part of the kernel. -/
def heapPart : StatePart Kernel Heap := ⟨Kernel.heap, fun t s => { s with heap := t }⟩

end Kernel

/-- What the calls use of the rest of the system. -/
structure Services where
  getY : Exec Kernel ℤ
  setY : BitVec 32 → Exec Kernel Unit
  fillScreen : (color : BitVec 32) → Exec Kernel Unit
  /-- `if (vbe_bpp) fb_present();` -/
  fbPresent : Exec Kernel Unit
  drawRect : (x y w h color : BitVec 32) → Exec Kernel Unit
  printxy : List UInt8 → (x y color : BitVec 32) → Exec Kernel Unit
  print : List UInt8 → (color : BitVec 32) → Exec Kernel Unit
  serialPuts : List UInt8 → Exec Kernel Unit
  readKey : Exec Kernel UInt8
  /-- `if (serial_ready()) serial_shell_poll(serial_getc());` -/
  serialShellPoll : Exec Kernel Unit
  shellUpdateCursor : Exec Kernel Unit
  elfExit : Exec Kernel Unit
  /-- `elf_exec`: the text in `err`. -/
  elfExec : Path → Exec Kernel (List UInt8)
  /-- The id of the current task. -/
  schedCurrentTask : Exec Kernel (Option (BitVec 32))
  schedKillTask : BitVec 32 → Exec Kernel Unit
  schedYield : Exec Kernel Unit
  acpiShutdown : Exec Kernel Unit
  acpiReboot : Exec Kernel Unit
  pitUptimeMs : Exec Kernel (BitVec 64)
  pitSleep : BitVec 32 → Exec Kernel Unit

/-- A program over the kernel; its events are the addresses it stores at through pointers of the
arguments. -/
abbrev Sys (α : Type) := Traced Kernel ℕ α

/-! ## Memory -/

/-- `USER_SPACE_END`. -/
def userSpaceEnd : ℕ := 0x80000000

/-- `valid_user_ptr`. -/
def validUserPtr (p len : BitVec 32) : Bool :=
  if p ≥ .ofNat 32 userSpaceEnd ∨ p = 0 then false
  else if len > 0 ∧ len > .ofNat 32 userSpaceEnd - p then false
  else true

/-- Store a byte. -/
def putByte (a v : ℕ) : Sys Unit := do
  modify fun s => s.setMem (s.mem.store8 a v)
  Traced.emit (a % 2 ^ 32)

/-- Store bytes from `a` on. -/
def putBytes : ℕ → List UInt8 → Sys Unit
  | _, [] => return ()
  | a, b :: bs => do
    putByte a b.toNat
    putBytes (a + 1) bs

/-- The bytes of a word, the low one first. -/
def wordBytes (v : BitVec 32) : List UInt8 :=
  (List.range 4).map fun i => UInt8.ofNat (v.toNat / 2 ^ (8 * i))

@[simp] theorem length_wordBytes (v : BitVec 32) : (wordBytes v).length = 4 := rfl

/-- The bytes of the string at `a` before its NUL, at most `n` of them. -/
def stringAt (m : Memory) : ℕ → ℕ → List UInt8
  | _, 0 => []
  | a, n + 1 => if m.load8 a = 0 then [] else UInt8.ofNat (m.load8 a) :: stringAt m (a + 1) n

/-- `n` bytes from `a` on. -/
def bytesAt (m : Memory) (a n : ℕ) : List UInt8 :=
  (List.range n).map fun i => UInt8.ofNat (m.load8 (a + i))

/-- A string that is passed on; the address space is not longer. -/
def textAt (p : BitVec 32) : Sys (List UInt8) := do return stringAt (← get).mem p.toNat (2 ^ 32)

/-- `copy_kpath`: what `s_kpath` holds. -/
def copyKpath (upath : BitVec 32) : Sys Path := do return stringAt (← get).mem upath.toNat 255

/-- `(uint32_t)-1`. -/
def minusOne : BitVec 32 := .ofInt 32 (-1)

/-! ## Descriptors -/

/-- A round of `fd_read` on the console, which stores the key it has read. -/
def keyStep (buf size : ℕ) (out : List UInt8) : Sys (List UInt8 ⊕ List UInt8) := do
  let x ← (keyRound size out).on Kernel.ipcPart
  putBytes (buf + out.length) ((x.elim id id).drop out.length)
  return x

/-- `fd_read` into the buffer `buf`. -/
def fdReadTo (fd : ℤ) (buf size : ℕ) : Sys ℤ := do
  let s ← get
  if s.ipc.IsOpen fd ∧ (s.ipc.fds fd.toNat).type = .stdin then do
    let out ← Traced.loop (keyStep buf size) []
    return asInt out.length
  else do
    let r ← (fdRead fd size).on Kernel.ipcPart
    putBytes buf r.2
    return r.1

/-! ## Output words -/

/-- `kfree`. -/
def kfree (ptr : ℕ) : Sys Unit := do
  let s ← get
  let hdr := (ptr + 2 ^ 32 - headerSize) % 2 ^ 32
  if ptr = 0 then return ()
  else if s.heap.magic hdr ≠ blockMagic then return ()
  else do
    putByte (hdr + 8) 1
    mergeFreeBlocks.on Kernel.heapPart

/-- `MouseState` in memory. -/
def MouseState.bytes (m : MouseState) : List UInt8 :=
  wordBytes m.x ++ wordBytes m.y ++ [m.left.toUInt8, m.right.toUInt8, m.middle.toUInt8, m.pad] ++
    wordBytes m.dx ++ wordBytes m.dy

theorem MouseState.length_bytes (m : MouseState) : m.bytes.length = 20 := by
  simp [MouseState.bytes]

/-- The two digits of a number below 100. -/
def digits (n : UInt8) : List UInt8 := [48 + n / 10, 48 + n % 10]

/-- What `rtc_format` puts into the buffer. -/
def RTCTime.text (t : RTCTime) : List UInt8 :=
  digits t.day ++ [47] ++ digits t.month ++ [47, 50, 48] ++ digits t.year ++ [32] ++
    digits t.hour ++ [58] ++ digits t.min ++ [58] ++ digits t.sec ++ [0]

/-- `rtc_format`. -/
def rtcFormat (buf : BitVec 32) (cap : ℤ) : Sys Unit := do
  let s ← get
  if buf = 0 ∨ cap < 20 then return ()
  else putBytes buf.toNat s.rtc.text

/-- A byte of a listing, if there is room: the position behind it. -/
def lsPut (buf : ℕ) (cap : ℤ) (pos : ℕ) (b : UInt8) : Sys ℕ :=
  if pos < cap - 2 then do
    putByte (buf + pos) b.toNat
    return pos + 1
  else return pos

/-- `ls_cb`, at the position `pos`. -/
def lsCb (buf : ℕ) (cap : ℤ) (pos : ℕ) (e : Listed) : Sys ℕ :=
  if pos ≥ cap - 2 then return pos
  else do
    let pos ← (if e.2.2 then lsPut buf cap pos 47 else pure pos)
    let pos ← (cString e.1).foldlM (lsPut buf cap) pos
    lsPut buf cap pos 10

/-! ## The calls -/

/-- The number and the arguments of a call. -/
structure Request where
  num : BitVec 32
  a : BitVec 32
  b : BitVec 32
  c : BitVec 32
  d : BitVec 32

section Calls

variable (sv : Services) (a b c d : BitVec 32)

/-- `COL_BG`. -/
def colBg : BitVec 32 := 0x1C1C1C

/-- `SCREEN_H`. -/
def screenH : ℤ := 600

/-- `SYS_PRINT`. -/
def sysPrint : Sys (BitVec 32) :=
  if !validUserPtr a 0 then return minusOne
  else do
    let y ← sv.getY
    (if y + 10 > screenH then do
      sv.fillScreen colBg
      sv.setY 0
    else pure () : Exec Kernel Unit)
    let text ← textAt a
    sv.print text b
    return 0

/-- `SYS_EXIT`. -/
def sysExit : Sys (BitVec 32) := do
  sv.elfExit
  return 0

/-- `SYS_READ`. -/
def sysRead : Sys (BitVec 32) :=
  if !validUserPtr b c then return minusOne
  else do
    let r ← fdReadTo a.toInt b.toNat c.toNat
    return .ofInt 32 r

/-- `SYS_WRITE`. -/
def sysWrite : Sys (BitVec 32) :=
  if !validUserPtr b c then return minusOne
  else do
    let s ← get
    let r ← (fdWrite a.toInt (bytesAt s.mem b.toNat c.toNat)).on Kernel.ipcPart
    return .ofInt 32 r

/-- `SYS_OPEN`. -/
def sysOpen : Sys (BitVec 32) :=
  if !validUserPtr a 0 then return minusOne
  else do
    let path ← copyKpath a
    sv.serialPuts (ascii "[open] '" ++ path ++ ascii "' -> ")
    let r ← (fdOpen path).on Kernel.ipcPart
    sv.serialPuts (ascii (toString r ++ "\n"))
    return .ofInt 32 r

/-- `SYS_CLOSE`. -/
def sysClose : Sys (BitVec 32) := do
  (fdClose a.toInt).on Kernel.ipcPart
  return 0

/-- A round of `SYS_READ_KEY`. -/
def readKeyRound : Unit → Exec Kernel (Unit ⊕ UInt8) := fun _ => do
  let k ← sv.readKey
  if k = 0 then do
    sv.serialShellPoll
    sv.shellUpdateCursor
    return .inl ()
  else return .inr k

/-- `SYS_READ_KEY`. -/
def sysReadKey : Sys (BitVec 32) := do
  let k ← Exec.loop (readKeyRound sv) ()
  return .ofNat 32 k.toNat

/-- `SYS_PIPE`. -/
def sysPipe : Sys (BitVec 32) :=
  if a = 0 ∨ !validUserPtr a 8 then return minusOne
  else do
    let s ← get
    modify fun s => { s with ipc := (fdPipe s.ipc).2 }
    match (fdPipe s.ipc).1 with
    | none => return minusOne
    | some (rfd, wfd) =>
      putBytes a.toNat (wordBytes (.ofNat 32 rfd) ++ wordBytes (.ofNat 32 wfd))
      return 0

/-- `SYS_MOUSE`. -/
def sysMouse : Sys (BitVec 32) :=
  if a = 0 ∨ !validUserPtr a 20 then return minusOne
  else do
    let s ← get
    putBytes a.toNat s.mouse.bytes
    return 0

/-- The name at `p`, as far as the table compares it: no name in it is longer than 31 bytes. -/
def nameAt (m : Memory) (p : ℕ) : ShmemName :=
  ⟨cString (stringAt m p 32), fun h => by simpa using List.mem_takeWhile_imp h⟩

/-- `shmem_create` with the pages of a new region cleared. -/
def shmemCreateClear (name : ShmemName) (size : BitVec 32) : Exec Kernel (BitVec 32) := do
  let s ← get
  let (virt, shmem) := shmemCreate name size s.shmem
  set { s with shmem }
  if s.shmem.find name = none ∧ virt ≠ 0 then do
    modify fun s => s.setMem (clearBytes virt.toNat 0 (pagesOf size * 0x1000) s.mem)
    return virt
  else return virt

/-- `SYS_SHMEM`. -/
def sysShmem : Sys (BitVec 32) :=
  if a = 0 ∨ !validUserPtr a 0 then return 0
  else do
    let s ← get
    let name := nameAt s.mem a.toNat
    if c = 0 then shmemCreateClear name b
    else if c = 1 then return shmemOpen name s.shmem
    else if c = 2 then do
      modify fun s => { s with shmem := shmemClose name s.shmem }
      return 0
    else return 0

/-- `kmem_info` with the two output pointers, null or not. -/
def kmemInfoTo (usedOut freeOut : BitVec 32) : Sys Unit := do
  let r ← kmemInfo.on Kernel.heapPart
  (if usedOut ≠ 0 then putBytes usedOut.toNat (wordBytes (.ofNat 32 r.1)) else pure ())
  (if freeOut ≠ 0 then putBytes freeOut.toNat (wordBytes (.ofNat 32 r.2)) else pure ())

/-- `SYS_MEM` with the operation `a = 3`. -/
def sysPmmInfo : Sys (BitVec 32) :=
  if b ≠ 0 ∧ !validUserPtr b 4 then return minusOne
  else if c ≠ 0 ∧ !validUserPtr c 4 then return minusOne
  else do
    let s ← get
    let used := BitVec.ofNat 32 s.shmem.vmm.pmm.used
    let total := BitVec.ofNat 32 s.shmem.vmm.pmm.total
    (if b ≠ 0 then putBytes b.toNat (wordBytes (used * 4)) else pure ())
    (if c ≠ 0 then putBytes c.toNat (wordBytes ((total - used) * 4)) else pure ())
    return 0

/-- `SYS_MEM`. -/
def sysMem : Sys (BitVec 32) :=
  if a = 0 then do
    let p ← (kmalloc b).on Kernel.heapPart
    return .ofNat 32 p
  else if a = 1 then do
    kfree b.toNat
    return 0
  else if a = 2 then
    if !validUserPtr b 8 then return minusOne
    else do
      kmemInfoTo b c
      return 0
  else if a = 3 then sysPmmInfo b c
  else return minusOne

/-- `SYS_PROC`. -/
def sysProc : Exec Kernel (BitVec 32) :=
  if a = 0 ∨ a = 1 then do
    let id ← sv.schedCurrentTask
    return id.getD 1
  else if a = 2 then return 0
  else if a = 3 then do
    sv.schedKillTask b
    return 0
  else if a = 4 then do
    sv.schedYield
    return 0
  else return minusOne

/-- `SYS_POWER`. -/
def sysPower : Exec Kernel (BitVec 32) :=
  if a = 0 then do
    sv.acpiShutdown
    return 0
  else if a = 1 then do
    sv.acpiReboot
    return 0
  else return 0

/-- `SYS_TIME`. -/
def sysTime : Sys (BitVec 32) :=
  if a = 0 then do
    let ms ← sv.pitUptimeMs
    return (ms / 1000).truncate 32
  else if a = 1 then
    if !validUserPtr b c then return minusOne
    else do
      rtcFormat b c.toInt
      return 0
  else if a = 2 then do
    sv.pitSleep b
    return 0
  else return minusOne

/-- `SYS_FS` with the operation `a = 0`. -/
def sysLs : Sys (BitVec 32) :=
  if !validUserPtr b 0 ∨ !validUserPtr c d then return minusOne
  else do
    let path ← copyKpath b
    let s ← get
    let l ← (fat12Ls s.lsEntry path).on Kernel.fatPart
    let pos ← (l.getD []).foldlM (lsCb c.toNat d.toInt) 0
    (if pos < d.toInt then putByte (c.toNat + pos) 0 else pure ())
    return .ofNat 32 pos

/-- `SYS_FS` with an operation on a path: its name on the serial port, and what it answers. -/
def fsOp (name : String) (op : Path → Exec Kernel Bool) : Sys (BitVec 32) :=
  if !validUserPtr b 0 then return minusOne
  else do
    let path ← copyKpath b
    sv.serialPuts (ascii ("[" ++ name ++ "] '") ++ path ++ ascii "' -> ")
    let ok ← op path
    return if ok then 0 else minusOne

/-- `fat12_mkdir`, `fat12_delete` or `fat12_rmdir`, with the result on the serial port. -/
def fatOp (op : Path → Fat12.Fat Bool) (path : Path) : Exec Kernel Bool := do
  let ok ← (op path).on Kernel.fatPart
  sv.serialPuts (ascii (if ok then "ok\n" else "fail\n"))
  return ok

/-- `fd_create`, with the result on the serial port, and `fd_close`. -/
def createOp (path : Path) : Exec Kernel Bool := do
  let fd ← (fdCreate path).on Kernel.ipcPart
  sv.serialPuts (ascii (toString fd ++ "\n"))
  if fd ≥ 0 then do
    (fdClose fd).on Kernel.ipcPart
    return true
  else return false

/-- `SYS_FS`. -/
def sysFs : Sys (BitVec 32) :=
  if a = 0 then sysLs b c d
  else if a = 1 then fsOp sv b "mkdir" (fatOp sv fat12Mkdir)
  else if a = 2 then fsOp sv b "rm" (fatOp sv fat12Delete)
  else if a = 3 then fsOp sv b "rmdir" (fatOp sv fat12Rmdir)
  else if a = 4 then fsOp sv b "create" (createOp sv)
  else return minusOne

/-- `SYS_DRAW`. -/
def sysDraw : Sys (BitVec 32) :=
  if a = 0 then do
    sv.fillScreen colBg
    sv.setY 0
    return 0
  else if a = 1 then do
    sv.fbPresent
    return 0
  else if a = 2 then do
    sv.drawRect (b &&& 0xFFFF) (b >>> 16) (c &&& 0xFFFF) (c >>> 16) d
    return 0
  else if a = 3 then do
    sv.printxy (cString [UInt8.ofNat b.toNat]) (c &&& 0xFFFF) (c >>> 16) d
    return 0
  else if a = 4 then do
    let text ← textAt b
    sv.printxy text (c &&& 0xFFFF) (c >>> 16) d
    return 0
  else if a = 5 then do
    let y ← sv.getY
    return .ofInt 32 y
  else if a = 6 then do
    sv.setY b
    return 0
  else return minusOne

/-- `SYS_EXEC`. -/
def sysExec : Sys (BitVec 32) :=
  if !validUserPtr b 0 then return minusOne
  else do
    let path ← copyKpath b
    let err ← sv.elfExec path
    (if err = [] then pure () else sv.serialPuts err : Exec Kernel Unit)
    return 0

end Calls

/-- `syscall_handler`. -/
def syscallHandler (sv : Services) (r : Request) : Sys (BitVec 32) :=
  match r.num.toNat with
  | 0 => sysPrint sv r.a r.b
  | 1 => sysExit sv
  | 2 => sysRead r.a r.b r.c
  | 3 => sysWrite r.a r.b r.c
  | 4 => sysOpen sv r.a
  | 5 => sysClose r.a
  | 6 => sysReadKey sv
  | 7 => sysPipe r.a
  | 8 => sysMouse r.a
  | 9 => sysShmem r.a r.b r.c
  | 10 => sysMem r.a r.b r.c
  | 11 => sysProc sv r.a r.b
  | 12 => sysPower sv r.a
  | 13 => sysTime sv r.a r.b r.c
  | 14 => sysFs sv r.a r.b r.c r.d
  | 15 => sysDraw sv r.a r.b r.c r.d
  | 16 => sysExec sv r.b
  | _ => return minusOne

end WarkRune.Syscall

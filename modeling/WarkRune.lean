import WarkRune.Exec.Basic
import WarkRune.Exec.Computes
import WarkRune.Exec.Always
import WarkRune.Exec.Yields
import WarkRune.Machine.Run
import WarkRune.Bytes.Memory
import WarkRune.Links.Chain
import WarkRune.Links.Owned
import WarkRune.Links.Reach
import WarkRune.Fat12.Flush
import WarkRune.Fat12.Halt
import WarkRune.Fat12.Fault
import WarkRune.Fat12.Unique
import WarkRune.Memory.Contract
import WarkRune.Memory.Layout
import WarkRune.Memory.Mapped
import WarkRune.Memory.Vmm
import WarkRune.Sched.Contexts
import WarkRune.Exec.StatePart
import WarkRune.Fat12.Session
import WarkRune.Memory.Borrow
import WarkRune.Memory.Krealloc
import WarkRune.Elf.Exec
import WarkRune.Elf.Inside
import WarkRune.Elf.Image
import WarkRune.Fat12.Subdir
import WarkRune.Fat12.Bits
import WarkRune.Fat12.Write
import WarkRune.Fat12.GiveBack
import WarkRune.Ipc.Descriptors
import WarkRune.Shell.Lossless
import WarkRune.Memory.Shmem
import WarkRune.Syscall.Writes
import WarkRune.Fat12.FreeChain
import WarkRune.Fat12.Usable
import WarkRune.Fat12.Invalid
import WarkRune.Fat12.Rmdir
import WarkRune.Fat12.Findable
import WarkRune.Fat12.Rename
import WarkRune.Shell.OpenCase
import WarkRune.Memory.Stray
import WarkRune.Memory.Covers
import WarkRune.Memory.Rollback
import WarkRune.Klib.Division
import WarkRune.Klib.ReadBack
import WarkRune.Syscall.Listing
import WarkRune.Fat12.SlotArray
import WarkRune.Io.Keyboard
import WarkRune.Io.Mouse
import WarkRune.Acpi.Init
import WarkRune.Ipc.Deliver
import WarkRune.Shell.Cursor
import WarkRune.Shell.Cd
import WarkRune.Shell.Lines
import WarkRune.Shell.Copy
import WarkRune.Shell.Names
import WarkRune.Fat12.Copy
import WarkRune.Ipc.NewFile
import WarkRune.Shell.LineShown
import WarkRune.Shell.SerialLine
import WarkRune.Sched.Timesharing
import WarkRune.Fat12.Ports
import WarkRune.Graphics.Present
import WarkRune.Klib.Text
import WarkRune.Shell.Session
import WarkRune.Shell.Ls
import WarkRune.Sched.Stubs
import WarkRune.Sched.Gates
import WarkRune.Klib.Panic
import WarkRune.Sched.Tss

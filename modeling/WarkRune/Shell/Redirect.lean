import WarkRune.Fat12.Filing
import WarkRune.Ipc.NewFile
import WarkRune.Shell.Pipeline

/-!
# Output to a file

On a line `cmd > file` the file is created, what the command prints is written through its
descriptor, and the descriptor is closed.

## Main definitions

* `Redirected`: the output goes to a FAT12 descriptor
* `fatFdOf`: the FAT12 descriptor behind a descriptor

## Main results

* `Redirected.write`, `Redirected.putsAll`: printing writes to the file
* `returns_runRedirect`: the line, once its command is known
-/

namespace WarkRune.Shell

open Fat12 (Path Driver Volume DirEntry Acts Fat cString fat12Write)
open Ipc (fdWrite fdClose fdCreateCase)

/-- A program of the driver, run by the shell. -/
theorem returns_fat {α : Type} {m : Fat α} {s : State} {a : α} {W : Volume}
    (hw : s.ipc.fat.Working) (hm : Acts m s.ipc.fat.vol a W) :
    ∃ t, (m.on fatPart).Returns s a (fatPart.put t s) ∧ t.vol = W ∧ t.Working := by
  obtain ⟨t, hr, hv, hwt⟩ := hm s.ipc.fat hw rfl
  exact ⟨t, Exec.returns_on.mpr ⟨t, hr, rfl⟩, hv, hwt⟩

/-- The output goes to the FAT12 descriptor `gd`. -/
def Redirected (s : State) (gd : ℤ) : Prop := ∃ k : ℕ, s.outFd = k ∧ s.ipc.IsFile k gd

theorem Redirected.put {s : State} {gd : ℤ} (h : Redirected s gd) (t : Driver) :
    Redirected (fatPart.put t s) gd := h

/-- What is printed is written to the file. -/
theorem Redirected.write {s : State} {gd : ℤ} (h : Redirected s gd) {src : Path} {r : ℤ} {t : Driver}
    (hw : (fat12Write gd src).Returns s.ipc.fat r t) :
    ((fdWrite s.outFd src).on ipcPart).Returns s r (fatPart.put t s) := by
  obtain ⟨k, hk, hlt, hfd⟩ := h
  rw [hk]
  have hopen : s.ipc.IsOpen k := by
    refine ⟨Int.natCast_nonneg k, Int.ofNat_lt.mpr hlt, ?_⟩
    rw [Int.toNat_natCast, hfd]
  have htype : (s.ipc.fds (k : ℤ).toNat).type = .file := by rw [Int.toNat_natCast, hfd]
  have hfat : (s.ipc.fds (k : ℤ).toNat).fatFd = gd := by rw [Int.toNat_natCast, hfd]
  refine Exec.returns_on.mpr ⟨{ s.ipc with fat := t }, ?_, rfl⟩
  simp only [fdWrite, Exec.returns_bind, Exec.returns_get]
  refine ⟨s.ipc, s.ipc, ⟨rfl, rfl⟩, ?_⟩
  rw [if_pos hopen]
  simp only [htype, hfat]
  exact Exec.returns_on.mpr ⟨t, hw, rfl⟩

theorem Redirected.outFd_nonneg {s : State} {gd : ℤ} (h : Redirected s gd) : s.outFd ≥ 0 := by
  obtain ⟨k, hk, -⟩ := h
  rw [hk]
  exact Int.natCast_nonneg k

/-- What `shell_puts` writes to a descriptor. -/
theorem returns_shellPuts {s s₁ s₂ : State} {buf : Path} {r₁ r₂ : ℤ} (hout : s.outFd ≥ 0)
    (h₁ : ((fdWrite s.outFd (cString buf)).on ipcPart).Returns s r₁ s₁)
    (h₂ : ((fdWrite s.outFd [10]).on ipcPart).Returns s₁ r₂ s₂) :
    (shellPuts buf).Returns s () s₂ := by
  rw [shellPuts]
  refine Exec.returns_bind.mpr ⟨s, s, Exec.returns_get.mpr ⟨rfl, rfl⟩, ?_⟩
  rw [if_pos hout]
  refine Exec.returns_bind.mpr ⟨r₁, s₁, h₁, ?_⟩
  exact Exec.returns_bind.mpr ⟨r₂, s₂, h₂, Exec.returns_pure.mpr ⟨rfl, rfl⟩⟩

section PutsAll

variable {B : Volume} {P : ℕ → ℕ → Prop} {dir i : ℕ} {e : DirEntry} {l : List ℕ} {out : Path}
  {s : State} {gd : ℤ}

/-- A write to the file leaves it a file that is written, whatever fits the disk. -/
theorem Redirected.filing_write (h : B.Sound P) (hw : s.ipc.fat.Working) (hr : Redirected s gd)
    (hF : B.Filing s.ipc.fat.vol dir i e gd l out) (src : Path) : ∃ r t l' out',
    ((fdWrite s.outFd src).on ipcPart).Returns s r (fatPart.put t s) ∧ t.Working ∧
      B.Filing t.vol dir i e gd l' out' := by
  obtain ⟨r, W, l', hwrite, hF'⟩ := Fat12.filing_write h hF src
  obtain ⟨t, ht, rfl, hwt⟩ := hwrite s.ipc.fat hw rfl
  exact ⟨r, t, l', _, hr.write ht, hwt, hF'⟩

/-- **Texts that are printed** go to the file. -/
theorem Redirected.putsAll (h : B.Sound P) (hw : s.ipc.fat.Working) (hr : Redirected s gd)
    (hF : B.Filing s.ipc.fat.vol dir i e gd l out) (bufs : List Path) : ∃ t l' out',
    (Shell.putsAll bufs).Returns s () (fatPart.put t s) ∧ t.Working ∧
      B.Filing t.vol dir i e gd l' out' := by
  -- by induction on the texts: each one is a write of the text and one of the newline
  induction bufs generalizing s l out with
  | nil => exact ⟨s.ipc.fat, l, out, Exec.returns_pure.mpr ⟨rfl, rfl⟩, hw, hF⟩
  | cons buf bufs ih =>
    obtain ⟨r₁, t₁, l₁, out₁, hw₁, hwt₁, hF₁⟩ := hr.filing_write h hw hF (cString buf)
    obtain ⟨r₂, t₂, l₂, out₂, hw₂, hwt₂, hF₂⟩ := (hr.put t₁).filing_write h hwt₁ hF₁ [10]
    obtain ⟨t₃, l₃, out₃, hrest, hwt₃, hF₃⟩ := ih hwt₂ ((hr.put t₁).put t₂) hF₂
    refine ⟨t₃, l₃, out₃, ?_, hwt₃, hF₃⟩
    exact Exec.returns_bind.mpr ⟨(), _, returns_shellPuts hr.outFd_nonneg hw₁ hw₂, hrest⟩

end PutsAll

/-- The FAT12 descriptor behind the descriptor `k`. -/
def fatFdOf (s : State) (k : ℤ) : Fat12.FD := s.ipc.fat.vol.fds (s.ipc.fds k.toNat).fatFd.toNat

/-- The end of a line `cmd > g`. -/
theorem returns_close {s : State} {k : ℕ} {gd : ℤ} (hfile : s.ipc.IsFile k gd)
    (hw : s.ipc.fat.Working) :
    ∃ s', ((fdClose k).on ipcPart).Returns s () s' ∧
      s'.ipc.fat.vol = s.ipc.fat.vol.close gd ∧ s'.ipc.fat.Working ∧ s'.cwd = s.cwd := by
  obtain ⟨hlt, hfd⟩ := hfile
  have hnat : s.ipc.fds (k : ℤ).toNat = ⟨true, .file, gd, -1⟩ := by rw [Int.toNat_natCast, hfd]
  have hopen : s.ipc.IsOpen k := by
    refine ⟨Int.natCast_nonneg k, Int.ofNat_lt.mpr hlt, ?_⟩
    rw [hnat]
  obtain ⟨t, ht, hv, hwt⟩ := Fat12.acts_fat12Close s.ipc.fat.vol gd s.ipc.fat hw rfl
  have hclose : (fdClose k).Returns s.ipc ()
      (({ s.ipc with fat := t } : Ipc.State).setFd (k : ℤ).toNat Ipc.closedFd) := by
    refine (Ipc.returns_fdClose hopen).mpr ⟨{ s.ipc with fat := t }, ?_, ?_⟩
    · rw [hnat]
      rfl
    · rw [hnat, if_pos rfl]
      exact Exec.returns_on.mpr ⟨t, ht, rfl⟩
  exact ⟨_, Exec.returns_on.mpr ⟨_, hclose, rfl⟩, hv, hwt, rfl⟩

/-- **A line `cmd > name`** whose file could be created, and whose command only used the disk. -/
theorem returns_runRedirect (dispatch : Path → Sh Unit) {s s₁ : State} {k : ℕ} {gd : ℤ} {t : Driver}
    {cmd name : Path} (hcmd : cmd ≠ []) (hname : name ≠ [])
    (hnew : ((fdCreateCase name).on ipcPart).Returns s k s₁) (hfile : s₁.ipc.IsFile k gd)
    (hrun : (dispatch cmd).Returns { s₁ with outFd := k } ()
      (fatPart.put t { s₁ with outFd := k })) (hwt : t.Working) :
    ∃ s', (runRedirect dispatch cmd name).Returns s () s' ∧
      s'.ipc.fat.vol = t.vol.close gd ∧ s'.ipc.fat.Working ∧ s'.cwd = s₁.cwd := by
  let s₂ : State := { s₁ with outFd := (k : ℤ) }
  obtain ⟨s', hclose, hvol, hw', hcwd⟩ := returns_close (s := { fatPart.put t s₂ with outFd := -1 })
    hfile hwt
  refine ⟨s', ?_, hvol, hw', hcwd⟩
  rw [runRedirect, if_neg hcmd, if_neg hname]
  refine Exec.returns_bind.mpr ⟨k, s₁, hnew, ?_⟩
  rw [if_neg (Int.not_lt.mpr (Int.natCast_nonneg k))]
  refine Exec.returns_bind.mpr ⟨(), s₂, Exec.returns_modify.mpr rfl, ?_⟩
  refine Exec.returns_bind.mpr ⟨(), fatPart.put t s₂, hrun, ?_⟩
  exact Exec.returns_bind.mpr ⟨(), _, Exec.returns_modify.mpr rfl, hclose⟩

/-- The file of a descriptor is the one FAT12 has for it. -/
theorem fatFdOf_eq {s : State} {k : ℕ} {gd : ℤ} (hfile : s.ipc.IsFile k gd) :
    fatFdOf s k = s.ipc.fat.vol.fds gd.toNat := by
  have hfd : s.ipc.fds (k : ℤ).toNat = ⟨true, .file, gd, -1⟩ := by
    rw [Int.toNat_natCast]
    exact hfile.2
  rw [fatFdOf, hfd]

end WarkRune.Shell

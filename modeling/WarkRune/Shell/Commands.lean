import WarkRune.Klib.Text
import WarkRune.Shell.Dirs

/-!
# The commands `ls` and `cd`

`ls` prints a line for each entry that `fat12_ls` calls back for, while the directory is being read:
where the output goes to a file, the disk is written between two reads of the directory. `cd` leads
to the directory that its arrays come to hold.

## Main definitions

* `listEach`, `fat12LsEach`: `fat12_ls`, with a callback that acts on the state of the shell
* `lsLine`, `cmdLs`, `cmdCd`, `cmdUnknown`: the commands, and the answer to an unknown one
* `commands`: what `dispatch` does with a command that is no command on texts or files

## Main results

* `lsLine_eq`: the line of an entry, which fits its buffer
-/

namespace WarkRune.Shell

open Fat12 (Path Driver DirEntry Listed cString dirReadEntry dirEnd dirFree slash)
open Klib (Arg ksnprintf numeral formats_plain formats_str formats_word)

/-! ## `ls` -/

/-- The loop of `fat12_ls` over the entries from `i` on, each of them given to the callback. -/
def listEach (cb : Listed → Sh Unit) (dir : ℕ) : ℕ → ℕ → Sh Unit
  | _, 0 => return ()
  | i, n + 1 => do
    match ← (dirReadEntry dir i).on fatPart with
    | none => return ()
    | some e =>
      if e.name 0 = dirEnd then return ()
      if e.name 0 = dirFree ∨ e.Masked ∨ e.IsDot then listEach cb dir (i + 1) n
      else
        cb (Fat12.from83 e.name, e.fileSize, decide e.IsDir)
        listEach cb dir (i + 1) n

/-- `fat12_ls`, `stack` being what its entry holds before anything is stored in it. -/
def fat12LsEach (stack : DirEntry) (cb : Listed → Sh Unit) (path : Path) : Sh Bool := do
  match ← (Fat12.lsDir stack path).on fatPart with
  | none => return false
  | some dir =>
    let g ← (Fat12.geometry).on fatPart
    listEach cb dir 0 (g.maxEnts dir)
    return true

/-- `fat12_ls_case`. -/
def lsCase (stack : DirEntry) (cb : Listed → Sh Unit) (path : Path) : Sh Bool := do
  if ← fat12LsEach stack cb path then return true
  if hasLowerAlpha path then fat12LsEach stack cb (path.map Fat12.upper) else return false

/-- The format of a directory. -/
def dirFormat : Path := ascii "[DIR] %s"

/-- The format of a file. -/
def fileFormat : Path := ascii "      %s  (%u bytes)"

/-- The line of an entry, in a buffer of 64 bytes. -/
def lsLine : Listed → Path
  | (name, _, true) => ksnprintf 64 dirFormat [.str (cString name)]
  | (name, size, false) => ksnprintf 64 fileFormat [.str (cString name), .word size]

/-- The path `ls` lists: without a slash at its end. -/
def lsPath (cwd : Path) (args : Option Path) : Path :=
  let path := buildPath cwd args
  if path.length > 1 ∧ path.getLast? = some slash then path.dropLast else path

def cmdLs (stack : DirEntry) (args : Option Path) : Sh Unit := do
  let _ ← lsCase stack (fun entry => shellPuts (lsLine entry)) (lsPath (← get).cwd args)

/-! ## `cd`, and unknown commands -/

def cmdCd : Option Path → Sh Unit
  | none | some [] => modify fun s => { s with cwd := chdir s.cwd none }
  | some rel => do
    let s ← get
    if rel = [46, 46] ∧ s.cwd.length ≤ 1 then return ()
    set { s with cwd := chdir s.cwd (some rel) }
    shellPuts (chdir s.cwd (some rel))

def cmdUnknown (cmd : Path) : Sh Unit :=
  shellPuts (ksnprintf 80 (ascii "unknown: %s (type help)") [.str cmd])

/-- The commands of `dispatch` that are none of those on files and texts. `other` are `exec` and the
rest of the table. -/
def commands (stack : DirEntry) (other : Path → Option Path → Sh Unit) (cmd : Path)
    (args : Option Path) : Sh Unit :=
  if cmd = ascii "ls" then cmdLs stack args
  else if cmd = ascii "cd" then cmdCd args
  else if cmd = ascii "exec" ∨ cmds.any fun c => ascii c.1 = cmd then other cmd args
  else cmdUnknown cmd

/-! ## The line of an entry -/

/-- The text of a file's line behind its name. -/
def sizeText (size : ℕ) : Path := ascii "  (" ++ numeral 10 false size ++ ascii " bytes)"

theorem length_numeral {n : ℕ} (hn : n < 2 ^ 32) : (numeral 10 false n).length ≤ 10 := by
  unfold numeral
  split
  · decide
  · rw [List.length_reverse, List.length_map]
    exact Nat.digits_length_le_iff (by decide) n |>.mpr (hn.trans (by decide))

/-- **The line of an entry** has all of its name and its size. -/
theorem lsLine_eq {name : Path} {size : ℕ} (hname : name.length ≤ 12) (hsize : size < 2 ^ 32)
    (isDir : Bool) : lsLine (name, size, isDir) =
      if isDir then ascii "[DIR] " ++ cString name
      else ascii "      " ++ cString name ++ sizeText size := by
  have hstr : (cString name).length ≤ 12 := (List.takeWhile_sublist _).length_le.trans hname
  cases isDir with
  | true =>
    have hfmt : dirFormat = ascii "[DIR] " ++ [Klib.chr '%', Klib.chr 's'] := by decide +kernel
    have h : Klib.Formats (Klib.callOf dirFormat [.str (cString name)]) 0 dirFormat
        (ascii "[DIR] " ++ cString name) 1 := by
      rw [hfmt]
      exact (formats_plain (by decide +kernel)).append (formats_str rfl (by decide))
    have hlen : (ascii "[DIR] ").length = 6 := by decide +kernel
    rw [lsLine, (h.ksnprintf 64).2, if_pos rfl]
    apply List.take_of_length_le
    rw [List.length_append]
    omega
  | false =>
    have hfmt : fileFormat = ascii "      " ++ [Klib.chr '%', Klib.chr 's'] ++
        (ascii "  (" ++ [Klib.chr '%', Klib.chr 'u'] ++ ascii " bytes)") := by decide +kernel
    have h : Klib.Formats (Klib.callOf fileFormat [.str (cString name), .word size]) 0 fileFormat
        (ascii "      " ++ cString name ++ sizeText size) 2 := by
      rw [hfmt]
      refine ((formats_plain (by decide +kernel)).append (formats_str rfl (by decide))).append ?_
      refine ((formats_plain (by decide +kernel)).append (formats_word rfl hsize)).append ?_
      exact formats_plain (by decide +kernel)
    have h₁ : (ascii "      ").length = 6 := by decide +kernel
    have h₂ : (ascii "  (").length = 3 := by decide +kernel
    have h₃ : (ascii " bytes)").length = 7 := by decide +kernel
    have hnum := length_numeral hsize
    rw [lsLine, (h.ksnprintf 64).2, if_neg Bool.false_ne_true]
    apply List.take_of_length_le
    rw [sizeText, List.length_append, List.length_append, List.length_append, List.length_append]
    omega

end WarkRune.Shell

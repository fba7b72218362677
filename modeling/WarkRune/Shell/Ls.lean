import WarkRune.Shell.Commands
import WarkRune.Shell.Copy
import WarkRune.Shell.Lossless

/-!
# Listing a directory into a file

`ls > g` writes to the disk while it reads a directory: `fat12_ls` reads an entry, the callback
prints its line into `g`, and the next entry is read. What is written takes clusters that were free,
and the entry of `g` is stored again only when it is closed. So every entry is read as it was when
`g` had just been created, and `g` itself is listed, as an empty file.

## Main definitions

* `listText`: the text of a listing
* `Writing`: the output goes to a new file
* `lsCommand`, `lsRedirect`: the command, and the line `ls f > g`

## Main results

* `Writing.listEach`: what the loop of `fat12_ls` writes
* `ls_redirected`: the file holds the text of the listing
-/

namespace WarkRune.Shell

open Fat12 (Path Driver Volume DirEntry Listed cString fat12Ls)
open Ipc (fdWrite fdCreateCase)

/-- The text of a listing: the lines of its entries. -/
def listText (L : List Listed) : Path := lines (L.map fun entry => cString (lsLine entry))

@[simp] theorem listText_nil : listText [] = [] := rfl

theorem listText_cons (entry : Listed) (L : List Listed) :
    listText (entry :: L) = (cString (lsLine entry) ++ [10]) ++ listText L := rfl

section Writing

variable {B : Volume} {P : ℕ → ℕ → Prop} {dir i d : ℕ} {e : DirEntry} {gd : ℤ} {out : Path}
  {s : State}

/-- The output goes to a new file, which holds the bytes `out`. -/
structure Writing (s : State) (B : Volume) (dir i : ℕ) (e : DirEntry) (gd : ℤ) (out : Path) :
    Prop where
  working : s.ipc.fat.Working
  redirected : Redirected s gd
  writes : ∃ l, B.Filing s.ipc.fat.vol dir i e gd l out

namespace Writing

/-- A program of the driver that leaves the volume as it was. -/
theorem reads (hc : Writing s B dir i e gd out) {α : Type} {m : Fat12.Fat α} {r : α}
    (hm : Fat12.Acts m s.ipc.fat.vol r s.ipc.fat.vol) :
    ∃ t, (m.on fatPart).Returns s r (fatPart.put t s) ∧
      Writing (fatPart.put t s) B dir i e gd out ∧ t.vol = s.ipc.fat.vol := by
  obtain ⟨t, ht, hv, hwt⟩ := returns_fat hc.working hm
  refine ⟨t, ht, ⟨hwt, hc.redirected.put t, ?_⟩, hv⟩
  change ∃ l, B.Filing t.vol dir i e gd l out
  rw [hv]
  exact hc.writes

/-- **A slot is read as it was when the file was created.** -/
theorem slot (hc : Writing s B dir i e gd out) (hd : B.DirAt d) (j : ℕ) :
    s.ipc.fat.vol.slot d j = if d = dir ∧ j = i then some e else B.slot d j := by
  obtain ⟨l, hF⟩ := hc.writes
  exact hF.slot d hd j

theorem geo (hc : Writing s B dir i e gd out) : s.ipc.fat.vol.geo = B.geo := by
  obtain ⟨l, hF⟩ := hc.writes
  exact hF.geo

section Sound

variable (h : B.Sound P)
include h

/-- Bytes are written. -/
theorem write (hc : Writing s B dir i e gd out) (src : Path)
    (hroom : out.length + src.length ≤ B.freeClusters.card * B.geo.clusterSize) :
    ∃ r t, ((fdWrite s.outFd src).on ipcPart).Returns s r (fatPart.put t s) ∧
      Writing (fatPart.put t s) B dir i e gd (out ++ src) := by
  obtain ⟨l, hF⟩ := hc.writes
  obtain ⟨r, W, l', hwrite, hF', -, -⟩ := Fat12.filing_write_all h hF src hroom
  obtain ⟨t, ht, rfl, hwt⟩ := hwrite s.ipc.fat hc.working rfl
  exact ⟨r, t, hc.redirected.write ht, hwt, hc.redirected.put t, l', hF'⟩

/-- **A line is printed.** -/
theorem puts (hc : Writing s B dir i e gd out) (buf : Path)
    (hroom : out.length + (cString buf ++ [10]).length ≤
      B.freeClusters.card * B.geo.clusterSize) :
    ∃ t, (shellPuts buf).Returns s () (fatPart.put t s) ∧
      Writing (fatPart.put t s) B dir i e gd (out ++ (cString buf ++ [10])) := by
  rw [List.length_append, List.length_singleton] at hroom
  obtain ⟨r₁, t₁, hw₁, hc₁⟩ := hc.write h (cString buf) (by omega)
  obtain ⟨r₂, t₂, hw₂, hc₂⟩ := hc₁.write h [10] (by
    rw [List.length_append, List.length_singleton]
    omega)
  rw [List.append_assoc] at hc₂
  exact ⟨t₂, returns_shellPuts hc.redirected.outFd_nonneg hw₁ hw₂, hc₂⟩

/-- **The loop of `fat12_ls`** writes the lines of the entries that were there when it began. -/
theorem listEach (hd : B.DirAt d) {V : Volume}
    (hV : ∀ j, V.slot d j = if d = dir ∧ j = i then some e else B.slot d j) (n j : ℕ)
    (hc : Writing s B dir i e gd out)
    (hroom : out.length + (listText (V.listFrom d j n)).length ≤
      B.freeClusters.card * B.geo.clusterSize) :
    ∃ t, (Shell.listEach (fun entry => shellPuts (lsLine entry)) d j n).Returns s ()
        (fatPart.put t s) ∧
      Writing (fatPart.put t s) B dir i e gd (out ++ listText (V.listFrom d j n)) := by
  -- by induction on the number of slots that are left
  induction n generalizing s out j with
  | zero =>
    refine ⟨s.ipc.fat, Exec.returns_pure.mpr ⟨rfl, rfl⟩, ?_⟩
    rw [Volume.listFrom, listText_nil, List.append_nil]
    exact hc
  | succ n ih =>
    obtain ⟨t₁, hread, hc₁, -⟩ := hc.reads (Fat12.acts_dirReadEntry s.ipc.fat.vol d j)
    have hslot : s.ipc.fat.vol.slot d j = V.slot d j := (hc.slot hd j).trans (hV j).symm
    rw [hslot] at hread
    rw [Volume.listFrom] at hroom ⊢
    cases hs : V.slot d j with
    | none =>
      rw [hs] at hread
      refine ⟨t₁, Exec.returns_bind.mpr ⟨none, _, hread, Exec.returns_pure.mpr ⟨rfl, rfl⟩⟩, ?_⟩
      rw [listText_nil, List.append_nil]
      exact hc₁
    | some x =>
      rw [hs] at hread hroom
      dsimp only at hroom ⊢
      by_cases hend : x.name 0 = Fat12.dirEnd
      · refine ⟨t₁, Exec.returns_bind.mpr ⟨some x, _, hread, ?_⟩, ?_⟩
        · dsimp only
          rw [if_pos hend]
          exact Exec.returns_pure.mpr ⟨rfl, rfl⟩
        · rw [if_pos hend, listText_nil, List.append_nil]
          exact hc₁
      rw [if_neg hend] at hroom ⊢
      by_cases hskip : x.name 0 = Fat12.dirFree ∨ x.Masked ∨ x.IsDot
      · rw [if_pos hskip] at hroom ⊢
        obtain ⟨t₂, hrest, hc₂⟩ := ih (j + 1) hc₁ hroom
        refine ⟨t₂, Exec.returns_bind.mpr ⟨some x, _, hread, ?_⟩, hc₂⟩
        dsimp only
        rw [if_neg hend, if_pos hskip]
        exact hrest
      · rw [if_neg hskip, listText_cons, List.length_append] at hroom
        rw [if_neg hskip, listText_cons]
        obtain ⟨t₂, hputs, hc₂⟩ := hc₁.puts h
          (lsLine (Fat12.from83 x.name, x.fileSize, decide x.IsDir)) (by omega)
        obtain ⟨t₃, hrest, hc₃⟩ := ih (j + 1) hc₂ (by
          rw [List.length_append]
          omega)
        rw [List.append_assoc] at hc₃
        refine ⟨t₃, Exec.returns_bind.mpr ⟨some x, _, hread, ?_⟩, hc₃⟩
        dsimp only
        rw [if_neg hend, if_neg hskip]
        exact Exec.returns_bind.mpr ⟨(), _, hputs, hrest⟩

/-- **`ls`** writes the listing that `fat12_ls` makes of the volume it finds. -/
theorem cmdLs (hc : Writing s B dir i e gd out) {stack : DirEntry} {args : Option Path}
    (hls : s.ipc.fat.vol.lsDir stack (lsPath s.cwd args) = some d) (hd : B.DirAt d)
    (hroom : out.length + (listText (s.ipc.fat.vol.listFrom d 0
      (s.ipc.fat.vol.geo.maxEnts d))).length ≤ B.freeClusters.card * B.geo.clusterSize) :
    ∃ t, (Shell.cmdLs stack args).Returns s () (fatPart.put t s) ∧
      Writing (fatPart.put t s) B dir i e gd
        (out ++ listText (s.ipc.fat.vol.listFrom d 0 (s.ipc.fat.vol.geo.maxEnts d))) := by
  obtain ⟨t₁, hdir, hc₁, hv₁⟩ := hc.reads (Fat12.acts_lsDir s.ipc.fat.vol stack (lsPath s.cwd args))
  obtain ⟨t₂, hgeo, hc₂, -⟩ := hc₁.reads (Fat12.acts_geometry t₁.vol)
  obtain ⟨t₃, hlist, hc₃⟩ := hc₂.listEach h hd (V := s.ipc.fat.vol) (hc.slot hd)
    (s.ipc.fat.vol.geo.maxEnts d) 0 hroom
  refine ⟨t₃, ?_, hc₃⟩
  have heach : (fat12LsEach stack (fun entry => shellPuts (lsLine entry))
      (lsPath s.cwd args)).Returns s true (fatPart.put t₃ s) := by
    refine Exec.returns_bind.mpr ⟨_, _, hdir, ?_⟩
    rw [hls]
    refine Exec.returns_bind.mpr ⟨_, _, hgeo, ?_⟩
    rw [hv₁]
    exact Exec.returns_bind.mpr ⟨(), _, hlist, Exec.returns_pure.mpr ⟨rfl, rfl⟩⟩
  have hcase : (lsCase stack (fun entry => shellPuts (lsLine entry))
      (lsPath s.cwd args)).Returns s true (fatPart.put t₃ s) := by
    refine Exec.returns_bind.mpr ⟨true, _, heach, ?_⟩
    rw [if_pos rfl]
    exact Exec.returns_pure.mpr ⟨rfl, rfl⟩
  refine Exec.returns_bind.mpr ⟨s, s, Exec.returns_get.mpr ⟨rfl, rfl⟩, ?_⟩
  exact Exec.returns_bind.mpr ⟨true, _, hcase, Exec.returns_pure.mpr ⟨rfl, rfl⟩⟩

end Sound

end Writing

end Writing

/-! ## The command line -/

/-- The command `ls`, with its arguments. -/
def lsCommand : Option Path → Path
  | none => ascii "ls"
  | some f => ascii "ls " ++ f

/-- The line `ls f > g`, with spaces around the `>`. -/
def lsRedirect (args : Option Path) (g : Path) (a b : ℕ) : Path :=
  (CommandLine.redirected (lsCommand args) a b g).text

section CommandLine

variable {stack : DirEntry} (other : Path → Option Path → Sh Unit) {s s₁ : State} {k : ℤ}
  {args : Option Path} {cmd g : Path} {a b : ℕ}

theorem dispatch_ls (args : Option Path) : dispatch (commands stack other) (lsCommand args) =
    get >>= fun _ => cmdLs stack args := by
  have hls : ascii "ls" = [108, 115] := by decide +kernel
  have hsp : ascii "ls " = [108, 115, 32] := by decide +kernel
  have hne : lsCommand args ≠ [] := by
    cases args with
    | none => rw [lsCommand, hls]; exact List.cons_ne_nil _ _
    | some f => rw [lsCommand, hsp]; exact List.cons_ne_nil _ _
  have hcmd : ((lsCommand args).takeWhile (· ≠ 32)).take 31 = ascii "ls" := by
    cases args with
    | none => rw [lsCommand, hls]; rfl
    | some f => rw [lsCommand, hsp, hls]; rfl
  have hscreen : ascii "ls" ∉ [ascii "fire", ascii "freedom", ascii "exec", ascii "clear"] := by
    decide +kernel
  have hnames : ∀ c ∈ ["pwd", "mkdir", "touch", "rm", "rmdir", "cat", "echo", "help"],
      ascii "ls" ≠ ascii c := by
    decide +kernel
  simp only [List.mem_cons, forall_eq_or_imp] at hnames
  rw [dispatch, if_neg hne, hcmd]
  cases args with
  | none =>
    have hdrop : (lsCommand none).drop (ascii "ls").length = [] := by rw [lsCommand, hls]; rfl
    simp only [hdrop, hscreen, hnames, and_false, if_false, commands, if_true]
  | some f =>
    have hdrop : (lsCommand (some f)).drop (ascii "ls").length = 32 :: f := by
      rw [lsCommand, hsp, hls]
      rfl
    simp only [hdrop, hscreen, hnames, and_false, if_false, commands, if_true]

/-- Both sides of a line `cmd > g`. -/
theorem runPipeline_redirected (D : Path → Sh Unit) (hredir : 62 ∉ cmd) (hpipe : 124 ∉ cmd)
    (hg : IsPart g) (hline : (CommandLine.redirected cmd a b g).text.length ≤ 127) :
    runPipeline D (CommandLine.redirected cmd a b g).text =
      runRedirect D (trimEnd cmd) (trimStart g) := by
  obtain ⟨i, hi, hleft, hright⟩ := CommandLine.cut_at hredir (by decide) hline
  have hnone := CommandLine.notMem_line (a := a) (b := b) hpipe hg.pipe
    (show (124 : UInt8) ≠ 62 by decide) (by decide)
  rw [CommandLine.text, runPipeline, findOp_of_notMem hnone, hi]
  dsimp only
  rw [hleft, hright]

/-- Both sides of the line `ls f > g`. -/
theorem runPipeline_lsRedirect (D : Path → Sh Unit) (hargs : ∀ f ∈ args, IsPart f) (hg : IsPart g)
    (hline : (lsRedirect args g a b).length ≤ 127) :
    runPipeline D (lsRedirect args g a b) =
      runRedirect D (lsCommand (args.map trimEnd)) (trimStart g) := by
  cases args with
  | none =>
    have hcmd : trimEnd (ascii "ls") = ascii "ls" := by decide +kernel
    have h := runPipeline_redirected D (show 62 ∉ ascii "ls" by decide +kernel)
      (by decide +kernel) hg hline
    rwa [hcmd] at h
  | some f =>
    have hf : IsPart f := hargs f rfl
    have hls : ∀ c ∈ ascii "ls ", c ≠ 62 ∧ c ≠ 124 := by decide +kernel
    have hredir : 62 ∉ ascii "ls " ++ f := fun hmem =>
      (List.mem_append.mp hmem).elim (fun hc => (hls _ hc).1 rfl) hf.redirect
    have hpipe : 124 ∉ ascii "ls " ++ f := fun hmem =>
      (List.mem_append.mp hmem).elim (fun hc => (hls _ hc).2 rfl) hf.pipe
    have h := runPipeline_redirected D hredir hpipe hg hline
    rwa [trimEnd_append hf.visible] at h

/-- **`ls f > g` stores the listing**: `g` holds the text of what `fat12_ls` lists on the volume
where `g` has just been created, although the directory is read while that text is written. -/
theorem ls_redirected (hw : s.ipc.fat.Working) (h : s.ipc.fat.vol.WellFormed)
    (hargs : ∀ f ∈ args, IsPart f) (hg : IsPart g) (hline : (lsRedirect args g a b).length ≤ 127)
    (hnew : ((fdCreateCase (trimStart g)).on ipcPart).Returns s k s₁) (hk : 0 ≤ k)
    {L : List Listed} {t : Driver}
    (hls : (fat12Ls stack (lsPath s.cwd (args.map trimEnd))).Returns s₁.ipc.fat (some L) t)
    (hdir : ∀ d, s₁.ipc.fat.vol.lsDir stack (lsPath s.cwd (args.map trimEnd)) = some d →
      s.ipc.fat.vol.DirAt d)
    (hroom : (listText L).length ≤
      s₁.ipc.fat.vol.freeClusters.card * s₁.ipc.fat.vol.geo.clusterSize) :
    ∃ s', (runPipeline (dispatch (commands stack other)) (lsRedirect args g a b)).Returns s () s' ∧
      Contains s₁ s' k (listText L) := by
  have hshort : (cString (trimStart g)).length ≤ 255 := by
    have hle : (trimStart g).length ≤ (lsRedirect args g a b).length := by
      refine (List.length_dropWhile_le _ _).trans ?_
      simp only [lsRedirect, CommandLine.text, List.length_append, List.length_cons]
      omega
    exact (List.takeWhile_sublist _).length_le.trans (hle.trans (hline.trans (by decide)))
  obtain ⟨i₁, hcreate, rfl⟩ := Exec.returns_on.mp hnew
  obtain ⟨k, gd, u, rfl, hisfile, hwu, hi₁, hgd, hcreates⟩ :=
    Ipc.fdCreateCase_creates (hw : (ipcPart.get s).fat.Working) hshort hcreate hk
  obtain ⟨B, dir, i, name, hB, hdirB, hF, hdirs⟩ := hcreates.filing_dirs h.sound hgd
  have hu : i₁.fat = u := by
    rw [hi₁]
    rfl
  subst hu
  obtain ⟨hL, -⟩ := (Fat12.acts_fat12Ls i₁.fat.vol stack _).eq_of_returns hwu rfl hls
  obtain ⟨d, hd, rfl⟩ := Option.map_eq_some_iff.mp hL.symm
  have hcard : B.freeClusters = i₁.fat.vol.freeClusters := by
    ext c
    rw [Fat12.Volume.mem_freeClusters, Fat12.Volume.mem_freeClusters, hF.geo]
    exact and_congr_right fun hc => by rw [hF.fat c hc List.not_mem_nil]
  have hroom' : (listText (i₁.fat.vol.listFrom d 0 (i₁.fat.vol.geo.maxEnts d))).length ≤
      B.freeClusters.card * B.geo.clusterSize := by
    rw [hcard, ← hF.geo]
    exact hroom
  let s₂ : State := { ipcPart.put i₁ s with outFd := (k : ℤ) }
  have hstart : Writing s₂ B dir i (Fat12.newEntry name Fat12.attrArch 0) gd [] :=
    ⟨hwu, ⟨k, rfl, hisfile⟩, [], hF⟩
  obtain ⟨t₁, hcmd, hc⟩ := hstart.cmdLs hB hd (hdirs d (hdir d hd)) (by
    rw [List.length_nil, Nat.zero_add]
    exact hroom')
  rw [List.nil_append] at hc
  obtain ⟨l, hF₁⟩ := hc.writes
  have hrun : (dispatch (commands stack other) (lsCommand (args.map trimEnd))).Returns s₂ ()
      (fatPart.put t₁ s₂) := by
    rw [dispatch_ls]
    exact Exec.returns_bind.mpr ⟨s₂, s₂, Exec.returns_get.mpr ⟨rfl, rfl⟩, hcmd⟩
  have hne : lsCommand (args.map trimEnd) ≠ [] := by
    cases args <;> simp [lsCommand, ascii]
  obtain ⟨s', hline', hvol, -, -⟩ := returns_runRedirect _ hne (trimStart_ne_nil hg.visible) hnew
    hisfile hrun hc.working
  refine ⟨s', ?_, ?_⟩
  · rw [runPipeline_lsRedirect _ hargs hg hline]
    exact hline'
  · obtain ⟨c, hfiled, -⟩ := Fat12.filing_close hB hdirB hF₁
    have hplain : ¬ ((Fat12.newEntry name Fat12.attrArch 0).setRecord
        (listText (i₁.fat.vol.listFrom d 0 (i₁.fat.vol.geo.maxEnts d))).length c).IsDir := by
      rw [DirEntry.IsDir, DirEntry.attr_setRecord, DirEntry.attr_newEntry]
      decide
    rw [Contains, fatFdOf_eq (s := ipcPart.put i₁ s) hisfile, hvol]
    change (t₁.vol.close gd).FileAt (i₁.fat.vol.fds gd.toNat).parentCluster
      (i₁.fat.vol.fds gd.toNat).dirIdx _
    rw [hF.parent, hF.idx]
    exact hfiled.fileAt hdirB hplain

end CommandLine

/-- Whether the root directory lists `L` once the file `G` is created, and the text has room. -/
def listsAfterCreate (n : ℕ) (L : List Listed) : Option (ℤ × Bool × Bool) := do
  let (k, s₁) ← ((fdCreateCase [71]).on ipcPart).run 30 (fileShell n)
  let (r, _) ← (fat12Ls .zero [47]).run 30 s₁.ipc.fat
  let V := s₁.ipc.fat.vol
  return (k, r = some L, 78 ≤ V.freeClusters.card * V.geo.clusterSize)

theorem fileShell_list {n : ℕ} {L : List Listed}
    (h : listsAfterCreate n L = some (3, true, true)) :
    ∃ s₁ t, ((fdCreateCase [71]).on ipcPart).Returns (fileShell n) 3 s₁ ∧
      (fat12Ls .zero [47]).Returns s₁.ipc.fat (some L) t ∧
      78 ≤ s₁.ipc.fat.vol.freeClusters.card * s₁.ipc.fat.vol.geo.clusterSize := by
  obtain ⟨⟨k, s₁⟩, hr, h⟩ := Option.bind_eq_some_iff.mp h
  obtain ⟨⟨r, t⟩, hl, h⟩ := Option.bind_eq_some_iff.mp h
  obtain ⟨rfl, hrest⟩ := Prod.mk.inj (Option.some.inj h)
  obtain ⟨hL, hroom⟩ := Prod.mk.inj hrest
  obtain rfl := of_decide_eq_true hL
  exact ⟨s₁, t, ⟨30, hr⟩, ⟨30, hl⟩, of_decide_eq_true hroom⟩

/-- The text of two files. -/
theorem listText_two : listText [([70], 3, false), ([71], 0, false)] =
    ascii "      F  (3 bytes)\n      G  (0 bytes)\n" := by
  rw [listText_cons, listText_cons, lsLine_eq (by decide) (by decide),
    lsLine_eq (by decide) (by decide)]
  decide +kernel

/-- The theorem at the root directory with one file. -/
theorem ls_redirected_file : ∃ s₁ s',
    ((fdCreateCase [71]).on ipcPart).Returns (fileShell 3) 3 s₁ ∧
    (runPipeline (dispatch (commands .zero fun _ _ => pure ())) (lsRedirect none [71] 1 1)).Returns
      (fileShell 3) () s' ∧
    Contains s₁ s' 3 (ascii "      F  (3 bytes)\n      G  (0 bytes)\n") := by
  obtain ⟨s₁, t, hnew, hls, hroom⟩ := fileShell_list (n := 3)
    (L := [([70], 3, false), ([71], 0, false)]) (by decide +kernel)
  have hroot : ∀ d, s₁.ipc.fat.vol.lsDir .zero [47] = some d → (fileShell 3).ipc.fat.vol.DirAt d := by
    intro d hd
    have h0 : s₁.ipc.fat.vol.lsDir .zero [47] = some 0 := if_pos (by decide)
    obtain rfl := Option.some.inj (h0.symm.trans hd)
    exact .refl
  have hpath : (fat12Ls .zero (lsPath (fileShell 3).cwd ((none : Option Path).map trimEnd))).Returns
      s₁.ipc.fat (some [([70], 3, false), ([71], 0, false)]) t := hls
  obtain ⟨s', hrun, hcont⟩ := ls_redirected (s := fileShell 3) (fun _ _ => pure ()) (a := 1) (b := 1)
    (Fat12.fileVolume 3).driver_working (Fat12.fileVolume_wellFormed 3) (fun f hf => by cases hf)
    (isPart_letter (c := 71) (by decide)) (by decide +kernel) hnew (by decide) hpath hroot (by
      rw [listText_two]
      exact Nat.le_trans (by decide +kernel) hroom)
  rw [listText_two] at hcont
  exact ⟨s₁, s', hnew, hrun, hcont⟩

end WarkRune.Shell

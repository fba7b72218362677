import WarkRune.Fat12.Copy
import WarkRune.Shell.Lines
import WarkRune.Shell.Redirect

/-!
# Copying a file on the command line

`cat f > g` reads `f` in pieces of 511 bytes and prints each one. Printing ends the line, so the
file `g` has a newline behind each piece, and not only at its end.

## Main definitions

* `catOutput`: the pieces, with a newline behind each
* `Copying`: `cat` reads one file and its output goes to another

## Main results

* `Copying.loop`: what the loop of `cat` writes
* `cat_copies_iff`: which files are copied
-/

namespace WarkRune.Shell

open Fat12 (Path Driver Volume DirEntry Fat Acts cString fat12Open fat12Read fat12Write fat12Close)
open Ipc (fdWrite fdClose fdCreateCase fdMax)

/-- What `cat` prints of a file: pieces of 511 bytes, with a newline behind each. -/
def catOutput (data : Path) : Path :=
  if data = [] then [] else data.take 511 ++ [10] ++ catOutput (data.drop 511)
termination_by data.length
decreasing_by
  rw [List.length_drop]
  have := List.length_pos_of_ne_nil ‹_›
  omega

theorem catOutput_nil : catOutput [] = [] := by rw [catOutput, if_pos rfl]

theorem catOutput_of_ne {data : Path} (h : data ≠ []) :
    catOutput data = data.take 511 ++ [10] ++ catOutput (data.drop 511) := by
  rw [catOutput, if_neg h]

/-- **Each piece costs a newline.** -/
theorem length_catOutput (data : Path) :
    (catOutput data).length = data.length + (data.length + 510) / 511 := by
  induction data using catOutput.induct with
  | case1 => rw [catOutput_nil]; rfl
  | case2 data h ih =>
    have hpos := List.length_pos_of_ne_nil h
    rw [catOutput_of_ne h, List.length_append, List.length_append, List.length_singleton, ih,
      List.length_take, List.length_drop]
    omega

/-- A file of one piece is printed with one newline. -/
theorem catOutput_of_le {data : Path} (h : data.length ≤ 511) :
    ∃ nl, (nl = [] ∨ nl = [10]) ∧ catOutput data = data ++ nl := by
  by_cases h0 : data = []
  · subst h0
    exact ⟨[], .inl rfl, catOutput_nil⟩
  · refine ⟨[10], .inr rfl, ?_⟩
    rw [catOutput_of_ne h0, List.take_of_length_le h, List.drop_of_length_le h, catOutput_nil,
      List.append_nil]

/-! ## The loop of `cat` -/

section Copying

variable {B : Volume} {P : ℕ → ℕ → Prop} {dir i d j p : ℕ} {e x : DirEntry} {gd fd : ℤ}
  {m : List ℕ} {data out : Path} {s : State}

/-- `cat` is at position `p` of the file with the bytes `data`, and the file its output goes to
holds the bytes `out`. -/
structure Copying (s : State) (B : Volume) (dir i : ℕ) (e : DirEntry) (gd fd : ℤ) (d j : ℕ)
    (x : DirEntry) (m : List ℕ) (data : Path) (p : ℕ) (out : Path) : Prop where
  working : s.ipc.fat.Working
  redirected : Redirected s gd
  writes : ∃ l, B.Filing s.ipc.fat.vol dir i e gd l out ∧ ∀ c ∈ m, c ∉ l
  reads : s.ipc.fat.vol.Reading fd d j x m data p
  ne : fd.toNat ≠ gd.toNat

namespace Copying

variable (h : B.Sound P)
include h

/-- The next piece is read. -/
theorem read (hc : Copying s B dir i e gd fd d j x m data p out) :
    ∃ t, ((fat12Read fd 511).on fatPart).Returns s
        (((data.drop p).take 511).length, (data.drop p).take 511) (fatPart.put t s) ∧
      Copying (fatPart.put t s) B dir i e gd fd d j x m data
        (p + ((data.drop p).take 511).length) out := by
  obtain ⟨l, hF, hout⟩ := hc.writes
  obtain ⟨W, hread, hr, f, hW⟩ := Fat12.acts_read (hF.laid h) hc.reads 511
  obtain ⟨t, ht, rfl, hwt⟩ := returns_fat hc.working hread
  refine ⟨t, ht, hwt, hc.redirected.put t, ⟨l, ?_, hout⟩, hr, hc.ne⟩
  change B.Filing t.vol dir i e gd l out
  rw [hW]
  exact hF.setFd_other hc.ne f

/-- Bytes are written. -/
theorem write (hc : Copying s B dir i e gd fd d j x m data p out) (src : Path)
    (hroom : out.length + src.length ≤ B.freeClusters.card * B.geo.clusterSize) :
    ∃ r t, ((fdWrite s.outFd src).on ipcPart).Returns s r (fatPart.put t s) ∧
      Copying (fatPart.put t s) B dir i e gd fd d j x m data p (out ++ src) := by
  obtain ⟨l, hF, hout⟩ := hc.writes
  obtain ⟨r, W, l', hwrite, hF', hgr, hfds⟩ := Fat12.filing_write_all h hF src hroom
  obtain ⟨t, ht, rfl, hwt⟩ := hwrite s.ipc.fat hc.working rfl
  -- the clusters it takes were free, so none of them is read
  obtain ⟨hr, hout'⟩ := hc.reads.grown (hF.laid h) hgr hout (hfds _ hc.ne)
  exact ⟨r, t, hc.redirected.write ht, hwt, hc.redirected.put t, ⟨l', hF', hout'⟩, hr, hc.ne⟩

/-- **A piece is printed** with a newline behind it. -/
theorem puts (hc : Copying s B dir i e gd fd d j x m data p out) {buf : Path} (h0 : 0 ∉ buf)
    (hroom : out.length + (buf.length + 1) ≤ B.freeClusters.card * B.geo.clusterSize) :
    ∃ t, (shellPuts buf).Returns s () (fatPart.put t s) ∧
      Copying (fatPart.put t s) B dir i e gd fd d j x m data p (out ++ (buf ++ [10])) := by
  have hstr : cString buf = buf := List.takeWhile_eq_self_iff.mpr fun c hc =>
    decide_eq_true fun hz => h0 (hz ▸ hc)
  obtain ⟨r₁, t₁, hw₁, hc₁⟩ := hc.write h buf (by omega)
  obtain ⟨r₂, t₂, hw₂, hc₂⟩ := hc₁.write h [10] (by
    rw [List.length_append, List.length_singleton]
    omega)
  rw [List.append_assoc] at hc₂
  have hwritten : ((fdWrite s.outFd (cString buf)).on ipcPart).Returns s r₁ (fatPart.put t₁ s) := by
    rw [hstr]
    exact hw₁
  exact ⟨t₂, returns_shellPuts hc.redirected.outFd_nonneg hwritten hw₂, hc₂⟩

/-- **The loop of `cat`** writes the pieces from its position on. -/
theorem loop (hc : Copying s B dir i e gd fd d j x m data p out) (h0 : 0 ∉ data)
    (hroom : out.length + (catOutput (data.drop p)).length ≤
      B.freeClusters.card * B.geo.clusterSize) :
    ∃ t q, (Exec.loop (catRound ((fat12Read fd 511).on fatPart)) ()).Returns s ()
        (fatPart.put t s) ∧
      Copying (fatPart.put t s) B dir i e gd fd d j x m data q
        (out ++ catOutput (data.drop p)) := by
  -- by induction on what is left to read
  induction hn : (data.drop p).length using Nat.strong_induction_on generalizing s p out with
  | _ n ih =>
    obtain ⟨t₁, hread, hc₁⟩ := hc.read h
    by_cases hend : data.drop p = []
    · rw [hend] at hread
      rw [hend, catOutput_nil, List.append_nil]
      refine ⟨t₁, _, Exec.Returns.loop_done ?_, hc₁⟩
      exact Exec.returns_bind.mpr ⟨_, _, hread, Exec.returns_pure.mpr ⟨rfl, rfl⟩⟩
    have hpos := List.length_pos_of_ne_nil hend
    have hlen : ((data.drop p).take 511).length = min 511 (data.drop p).length :=
      List.length_take
    rw [catOutput_of_ne hend, List.length_append, List.length_append, List.length_singleton]
      at hroom
    have hnul : 0 ∉ (data.drop p).take 511 := fun hz =>
      h0 (List.mem_of_mem_drop (List.mem_of_mem_take hz))
    obtain ⟨t₂, hputs, hc₂⟩ := hc₁.puts h hnul (by omega)
    have hrest : data.drop (p + ((data.drop p).take 511).length) = (data.drop p).drop 511 := by
      rw [hlen, List.drop_drop]
      rcases Nat.le_total 511 (data.drop p).length with hle | hle
      · rw [Nat.min_eq_left hle]
      · rw [Nat.min_eq_right hle, ← List.drop_drop, List.drop_length, ← List.drop_drop,
          List.drop_of_length_le hle]
    obtain ⟨t₃, q, hloop, hc₃⟩ := ih _ (by
        rw [hrest, List.length_drop]
        omega) hc₂ (by
      rw [hrest, List.length_append, List.length_append, List.length_singleton]
      omega) rfl
    have hround : (catRound ((fat12Read fd 511).on fatPart) ()).Returns s (.inl ())
        (fatPart.put t₂ (fatPart.put t₁ s)) := by
      refine Exec.returns_bind.mpr ⟨_, _, hread, ?_⟩
      dsimp only
      rw [if_pos (by omega)]
      exact Exec.returns_bind.mpr ⟨(), _, hputs, Exec.returns_pure.mpr ⟨rfl, rfl⟩⟩
    refine ⟨t₃, q, hround.loop_next hloop, ?_⟩
    rw [hrest, List.append_assoc] at hc₃
    rw [catOutput_of_ne hend]
    exact hc₃

end Copying

/-! ## The command -/

/-- **`cat` of a file** writes its pieces to the file its output goes to. -/
theorem cmdCat_writes (h : B.Sound P) {U : Volume} {f : Path} (hf : f ≠ [])
    (hw : s.ipc.fat.Working) (hU : s.ipc.fat.vol = U) (hred : Redirected s gd)
    (hF : B.Filing U dir i e gd [] [])
    (hB : B.HasFile (buildPath s.cwd (some f)) d j x m data)
    (hfile : U.HasFile (buildPath s.cwd (some f)) d j x m data) (hne : (d, j) ≠ (dir, i))
    (h0 : 0 ∉ data) (hfree : U.freeFd ≠ none)
    (hroom : (catOutput data).length ≤ B.freeClusters.card * B.geo.clusterSize) :
    ∃ t l, (cmdCat (some f)).Returns s () (fatPart.put t s) ∧ t.Working ∧
      B.Filing t.vol dir i e gd l (catOutput data) := by
  subst hU
  obtain ⟨n, W, hopen, hr, hunused, hW⟩ := Fat12.reading_open hfile hfree
  obtain ⟨t₁, ht₁, rfl, hw₁⟩ := returns_fat hw hopen
  -- the descriptor of the output is open, and the one opened was free
  have hngd : (n : ℤ).toNat ≠ gd.toNat := by
    rw [Int.toNat_natCast]
    rintro rfl
    exact absurd (hF.valid.2.2.symm.trans hunused) nofun
  have hF₁ : B.Filing t₁.vol dir i e gd [] [] := by
    rw [hW]
    exact hF.setFd_other hngd _
  have hc₁ : Copying (fatPart.put t₁ s) B dir i e gd n d j x m data 0 [] :=
    ⟨hw₁, hred.put t₁, ⟨[], hF₁, fun _ _ => List.not_mem_nil⟩, hr, hngd⟩
  -- the loop writes all pieces, from the start of the file with nothing written
  obtain ⟨t₂, q, hloop, hc₂⟩ := hc₁.loop h h0 (by rwa [List.drop_zero, List.length_nil, Nat.zero_add])
  rw [List.drop_zero, List.nil_append] at hc₂
  obtain ⟨l, hF₂, -⟩ := hc₂.writes
  obtain ⟨t₃, hclose, hv₃, hw₃⟩ := returns_fat hc₂.working (Fat12.acts_fat12Close _ n)
  obtain ⟨hd, hl, -, -⟩ := hB.finds.live
  have hF₃ := hc₂.reads.close hF₂ hd hl.1 hne hngd
  rw [← hv₃] at hF₃
  refine ⟨t₃, l, ?_, hw₃, hF₃⟩
  have hcase : (fdCase fat12Open (buildPath s.cwd (some f))).Returns s n (fatPart.put t₁ s) := by
    refine Exec.returns_bind.mpr ⟨n, _, ht₁, ?_⟩
    rw [if_pos (Int.natCast_nonneg n)]
    exact Exec.returns_pure.mpr ⟨rfl, rfl⟩
  obtain ⟨c, f, rfl⟩ := List.exists_cons_of_ne_nil hf
  refine Exec.returns_bind.mpr ⟨s, s, Exec.returns_get.mpr ⟨rfl, rfl⟩, ?_⟩
  refine Exec.returns_bind.mpr ⟨n, _, hcase, ?_⟩
  rw [if_neg (Int.not_lt.mpr (Int.natCast_nonneg n))]
  exact Exec.returns_bind.mpr ⟨(), _, hloop, hclose⟩

end Copying

/-- The command `cat`. -/
theorem dispatch_cat (other : Path → Option Path → Sh Unit) (f : Path) :
    dispatch other (ascii "cat " ++ f) = get >>= fun _ => cmdCat (some f) := by
  have hcat : ascii "cat " = [99, 97, 116, 32] := by decide +kernel
  have hcmd : ((ascii "cat " ++ f).takeWhile (· ≠ 32)).take 31 = ascii "cat" := by
    rw [hcat]
    rfl
  have hargs : (ascii "cat " ++ f).drop (ascii "cat").length = 32 :: f := by
    rw [hcat]
    rfl
  have hscreen : ascii "cat" ∉ [ascii "fire", ascii "freedom", ascii "exec", ascii "clear"] := by
    decide +kernel
  have hnames : ∀ c ∈ ["pwd", "mkdir", "touch", "rm", "rmdir"], ascii "cat" ≠ ascii c := by
    decide +kernel
  simp only [List.mem_cons, forall_eq_or_imp] at hnames
  rw [dispatch, if_neg (by rw [hcat]; exact List.cons_ne_nil _ _), hcmd]
  simp only [hargs, hscreen, hnames, and_false, if_false, if_true]

/-! ## The command line -/

/-- The file that the descriptor `k` was opened for in `s` holds the bytes `data` in `s'`. -/
def Contains (s s' : State) (k : ℤ) (data : Path) : Prop :=
  s'.ipc.fat.vol.FileAt (fatFdOf s k).parentCluster (fatFdOf s k).dirIdx data

/-- The line `cat f > g`, with spaces around the `>`. -/
def catLine (f g : Path) (a b : ℕ) : Path := (CommandLine.redirected (ascii "cat " ++ f) a b g).text

/-- The spaces at the end are not in front of the visible part. -/
theorem trimEnd_append {t : Path} (h : ∃ c ∈ t, c ≠ 32) (u : Path) :
    trimEnd (u ++ t) = u ++ trimEnd t := by
  have hne : t.reverse.dropWhile (· = 32) ≠ [] := by
    obtain ⟨c, hc, hne⟩ := h
    exact fun hnil => hne (of_decide_eq_true
      (List.dropWhile_eq_nil_iff.mp hnil c (List.mem_reverse.mpr hc)))
  rw [trimEnd, List.rdropWhile, List.reverse_append, List.dropWhile_append, if_neg]
  · rw [List.reverse_append, List.reverse_reverse]
    rfl
  · rw [List.isEmpty_iff]
    exact hne

section CommandLine

variable {s s₁ : State} (other : Path → Option Path → Sh Unit) {f g : Path} {a b d j : ℕ} {k : ℤ}
  {x : DirEntry} {m : List ℕ} {data : Path}

/-- Both sides of the line `cat f > g`. -/
theorem runPipeline_catLine (hf : IsPart f) (hg : IsPart g) (hline : (catLine f g a b).length ≤ 127) :
    runPipeline (dispatch other) (catLine f g a b) =
      runRedirect (dispatch other) (ascii "cat " ++ trimEnd f) (trimStart g) := by
  have hcat : ∀ c ∈ ascii "cat ", c ≠ 62 ∧ c ≠ 124 := by decide +kernel
  have hredir : 62 ∉ ascii "cat " ++ f := fun hmem =>
    (List.mem_append.mp hmem).elim (fun hc => (hcat _ hc).1 rfl) hf.redirect
  have hpipe : 124 ∉ ascii "cat " ++ f := fun hmem =>
    (List.mem_append.mp hmem).elim (fun hc => (hcat _ hc).2 rfl) hf.pipe
  obtain ⟨i, hi, hleft, hright⟩ := CommandLine.cut_at hredir (by decide) hline
  have hnone := CommandLine.notMem_line (a := a) (b := b) hpipe hg.pipe
    (show (124 : UInt8) ≠ 62 by decide) (by decide)
  rw [catLine, CommandLine.text, runPipeline, findOp_of_notMem hnone, hi]
  dsimp only
  rw [hleft, hright, trimEnd_append hf.visible]

/-- **What `cat f > g` leaves in `g`**: the pieces of `f`, each with its newline. -/
theorem catLine_writes (hw : s.ipc.fat.Working) (h : s.ipc.fat.vol.WellFormed) (hf : IsPart f)
    (hg : IsPart g) (hline : (catLine f g a b).length ≤ 127)
    (hfile : s.ipc.fat.vol.HasFile (buildPath s.cwd (some (trimEnd f))) d j x m data)
    (h0 : 0 ∉ data) (hnew : ((fdCreateCase (trimStart g)).on ipcPart).Returns s k s₁) (hk : 0 ≤ k)
    (hfd : s₁.ipc.fat.vol.freeFd ≠ none)
    (hroom : (catOutput data).length ≤
      s₁.ipc.fat.vol.freeClusters.card * s₁.ipc.fat.vol.geo.clusterSize) :
    ∃ s', (runPipeline (dispatch other) (catLine f g a b)).Returns s () s' ∧
      Contains s₁ s' k (catOutput data) := by
  have hshort : (cString (trimStart g)).length ≤ 255 := by
    have hle : (trimStart g).length ≤ (catLine f g a b).length := by
      refine (List.length_dropWhile_le _ _).trans ?_
      simp only [catLine, CommandLine.text, List.length_append, List.length_cons]
      omega
    exact (List.takeWhile_sublist _).length_le.trans (hle.trans (hline.trans (by decide)))
  obtain ⟨i₁, hcreate, rfl⟩ := Exec.returns_on.mp hnew
  obtain ⟨k, gd, t, rfl, hisfile, hwt, hi₁, hgd, hcreates⟩ :=
    Ipc.fdCreateCase_creates (hw : (ipcPart.get s).fat.Working) hshort hcreate hk
  obtain ⟨B, dir, i, u, hN, -⟩ := hcreates.newFile h.sound hgd
  have ht : i₁.fat = t := by
    rw [hi₁]
    rfl
  subst ht
  obtain ⟨hB, hU, hne⟩ := hN.files _ _ _ _ _ _ hfile
  have hcard : B.freeClusters = i₁.fat.vol.freeClusters := by
    ext c
    rw [Fat12.Volume.mem_freeClusters, Fat12.Volume.mem_freeClusters, hN.filing.geo]
    exact and_congr_right fun hc => by rw [hN.filing.fat c hc List.not_mem_nil]
  have hroom' : (catOutput data).length ≤ B.freeClusters.card * B.geo.clusterSize := by
    rw [hcard, ← hN.filing.geo]
    exact hroom
  let s₂ : State := { ipcPart.put i₁ s with outFd := (k : ℤ) }
  obtain ⟨t₁, l, hcmd, hwt₁, hF⟩ := cmdCat_writes (s := s₂)
    hN.sound (trimEnd_ne_nil hf.visible) hwt rfl ⟨k, rfl, hisfile⟩ hN.filing hB hU hne h0 hfd hroom'
  have hrun : (dispatch other (ascii "cat " ++ trimEnd f)).Returns s₂ () (fatPart.put t₁ s₂) := by
    rw [dispatch_cat]
    exact Exec.returns_bind.mpr ⟨s₂, s₂, Exec.returns_get.mpr ⟨rfl, rfl⟩, hcmd⟩
  obtain ⟨s', hline', hvol, -, -⟩ := returns_runRedirect _ (by simp [ascii])
    (trimStart_ne_nil hg.visible) hnew hisfile hrun hwt₁
  refine ⟨s', ?_, ?_⟩
  · rw [runPipeline_catLine other hf hg hline]
    exact hline'
  · obtain ⟨c, hfiled, -⟩ := Fat12.filing_close hN.sound hN.dirAt hF
    have hplain : ¬ ((Fat12.newEntry u Fat12.attrArch 0).setRecord
        (catOutput data).length c).IsDir := by
      rw [DirEntry.IsDir, DirEntry.attr_setRecord, DirEntry.attr_newEntry]
      decide
    rw [Contains, fatFdOf_eq (s := ipcPart.put i₁ s) hisfile, hvol]
    change (t₁.vol.close gd).FileAt (i₁.fat.vol.fds gd.toNat).parentCluster
      (i₁.fat.vol.fds gd.toNat).dirIdx (catOutput data)
    rw [hN.filing.parent, hN.filing.idx]
    exact hfiled.fileAt hN.dirAt hplain

/-- Every piece costs a newline, so a copy with one at most has one piece. -/
theorem Contains.length_le {s' : State} {nl : Path} (hcat : Contains s₁ s' k (catOutput data))
    (hcopy : Contains s₁ s' k (data ++ nl)) (hnl : nl = [] ∨ nl = [10]) : data.length ≤ 511 := by
  have hsame := congrArg List.length (hcat.unique hcopy)
  rw [length_catOutput, List.length_append] at hsame
  have hone : nl.length ≤ 1 := by
    rcases hnl with rfl | rfl
    · exact Nat.zero_le 1
    · exact Nat.le_refl 1
  omega

/-- **Which files are copied**: those that `cat` reads in one piece. -/
theorem cat_copies_iff (hw : s.ipc.fat.Working) (h : s.ipc.fat.vol.WellFormed) (hf : IsPart f)
    (hg : IsPart g) (hline : (catLine f g a b).length ≤ 127)
    (hfile : s.ipc.fat.vol.HasFile (buildPath s.cwd (some (trimEnd f))) d j x m data)
    (h0 : 0 ∉ data) (hnew : ((fdCreateCase (trimStart g)).on ipcPart).Returns s k s₁) (hk : 0 ≤ k)
    (hfd : s₁.ipc.fat.vol.freeFd ≠ none)
    (hroom : data.length + (data.length + 510) / 511 ≤
      s₁.ipc.fat.vol.freeClusters.card * s₁.ipc.fat.vol.geo.clusterSize) :
    (∃ s' nl, (runPipeline (dispatch other) (catLine f g a b)).Returns s () s' ∧
      (nl = [] ∨ nl = [10]) ∧ Contains s₁ s' k (data ++ nl)) ↔ data.length ≤ 511 := by
  rw [← length_catOutput] at hroom
  obtain ⟨s₂, hrun, hcat⟩ := catLine_writes other hw h hf hg hline hfile h0 hnew hk hfd hroom
  constructor
  · rintro ⟨s', nl, hr, hnl, hcopy⟩
    obtain ⟨-, rfl⟩ := hrun.det hr
    exact hcat.length_le hcopy hnl
  · intro hle
    obtain ⟨nl, hnl, hout⟩ := catOutput_of_le hle
    rw [hout] at hcat
    exact ⟨s₂, nl, hrun, hnl, hcat⟩

end CommandLine

/-- The shell on the volume with a file `F` of `n` bytes. -/
def fileShell (n : ℕ) : State :=
  { State.zero with ipc := { State.zero.ipc with fat := (Fat12.fileVolume n).driver } }

/-- What is there once the file `G` is created. -/
def afterCreate (n : ℕ) : Option (ℤ × Bool × Bool) :=
  (((fdCreateCase [71]).on ipcPart).run 30 (fileShell n)).map fun p =>
    let V := p.2.ipc.fat.vol
    (p.1, V.freeFd.isSome, n + (n + 510) / 511 ≤ V.freeClusters.card * V.geo.clusterSize)

theorem fileShell_create {n : ℕ} (h : afterCreate n = some (3, true, true)) : ∃ s₁,
    ((fdCreateCase [71]).on ipcPart).Returns (fileShell n) 3 s₁ ∧ s₁.ipc.fat.vol.freeFd ≠ none ∧
      n + (n + 510) / 511 ≤ s₁.ipc.fat.vol.freeClusters.card * s₁.ipc.fat.vol.geo.clusterSize := by
  obtain ⟨⟨k, s₁⟩, hr, he⟩ := Option.map_eq_some_iff.mp h
  obtain ⟨rfl, he⟩ := Prod.mk.inj he
  obtain ⟨hfd, hroom⟩ := Prod.mk.inj he
  refine ⟨s₁, ⟨30, hr⟩, fun hnone => ?_, of_decide_eq_true hroom⟩
  rw [hnone] at hfd
  cases hfd

theorem zero_notMem_letters (n : ℕ) : (0 : UInt8) ∉ List.replicate n 97 :=
  fun h => absurd (List.mem_replicate.mp h).2 (by decide)

/-- The theorem at a file of three bytes. -/
theorem cat_copies_short : ∃ s₁ s' nl,
    ((fdCreateCase [71]).on ipcPart).Returns (fileShell 3) 3 s₁ ∧
    (runPipeline (dispatch fun _ _ => pure ()) (catLine [70] [71] 1 1)).Returns (fileShell 3) () s' ∧
    (nl = [] ∨ nl = [10]) ∧ Contains s₁ s' 3 (List.replicate 3 97 ++ nl) := by
  obtain ⟨s₁, hnew, hfd, hroom⟩ := fileShell_create (n := 3) (by decide +kernel)
  have hfile := Fat12.fileVolume_hasFile (n := 3) (by decide)
  obtain ⟨s', nl, hrun, hnl, hcopy⟩ := (cat_copies_iff (s := fileShell 3) (fun _ _ => pure ())
    (a := 1) (b := 1) (Fat12.fileVolume 3).driver_working (Fat12.fileVolume_wellFormed 3)
    (isPart_letter (c := 70) (by decide)) (isPart_letter (c := 71) (by decide)) (by decide +kernel)
    hfile (zero_notMem_letters 3) hnew (by decide) hfd hroom).mpr (by decide)
  exact ⟨s₁, s', nl, hnew, hrun, hnl, hcopy⟩

/-- **A file of 512 bytes is not copied**: it gets a second newline in it. -/
theorem cat_splits_file : ∃ s₁, (fileShell 512).ipc.fat.Working ∧
    (fileShell 512).ipc.fat.vol.WellFormed ∧
    (fileShell 512).ipc.fat.vol.HasFile [47, 70] 0 0 (Fat12.fileEntry 512) [2]
      (List.replicate 512 97) ∧
    ((fdCreateCase [71]).on ipcPart).Returns (fileShell 512) 3 s₁ ∧
    s₁.ipc.fat.vol.freeFd ≠ none ∧
    512 + 2 ≤ s₁.ipc.fat.vol.freeClusters.card * s₁.ipc.fat.vol.geo.clusterSize ∧
    ¬ ∃ s' nl, (runPipeline (dispatch fun _ _ => pure ()) (catLine [70] [71] 1 1)).Returns
        (fileShell 512) () s' ∧
      (nl = [] ∨ nl = [10]) ∧ Contains s₁ s' 3 (List.replicate 512 97 ++ nl) := by
  obtain ⟨s₁, hnew, hfd, hroom⟩ := fileShell_create (n := 512) (by decide +kernel)
  have hfile := Fat12.fileVolume_hasFile (n := 512) le_rfl
  have hlen : (catOutput (List.replicate 512 97)).length = 512 + 2 := by
    rw [length_catOutput, List.length_replicate]
  refine ⟨s₁, (Fat12.fileVolume 512).driver_working, Fat12.fileVolume_wellFormed 512, hfile, hnew,
    hfd, hroom, ?_⟩
  rintro ⟨s', nl, hrun, hnl, hcopy⟩
  obtain ⟨s₂, hrun₂, hcat⟩ := catLine_writes (s := fileShell 512) (fun _ _ => pure ())
    (a := 1) (b := 1) (Fat12.fileVolume 512).driver_working (Fat12.fileVolume_wellFormed 512)
    (isPart_letter (c := 70) (by decide)) (isPart_letter (c := 71) (by decide)) (by decide +kernel)
    hfile (zero_notMem_letters 512) hnew (by decide) hfd (by rw [hlen]; exact hroom)
  obtain ⟨-, rfl⟩ := hrun₂.det hrun
  have hle := hcat.length_le hcopy hnl
  rw [List.length_replicate] at hle
  exact absurd hle (by decide)

end WarkRune.Shell

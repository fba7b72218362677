import WarkRune.Fat12.Paths
import WarkRune.Fat12.Small
import WarkRune.Shell.Cd
import WarkRune.Shell.Lossless
import WarkRune.Shell.OpenCase
import WarkRune.Shell.Redirect

/-!
# The file a name stands for

`touch name` and `cat name` look for the name behind the current directory. The line `cmd > name`
hands it to the descriptors as it is typed, so the file is created in the root directory.

## Main definitions

* `SameEntry`: two descriptors are for one directory entry
* `SameFile`: the line creates the file that `touch` would create, and that `cat` opens then
* `AtRoot cwd name`: behind the directory the name has its own components

## Main results

* `samePath_buildPath_iff`: which names have their own components behind a directory
* `fdCase_creates`, `fdCase_opens`: what the two tries of the shell do
* `redirect_same_iff`: when the line and the commands mean the same file
-/

namespace WarkRune.Shell

open Fat12 (Path Driver Volume DirEntry Acts CreatesCase Creates NewFile SamePath Opens fat12Create
  fat12Open)
open Ipc (fdCreateCase)
open Dirs (withSlash length_le_withSlash)

/-- The descriptors are for one directory entry. -/
def SameEntry (f g : Fat12.FD) : Prop := f.parentCluster = g.parentCluster ∧ f.dirIdx = g.dirIdx

/-- The file of the descriptor `k`, which `cmd > name` has created in `s₁`, is the one that
`touch name` would create in its place, and the one that `cat name` opens behind the line, whatever
texts the command prints. -/
structure SameFile (s s₁ : State) (k : ℤ) (cmd name : Path) : Prop where
  touch : ∃ (fd : ℤ) (s' : State),
    (fdCase fat12Create (buildPath s.cwd (some name))).Returns s fd s' ∧ 0 ≤ fd ∧
      SameEntry (s'.ipc.fat.vol.fds fd.toNat) (fatFdOf s₁ k)
  cat : ∀ bufs, ∃ (s₂ : State) (fd : ℤ) (s' : State),
    (runRedirect (fun _ => putsAll bufs) cmd name).Returns s () s₂ ∧
      (fdCase fat12Open (buildPath s₂.cwd (some name))).Returns s₂ fd s' ∧ 0 ≤ fd ∧
      SameEntry (s'.ipc.fat.vol.fds fd.toNat) (fatFdOf s₁ k)

/-! ## Names behind the current directory -/

/-- The name fits the path behind the directory. -/
def Fits (cwd name : Path) : Prop := (withSlash (cwd.take 254)).length + name.length ≤ 254

instance (cwd name : Path) : Decidable (Fits cwd name) := inferInstanceAs (Decidable (_ ≤ _))

/-- Behind the directory the name has the components that it has alone: it is absolute, or the
directory is the root. Where the path is cut, what is left of it has these components. -/
inductive AtRoot (cwd name : Path) : Prop
  | absolute (h : name.head? = some 47)
  | root (hfits : Fits cwd name) (h : ∀ c ∈ cwd, c = 47)
  | cut (hcut : ¬ Fits cwd name) (h : SamePath (buildPath cwd (some name)) name)

theorem endsSlash_withSlash (w : Path) : Fat12.EndsSlash (withSlash w) := by
  intro c hc
  unfold withSlash at hc
  split_ifs at hc with h
  · rw [List.getLast?_concat] at hc
    exact (Option.some.inj hc).symm
  · by_cases hw : w = []
    · rw [hw] at hc
      cases hc
    · have hlast : w.getLast? = some 47 := by
        by_contra hno
        exact h ⟨hw, hno⟩
      exact Option.some.inj (hc.symm.trans hlast)

theorem forall_mem_withSlash {w : Path} : (∀ c ∈ withSlash w, c = 47) ↔ ∀ c ∈ w, c = 47 := by
  unfold withSlash
  split_ifs
  · rw [List.forall_mem_append, List.forall_mem_singleton, and_iff_left rfl]
  · rfl

/-- **Which names have their own components behind a directory.** -/
theorem samePath_buildPath_iff {cwd name : Path} (h0 : 0 ∉ cwd) (hne : name ≠ [])
    (hlen : name.length ≤ 254) :
    SamePath (buildPath cwd (some name)) name ↔ AtRoot cwd name := by
  obtain ⟨c, rel, rfl⟩ := List.exists_cons_of_ne_nil hne
  by_cases hc : c = 47
  · have hsame : buildPath cwd (some (c :: rel)) = c :: rel := by
      rw [buildPath, if_pos hc, List.take_of_length_le hlen]
    rw [hsame, hc]
    exact iff_of_true (.refl _) (.absolute rfl)
  have hhead : (c :: rel).head? ≠ some 47 := fun h => hc (Option.some.inj h)
  by_cases hfits : Fits cwd (c :: rel)
  · have hshort : cwd.length ≤ 254 := by
      by_contra hlong
      have hle := length_le_withSlash (w := cwd.take 254)
      rw [List.length_take_of_le (Nat.le_of_not_le hlong)] at hle
      exact absurd (Nat.le_trans (Nat.add_le_add_right hle _) hfits) (by simp)
    have htake : (c :: rel).take (254 - (withSlash (cwd.take 254)).length) = c :: rel :=
      List.take_of_length_le (Nat.le_sub_of_add_le' hfits)
    rw [Dirs.buildPath_relative hc, htake, List.take_of_length_le hshort,
      Fat12.samePath_concat_iff _ (endsSlash_withSlash cwd) (Dirs.zero_notMem_withSlash h0)]
    constructor
    · exact fun h => .root hfits (forall_mem_withSlash.mp h)
    · rintro (h | ⟨-, h⟩ | ⟨hcut, -⟩)
      · exact absurd h hhead
      · exact forall_mem_withSlash.mpr h
      · exact absurd hfits hcut
  · constructor
    · exact .cut hfits
    · rintro (h | ⟨h, -⟩ | ⟨-, h⟩)
      · exact absurd h hhead
      · exact absurd h hfits
      · exact h

/-! ## The two tries -/

section Tries

variable {s s' : State} {path : Path} {fd : ℤ} {U : Volume}

/-- **What the two tries of `fat12_create_case` create.** -/
theorem fdCase_creates (hw : s.ipc.fat.Working) (hr : (fdCase fat12Create path).Returns s fd s')
    (hfd : 0 ≤ fd) :
    CreatesCase s.ipc.fat.vol path (hasLowerAlpha path = true) fd s'.ipc.fat.vol := by
  obtain ⟨g, s₁, h₁, hr⟩ := Exec.returns_bind.mp hr
  obtain ⟨t, ht, rfl⟩ := Exec.returns_on.mp h₁
  obtain ⟨hc, hwt⟩ := Fat12.creates_of_returns ht hw
  split_ifs at hr with hg hlow
  · obtain ⟨rfl, rfl⟩ := Exec.returns_pure.mp hr
    exact .first hc
  · obtain ⟨u, hu, rfl⟩ := Exec.returns_on.mp hr
    obtain ⟨hc', -⟩ := Fat12.creates_of_returns hu hwt
    exact .second hlow hc (Int.not_le.mp hg) (fun W => W.resolve_map_upper path) hc'
  · obtain ⟨rfl, -⟩ := Exec.returns_pure.mp hr
    exact absurd hfd (by decide)

/-- They create what they can. -/
theorem creates_fdCase (hw : s.ipc.fat.Working)
    (hc : CreatesCase s.ipc.fat.vol path (hasLowerAlpha path = true) fd U) (hfd : 0 ≤ fd) :
    ∃ s', (fdCase fat12Create path).Returns s fd s' ∧ s'.ipc.fat.vol = U := by
  cases hc with
  | first hc =>
    obtain ⟨t, ht, rfl, -⟩ := returns_fat hw (Fat12.acts_fat12Create hc)
    refine ⟨fatPart.put t s, Exec.returns_bind.mpr ⟨fd, _, ht, ?_⟩, rfl⟩
    rw [if_pos hfd]
    exact Exec.returns_pure.mpr ⟨rfl, rfl⟩
  | @second g V₁ q hlow h₁ hg hq hc =>
    obtain ⟨t, ht, rfl, hwt⟩ := returns_fat hw (Fat12.acts_fat12Create h₁)
    -- the copy in upper case resolves as the second path does
    have hsame := (t.vol.resolve_map_upper path).trans (hq t.vol).symm
    obtain ⟨u, hu, rfl, -⟩ := returns_fat (s := fatPart.put t s) hwt
      (Fat12.acts_fat12Create (hc.congr hsame))
    refine ⟨fatPart.put u (fatPart.put t s), Exec.returns_bind.mpr ⟨g, _, ht, ?_⟩, rfl⟩
    rw [if_neg (Int.not_le.mpr hg), if_pos hlow]
    exact hu

/-- **What the two tries of `fat12_open_case` open.** -/
theorem fdCase_opens (hw : s.ipc.fat.Working) (hr : (fdCase fat12Open path).Returns s fd s')
    (hfd : 0 ≤ fd) : Opens s.ipc.fat.vol path fd s'.ipc.fat.vol := by
  obtain ⟨g, s₁, h₁, hr⟩ := Exec.returns_bind.mp hr
  obtain ⟨t, ht, rfl⟩ := Exec.returns_on.mp h₁
  obtain ⟨r, W, ho⟩ := Fat12.opens_total s.ipc.fat.vol path
  obtain ⟨rfl, rfl, hwt⟩ := (Fat12.acts_fat12Open ho).eq_of_returns hw rfl ht
  split_ifs at hr with hg hlow
  · obtain ⟨rfl, rfl⟩ := Exec.returns_pure.mp hr
    exact ho
  · -- the copy resolves as the path does, so it fails as well
    obtain ⟨u, hu, rfl⟩ := Exec.returns_on.mp hr
    obtain ⟨rfl, hsame⟩ := opens_neg ho hg
    rw [hsame] at ho
    have hup := opens_congr (s.ipc.fat.vol.resolve_map_upper path) ho
    obtain ⟨rfl, -⟩ := (Fat12.acts_fat12Open hup).eq_of_returns hwt hsame hu
    exact absurd hfd (by decide)
  · obtain ⟨rfl, -⟩ := Exec.returns_pure.mp hr
    exact absurd hfd (by decide)

/-- A file that is opened is found, and the descriptor is for its entry. -/
theorem opens_entry {V W : Volume} (ho : Opens V path fd W) (hfd : 0 ≤ fd) :
    ∃ d j e, V.Finds path d j e ∧ (W.fds fd.toNat).parentCluster = d ∧
      (W.fds fd.toNat).dirIdx = j := by
  cases ho with
  | missing | isDir => exact absurd hfd (by decide)
  | @file d j e hf hd =>
    obtain ⟨n, hn, hW, -⟩ := Fat12.Volume.openFd_valid hfd
    refine ⟨d, j, e, hf, ?_⟩
    rw [hn, hW]
    simp

/-- They open a file with a descriptor to spare. -/
theorem fdCase_open_finds {d j : ℕ} {e : DirEntry} (hw : s.ipc.fat.Working)
    (hf : s.ipc.fat.vol.Finds path d j e) (he : ¬ e.IsDir) (hfree : s.ipc.fat.vol.freeFd ≠ none) :
    ∃ (n : ℕ) (s' : State), (fdCase fat12Open path).Returns s n s' ∧
      (s'.ipc.fat.vol.fds n).parentCluster = d ∧ (s'.ipc.fat.vol.fds n).dirIdx = j := by
  obtain ⟨n, hn⟩ := Option.ne_none_iff_exists'.mp hfree
  have hopen := Fat12.acts_fat12Open (.file hf he)
  rw [Fat12.Volume.openFd_eq hn] at hopen
  obtain ⟨t, ht, hv, -⟩ := returns_fat hw hopen
  refine ⟨n, fatPart.put t s, ?_, ?_⟩
  · refine Exec.returns_bind.mpr ⟨n, _, ht, ?_⟩
    rw [if_pos (Int.natCast_nonneg n)]
    exact Exec.returns_pure.mpr ⟨rfl, rfl⟩
  · change (t.vol.fds n).parentCluster = d ∧ (t.vol.fds n).dirIdx = j
    rw [hv]
    simp

end Tries

/-! ## The line -/

section Line

variable {s s₁ : State} {P : ℕ → ℕ → Prop} {B : Volume} {dir i k : ℕ} {t : Fat12.Name} {gd : ℤ}
  {twice : Prop} {cmd name : Path}

/-- The entry that is in the slot of the file once its descriptor is closed. -/
abbrev closedEntry (t : Fat12.Name) (size c : ℕ) : DirEntry :=
  (Fat12.newEntry t Fat12.attrArch 0).setRecord size c

theorem name_closedEntry (t : Fat12.Name) (size c : ℕ) : (closedEntry t size c).name = t := by
  rw [DirEntry.name_setRecord, DirEntry.name_newEntry]

theorem attr_closedEntry (t : Fat12.Name) (size c : ℕ) :
    (closedEntry t size c).attr = Fat12.attrArch := by
  rw [DirEntry.attr_setRecord, DirEntry.attr_newEntry]

/-- The descriptor `k` is for the FAT12 descriptor `gd` of the file that was created under the
name. -/
structure Redirects (s s₁ : State) (k : ℕ) (gd : ℤ) (B : Volume) (P : ℕ → ℕ → Prop) (name : Path)
    (dir i : ℕ) (t : Fat12.Name) : Prop where
  created : ((fdCreateCase name).on ipcPart).Returns s k s₁
  working : s₁.ipc.fat.Working
  cwd : s₁.cwd = s.cwd
  file : s₁.ipc.IsFile k gd
  new : NewFile s.ipc.fat.vol s₁.ipc.fat.vol B P name gd dir i t

/-- **What `fd_create_case` has created** for a line. -/
theorem redirects_of_created {n : ℤ} (hw : s.ipc.fat.Working) (h : s.ipc.fat.vol.Sound P)
    (hlen : name.length ≤ 100) (hnew : ((fdCreateCase name).on ipcPart).Returns s n s₁)
    (hn : 0 ≤ n) : ∃ (k : ℕ) (gd : ℤ) (B : Volume) (dir i : ℕ) (t : Fat12.Name) (twice : Prop),
      n = k ∧ 0 ≤ gd ∧ Redirects s s₁ k gd B P name dir i t ∧
      CreatesCase s.ipc.fat.vol name twice gd s₁.ipc.fat.vol ∧
      (B.New name dir t ∧ B.freeSlot dir = some i ∧ s.ipc.fat.vol.GetsSearched dir twice ∨
        B.geo.maxEnts dir ≤ i ∧ ∀ twice, ¬ s.ipc.fat.vol.GetsSearched dir twice) := by
  have hshort : (Fat12.cString name).length ≤ 255 :=
    (List.takeWhile_sublist _).length_le.trans (hlen.trans (by decide))
  obtain ⟨i₁, hcreate, rfl⟩ := Exec.returns_on.mp hnew
  obtain ⟨k, gd, u, rfl, hfile, hwt, hi₁, hgd, hcreates⟩ :=
    Ipc.fdCreateCase_creates (hw : (ipcPart.get s).fat.Working) hshort hcreate hn
  have hu : i₁.fat = u := by
    rw [hi₁]
    rfl
  subst hu
  obtain ⟨B, dir, i, t, hN, hslot⟩ := hcreates.newFile h hgd
  exact ⟨k, gd, B, dir, i, t, _, rfl, hgd, ⟨hnew, hwt, rfl, hfile, hN⟩, hcreates, hslot⟩

/-- **What a line `cmd > name` leaves**, whatever texts the command prints: the entry of the file is
in its slot, and its descriptor is free again. -/
theorem Redirects.line (hr : Redirects s s₁ k gd B P name dir i t) (hcmd : cmd ≠ [])
    (hname : name ≠ []) (bufs : List Path) :
    ∃ s₂ c l out, (runRedirect (fun _ => putsAll bufs) cmd name).Returns s () s₂ ∧
      s₂.ipc.fat.Working ∧ s₂.cwd = s.cwd ∧
      B.Filed s₂.ipc.fat.vol dir i (closedEntry t out.length c) l out ∧
      s₂.ipc.fat.vol.freeFd ≠ none := by
  let s' : State := { s₁ with outFd := (k : ℤ) }
  have hred : Redirected s' gd := ⟨k, rfl, hr.file⟩
  obtain ⟨u, l, out, hputs, hwu, hF⟩ :=
    Redirected.putsAll (s := s') hr.new.sound hr.working hred hr.new.filing bufs
  obtain ⟨s₂, hline, hvol, hw₂, hcwd⟩ :=
    returns_runRedirect (fun _ => putsAll bufs) hcmd hname hr.created hr.file hputs hwu
  obtain ⟨c, hfiled, hfree⟩ := Fat12.filing_close hr.new.sound hr.new.dirAt hF
  rw [← hvol] at hfiled hfree
  exact ⟨s₂, c, l, out, hline, hw₂, hcwd.trans hr.cwd, hfiled, hfree⟩

/-- The descriptor is for the entry. -/
theorem Redirects.entry (hr : Redirects s s₁ k gd B P name dir i t) :
    (fatFdOf s₁ k).parentCluster = dir ∧ (fatFdOf s₁ k).dirIdx = i := by
  rw [fatFdOf_eq hr.file]
  exact ⟨hr.new.filing.parent, hr.new.filing.idx⟩

/-- **A file that `cat` opens behind the line** and that `touch` would create has the components of
the name alone. -/
theorem SameFile.samePath (hsame : SameFile s s₁ k cmd name) (h : s.ipc.fat.vol.Sound P)
    (hw : s.ipc.fat.Working) (hr : Redirects s s₁ k gd B P name dir i t) (hcmd : cmd ≠ [])
    (hname : name ≠ [])
    (hslot : s.ipc.fat.vol.GetsSearched dir twice ∨ B.geo.maxEnts dir ≤ i) :
    SamePath (buildPath s.cwd (some name)) name ∧ t 0 ≠ Fat12.dirFree ∧
      s.ipc.fat.vol.GetsSearched dir (hasLowerAlpha (buildPath s.cwd (some name)) = true) := by
  obtain ⟨⟨fd, s', htouch, hfd, hdir, hidx⟩, hcat⟩ := hsame
  obtain ⟨hrdir, hridx⟩ := hr.entry
  obtain ⟨B', dir', i', t', hN', hslot'⟩ := (fdCase_creates hw htouch hfd).newFile h hfd
  obtain rfl : dir' = dir := hN'.filing.parent.symm.trans (hdir.trans hrdir)
  obtain ⟨s₂, fd₂, s₃, hline, hopen, hfd₂, hdir₂, hidx₂⟩ := hcat []
  obtain ⟨s₂', c, l, out, hline', hw₂, hcwd, hF, -⟩ := hr.line hcmd hname []
  obtain ⟨-, rfl⟩ := hline.det hline'
  rw [hcwd] at hopen
  obtain ⟨d, j, e, ⟨u, hu, hfind⟩, hd, hj⟩ := opens_entry (fdCase_opens hw₂ hopen hfd₂) hfd₂
  obtain rfl : d = dir' := hd.symm.trans (hdir₂.trans hrdir)
  obtain rfl : j = i := hj.symm.trans (hidx₂.trans hridx)
  obtain ⟨hlt, hat, -⟩ := Volume.find_eq_some_iff.mp hfind
  obtain ⟨-, he, -, hfree, -, hmatch⟩ := Volume.findAt_eq_some.mp hat
  obtain rfl := Option.some.inj ((hF.self hr.new.dirAt).symm.trans he)
  rw [name_closedEntry] at hfree hmatch
  have hut : u = t' := by
    rw [(Volume.resolve_eq_some.mp hu.1).2, (Volume.resolve_eq_some.mp hN'.names.1).2]
  have htu : t = u := (Volume.resolve_folded hr.new.names.1).eq_of_match
    (Volume.resolve_folded hu.1) hmatch
  refine ⟨Fat12.samePath_of_resolve h hN'.names.1 hr.new.names.1 (hut.symm.trans htu.symm), hfree,
    ?_⟩
  -- the slot is searched, so `touch` gets it as well
  rw [hF.geo] at hlt
  rcases hslot' with ⟨-, -, hsearch⟩ | ⟨-, hno⟩
  · exact hsearch
  · exact hslot.elim (fun hs => absurd hs (hno _)) fun hge => absurd hlt (Nat.not_lt.mpr hge)

/-- **A path with the components of the name**, whose entry gets a slot that is searched. -/
theorem sameFile_of_samePath (hpath : SamePath (buildPath s.cwd (some name)) name)
    (hw : s.ipc.fat.Working) (hr : Redirects s s₁ k gd B P name dir i t) (hcmd : cmd ≠ [])
    (hname : name ≠ []) (hgd : 0 ≤ gd)
    (htouch : CreatesCase s.ipc.fat.vol (buildPath s.cwd (some name))
      (hasLowerAlpha (buildPath s.cwd (some name)) = true) gd s₁.ipc.fat.vol)
    (hn : B.New name dir t) (hi : B.freeSlot dir = some i) (hfree : t 0 ≠ Fat12.dirFree) :
    SameFile s s₁ k cmd name := by
  obtain ⟨hrdir, hridx⟩ := hr.entry
  constructor
  · obtain ⟨s', htouch', hvol⟩ := creates_fdCase hw htouch hgd
    refine ⟨gd, s', htouch', hgd, ?_⟩
    rw [hvol, fatFdOf_eq hr.file]
    exact ⟨rfl, rfl⟩
  · intro bufs
    obtain ⟨s₂, c, l, out, hline, hw₂, hcwd, hF, hspare⟩ := hr.line hcmd hname bufs
    have hattr := attr_closedEntry t out.length c
    have hmask : ¬ (closedEntry t out.length c).Masked := by
      rw [DirEntry.Masked, hattr]
      decide
    have hplain : ¬ (closedEntry t out.length c).IsDir := by
      rw [DirEntry.IsDir, hattr]
      decide
    -- the name leads to the entry, and so does the path
    have hshows := Volume.shows_of_slot hn hi (name_closedEntry t out.length c) hmask hfree hF.geo
      hF.slot
    have hself : ∀ j, s₂.ipc.fat.vol.slot dir j =
        if j = i then some (closedEntry t out.length c) else B.slot dir j := by
      intro j
      rw [hF.slot dir hr.new.dirAt]
      simp only [true_and]
    have hfind := Volume.find_added hn.2 hi hF.geo hself (name_closedEntry t out.length c) hmask
      hn.1.2 hfree
    have hnames : s₂.ipc.fat.vol.Names (buildPath s.cwd (some name)) dir t :=
      ⟨(hpath.resolve _).trans hshows.resolves, hn.1.2⟩
    obtain ⟨n, s', hopen, hd, hj⟩ := fdCase_open_finds hw₂ ⟨t, hnames, hfind⟩ hplain hspare
    rw [← hcwd] at hopen
    refine ⟨s₂, n, s', hline, hopen, Int.natCast_nonneg n, ?_⟩
    rw [Int.toNat_natCast]
    exact ⟨hd.trans hrdir.symm, hj.trans hridx.symm⟩

end Line

/-- **When redirection and the commands mean the same file**: the name is absolute or the current
directory is the root, the name does not mark its entry deleted, and the entry gets a slot that
searches look at. -/
theorem redirect_same_iff {s s₁ : State} {k : ℤ} {cmd name : Path} (hw : s.ipc.fat.Working)
    (h : s.ipc.fat.vol.WellFormed) (hcwd : 0 ∉ s.cwd) (hcmd : cmd ≠ []) (hname : name ≠ [])
    (hlen : name.length ≤ 100) (hnew : ((fdCreateCase name).on ipcPart).Returns s k s₁)
    (hk : 0 ≤ k) :
    SameFile s s₁ k cmd name ↔ AtRoot s.cwd name ∧ ∃ dir t,
      s.ipc.fat.vol.Names name dir t ∧ t 0 ≠ Fat12.dirFree ∧
        s.ipc.fat.vol.GetsSearched dir (hasLowerAlpha (buildPath s.cwd (some name)) = true) := by
  rw [← samePath_buildPath_iff hcwd hname (hlen.trans (by decide))]
  obtain ⟨k, gd, B, dir, i, t, twice, rfl, hgd, hr, hcreates, hslot⟩ :=
    redirects_of_created hw h.sound hlen hnew hk
  constructor
  · intro hsame
    obtain ⟨hpath, hfree, hsearch⟩ := hsame.samePath h.sound hw hr hcmd hname
      (hslot.imp (fun hleft => hleft.2.2) fun hright => hright.1)
    exact ⟨hpath, dir, t, hr.new.names, hfree, hsearch⟩
  · rintro ⟨hpath, d, u, hn, hfree, hsearch⟩
    obtain ⟨rfl, rfl⟩ := hr.new.names.det hn
    have htouch := hcreates.congr h.sound hgd (fun W => hpath.resolve W) hn hsearch
    rcases hslot with ⟨hnew', hi, -⟩ | ⟨-, hno⟩
    · exact sameFile_of_samePath hpath hw hr hcmd hname hgd htouch hnew' hi hfree
    · exact absurd hsearch (hno _)

/-- The shell in a directory of a volume. -/
def shellIn (V : Volume) (cwd : Path) : State :=
  { State.zero with ipc := { State.zero.ipc with fat := V.driver }, cwd := cwd }

/-- The theorem at the name `A` in an empty root directory. -/
theorem redirect_same_root : ∃ s₁,
    ((fdCreateCase [65]).on ipcPart).Returns (shellIn (Fat12.rootVolume []) [47]) 3 s₁ ∧
      SameFile (shellIn (Fat12.rootVolume []) [47]) s₁ 3 [112, 119, 100] [65] := by
  have hrun : (((fdCreateCase [65]).on ipcPart).run 30 (shellIn (Fat12.rootVolume []) [47])).map
      (fun p => p.1) = some 3 := by decide +kernel
  obtain ⟨⟨k, s₁⟩, hr, rfl⟩ := Option.map_eq_some_iff.mp hrun
  have hnames : (Fat12.rootVolume []).Names [65] 0 (Fat12.to83 [65]).2 :=
    ⟨Fat12.resolve_letter _ (by decide) (by decide), by decide⟩
  have hslot : (Fat12.rootVolume []).HasFreeSlot 0 :=
    ⟨0, by decide, .zero, Fat12.rootVolume_slot 0, .inl rfl⟩
  have hwf : (Fat12.rootVolume []).WellFormed := Fat12.rootVolume_wellFormed nofun
  refine ⟨s₁, ⟨30, hr⟩, (redirect_same_iff (Fat12.rootVolume []).driver_working hwf (by decide)
    (by decide) (by decide) (by decide) ⟨30, hr⟩ (by decide)).mpr
      ⟨.root (by decide) fun c hc => List.mem_singleton.mp hc, 0, _, hnames, by decide, .inl hslot⟩⟩

/-- **In the directory `D`**, the line `pwd > A` creates a file in the root directory. -/
theorem redirect_leaves_directory : ∃ (a : Dirs.Arrays) (s₁ : State), Reached a ∧
    HasString a.cwd [47, 68] ∧ (Fat12.subdirVolume 0).WellFormed ∧
    ((fdCreateCase [65]).on ipcPart).Returns (shellIn (Fat12.subdirVolume 0) [47, 68]) 3 s₁ ∧
    (fatFdOf s₁ 3).parentCluster = 0 ∧
    ¬ SameFile (shellIn (Fat12.subdirVolume 0) [47, 68]) s₁ 3 [112, 119, 100] [65] := by
  have hrun : (((fdCreateCase [65]).on ipcPart).run 30
      (shellIn (Fat12.subdirVolume 0) [47, 68])).map (fun p => p.1) = some 3 := by decide +kernel
  obtain ⟨⟨n, s₁⟩, hnew, rfl⟩ := Option.map_eq_some_iff.mp hrun
  have hw : (shellIn (Fat12.subdirVolume 0) [47, 68]).ipc.fat.Working :=
    (Fat12.subdirVolume 0).driver_working
  have hwf : (Fat12.subdirVolume 0).WellFormed := Fat12.subdirVolume_wellFormed (by decide)
  have hargs : ∀ rel ∈ ([[68]] : List Path), Argument (some rel) := fun rel hrel => by
    obtain rfl := List.mem_singleton.mp hrel
    exact ⟨by decide, List.isChain_singleton _, by decide +kernel⟩
  obtain ⟨a, ha, hstr, -⟩ := reached_directoryAfter hargs
  obtain ⟨k, gd, B, dir, i, t, twice, hk, -, hr, -, hslot⟩ :=
    redirects_of_created hw hwf.sound (by decide) ⟨30, hnew⟩ (by decide)
  obtain rfl : k = 3 := by omega
  refine ⟨a, s₁, ha, hstr, hwf, ⟨30, hnew⟩, ?_, fun hsame => ?_⟩
  · have hroot := Fat12.resolve_letter (Fat12.subdirVolume 0) (show (65 : UInt8) ≠ 0 by decide)
      (by decide)
    obtain ⟨rfl, -⟩ := Prod.mk.inj (Option.some.inj (hroot.symm.trans hr.new.names.1))
    exact hr.entry.1
  · obtain ⟨hpath, -⟩ := hsame.samePath hwf.sound hw hr (by decide) (by decide)
      (hslot.imp (fun hleft => hleft.2.2) fun hright => hright.1)
    rcases (samePath_buildPath_iff (by decide) (by decide) (by decide)).mp hpath with
      h | ⟨-, h⟩ | ⟨h, -⟩
    · exact absurd h (by decide)
    · exact absurd (h 68 (by decide)) (by decide)
    · exact h (by decide)

end WarkRune.Shell

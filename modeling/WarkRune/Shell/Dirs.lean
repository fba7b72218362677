import WarkRune.Bytes.Terminated
import WarkRune.Exec.Runs
import WarkRune.Shell.Pipeline
import Mathlib.Data.UInt

/-!
# The current directory in its arrays

`cwd` and the array that `build_path` fills have 256 bytes each. The programs read and write them
byte by byte, and every access is an event, so that a run tells whether it stays inside the arrays.
A run that does is then described by the strings in the arrays.

## Main definitions

* `Arrays`, `Access`: the two arrays, and what is accessed of them
* `Dirs.buildPath`, `Dirs.cd`: `build_path`, and the command `cd` of `dispatch`
* `parent`, `chdir`: the directory above one, and where `cd` leads

## Main results

* `Dirs.buildPath_runs`: `build_path` stays inside the arrays and makes the path `buildPath`
* `Dirs.cd_runs`: `cd` stays inside the arrays and leads to `chdir`
-/

namespace WarkRune.Shell

open Fat12 (Path)

/-- What is before the last slash, the root where that is empty. -/
def beforeSlash (u : Path) : Path :=
  let v := u.rdropWhile (· ≠ 47)
  if v.length ≤ 1 then [47] else v.dropLast

/-- The directory above one: without a slash at its end and the name before that. -/
def parent (w : Path) : Path :=
  if w.length ≤ 1 then w else beforeSlash (if w.getLast? = some 47 then w.dropLast else w)

/-- Where `cd` leads from a directory. -/
def chdir (w : Path) : Option Path → Path
  | none | some [] => [47]
  | some rel => if rel = [46, 46] then parent w else buildPath w (some rel)

namespace Dirs

/-- `cwd`, and the array that `build_path` fills. -/
structure Arrays where
  cwd : ℕ → UInt8
  path : ℕ → UInt8

/-- The arrays when the shell starts: `cwd` is `"/"`. -/
def Arrays.start (path : ℕ → UInt8) : Arrays := ⟨fun i => if i = 0 then 47 else 0, path⟩

/-- An access to one of the arrays. -/
inductive Access where
  | cwd (i : ℕ)
  | path (i : ℕ)

def Access.index : Access → ℕ
  | .cwd i => i
  | .path i => i

/-- An access inside the 256 bytes of its array. -/
def Inside (e : Access) : Prop := e.index < 256

/-- A program over the arrays. -/
abbrev Prog (α : Type) := Traced Arrays Access α

def getCwd (i : ℕ) : Prog UInt8 := do
  Traced.emit (.cwd i)
  return (← get).cwd i

def getPath (i : ℕ) : Prog UInt8 := do
  Traced.emit (.path i)
  return (← get).path i

def setCwd (i : ℕ) (c : UInt8) : Prog Unit := do
  Traced.emit (.cwd i)
  modify fun s => { s with cwd := Function.update s.cwd i c }

def setPath (i : ℕ) (c : UInt8) : Prog Unit := do
  Traced.emit (.path i)
  modify fun s => { s with path := Function.update s.path i c }

/-- A byte of an argument, which ends with a NUL. -/
def getArg (rel : Path) (j : ℕ) : Prog UInt8 := return rel.getD j 0

/-! ## The programs -/

/-- A round of `while (src[j] && i < 254) { out[i] = src[j]; i++; j++; }`. -/
def copyRound (src : ℕ → Prog UInt8) (p : ℕ × ℕ) : Prog ((ℕ × ℕ) ⊕ ℕ) := do
  let c ← src p.1
  if c ≠ 0 ∧ p.2 < 254 then
    setPath p.2 c
    return .inl (p.1 + 1, p.2 + 1)
  else return .inr p.2

/-- `if (i > 0 && out[i - 1] != '/') out[i++] = '/';`. -/
def addSlash (i : ℕ) : Prog ℕ :=
  if i > 0 then do
    if (← getPath (i - 1)) ≠ 47 then
      setPath i 47
      return i + 1
    else return i
  else return i

/-- `build_path`. -/
def buildPath : Option Path → Prog Unit
  | none | some [] => do
    let i ← Traced.loop (copyRound getCwd) (0, 0)
    setPath i 0
  | some (c :: rel) =>
    if c = 47 then do
      let i ← Traced.loop (copyRound (getArg (c :: rel))) (0, 0)
      setPath i 0
    else do
      let i ← Traced.loop (copyRound getCwd) (0, 0)
      let i ← addSlash i
      let i ← Traced.loop (copyRound (getArg (c :: rel))) (0, i)
      setPath i 0

/-- A round of `while (cwd[j]) j++;`. -/
def lenRound (j : ℕ) : Prog (ℕ ⊕ ℕ) := do
  if (← getCwd j) ≠ 0 then return .inl (j + 1) else return .inr j

/-- A round of `while (j > 0 && cwd[j] != '/') j--;`. -/
def backRound (j : ℕ) : Prog (ℕ ⊕ ℕ) :=
  if j > 0 then do
    if (← getCwd j) ≠ 47 then return .inl (j - 1) else return .inr j
  else return .inr j

/-- A round of `while (path[j]) { cwd[j] = path[j]; j++; }`. -/
def fillRound (j : ℕ) : Prog (ℕ ⊕ ℕ) := do
  let c ← getPath j
  if c ≠ 0 then
    setCwd j c
    return .inl (j + 1)
  else return .inr j

/-- `cwd[0] = '/'; cwd[1] = 0;`. -/
def setRoot : Prog Unit := do
  setCwd 0 47
  setCwd 1 0

/-- `cd ..`, with the last position in `j`. -/
def cdUp : Prog Unit := do
  let len ← Traced.loop lenRound 0
  let j := len - 1
  if j ≤ 0 then return ()
  let j ← (do if (← getCwd j) = 47 then return j - 1 else return j)
  let j ← Traced.loop backRound j
  if j = 0 then setRoot else setCwd j 0

/-- The command `cd` of `dispatch`. -/
def cd : Option Path → Prog Unit
  | none | some [] => setRoot
  | some rel =>
    if rel = [46, 46] then cdUp
    else do
      buildPath (some rel)
      let j ← Traced.loop fillRound 0
      setCwd j 0

/-! ## Their runs -/

section Runs

variable {s : Arrays} {i j : ℕ} {w v rel : Path}

@[simp] theorem getCwd_runs {P : UInt8 → Arrays → Prop} :
    (getCwd i).Runs s Inside P ↔ i < 256 ∧ P (s.cwd i) s := by
  simp [getCwd, Inside, Access.index]

@[simp] theorem getPath_runs {P : UInt8 → Arrays → Prop} :
    (getPath i).Runs s Inside P ↔ i < 256 ∧ P (s.path i) s := by
  simp [getPath, Inside, Access.index]

@[simp] theorem setCwd_runs {c : UInt8} {P : Unit → Arrays → Prop} :
    (setCwd i c).Runs s Inside P ↔ i < 256 ∧ P () { s with cwd := Function.update s.cwd i c } := by
  simp [setCwd, Inside, Access.index]

@[simp] theorem setPath_runs {c : UInt8} {P : Unit → Arrays → Prop} :
    (setPath i c).Runs s Inside P ↔
      i < 256 ∧ P () { s with path := Function.update s.path i c } := by
  simp [setPath, Inside, Access.index]

/-- A source of bytes that holds a string as long as `cwd` is not written. -/
def Reads (src : ℕ → Prog UInt8) (f : ℕ → UInt8) (w : Path) : Prop :=
  ∀ s : Arrays, s.cwd = f → ∀ k ≤ w.length,
    (src k).Runs s Inside fun c s' => c = w.getD k 0 ∧ s' = s

theorem reads_getCwd {f : ℕ → UInt8} (hw : HasString f w) (hlen : w.length < 256) :
    Reads getCwd f w := by
  rintro s rfl k hk
  exact getCwd_runs.mpr ⟨hk.trans_lt hlen, hw.2 k hk, rfl⟩

theorem reads_getArg (f : ℕ → UInt8) (rel : Path) : Reads (getArg rel) f rel :=
  fun _ _ _ _ => Traced.runs_pure.mpr ⟨rfl, rfl⟩

/-- **Copying a string** behind what is there, up to position 254. -/
theorem copy_runs {src : ℕ → Prog UInt8} {f : ℕ → UInt8} (hsrc : Reads src f w) (hw : 0 ∉ w)
    (hf : s.cwd = f) (u t : Path) (hut : w = u ++ t) (hi : i ≤ 255) :
    (Traced.loop (copyRound src) (u.length, i)).Runs s Inside fun n s' =>
      n = i + (t.take (254 - i)).length ∧
        s' = { s with path := overlay s.path i (t.take (254 - i)) } := by
  -- by induction on what is left of the string
  induction t generalizing u i s with
  | nil =>
    apply Traced.Runs.loop
    rw [copyRound, Traced.runs_bind]
    refine (hsrc s hf _ (by simp [hut])).mono ?_
    rintro c s' ⟨rfl, rfl⟩
    simp [hut]
  | cons c t ih =>
    apply Traced.Runs.loop
    rw [copyRound, Traced.runs_bind]
    refine (hsrc s hf _ (by simp [hut])).mono ?_
    rintro c' s' ⟨hc', rfl⟩
    have hc : c' = c := by simp [hc', hut]
    subst hc
    have hne : c' ≠ 0 := fun h => hw (by simp [hut, h])
    rcases Nat.lt_or_ge i 254 with hlt | hge
    · rw [if_pos ⟨hne, hlt⟩, Traced.runs_bind, setPath_runs]
      refine ⟨by omega, ?_⟩
      rw [Traced.runs_pure, Traced.resumes_inl]
      have hrest := ih (s := { s' with path := Function.update s'.path i c' }) (i := i + 1) hf
        (u ++ [c']) (by simp [hut]) (by omega)
      rw [List.length_append, List.length_singleton] at hrest
      refine hrest.mono ?_
      rintro n s'' ⟨rfl, rfl⟩
      rw [show 254 - i = (254 - (i + 1)) + 1 by omega, List.take_succ_cons, overlay_cons,
        List.length_cons]
      exact ⟨by omega, rfl⟩
    · rw [if_neg fun h => absurd h.2 (Nat.not_lt.mpr hge), Traced.runs_pure, Traced.resumes_inr,
        Nat.sub_eq_zero_of_le hge]
      simp

/-- A string copied from its start. -/
theorem copy_all_runs {src : ℕ → Prog UInt8} {f : ℕ → UInt8} (hsrc : Reads src f w) (hw : 0 ∉ w)
    (hf : s.cwd = f) :
    (Traced.loop (copyRound src) (0, 0)).Runs s Inside fun n s' =>
      n = (w.take 254).length ∧ s' = { s with path := overlay s.path 0 (w.take 254) } := by
  refine (copy_runs hsrc hw hf [] w rfl (Nat.zero_le _)).mono ?_
  rintro n s' ⟨rfl, rfl⟩
  exact ⟨Nat.zero_add _, rfl⟩

/-- The slash between a directory and a name. -/
def withSlash (w : Path) : Path := if w ≠ [] ∧ w.getLast? ≠ some 47 then w ++ [47] else w

theorem length_withSlash_le : (withSlash w).length ≤ w.length + 1 := by
  unfold withSlash
  split
  · simp
  · omega

theorem length_le_withSlash : w.length ≤ (withSlash w).length := by
  unfold withSlash
  split
  · simp
  · exact Nat.le_refl _

theorem addSlash_runs {p : ℕ → UInt8} (hp : s.path = overlay p 0 w) (hlen : w.length ≤ 254) :
    (addSlash w.length).Runs s Inside fun n s' =>
      n = (withSlash w).length ∧ s' = { s with path := overlay p 0 (withSlash w) } := by
  have hs : { s with path := overlay p 0 w } = s := by rw [← hp]
  rcases List.eq_nil_or_concat w with rfl | ⟨v, c, rfl⟩
  · rw [addSlash, if_neg (by simp), Traced.runs_pure]
    exact ⟨rfl, hs.symm⟩
  · have hlast : s.path v.length = c := by
      have hlt : v.length < (v ++ [c]).length := by simp
      have h := overlay_apply (f := p) (p := 0) hlt
      rw [Nat.zero_add] at h
      rw [hp, List.concat_eq_append, h, List.getElem_concat_length rfl]
    rw [List.concat_eq_append] at *
    have hlen' : (v ++ [c]).length = v.length + 1 := by simp
    rw [addSlash, hlen', if_pos (Nat.succ_pos _), Traced.runs_bind, Nat.add_sub_cancel,
      getPath_runs, hlast]
    refine ⟨by omega, ?_⟩
    by_cases hc : c = 47
    · rw [if_neg (not_not_intro hc), Traced.runs_pure, withSlash, if_neg (by simp [hc]), hlen']
      exact ⟨rfl, hs.symm⟩
    · rw [if_pos hc, Traced.runs_bind, setPath_runs, Traced.runs_pure, withSlash,
        if_pos (by simp [hc]), overlay_append, overlay_cons, overlay_nil, ← hp]
      refine ⟨by omega, by simp, ?_⟩
      rw [hlen', Nat.zero_add]

theorem buildPath_relative {c : UInt8} (hc : c ≠ 47) (w rel : Path) :
    Shell.buildPath w (some (c :: rel)) = withSlash (w.take 254) ++
      (c :: rel).take (254 - (withSlash (w.take 254)).length) := by
  simp only [Shell.buildPath, if_neg hc]
  rfl

theorem zero_notMem_withSlash (hw : 0 ∉ w) : 0 ∉ withSlash w := by
  unfold withSlash
  split
  · simpa using hw
  · exact hw

/-- **`build_path` stays inside the arrays** and makes the path. -/
theorem buildPath_runs {rel : Option Path} (hw : HasString s.cwd w) (hlen : w.length < 256)
    (hrel : 0 ∉ rel.getD []) :
    (buildPath rel).Runs s Inside fun _ s' =>
      s'.cwd = s.cwd ∧ HasString s'.path (Shell.buildPath w rel) := by
  have hcwd := copy_all_runs (s := s) (reads_getCwd hw hlen) hw.1 rfl
  have htake (v : Path) : (v.take 254).length ≤ 254 := List.length_take_le ..
  -- a string that has been copied from its start, with the NUL behind it
  have hend (v : Path) (hv : 0 ∉ v) (n : ℕ) (s' : Arrays)
      (h : n = (v.take 254).length ∧ s' = { s with path := overlay s.path 0 (v.take 254) }) :
      (setPath n 0).Runs s' Inside fun _ s' => s'.cwd = s.cwd ∧ HasString s'.path (v.take 254) := by
    obtain ⟨rfl, rfl⟩ := h
    rw [setPath_runs]
    refine ⟨(htake v).trans_lt (by omega), rfl, ?_⟩
    exact hasString_overlay _ fun h => hv (List.mem_of_mem_take h)
  match rel with
  | none | some [] =>
    rw [buildPath, Traced.runs_bind]
    exact hcwd.mono (hend w hw.1)
  | some (c :: rel) =>
    have harg := reads_getArg s.cwd (c :: rel)
    rw [buildPath]
    by_cases hc : c = 47
    · rw [if_pos hc, Traced.runs_bind, Shell.buildPath, if_pos hc]
      exact (copy_all_runs harg hrel rfl).mono (hend (c :: rel) hrel)
    · rw [if_neg hc, Traced.runs_bind, buildPath_relative hc]
      refine hcwd.mono ?_
      rintro n s₁ ⟨rfl, rfl⟩
      rw [Traced.runs_bind]
      refine (addSlash_runs rfl (htake w)).mono ?_
      rintro n s₂ ⟨rfl, rfl⟩
      have hle : (withSlash (w.take 254)).length ≤ 255 :=
        length_withSlash_le.trans (Nat.succ_le_succ (htake w))
      rw [Traced.runs_bind]
      have hname := copy_runs (s := ⟨s.cwd, overlay s.path 0 (withSlash (w.take 254))⟩) harg hrel
        rfl [] (c :: rel) rfl hle
      refine hname.mono ?_
      rintro n s₃ ⟨rfl, rfl⟩
      -- the name is stored behind the directory, so both are one string
      rw [setPath_runs, ← List.length_append]
      dsimp only
      have hone := overlay_append s.path 0 (withSlash (w.take 254))
        ((c :: rel).take (254 - (withSlash (w.take 254)).length))
      rw [Nat.zero_add] at hone
      rw [← hone]
      refine ⟨?_, rfl, hasString_overlay _ fun h => ?_⟩
      · rw [List.length_append, List.length_take]
        omega
      · rcases List.mem_append.mp h with h | h
        · exact zero_notMem_withSlash (fun h => hw.1 (List.mem_of_mem_take h)) h
        · exact hrel (List.mem_of_mem_take h)

theorem len_runs (hw : HasString s.cwd w) (hlen : w.length < 256) (hj : j ≤ w.length) :
    (Traced.loop lenRound j).Runs s Inside fun n s' => n = w.length ∧ s' = s := by
  -- by induction on the distance to the NUL
  obtain ⟨d, hd⟩ : ∃ d, j + d = w.length := ⟨w.length - j, by omega⟩
  induction d generalizing j with
  | zero =>
    apply Traced.Runs.loop
    rw [lenRound, Traced.runs_bind, getCwd_runs]
    refine ⟨by omega, ?_⟩
    rw [if_neg (not_not_intro ((hw.eq_zero_iff hj).mpr (by omega))), Traced.runs_pure]
    exact ⟨hd, rfl⟩
  | succ d ih =>
    apply Traced.Runs.loop
    rw [lenRound, Traced.runs_bind, getCwd_runs]
    refine ⟨by omega, ?_⟩
    rw [if_pos fun h => absurd ((hw.eq_zero_iff hj).mp h) (by omega), Traced.runs_pure]
    exact ih (by omega) (by omega)

/-- **The scan for a slash** from position `j` down. -/
theorem back_runs (hw : HasString s.cwd w) (hlen : w.length < 256) (hj : j < w.length) :
    (Traced.loop backRound j).Runs s Inside fun n s' =>
      n = ((w.take (j + 1)).rdropWhile (· ≠ 47)).length - 1 ∧ s' = s := by
  induction j with
  | zero =>
    apply Traced.Runs.loop
    rw [backRound, if_neg (Nat.lt_irrefl 0), Traced.runs_pure]
    have hle := (List.rdropWhile_prefix (· ≠ 47) (w.take (0 + 1))).length_le
    rw [List.length_take_of_le (by omega)] at hle
    exact ⟨by omega, rfl⟩
  | succ j ih =>
    have htake : w.take (j + 1 + 1) = w.take (j + 1) ++ [w[j + 1]] :=
      List.take_succ_eq_append_getElem hj
    apply Traced.Runs.loop
    rw [backRound, if_pos (Nat.succ_pos j), Traced.runs_bind, getCwd_runs, hw.apply hj, htake,
      List.rdropWhile_concat]
    refine ⟨by omega, ?_⟩
    by_cases hslash : w[j + 1] = 47
    · rw [if_neg (not_not_intro hslash), if_neg (by simpa using hslash), Traced.runs_pure]
      refine ⟨?_, rfl⟩
      rw [← htake, List.length_take_of_le (by omega)]
      rfl
    · rw [if_pos hslash, if_pos (by simpa using hslash), Traced.runs_pure, Nat.add_sub_cancel]
      exact ih (by omega)

/-- **Copying the path back** as far as its NUL. -/
theorem fill_runs (hv : HasString s.path v) (hlen : v.length < 256) (u t : Path)
    (hut : v = u ++ t) :
    (Traced.loop fillRound u.length).Runs s Inside fun n s' =>
      n = v.length ∧ s' = { s with cwd := overlay s.cwd u.length t } := by
  -- by induction on the bytes that are left to copy
  induction t generalizing u s with
  | nil =>
    rw [List.append_nil] at hut
    subst hut
    apply Traced.Runs.loop
    rw [fillRound, Traced.runs_bind, getPath_runs, hv.end_eq, if_neg (not_not_intro rfl),
      Traced.runs_pure, overlay_nil]
    exact ⟨hlen, rfl, rfl⟩
  | cons c t ih =>
    have hu : u.length < v.length := by simp [hut]
    have hc : s.path u.length = c := by
      rw [hv.apply hu]
      simp [hut]
    have hne : c ≠ 0 := fun h => hv.1 (by simp [hut, h])
    apply Traced.Runs.loop
    rw [fillRound, Traced.runs_bind, getPath_runs, hc, if_pos hne, Traced.runs_bind, setCwd_runs,
      Traced.runs_pure, Traced.resumes_inl]
    refine ⟨by omega, by omega, ?_⟩
    have hrest := ih (s := { s with cwd := Function.update s.cwd u.length c }) hv (u ++ [c])
      (by simp [hut])
    rw [List.length_append, List.length_singleton] at hrest
    rw [overlay_cons]
    exact hrest

theorem setRoot_runs : setRoot.Runs s Inside fun _ s' => HasString s'.cwd [47] := by
  rw [setRoot, Traced.runs_bind, setCwd_runs, setCwd_runs]
  refine ⟨by omega, by omega, ?_⟩
  have h := hasString_overlay s.cwd (w := [47]) (by simp)
  rwa [overlay_cons, overlay_nil] at h

/-- The scan, and the cut at the slash it finds. -/
theorem scan_runs (hw : HasString s.cwd w) (hlen : w.length < 256) (hj : j < w.length) :
    (do
      let j ← Traced.loop backRound j
      if j = 0 then setRoot else setCwd j 0).Runs s Inside
      fun _ s' => HasString s'.cwd (beforeSlash (w.take (j + 1))) := by
  rw [Traced.runs_bind]
  refine (back_runs hw hlen hj).mono ?_
  rintro n s₁ ⟨rfl, rfl⟩
  unfold beforeSlash
  generalize hv : (w.take (j + 1)).rdropWhile (· ≠ 47) = v
  have hpre : v <+: w := by
    rw [← hv]
    exact (List.rdropWhile_prefix _ _).trans (List.take_prefix _ _)
  have hle := hpre.length_le
  dsimp only
  by_cases h1 : v.length ≤ 1
  · rw [if_pos (by omega), if_pos h1]
    exact setRoot_runs
  · -- the NUL is stored over the slash
    have hcut : v.dropLast = w.take (v.length - 1) := by
      conv_lhs => rw [List.dropLast_eq_take, List.prefix_iff_eq_take.mp hpre, List.take_take]
      rw [List.length_take_of_le hle, Nat.min_eq_left (Nat.sub_le ..)]
    rw [if_neg (by omega), if_neg h1, setCwd_runs, hcut]
    exact ⟨by omega, hw.cut (by omega)⟩

theorem cdUp_runs (hw : HasString s.cwd w) (hlen : w.length < 256) :
    cdUp.Runs s Inside fun _ s' => HasString s'.cwd (parent w) := by
  rw [cdUp, Traced.runs_bind]
  refine (len_runs hw hlen (Nat.zero_le _)).mono ?_
  rintro n s' ⟨rfl, rfl⟩
  unfold parent
  by_cases hone : w.length ≤ 1
  · rw [if_pos hone]
    simp only [show w.length - 1 ≤ 0 by omega, if_true, Traced.runs_pure]
    exact hw
  · rw [if_neg hone]
    simp only [show ¬ w.length - 1 ≤ 0 by omega, if_false]
    have hlast : w.getLast? = some 47 ↔ s'.cwd (w.length - 1) = 47 := by
      rw [hw.apply (by omega), List.getLast?_eq_getElem?, List.getElem?_eq_getElem (by omega),
        Option.some_inj]
    rw [Traced.runs_bind, Traced.runs_bind, getCwd_runs]
    refine ⟨by omega, ?_⟩
    -- the scan starts in front of a slash at the end
    by_cases hslash : s'.cwd (w.length - 1) = 47
    · rw [if_pos hslash, Traced.runs_pure, if_pos (hlast.mpr hslash), List.dropLast_eq_take]
      have hscan := scan_runs hw hlen (j := w.length - 1 - 1) (by omega)
      rwa [show w.length - 1 - 1 + 1 = w.length - 1 by omega] at hscan
    · rw [if_neg hslash, Traced.runs_pure, if_neg (mt hlast.mp hslash)]
      have hscan := scan_runs hw hlen (j := w.length - 1) (by omega)
      rwa [List.take_of_length_le (by omega)] at hscan

theorem length_buildPath_le (w : Path) (rel : Option Path) :
    (Shell.buildPath w rel).length ≤ 255 := by
  have htake (v : Path) : (v.take 254).length ≤ 254 := List.length_take_le ..
  match rel with
  | none | some [] => exact (htake w).trans (by omega)
  | some (c :: rel) =>
    by_cases hc : c = 47
    · rw [Shell.buildPath, if_pos hc]
      exact (htake _).trans (by omega)
    · rw [buildPath_relative hc, List.length_append, List.length_take]
      have h := length_withSlash_le (w := w.take 254)
      have h' := htake w
      omega

/-- **`cd` stays inside the arrays** and leads where it should. -/
theorem cd_runs {rel : Option Path} (hw : HasString s.cwd w) (hlen : w.length < 256)
    (hrel : 0 ∉ rel.getD []) :
    (cd rel).Runs s Inside fun _ s' => HasString s'.cwd (chdir w rel) := by
  match rel with
  | none | some [] => exact setRoot_runs
  | some (c :: rel) =>
    rw [cd, chdir]
    · by_cases hup : c :: rel = [46, 46]
      · rw [if_pos hup, if_pos hup]
        exact cdUp_runs hw hlen
      · rw [if_neg hup, if_neg hup, Traced.runs_bind]
        refine (buildPath_runs hw hlen hrel).mono ?_
        rintro - s₁ ⟨-, hpath⟩
        rw [Traced.runs_bind]
        -- the loop copies the path from its start, and the NUL is stored behind it
        have hfill := fill_runs hpath (Nat.lt_succ_of_le (length_buildPath_le ..)) [] _ rfl
        refine hfill.mono ?_
        rintro n s₂ ⟨rfl, rfl⟩
        rw [setCwd_runs]
        exact ⟨Nat.lt_succ_of_le (length_buildPath_le ..), hasString_overlay _ hpath.1⟩
    · exact nofun
    · exact nofun

end Runs

end Dirs

end WarkRune.Shell

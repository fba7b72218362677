import Mathlib.Data.List.Chain
import WarkRune.Shell.Dirs

/-!
# The current directory over a session

The current directory starts as `/`, and every `cd` leads from one directory to the next. A
directory begins with a slash, fits its array and has no doubled slash when the arguments have none.
`cd ..` then takes back one component, as long as that has been appended in full view of the limit:
`build_path` stops at 254 bytes, so a longer directory gets no component at all.

## Main definitions

* `Argument`, `Component`: the argument of a `cd`, and a name without a slash
* `IsDir`: what every current directory is
* `Reached`: the arrays over all sequences of `cd`

## Main results

* `IsDir.chdir`: `cd` leads from a directory to a directory
* `undone_iff`: when `cd ..` undoes a `cd` into a component
* `cd_undone`: the arrays stay sound over a session, and `cd ..` undoes a `cd` within the limit
-/

namespace WarkRune.Shell

open Fat12 (Path)
open Dirs (Arrays Inside withSlash length_withSlash_le length_le_withSlash)

/-- No two slashes follow each other. -/
def SingleSlashes (w : Path) : Prop := w.IsChain fun a b => ¬ (a = 47 ∧ b = 47)

/-- The argument of a `cd` on a line of at most 127 bytes: a text without doubled slashes. -/
structure Argument (rel : Option Path) : Prop where
  text : 0 ∉ rel.getD []
  single : SingleSlashes (rel.getD [])
  line : (ascii "cd ").length + (rel.getD []).length ≤ 127

/-- A single component other than `..`. -/
structure Component (d : Path) : Prop where
  text : 0 ∉ d
  ne_nil : d ≠ []
  slash : 47 ∉ d
  ne_up : d ≠ [46, 46]

/-- A directory: it begins with a slash, fits its array and has no doubled slash. -/
structure IsDir (w : Path) : Prop where
  head : w.head? = some 47
  short : w.length < 256
  single : SingleSlashes w

/-- The same directory up to one slash at the end. -/
def SameDir (v w : Path) : Prop := v = w ∨ v ++ [47] = w ∨ v = w ++ [47]

/-! ## Directories -/

section Directories

variable {w v d : Path}

theorem isDir_root : IsDir [47] := ⟨rfl, by simp, List.isChain_singleton _⟩

theorem IsDir.ne_nil (hw : IsDir w) : w ≠ [] := fun h => by simpa [h] using hw.head

theorem IsDir.of_prefix (hw : IsDir w) (hv : v <+: w) (hne : v ≠ []) : IsDir v := by
  obtain ⟨t, rfl⟩ := hv
  refine ⟨?_, ?_, hw.single.left_of_append⟩
  · rw [← hw.head, List.head?_append_of_ne_nil _ hne]
  · exact Nat.lt_of_le_of_lt (by simp) hw.short

theorem IsDir.beforeSlash (hw : IsDir w) : IsDir (beforeSlash w) := by
  unfold Shell.beforeSlash
  dsimp only
  split
  · exact isDir_root
  · refine hw.of_prefix ((List.dropLast_prefix _).trans (List.rdropWhile_prefix _ _)) ?_
    rw [Ne, List.eq_nil_iff_length_eq_zero, List.length_dropLast]
    omega

theorem IsDir.parent (hw : IsDir w) : IsDir (parent w) := by
  unfold Shell.parent
  split_ifs with hlen hlast
  · exact hw
  · refine (hw.of_prefix (List.dropLast_prefix _) ?_).beforeSlash
    rw [Ne, List.eq_nil_iff_length_eq_zero, List.length_dropLast]
    omega
  · exact hw.beforeSlash

theorem IsDir.withSlash (hw : IsDir w) (hlen : w.length < 255) : IsDir (withSlash w) := by
  unfold Dirs.withSlash
  split_ifs with h
  · refine ⟨?_, by simpa using Nat.succ_lt_succ hlen, hw.single.append (List.isChain_singleton _) ?_⟩
    · rw [← hw.head, List.head?_append_of_ne_nil _ h.1]
    · rintro x hx y - ⟨rfl, -⟩
      exact h.2 hx
  · exact hw

theorem IsDir.buildPath {rel : Path} (hw : IsDir w) (hrel : SingleSlashes rel) :
    IsDir (buildPath w (some rel)) := by
  have hbase : IsDir (w.take 254) := hw.of_prefix (List.take_prefix _ _) (by simp [hw.ne_nil])
  have hlen := Dirs.length_buildPath_le w (some rel)
  rcases rel with _ | ⟨c, rel⟩
  · exact hbase
  · by_cases hc : c = 47
    · subst hc
      exact ⟨by simp [Shell.buildPath], Nat.lt_succ_of_le hlen, by
        rw [Shell.buildPath, if_pos rfl]
        exact hrel.take _⟩
    · rw [Dirs.buildPath_relative hc] at hlen ⊢
      have hslash := hbase.withSlash ((List.length_take_le ..).trans_lt (by omega))
      refine ⟨?_, Nat.lt_succ_of_le hlen, hslash.single.append (hrel.take _) ?_⟩
      · rw [List.head?_append_of_ne_nil _ hslash.ne_nil]
        exact hslash.head
      · rintro x - y hy ⟨-, rfl⟩
        rw [List.head?_take] at hy
        split at hy
        · cases hy
        · exact hc (Option.some_inj.mp hy)

/-- **`cd` leads from a directory to a directory.** -/
theorem IsDir.chdir {rel : Option Path} (hw : IsDir w) (hrel : SingleSlashes (rel.getD [])) :
    IsDir (chdir w rel) := by
  rcases rel with - | - | ⟨c, rel⟩
  · exact isDir_root
  · exact isDir_root
  · rw [Shell.chdir]
    · split_ifs
      · exact hw.parent
      · exact hw.buildPath hrel
    · exact fun he => by cases he

/-! ## Up again -/

theorem getLast?_withSlash (hne : w ≠ []) : (withSlash w).getLast? = some 47 := by
  unfold withSlash
  split
  · exact List.getLast?_concat
  · rename_i h
    exact not_not.mp fun hlast => h ⟨hne, hlast⟩

/-- **Above a name** is the directory it was appended to. -/
theorem sameDir_parent (hw : IsDir w) (hv : v ≠ []) (hslash : 47 ∉ v) :
    SameDir (parent (withSlash w ++ v)) w := by
  have hlast := getLast?_withSlash hw.ne_nil
  have hscan : (withSlash w ++ v).rdropWhile (· ≠ 47) = withSlash w := by
    obtain ⟨u, hu⟩ := List.getLast?_eq_some_iff.mp hlast
    have hv' : ∀ c ∈ v, decide (c ≠ 47) = true := fun c hc =>
      decide_eq_true fun h => hslash (h ▸ hc)
    rw [List.rdropWhile, List.reverse_append, List.dropWhile_append_of_pos (by simpa using hv'), hu]
    simp
  have hend : (withSlash w ++ v).getLast? ≠ some 47 := fun h => by
    rw [List.getLast?_append_of_ne_nil _ hv] at h
    exact hslash (List.mem_of_getLast? h)
  have hpos := List.length_pos_of_ne_nil hv
  have hpos' := List.length_pos_of_ne_nil hw.ne_nil
  have hle := length_le_withSlash (w := w)
  rw [parent, if_neg (by rw [List.length_append]; omega), if_neg hend, beforeSlash, hscan]
  unfold withSlash at *
  split_ifs at * with h hone hone
  · rw [List.length_append, List.length_singleton] at hone
    omega
  · exact .inl List.dropLast_concat
  · obtain ⟨c, rfl⟩ : ∃ c, w = [c] := List.length_eq_one_iff.mp (by omega)
    exact .inl (congrArg (fun c => [c]) (Option.some_inj.mp hlast).symm)
  · obtain ⟨u, hu⟩ := List.getLast?_eq_some_iff.mp hlast
    rw [hu, List.dropLast_concat]
    exact .inr (.inl rfl)

/-- Above a directory with a slash at its end is one that is shorter by a name. -/
theorem length_parent (hw : IsDir w) (hlast : w.getLast? = some 47) (hlen : 4 ≤ w.length) :
    (parent w).length + 3 ≤ w.length := by
  obtain ⟨u, rfl⟩ := List.getLast?_eq_some_iff.mp hlast
  rw [List.length_append, List.length_singleton] at hlen ⊢
  rw [parent, if_neg (by rw [List.length_append, List.length_singleton]; omega), if_pos hlast,
    List.dropLast_concat, beforeSlash]
  split_ifs with hone
  · rw [List.length_singleton]
    omega
  · obtain ⟨t, c, rfl⟩ := (List.eq_nil_or_concat u).resolve_left (by rintro rfl; simp at hlen)
    rw [List.concat_eq_append] at *
    have hc : c ≠ 47 := fun h =>
      (List.isChain_append.mp hw.single).2.2 c (by simp) 47 (by simp) ⟨h, rfl⟩
    rw [List.rdropWhile_concat, if_pos (decide_eq_true hc), List.length_dropLast]
    have hle := (List.rdropWhile_prefix (· ≠ 47) t).length_le
    rw [List.length_append, List.length_singleton] at *
    omega

/-- The length of a directory with a slash at its end. -/
def slashedLength (w : Path) : ℕ := w.length + if w.getLast? = some 47 then 0 else 1

theorem length_withSlash (hne : w ≠ []) : (withSlash w).length = slashedLength w := by
  unfold withSlash slashedLength
  split_ifs with h h' h'
  · exact absurd h' h.2
  · exact List.length_append
  · rfl
  · exact absurd ⟨hne, h'⟩ h

/-- **When `cd ..` undoes a `cd`** into a component: the directory with its slash is shorter than
254 bytes. -/
theorem undone_iff (hw : IsDir w) (hd : Component d) :
    SameDir (chdir (chdir w (some d)) (some [46, 46])) w ↔ slashedLength w < 254 := by
  obtain ⟨c, d', rfl⟩ := List.exists_cons_of_ne_nil hd.ne_nil
  have hc : c ≠ 47 := fun h => hd.slash (by simp [h])
  have hup : chdir (chdir w (some (c :: d'))) (some [46, 46]) =
      parent (buildPath w (some (c :: d'))) := by
    rw [chdir, if_pos rfl, chdir, if_neg hd.ne_up]
    · exact fun he => by cases he
    · exact fun he => by cases he
  rw [hup, Dirs.buildPath_relative hc]
  by_cases hfits : slashedLength w < 254
  · have hlen : w.length ≤ 254 := by
      unfold slashedLength at hfits
      omega
    rw [List.take_of_length_le hlen]
    refine iff_of_true (sameDir_parent hw ?_ fun h => hd.slash (List.mem_of_mem_take h)) hfits
    rw [length_withSlash hw.ne_nil, Ne, List.take_eq_nil_iff]
    simp
    omega
  · -- no byte of the name fits, so the path is the directory itself, with its slash
    refine iff_of_false ?_ hfits
    have hbase : IsDir (w.take 254) := hw.of_prefix (List.take_prefix _ _) (by simp [hw.ne_nil])
    have hlong : 254 ≤ (withSlash (w.take 254)).length := by
      rcases Nat.lt_or_ge w.length 254 with h | h
      · rw [List.take_of_length_le h.le, length_withSlash hw.ne_nil]
        omega
      · have hle := length_le_withSlash (w := w.take 254)
        rwa [List.length_take_of_le h] at hle
    rw [Nat.sub_eq_zero_of_le hlong, List.take_zero, List.append_nil]
    have hle := length_withSlash_le (w := w.take 254)
    have htake : (w.take 254).length ≤ 254 := List.length_take_le ..
    have htake' : (w.take 254).length ≤ w.length := List.length_take_le' ..
    have hshort := length_parent (hbase.withSlash (by omega)) (getLast?_withSlash hbase.ne_nil)
      (by omega)
    rintro (h | h | h)
    · rw [h] at hshort
      omega
    · have h' := congrArg List.length h
      rw [List.length_append, List.length_singleton] at h'
      omega
    · rw [h, List.length_append, List.length_singleton] at hshort
      omega

end Directories

/-! ## Sessions -/

/-- The arrays that a sequence of `cd` leads to from the start. The array of a path is new, with
anything in it, for every command. -/
inductive Reached : Arrays → Prop where
  | start (path : ℕ → UInt8) : Reached (.start path)
  | cd {s s' : Arrays} {rel : Option Path} (path : ℕ → UInt8) : Reached s → Argument rel →
      (Dirs.cd rel).erase.Returns ⟨s.cwd, path⟩ () s' → Reached s'

theorem hasString_start (path : ℕ → UInt8) : HasString (Arrays.start path).cwd [47] := by
  refine ⟨by simp, fun k hk => ?_⟩
  rcases Nat.le_one_iff_eq_zero_or_eq_one.mp hk with rfl | rfl
  · rfl
  · rfl

/-- What a session keeps: the array `cwd` holds a directory. -/
theorem Reached.isDir {s : Arrays} (h : Reached s) : ∃ w, HasString s.cwd w ∧ IsDir w := by
  induction h with
  | start path => exact ⟨[47], hasString_start path, isDir_root⟩
  | cd path _ hrel hr ih =>
    obtain ⟨w, hw, hdir⟩ := ih
    exact ⟨_, (Dirs.cd_runs (s := ⟨_, path⟩) hw hdir.short hrel.text).2.of_returns hr,
      hdir.chdir hrel.single⟩

/-- `cd d` and then `cd ..` lead below the directory and up again. -/
theorem down_up_runs {s : Arrays} {w d : Path} (hw : HasString s.cwd w) (hdir : IsDir w)
    (hd : Component d) :
    (do Dirs.cd (some d); Dirs.cd (some [46, 46])).Runs s Inside fun _ s' =>
      HasString s'.cwd (chdir (chdir w (some d)) (some [46, 46])) := by
  -- a component has no slash at all, so none is doubled
  have hsingle : SingleSlashes d := List.isChain_iff_getElem.mpr fun i hi hslash =>
    hd.slash (hslash.1 ▸ List.getElem_mem _)
  have hdir' : IsDir (chdir w (some d)) := hdir.chdir hsingle
  have htext : 0 ∉ (some d).getD [] := hd.text
  rw [Traced.runs_bind]
  refine (Dirs.cd_runs hw hdir.short htext).mono fun _ s₁ hs₁ => ?_
  exact Dirs.cd_runs hs₁ hdir'.short (by simp)

/-- What holds of the arrays with the current directory `w`. -/
structure Sound (s : Arrays) (w : Path) : Prop where
  cwd : HasString s.cwd w
  isDir : IsDir w
  /-- `build_path` stays inside the arrays and makes a path with a slash at its start. -/
  path : ∀ path rel, Argument rel → (Dirs.buildPath rel).Runs ⟨s.cwd, path⟩ Inside fun _ s' =>
    s'.cwd = s.cwd ∧ ∃ v, HasString s'.path v ∧ v.head? = some 47
  /-- `cd` stays inside the arrays and leads to a directory. -/
  next : ∀ path rel, Argument rel → (Dirs.cd rel).Runs ⟨s.cwd, path⟩ Inside fun _ s' =>
    ∃ v, HasString s'.cwd v ∧ IsDir v
  /-- `cd d` and then `cd ..` lead back as long as the directory with its slash is below the
  limit. -/
  undone : ∀ path d, Component d →
    (do Dirs.cd (some d); Dirs.cd (some [46, 46])).Runs ⟨s.cwd, path⟩ Inside fun _ s' =>
      ∃ v, HasString s'.cwd v ∧ (SameDir v w ↔ slashedLength w < 254)

/-- A path begins with a slash. -/
theorem IsDir.head_buildPath {w : Path} {rel : Option Path} (hw : IsDir w)
    (hrel : SingleSlashes (rel.getD [])) : (Shell.buildPath w rel).head? = some 47 := by
  match rel with
  | none =>
    exact (hw.of_prefix (List.take_prefix 254 _) (by simp [hw.ne_nil])).head
  | some rel => exact (hw.buildPath hrel).head

/-- The directory after a list of `cd`. -/
def directoryAfter (args : List Path) : Path := args.foldl (fun w rel => chdir w (some rel)) [47]

/-- **A list of `cd` leads** to the directory after it. -/
theorem reached_directoryAfter {args : List Path} (hargs : ∀ rel ∈ args, Argument (some rel)) :
    ∃ s, Reached s ∧ HasString s.cwd (directoryAfter args) ∧ IsDir (directoryAfter args) := by
  induction args using List.reverseRecOn with
  | nil => exact ⟨_, .start fun _ => 0, hasString_start _, isDir_root⟩
  | append_singleton args rel ih =>
    obtain ⟨s, hs, hw, hdir⟩ := ih fun r hr => hargs r (List.mem_append_left _ hr)
    have hrel := hargs rel (by simp)
    obtain ⟨⟨⟩, s', hr, hs'⟩ := (Dirs.cd_runs (s := s) hw hdir.short hrel.text).2
    rw [directoryAfter, List.foldl_append]
    exact ⟨s', hs.cd s.path hrel hr, hs', hdir.chdir hrel.single⟩

/-- **`cd` over a session**: the arrays are never overrun, they hold strings with a slash at the
start, and `cd ..` undoes a `cd` into a component if and only if the directory with its slash is
shorter than 254 bytes. -/
theorem cd_undone {s : Arrays} (h : Reached s) : ∃ w, Sound s w := by
  obtain ⟨w, hw, hdir⟩ := h.isDir
  refine ⟨w, hw, hdir, fun path rel hrel => ?_, fun path rel hrel => ?_, fun path d hd => ?_⟩
  · refine (Dirs.buildPath_runs (s := ⟨s.cwd, path⟩) hw hdir.short hrel.text).mono ?_
    rintro - s' ⟨hcwd, hpath⟩
    exact ⟨hcwd, _, hpath, hdir.head_buildPath hrel.single⟩
  · refine (Dirs.cd_runs (s := ⟨s.cwd, path⟩) hw hdir.short hrel.text).mono ?_
    exact fun _ s' hs' => ⟨_, hs', hdir.chdir hrel.single⟩
  · refine (down_up_runs (s := ⟨s.cwd, path⟩) hw hdir hd).mono fun _ s' hs' => ?_
    exact ⟨_, hs', undone_iff hdir hd⟩

/-- In the directory that `cd usr` and `cd bin` lead to. -/
theorem cd_undone_below : ∃ s, HasString s.cwd (ascii "/usr/bin") ∧ ∃ w, Sound s w := by
  have hargs : ∀ rel ∈ [ascii "usr", ascii "bin"], Argument (some rel) := by
    intro rel hrel
    simp only [List.mem_cons, List.not_mem_nil, or_false] at hrel
    rcases hrel with rfl | rfl <;>
      exact ⟨by decide, by unfold SingleSlashes; decide, by decide⟩
  obtain ⟨s, hs, hw, -⟩ := reached_directoryAfter hargs
  have hdir : directoryAfter [ascii "usr", ascii "bin"] = ascii "/usr/bin" := by decide
  exact ⟨s, hdir ▸ hw, cd_undone hs⟩

/-- The arguments of three `cd` that lead to a directory of 254 bytes. -/
def longArguments : List Path :=
  [47 :: List.replicate 120 97, List.replicate 120 97, List.replicate 11 97]

theorem longArguments_argument {rel : Path} (h : rel ∈ longArguments) : Argument (some rel) := by
  have hall : ∀ rel ∈ longArguments, 0 ∉ rel ∧ SingleSlashes rel ∧
      (ascii "cd ").length + rel.length ≤ 127 := by
    unfold SingleSlashes
    decide +kernel
  exact ⟨(hall rel h).1, (hall rel h).2.1, (hall rel h).2.2⟩

/-- **A directory too long for its names**: three arguments of at most 121 bytes lead to a directory
of 254 bytes. `cd x` appends a slash only, and `cd ..` takes the last name back. -/
theorem cd_not_undone : ∃ s w, Reached s ∧ HasString s.cwd w ∧
    (do Dirs.cd (some [120]); Dirs.cd (some [46, 46])).Runs s Inside fun _ s' =>
      ∃ v, HasString s'.cwd v ∧ ¬ SameDir v w := by
  obtain ⟨s, hs, hw, hdir⟩ := reached_directoryAfter fun _ => longArguments_argument
  have hd : Component [120] := ⟨by decide, by decide, by decide, by decide⟩
  have hlong : ¬ slashedLength (directoryAfter longArguments) < 254 := by decide +kernel
  refine ⟨s, _, hs, hw, (down_up_runs hw hdir hd).mono fun _ s' hs' => ?_⟩
  exact ⟨_, hs', fun h => hlong ((undone_iff hdir hd).mp h)⟩

end WarkRune.Shell

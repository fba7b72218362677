import WarkRune.Shell.Pipeline
import WarkRune.Fat12.Casing
import WarkRune.Fat12.Fault
import WarkRune.Fat12.Small
import WarkRune.Fat12.Outcome

/-!
# Opening a file in either case

The shell opens a path as it is typed, and tries its copy in upper case when that fails. The copy
goes to a buffer of 256 bytes. Since resolution folds every name, the second try never finds what
the first one missed, unless a transfer of the first one failed.

## Main definitions

* `toUpper`: the copy in upper case
* `fat12OpenCase`: the two tries

## Main results

* `fat12OpenCase_eq`: resolution, search and both ways to open give the same results
* `fdCase_eq`: the shell's way to open a path gives the result of opening it
* `fat12OpenCase_retries`: a file that the second try finds after a failed read
-/

namespace WarkRune.Shell

open Fat12 (Path Fat Volume Acts Opens cString upper fat12Open resolvePath findInDir acts_fat12Open
  acts_resolvePath acts_findInDir opens_total rootVolume)

/-- `to_upper` into a buffer of 256 bytes, `none` when the copy runs over it. -/
def toUpper (src : Path) : Option Path :=
  if (cString src).length < 256 then some ((cString src).map upper) else none

/-- `fat12_open_case`, `none` when the copy runs over its buffer. -/
def fat12OpenCase (path : Path) : Fat (Option ℤ) := do
  let fd ← fat12Open path
  if fd ≥ 0 then return some fd
  if !hasLowerAlpha (cString path) then return some (-1)
  match toUpper path with
  | none => return none
  | some up => return some (← fat12Open up)

/-- The shell's way to open a path that fits its buffers is `fat12_open_case` on the volume. -/
theorem fdCase_fat12Open {path : Path} (h0 : ∀ c ∈ path, c ≠ 0) (hlen : path.length ≤ 255)
    {s s' : State} {fd : ℤ} (h : (fdCase fat12Open path).Returns s fd s') :
    ((fat12OpenCase path).on fatPart).Returns s (some fd) s' := by
  have hstr : cString path = path :=
    List.takeWhile_eq_self_iff.mpr fun c hc => by simpa using h0 c hc
  obtain ⟨x, s₁, hon, hrest⟩ := Exec.returns_bind.mp h
  obtain ⟨t, hopen, rfl⟩ := Exec.returns_on.mp hon
  refine Exec.returns_on.mpr ?_
  split_ifs at hrest with hx hlow
  · obtain ⟨rfl, rfl⟩ := Exec.returns_pure.mp hrest
    refine ⟨t, Exec.returns_bind.mpr ⟨_, t, hopen, ?_⟩, rfl⟩
    rw [if_pos hx]
    exact Exec.returns_pure.mpr ⟨rfl, rfl⟩
  · obtain ⟨u, hup, rfl⟩ := Exec.returns_on.mp hrest
    refine ⟨u, Exec.returns_bind.mpr ⟨_, t, hopen, ?_⟩, rfl⟩
    rw [if_neg hx, toUpper, hstr, if_pos (Nat.lt_succ_of_le hlen), hlow]
    exact Exec.returns_bind.mpr ⟨_, u, hup, Exec.returns_pure.mpr ⟨rfl, rfl⟩⟩
  · -- a path without lower-case letters has no other copy
    obtain ⟨rfl, rfl⟩ := Exec.returns_pure.mp hrest
    refine ⟨t, Exec.returns_bind.mpr ⟨_, t, hopen, ?_⟩, rfl⟩
    rw [if_neg hx, hstr, Bool.not_eq_true] at *
    rw [if_pos (by simpa using hlow)]
    exact Exec.returns_pure.mpr ⟨rfl, rfl⟩

section

variable {V V' : Volume} {path up : Path}

theorem toUpper_eq (h : (cString path).length ≤ 255) :
    toUpper path = some ((cString path).map upper) := if_pos (Nat.lt_succ_of_le h)

theorem resolve_upper (V : Volume) (path : Path) :
    V.resolve ((cString path).map upper) = V.resolve path := by
  rw [Volume.resolve_map_upper, Volume.resolve_cString]

/-- Opening looks at the path through its resolution only. -/
theorem opens_congr (hr : V.resolve up = V.resolve path) {fd : ℤ} (h : Opens V path fd V') :
    Opens V up fd V' := by
  have hfinds : ∀ dir i e, V.Finds up dir i e ↔ V.Finds path dir i e := by
    intro dir i e
    rw [Volume.Finds, Volume.Finds]
    simp only [Volume.Names, hr]
  cases h with
  | missing hm => exact .missing fun dir i e hf => hm dir i e ((hfinds dir i e).mp hf)
  | isDir hf hd => exact .isDir ((hfinds _ _ _).mpr hf) hd
  | file hf hd => exact .file ((hfinds _ _ _).mpr hf) hd

/-- Opening that failed returned -1 and left the descriptor table as it was. -/
theorem opens_neg {fd : ℤ} (h : Opens V path fd V') (hfd : ¬ fd ≥ 0) : fd = -1 ∧ V' = V := by
  cases h with
  | missing _ | isDir _ _ => exact ⟨rfl, rfl⟩
  | @file dir i e _ _ =>
    unfold Volume.openFd at hfd ⊢
    cases hf : V.freeFd with
    | none => exact ⟨rfl, rfl⟩
    | some n =>
      simp only [hf] at hfd
      exact absurd (Int.natCast_nonneg n) hfd

/-- **Opening in either case opens the path**: when the first try fails, so does the second. -/
theorem acts_fat12OpenCase (h : (cString path).length ≤ 255) {fd : ℤ} (ho : Opens V path fd V') :
    Acts (fat12OpenCase path) V (some fd) V' := by
  refine (acts_fat12Open ho).bind ?_
  by_cases hfd : fd ≥ 0
  · rw [if_pos hfd]
    exact .pure _ _
  obtain ⟨rfl, rfl⟩ := opens_neg ho hfd
  rw [if_neg hfd, toUpper_eq h]
  split
  · exact .pure _ _
  · -- the copy resolves as the path does, so it fails as well
    exact (acts_fat12Open (opens_congr (resolve_upper _ path) ho)).bind (.pure _ _)

end

/-- **The case of letters does not matter**: a path and its copy in upper case resolve alike, so
the search finds the same entry for both, and opening in either case opens the path, whatever the
volume and the descriptor table hold. -/
theorem fat12OpenCase_eq (V : Volume) (path : Path) (h : (cString path).length ≤ 255) :
    ∃ up, toUpper path = some up ∧
      (∃ r, Acts (resolvePath path) V r V ∧ Acts (resolvePath up) V r V) ∧
      (∀ dir t d u, V.resolve path = some (dir, t) → V.resolve up = some (d, u) →
        ∃ x, Acts (findInDir dir t) V x V ∧ Acts (findInDir d u) V x V) ∧
      ∃ fd V', Acts (fat12Open path) V fd V' ∧ Acts (fat12OpenCase path) V (some fd) V' := by
  have hr := resolve_upper V path
  have hup := acts_resolvePath V ((cString path).map upper)
  rw [hr] at hup
  refine ⟨_, toUpper_eq h, ⟨_, acts_resolvePath V path, hup⟩, fun dir t d u ht hu => ?_, ?_⟩
  · rw [hr, ht] at hu
    obtain ⟨rfl, rfl⟩ := Prod.mk.inj (Option.some.inj hu)
    exact ⟨_, acts_findInDir V dir t, acts_findInDir V dir t⟩
  · obtain ⟨fd, V', ho⟩ := opens_total V path
    exact ⟨fd, V', acts_fat12Open ho, acts_fat12OpenCase h ho⟩

/-- **The shell opens a path as `fat12_open` does**, on a working disk. -/
theorem fdCase_eq {path : Path} (h0 : ∀ c ∈ path, c ≠ 0) (hlen : path.length ≤ 255)
    {s s' : State} {fd : ℤ} (hw : s.ipc.fat.Working)
    (h : (fdCase fat12Open path).Returns s fd s') :
    ∃ V', Acts (fat12Open path) s.ipc.fat.vol fd V' ∧ s'.ipc.fat.vol = V' := by
  have hstr : (cString path).length ≤ 255 := (List.takeWhile_prefix _).length_le.trans hlen
  obtain ⟨n, V', ho⟩ := opens_total s.ipc.fat.vol path
  obtain ⟨t, ht, rfl⟩ := Exec.returns_on.mp (fdCase_fat12Open h0 hlen h)
  obtain ⟨hn, hvol, -⟩ := (acts_fat12OpenCase hstr ho).eq_of_returns hw rfl ht
  obtain rfl := Option.some.inj hn
  exact ⟨V', acts_fat12Open ho, hvol⟩

/-- The theorem at a path with a lower-case letter, on an empty volume. -/
theorem fat12OpenCase_letter : ∃ fd V', Acts (fat12Open [97]) (rootVolume []) fd V' ∧
    Acts (fat12OpenCase [97]) (rootVolume []) (some fd) V' := by
  obtain ⟨_, -, -, -, h⟩ := fat12OpenCase_eq (rootVolume []) [97] (by decide)
  exact h

/-- The disk of the file `F`, whose first transfer fails. -/
def lateDriver : Fat12.Driver := { Fat12.smallFile.driver with wait := fun n => n ≠ 0 }

/-- **A file that the second try finds after a failed read**: opening `f` fails, and opening it in
either case does not. -/
theorem fat12OpenCase_retries : ∃ s₁ s₂, (fat12Open [102]).Returns lateDriver (-1) s₁ ∧
    (fat12OpenCase [102]).Returns lateDriver (some 0) s₂ := by
  have h₁ : ((fat12Open [102]).run 30 lateDriver).map (fun p => p.1) = some (-1) := by
    decide +kernel
  have h₂ : ((fat12OpenCase [102]).run 30 lateDriver).map (fun p => p.1) = some (some 0) := by
    decide +kernel
  obtain ⟨⟨fd, s₁⟩, hr₁, rfl⟩ := Option.map_eq_some_iff.mp h₁
  obtain ⟨⟨fd', s₂⟩, hr₂, rfl⟩ := Option.map_eq_some_iff.mp h₂
  exact ⟨s₁, s₂, ⟨30, hr₁⟩, ⟨30, hr₂⟩⟩

end WarkRune.Shell

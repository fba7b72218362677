import WarkRune.Elf.Clean

/-!
# Running a program

`elf_exec` loads a program, maps a stack for it, and jumps to it; the program ends in `elf_exit`,
which returns to the `elf_exec` that started it, and `elf_exec` unmaps the stack and the image. A
running program executes another through a system call, so the calls nest.

The pages of the stack and of the image are mapped over whatever was mapped there and are unmapped
in the end, so a call gives memory back only if nothing was mapped there.

A program runs on the states of a system that has the kernel of `elf_load` as a part.

## Main definitions

* `elfExec`: the operation, around the program it starts
* `Program`: what a program does until it ends, with the programs it executes
* `Program.Reaches`: the steps of a run
* `ExecClear`, `GivesBack`: when a call finds its pages unused, and what it gives back
* `Step.Clear`: a step leaves the pages alone, or is a call that finds its pages unused

## Main results

* `elfExec_givesBack`: in a run whose steps are all clear, every call that returns gives back its
  frames and leaves every translation as it was
-/

namespace WarkRune.Elf

open Exec
open Fat12 (Path)
open Function (update)
open WarkRune.Memory (Pmm PageTables mapWord pageOf mapWord_present)

/-! ## The operation -/

/-- `USER_STACK_BASE`. -/
def userStackBase : BitVec 32 := 0x800000

/-- `USER_STACK_PAGES`. -/
def userStackPages : ℕ := 4

/-- `USER_STACK_STEP`. -/
def userStackStep : ℕ := 0x10000

/-- `MAX_EXEC_DEPTH`. -/
def maxExecDepth : ℕ := 4

/-- `stack_base` at a depth. -/
def stackBase (depth : ℕ) : BitVec 32 := userStackBase + .ofNat 32 (depth * userStackStep)

/-- `user_esp` at a depth. -/
def userEsp (depth : ℕ) : BitVec 32 := stackBase depth + .ofNat 32 (userStackPages * 0x1000)

/-- The local variables of `elf_exec` that it needs after the program. -/
structure Started where
  depth : ℕ
  entry : BitVec 32
  base : BitVec 32
  size : BitVec 32

/-- `elf_exec` up to the jump to the program, or the error it returns with. -/
def elfEnter (path : Path) : Exec Kernel (String ⊕ Started) := do
  let r ← elfLoad path
  if r.ok = false then return .inl r.error
  else do
    let s ← get
    if s.execDepth ≥ maxExecDepth then return .inl "exec: too deep"
    else do
      let stack := stackBase s.execDepth
      let acquired := acquirePages stack 0 userStackPages s.space
      set { s with space := acquired.2 }
      match acquired.1 with
      | some i => do
        modify fun s =>
          { s with space := elfUnload r.base r.size (unmapPages stack 0 i s.space) }
        return .inl "pmm: no stack frame"
      | none => do
        modify fun t => { t with execDepth := s.execDepth + 1 }
        return .inr ⟨s.execDepth, r.entry, r.base, r.size⟩

/-- `elf_exec` from the return of the program on. -/
def elfLeave (x : Started) : Exec Kernel Unit :=
  modify fun s => { s with
    execDepth := x.depth
    space := elfUnload x.base x.size (unmapPages (stackBase x.depth) 0 userStackPages s.space) }

/-- `elf_exec` around a program, which gets its entry point and its stack pointer and runs until
`elf_exit` jumps back. The result is the text copied to `err_out`, if any. -/
def elfExec {σ : Type} (k : StatePart σ Kernel) (path : Path)
    (program : BitVec 32 → BitVec 32 → Exec σ Unit) : Exec σ (Option String) := do
  match ← (elfEnter path).on k with
  | .inl error => return some error
  | .inr x => do
    program x.entry (userEsp x.depth)
    (elfLeave x).on k
    return none

/-! ## Programs -/

/-- What a program does until it ends in `elf_exit`: it works, with system calls and without, or it
executes another program, which is given with what that one does if it is started. -/
inductive Program (σ : Type)
  | exit
  | act (a : Exec σ Unit) (rest : Program σ)
  | exec (path : Path) (child rest : Program σ)

/-- A step of a run: the work of a program, or a call of `elf_exec`. -/
inductive Step (σ : Type)
  | act (a : Exec σ Unit)
  | exec (path : Path) (child : Program σ)

namespace Program

variable {σ : Type} (k : StatePart σ Kernel)

/-- The run of a program. -/
def run : Program σ → Exec σ Unit
  | exit => pure ()
  | act a rest => do
    a
    rest.run
  | exec path child rest => do
    let _ ← elfExec k path fun _ _ => child.run
    rest.run

/-- In the run of a program from `s` there is, at the state `t`, the step `e`. -/
def Reaches : Program σ → σ → σ → Step σ → Prop
  | exit, _, _, _ => False
  | act a rest, s, t, e =>
    (t = s ∧ e = .act a) ∨ ∃ s₁, a.Returns s () s₁ ∧ rest.Reaches s₁ t e
  | exec path child rest, s, t, e =>
    (t = s ∧ e = .exec path child) ∨
    (∃ x s₁, ((elfEnter path).on k).Returns s (.inr x) s₁ ∧ child.Reaches s₁ t e) ∨
    ∃ r s₁, (elfExec k path fun _ _ => child.run k).Returns s r s₁ ∧ rest.Reaches s₁ t e

end Program

/-- **What a call gives back**: the number of frames in use and every translation are as they
were. -/
structure GivesBack (s s' : Kernel) : Prop where
  used : s'.space.pmm.used = s.space.pmm.used
  mapping : ∀ virt, s'.space.pages.mapping virt = s.space.pages.mapping virt

/-- After the load of `path` from `s` with the result `r` in the state `s₁`, the call has found its
pages unused: a load that failed moved no page; the pages of an image were not mapped, nor are
those of the stack that get a frame; a call that is too deep has no image to lose. -/
def LoadClear (path : Path) (s : Kernel) (r : ElfLoadResult) (s₁ : Kernel) : Prop :=
  if r.ok = false then Unmoved path s
  else if s₁.execDepth ≥ maxExecDepth then pagesOf r.size = 0
  else
    (∀ j < pagesOf r.size, s.space.pages.mapping (pageAt r.base j) = none) ∧
      ∀ j < userStackPages, j < s₁.space.pmm.freeFrames.length →
        s₁.space.pages.mapping (pageAt (stackBase s₁.execDepth) j) = none

/-- A call of `elf_exec` from `s` finds its pages unused. -/
def ExecClear (path : Path) (s : Kernel) : Prop :=
  ∀ r s₁, (elfLoad path).Returns s r s₁ → LoadClear path s r s₁

/-- The work of a program leaves the pages, the frames and the depth as they were, and a call of
`elf_exec` finds its pages unused. -/
def Step.Clear {σ : Type} (k : StatePart σ Kernel) (t : σ) : Step σ → Prop
  | .act a => ∀ s', a.Returns t () s' → SameSpace (k.get t) (k.get s')
  | .exec path _ => ExecClear path (k.get t)

/-! ## Pages taken and given back -/

section Space

variable {s₀ : Pmm} {o : Finset ℕ} {fs : List ℕ} {σ τ : Space} {base : BitVec 32} {n : ℕ}

/-- What taking pages leaves: all have their frames, or those that the free frames are enough
for. -/
theorem acquire_sound (hσ : SpaceSound s₀ o σ) (base : BitVec 32) (n : ℕ) :
    ∃ τ, acquirePages base 0 n σ =
        (if n ≤ σ.pmm.freeFrames.length then none else some σ.pmm.freeFrames.length, τ) ∧
      τ.pages = mapAll base 0 (σ.pmm.freeFrames.take n) σ.pages ∧
      SpaceSound s₀ (o ∪ (σ.pmm.freeFrames.take n).toFinset) τ ∧
      Spare s₀ o (σ.pmm.freeFrames.take n) := by
  obtain ⟨pmm, heq, hacc, hspare⟩ := acquirePages_spec hσ.placed hσ.accounts base 0 n
  rw [Nat.zero_add] at heq
  exact ⟨_, heq, rfl, ⟨linked_mapAll hσ.linked, hσ.placed, hσ.aligned, hacc⟩, hspare⟩

/-- The frames that pages got, when there was one for each. -/
theorem acquired_frames (hσ : SpaceSound s₀ o σ) (h : acquirePages base 0 n σ = (none, τ)) :
    ∃ fs, fs.length = n ∧ τ.pages = mapAll base 0 fs σ.pages ∧
      SpaceSound s₀ (o ∪ fs.toFinset) τ ∧ Spare s₀ o fs := by
  obtain ⟨τ', heq, hpages, hsound, hspare⟩ := acquire_sound hσ base n
  rw [heq] at h
  obtain ⟨hle, rfl⟩ := Prod.mk.inj h
  split_ifs at hle with hle'
  exact ⟨_, List.length_take_of_le hle', hpages, hsound, hspare⟩

/-- Pages that are mapped to their frames still. -/
theorem entry_acquired (hσ : σ.pages.Linked) (hτ : τ.pages.Linked) (hn : fs.length ≤ 2 ^ 20)
    (hmap : ∀ virt, τ.pages.mapping virt = (mapAll base 0 fs σ.pages).mapping virt) (j f : ℕ)
    (hf : fs[j]? = some f) :
    τ.pages.entry (pageAt base (0 + j)) = mapWord (.ofNat 32 f) userFlags := by
  have hmapping := hmap (pageAt base (0 + j))
  rw [(linked_mapAll hσ).mapping_eq, entry_mapAll hn hf rfl, if_neg mapWord_present,
    hτ.mapping_eq] at hmapping
  split_ifs at hmapping
  exact Option.some.inj hmapping

/-- Unmapping pages leaves a clear entry clear. -/
theorem entry_unmapPages {p : ℕ} {virt : BitVec 32} (hσ : σ.pages.Linked)
    (h : σ.pages.entry virt = 0) : (unmapPages base p n σ).pages.Linked ∧
      (unmapPages base p n σ).pages.entry virt = 0 := by
  induction n generalizing p σ with
  | zero => exact ⟨hσ, h⟩
  | succ n ih =>
    rw [unmapPages, unmapPage]
    split_ifs with hphys
    · exact ih hσ h
    · refine ih hσ.unmap ?_
      rw [hσ.entry_unmap]
      split_ifs
      · rfl
      · exact h

/-- **Pages that were not mapped are taken and given back**: frames and mappings are as they
were, whatever kept them did meanwhile. -/
theorem unmap_acquired (hσ : SpaceSound s₀ o σ) (hτ : SpaceSound s₀ (o ∪ fs.toFinset) τ)
    (hspare : Spare s₀ o fs) (hn : fs.length ≤ 2 ^ 20)
    (hfree : ∀ j < fs.length, σ.pages.mapping (pageAt base j) = none)
    (hmap : ∀ virt, τ.pages.mapping virt = (mapAll base 0 fs σ.pages).mapping virt) :
    SpaceSound s₀ o (unmapPages base 0 fs.length τ) ∧
      ∀ virt, (unmapPages base 0 fs.length τ).pages.mapping virt = σ.pages.mapping virt := by
  have hlinked : (mapAll base 0 fs σ.pages).Linked := linked_mapAll hσ.linked
  obtain ⟨pmm, heq, hacc⟩ := unmapPages_spec hσ.placed hσ.aligned hn hτ.linked
    (entry_acquired hσ.linked hτ.linked hn hmap) hspare hτ.accounts
  rw [heq]
  have hclear : (clearAll base 0 fs.length τ.pages).Linked := linked_clearAll hτ.linked
  refine ⟨⟨hclear, hσ.placed, hσ.aligned, hacc⟩, fun virt => ?_⟩
  by_cases hin : ∃ j < fs.length, pageOf virt = pageOf (pageAt base (0 + j))
  · obtain ⟨j, hj, hpage⟩ := hin
    dsimp only
    rw [hclear.mapping_eq, entry_clearAll hτ.linked hj hpage, if_pos (by decide),
      mapping_page hpage, Nat.zero_add, hfree j hj]
  · push Not at hin
    rw [hτ.linked.mapping_congr hclear (entry_clearAll_of_ne hτ.linked hin), hmap,
      hσ.linked.mapping_congr hlinked (entry_mapAll_of_ne hin)]

end Space

/-! ## One call -/

/-- The state has the frames, the mappings and the depth of `s`. -/
structure Restored (s₀ : Pmm) (o : Finset ℕ) (s s' : Kernel) : Prop where
  sound : SpaceSound s₀ o s'.space
  mapping : ∀ virt, s'.space.pages.mapping virt = s.space.pages.mapping virt
  depth : s'.execDepth = s.execDepth

/-- The program `x` is started from `s` with the image that `r` and `s₁` tell of: the image has
the frames `fs`, and the stack the frames `gs`. -/
structure Entered (s₀ : Pmm) (o : Finset ℕ) (s : Kernel) (r : ElfLoadResult) (s₁ : Kernel)
    (x : Started) (s' : Kernel) (fs gs : List ℕ) : Prop where
  ok : r.ok ≠ false
  base : x.base = r.base
  size : x.size = r.size
  depth : s₁.execDepth = s.execDepth
  depth' : x.depth = s₁.execDepth
  shallow : ¬ s₁.execDepth ≥ maxExecDepth
  image : fs.length = pagesOf r.size
  stack : gs.length = userStackPages
  free : userStackPages ≤ s₁.space.pmm.freeFrames.length
  imageSpare : Spare s₀ o fs
  stackSpare : Spare s₀ (o ∪ fs.toFinset) gs
  imageSound : SpaceSound s₀ (o ∪ fs.toFinset) s₁.space
  stackSound : SpaceSound s₀ (o ∪ fs.toFinset ∪ gs.toFinset) s'.space
  imagePages : s₁.space.pages = mapAll r.base 0 fs s.space.pages
  stackPages : s'.space.pages = mapAll (stackBase s₁.execDepth) 0 gs s₁.space.pages

section Call

variable {path : Path} {s s' s₁ s₂ s₃ : Kernel} {r : ElfLoadResult} {x : Started} {s₀ : Pmm}
  {o : Finset ℕ} {fs gs : List ℕ} {σ : Space}

theorem Restored.refl (hs : SpaceSound s₀ o s.space) : Restored s₀ o s s :=
  ⟨hs, fun _ => rfl, rfl⟩

theorem Restored.trans (h₁ : Restored s₀ o s s₁) (h₂ : Restored s₀ o s₁ s₂) :
    Restored s₀ o s s₂ :=
  ⟨h₂.sound, fun virt => (h₂.mapping virt).trans (h₁.mapping virt), h₂.depth.trans h₁.depth⟩

theorem Restored.of_same (hs : SpaceSound s₀ o s.space) (h : SameSpace s s') :
    Restored s₀ o s s' :=
  ⟨by rw [h.1]; exact hs, fun virt => by rw [h.1], h.2⟩

theorem Restored.givesBack (hs : SpaceSound s₀ o s.space) (h : Restored s₀ o s s') :
    GivesBack s s' :=
  ⟨by rw [h.sound.accounts.used, hs.accounts.used], h.mapping⟩

/-- A load that fails and moves no page restores. -/
theorem restored_failed (hs : SpaceSound s₀ o s.space) (h : (elfLoad path).Returns s r s')
    (hr : r.ok = false) (hmoved : Unmoved path s) : Restored s₀ o s s' := by
  rcases elfLoad_returns h with ⟨error, hread, rfl⟩ | ⟨buf, size, s₁, hread, hplace⟩
  · exact .of_same hs (elfRead_spec hread).1
  · obtain ⟨-, hdepth, hsound, hmapping, -⟩ := failed_after_read hs hread hplace hr
    exact ⟨hsound, hmapping.mpr hmoved, hdepth⟩

/-- A load that succeeds has mapped the pages of the image. -/
theorem loaded (h : (elfLoad path).Returns s r s') (hr : ¬ r.ok = false) :
    acquirePages r.base 0 (pagesOf r.size) s.space = (none, s'.space) ∧
      s'.execDepth = s.execDepth := by
  rcases elfLoad_returns h with ⟨error, -, rfl⟩ | ⟨buf, size, s₁, hread, hplace⟩
  · exact absurd rfl hr
  · obtain ⟨hspace, -, -⟩ := elfRead_spec hread
    obtain ⟨-, hdepth, -, ⟨hfail, -⟩ | ⟨-, hplaced⟩⟩ := elfPlace_returns hplace
    · exact absurd hfail hr
    · rw [← hspace.1]
      exact ⟨hplaced.acquired, hdepth.trans hspace.2⟩

/-- The stack and the image are taken one after the other and given back in the other order. -/
theorem unload_acquired {τ : Space} {base stack : BitVec 32} (hs : SpaceSound s₀ o s.space)
    (hσ : SpaceSound s₀ (o ∪ fs.toFinset) σ) (hspare : Spare s₀ o fs)
    (hspare' : Spare s₀ (o ∪ fs.toFinset) gs) (hfs : fs.length ≤ 2 ^ 20)
    (hgs : gs.length ≤ 2 ^ 20)
    (himage : ∀ j < fs.length, s.space.pages.mapping (pageAt base j) = none)
    (hstack : ∀ j < gs.length, σ.pages.mapping (pageAt stack j) = none)
    (hpages : σ.pages = mapAll base 0 fs s.space.pages)
    (hτ : SpaceSound s₀ (o ∪ fs.toFinset ∪ gs.toFinset) τ)
    (hmap : ∀ virt, τ.pages.mapping virt = (mapAll stack 0 gs σ.pages).mapping virt) :
    SpaceSound s₀ o (unmapPages base 0 fs.length (unmapPages stack 0 gs.length τ)) ∧
      ∀ virt, (unmapPages base 0 fs.length (unmapPages stack 0 gs.length τ)).pages.mapping virt =
        s.space.pages.mapping virt := by
  obtain ⟨hfirst, hmapping⟩ := unmap_acquired hσ hτ hspare' hgs hstack hmap
  exact unmap_acquired hs hfirst hspare hfs himage fun virt => by rw [hmapping, hpages]

/-- **What `elf_exec` does before it jumps**: it returns with an error, and restores if it has
found its pages unused, or it has mapped the image and the stack. -/
theorem elfEnter_spec (hs : SpaceSound s₀ o s.space) {y : String ⊕ Started}
    (h : (elfEnter path).Returns s y s') : ∃ r s₁, (elfLoad path).Returns s r s₁ ∧
      (∀ error, y = .inl error → LoadClear path s r s₁ → Restored s₀ o s s') ∧
      ∀ x, y = .inr x → ∃ fs gs, Entered s₀ o s r s₁ x s' fs gs := by
  rw [elfEnter, returns_bind] at h
  obtain ⟨r, s₁, hload, h⟩ := h
  refine ⟨r, s₁, hload, ?_⟩
  unfold LoadClear
  split_ifs at h with hr
  · obtain ⟨rfl, rfl⟩ := returns_pure.mp h
    rw [if_pos hr]
    exact ⟨fun _ _ => restored_failed hs hload hr, fun x hx => by cases hx⟩
  rw [if_neg hr]
  obtain ⟨hacq, hdepth⟩ := loaded hload hr
  obtain ⟨fs, hlen, hpages, hsound, hspare⟩ := acquired_frames hs hacq
  have hlen20 : fs.length ≤ 2 ^ 20 := by
    rw [hlen]
    exact (pagesOf_lt r.size).le
  rw [returns_bind] at h
  obtain ⟨s₂, s₃, hget, h⟩ := h
  obtain ⟨rfl, rfl⟩ := returns_get.mp hget
  split_ifs at h with hdeep
  · -- too deep: there is no image to lose
    obtain ⟨rfl, rfl⟩ := returns_pure.mp h
    rw [if_pos hdeep]
    refine ⟨fun _ _ hnone => ?_, fun x hx => by cases hx⟩
    rw [hnone] at hlen
    obtain rfl := List.length_eq_zero_iff.mp hlen
    exact ⟨by simpa using hsound, fun virt => by rw [hpages]; rfl, hdepth⟩
  rw [if_neg hdeep]
  obtain ⟨u, s₄, hset, h⟩ := returns_bind.mp h
  obtain rfl := returns_set.mp hset
  obtain ⟨τ, heq', hpages', hsound', hspare'⟩ := acquire_sound hsound (stackBase s₃.execDepth)
    userStackPages
  rw [heq'] at h
  by_cases hall : userStackPages ≤ s₃.space.pmm.freeFrames.length
  · rw [if_pos hall] at h
    obtain ⟨u', s₅, hmod, h⟩ := returns_bind.mp h
    obtain rfl := returns_modify.mp hmod
    obtain ⟨rfl, rfl⟩ := returns_pure.mp h
    refine ⟨fun error he => (by cases he), fun x hx => ?_⟩
    obtain rfl := Sum.inr.inj hx
    exact ⟨fs, _, hr, rfl, rfl, hdepth, rfl, hdeep, hlen, List.length_take_of_le hall, hall,
      hspare, hspare', hsound, hsound', hpages, hpages'⟩
  · -- the pages of the stack that found a frame go back
    rw [if_neg hall] at h
    obtain ⟨u', s₅, hmod, h⟩ := returns_bind.mp h
    obtain rfl := returns_modify.mp hmod
    obtain ⟨rfl, rfl⟩ := returns_pure.mp h
    refine ⟨fun _ _ hfree => ?_, fun x hx => by cases hx⟩
    have hlen' : (s₃.space.pmm.freeFrames.take userStackPages).length =
        s₃.space.pmm.freeFrames.length := by
      rw [List.length_take]
      omega
    have hlt : (s₃.space.pmm.freeFrames.take userStackPages).length ≤ 2 ^ 20 := by
      rw [hlen']
      exact (Nat.lt_of_not_le hall).le.trans (by decide)
    obtain ⟨hfinal, hmapping⟩ := unload_acquired hs hsound hspare hspare' hlen20 hlt
      (by rw [hlen]; exact hfree.1) (fun j hj => hfree.2 j (by omega) (by omega)) hpages hsound'
      fun virt => by rw [hpages']
    rw [hlen, hlen'] at hfinal hmapping
    exact ⟨hfinal, hmapping, hdepth⟩

section Leave

variable {u : Unit} (he : Entered s₀ o s r s₁ x s₂ fs gs)
  (hprogram : Restored s₀ (o ∪ fs.toFinset ∪ gs.toFinset) s₂ s₃)
  (h : (elfLeave x).Returns s₃ u s')
include he hprogram h

/-- **After the program**, the stack and the image are unmapped, which restores if their pages were
not mapped before. -/
theorem elfLeave_spec (hs : SpaceSound s₀ o s.space) (hclear : LoadClear path s r s₁) :
    Restored s₀ o s s' := by
  obtain rfl := returns_modify.mp h
  rw [LoadClear, if_neg he.ok, if_neg he.shallow] at hclear
  have hfs : fs.length ≤ 2 ^ 20 := by
    rw [he.image]
    exact (pagesOf_lt _).le
  have hgs : gs.length ≤ 2 ^ 20 := by
    rw [he.stack]
    decide
  have hfree := he.free
  obtain ⟨hfinal, hmapping⟩ := unload_acquired hs he.imageSound he.imageSpare he.stackSpare hfs hgs
    (by rw [he.image]; exact hclear.1)
    (fun j hj => hclear.2 j (by rw [← he.stack]; exact hj) (by rw [he.stack] at hj; omega))
    he.imagePages hprogram.sound fun virt => by rw [hprogram.mapping, he.stackPages]
  rw [he.image, he.stack, ← he.base, ← he.size, ← he.depth'] at hfinal hmapping
  exact ⟨hfinal, hmapping, he.depth'.trans he.depth⟩

/-- After the program no page of its stack is mapped, whatever was mapped there before. -/
theorem elfLeave_stack {j : ℕ} (hj : j < userStackPages) :
    s'.space.pages.mapping (pageAt (stackBase s₁.execDepth) j) = none := by
  obtain rfl := returns_modify.mp h
  have hsound := hprogram.sound
  have hgs : gs.length ≤ 2 ^ 20 := by
    rw [he.stack]
    decide
  obtain ⟨pmm, heq, -⟩ := unmapPages_spec hsound.placed hsound.aligned hgs hsound.linked
    (entry_acquired he.imageSound.linked hsound.linked hgs
      fun virt => by rw [hprogram.mapping, he.stackPages]) he.stackSpare hsound.accounts
  have hclear : (clearAll (stackBase s₁.execDepth) 0 userStackPages s₃.space.pages).Linked :=
    linked_clearAll hsound.linked
  have hentry : (clearAll (stackBase s₁.execDepth) 0 userStackPages s₃.space.pages).entry
      (pageAt (stackBase s₁.execDepth) (0 + j)) = 0 := entry_clearAll hsound.linked hj rfl
  rw [he.stack] at heq
  dsimp only
  rw [he.depth', heq, elfUnload]
  generalize clearAll (stackBase s₁.execDepth) 0 userStackPages s₃.space.pages = pages at *
  -- unmapping the image does not bring a page of the stack back
  have hunmapped : (unmapPages x.base 0 (pagesOf x.size) ⟨pmm, pages⟩).pages.Linked ∧
      (unmapPages x.base 0 (pagesOf x.size) ⟨pmm, pages⟩).pages.entry
        (pageAt (stackBase s₁.execDepth) (0 + j)) = 0 := entry_unmapPages hclear hentry
  obtain ⟨hl, hzero⟩ := hunmapped
  rw [Nat.zero_add] at hzero
  rw [hl.mapping_eq, hzero]
  exact if_pos (by decide)

end Leave

end Call

/-! ## Over a run -/

section Run

variable {σ : Type} {k : StatePart σ Kernel} (hk : k.Lawful) {s₀ : Pmm} {s : σ} {o : Finset ℕ}
include hk

/-- **One call of `elf_exec`** that finds its pages unused restores, if the program that it starts
does. -/
theorem elfExec_restored {path : Path} (hs : SpaceSound s₀ o (k.get s).space)
    (hclear : ExecClear path (k.get s)) {program : BitVec 32 → BitVec 32 → Exec σ Unit}
    (hprogram : ∀ x s₁ o', ((elfEnter path).on k).Returns s (.inr x) s₁ →
      SpaceSound s₀ o' (k.get s₁).space → ∀ u s₂,
        (program x.entry (userEsp x.depth)).Returns s₁ u s₂ → Restored s₀ o' (k.get s₁) (k.get s₂))
    {e : Option String} {s' : σ} (h : (elfExec k path program).Returns s e s') :
    Restored s₀ o (k.get s) (k.get s') := by
  obtain ⟨y, s₂, henter, h⟩ := returns_bind.mp h
  obtain ⟨t, ht, rfl⟩ := returns_on.mp henter
  obtain ⟨r, s₁, hload, hfailed, hstarted⟩ := elfEnter_spec hs ht
  have hclear := hclear r s₁ hload
  cases y with
  | inl error =>
    obtain ⟨rfl, rfl⟩ := returns_pure.mp h
    rw [hk]
    exact hfailed error rfl hclear
  | inr x =>
    obtain ⟨fs, gs, he⟩ := hstarted x rfl
    obtain ⟨u, s₃, hrun, h⟩ := returns_bind.mp h
    obtain ⟨u', s₄, hleave, h⟩ := returns_bind.mp h
    obtain ⟨rfl, rfl⟩ := returns_pure.mp h
    obtain ⟨t', ht', rfl⟩ := returns_on.mp hleave
    have hrestored := hprogram x _ _ henter (by rw [hk]; exact he.stackSound) u s₃ hrun
    rw [hk] at hrestored
    rw [hk]
    exact elfLeave_spec he hrestored ht' hs hclear

/-- **A run whose steps are clear** restores, and so does each of its calls. -/
theorem run_restored (p : Program σ) (hs : SpaceSound s₀ o (k.get s).space)
    (hclear : ∀ t e, p.Reaches k s t e → e.Clear k t) :
    (∀ u s', (p.run k).Returns s u s' → Restored s₀ o (k.get s) (k.get s')) ∧
      ∀ t q c, p.Reaches k s t (.exec q c) → ∃ o', SpaceSound s₀ o' (k.get t).space ∧
        ∀ e t', (elfExec k q fun _ _ => c.run k).Returns t e t' →
          Restored s₀ o' (k.get t) (k.get t') := by
  -- by induction on the program: each part starts in the sound state that the one before left
  induction p generalizing s o with
  | exit =>
    refine ⟨fun u s' h => ?_, fun t q c h => h.elim⟩
    obtain ⟨-, rfl⟩ := returns_pure.mp h
    exact .refl hs
  | act a rest ih =>
    have hact {s₁ : σ} (h : a.Returns s () s₁) : Restored s₀ o (k.get s) (k.get s₁) :=
      .of_same hs (hclear s (.act a) (.inl ⟨rfl, rfl⟩) s₁ h)
    have hrest {s₁ : σ} (h : a.Returns s () s₁) :=
      ih (hact h).sound fun t e hr => hclear t e (.inr ⟨s₁, h, hr⟩)
    refine ⟨fun u s' h => ?_, fun t q c h => ?_⟩
    · obtain ⟨v, s₁, h₁, h⟩ := returns_bind.mp h
      exact (hact h₁).trans ((hrest h₁).1 u s' h)
    · rcases h with ⟨-, h⟩ | ⟨s₁, h₁, h⟩
      · cases h
      · exact (hrest h₁).2 t q c h
  | exec path child rest ihchild ihrest =>
    -- the child runs in the space that `elf_enter` made
    have hstart {x : Started} {s₁ : σ} {o' : Finset ℕ}
        (henter : ((elfEnter path).on k).Returns s (.inr x) s₁)
        (hs₁ : SpaceSound s₀ o' (k.get s₁).space) :=
      ihchild hs₁ fun t e hr => hclear t e (.inr (.inl ⟨x, s₁, henter, hr⟩))
    have hexec {e : Option String} {s₁ : σ}
        (h : (elfExec k path fun _ _ => child.run k).Returns s e s₁) :
        Restored s₀ o (k.get s) (k.get s₁) :=
      elfExec_restored hk hs (hclear s (.exec path child) (.inl ⟨rfl, rfl⟩))
        (fun x s₁ o' henter hs₁ => (hstart henter hs₁).1) h
    have hrest {e : Option String} {s₁ : σ}
        (h : (elfExec k path fun _ _ => child.run k).Returns s e s₁) :=
      ihrest (hexec h).sound fun t e' hr => hclear t e' (.inr (.inr ⟨e, s₁, h, hr⟩))
    refine ⟨fun u s' h => ?_, fun t q c h => ?_⟩
    · obtain ⟨e, s₁, h₁, h⟩ := returns_bind.mp h
      exact (hexec h₁).trans ((hrest h₁).1 u s' h)
    · -- the call itself, one inside its child, or one behind it
      rcases h with ⟨rfl, h⟩ | ⟨x, s₁, henter, h⟩ | ⟨e, s₁, h₁, h⟩
      · obtain ⟨rfl, rfl⟩ := Step.exec.inj h
        exact ⟨o, hs, fun e t' h => hexec h⟩
      · obtain ⟨t₁, ht₁, rfl⟩ := returns_on.mp henter
        obtain ⟨r, s₂, -, -, hstarted⟩ := elfEnter_spec hs ht₁
        obtain ⟨fs, gs, he⟩ := hstarted x rfl
        exact (hstart henter (by rw [hk]; exact he.stackSound)).2 t q c h
      · exact (hrest h₁).2 t q c h

end Run

/-! ## Runs of a program with one segment -/

/-- The kernel as the whole state of the system. -/
abbrev kernel : StatePart Kernel Kernel := .whole Kernel

/-- A file that can be executed. -/
def goodKernel : Kernel := bootKernel (oneSegment 0xE0000000 1 1)

open WarkRune.Memory (Vmm mapOf) in
/-- The pages and frames after the start on a machine with 130 pages of memory: all frames but one
are reserved. -/
def tinyBoot : Vmm := .boot (mapOf (130 * 4096) (by decide)) (fun _ => 0) 0 ⟨fun _ => 0, fun _ _ => 0⟩

/-- The kernel with that file after its start on that machine. -/
def tinyKernel : Kernel := { goodKernel with space := ⟨tinyBoot.pmm, tinyBoot.pages⟩ }

open WarkRune.Memory (Fresh fresh_boot) in
theorem fresh_tinyBoot : Fresh 0 tinyBoot := fresh_boot _ _ _ (by decide) (by decide)

theorem tinyKernel_space : tinyKernel.space = ⟨tinyBoot.pmm, tinyBoot.pages⟩ := rfl

theorem tinyKernel_sound : SpaceSound tinyBoot.pmm ∅ tinyKernel.space := by
  have hf := fresh_tinyBoot
  rw [tinyKernel_space]
  -- the loops of the boot are not to be unfolded
  generalize tinyBoot = v at *
  exact ⟨hf.linked, hf.placed, hf.aligned, hf.accounts⟩

/-- The image of the program finds its page unused there, and the stack finds no frame. -/
theorem tinyKernel_clear : ExecClear [65] tinyKernel := by
  intro r s₁ hload
  have h : ((elfLoad [65]).run 40 tinyKernel).map (fun p => (p.1.ok, p.1.base, pagesOf p.1.size,
      p.2.execDepth, p.2.space.pmm.freeFrames.length)) = some (true, 0xE0000000, 1, 0, 0) := by
    decide +kernel
  obtain ⟨⟨r', s'⟩, hr, hall⟩ := Option.map_eq_some_iff.mp h
  obtain ⟨rfl, rfl⟩ := hload.det ⟨40, hr⟩
  simp only [Prod.mk.injEq] at hall
  obtain ⟨hok, hbase, hpages, hdepth, hfree⟩ := hall
  unfold LoadClear
  rw [if_neg (by rw [hok]; decide), hdepth, if_neg (by decide), hfree, hbase, hpages]
  refine ⟨fun j hj => ?_, fun j _ hj => absurd hj (Nat.not_lt_zero j)⟩
  obtain rfl := Nat.lt_one_iff.mp hj
  have hf := fresh_tinyBoot
  have hentry := (hf.upper 0xE0000000 (by decide)).2 fun hin => absurd hin.1 (by decide)
  rw [tinyKernel_space, hf.linked.mapping_eq, show pageAt 0xE0000000 0 = 0xE0000000 from rfl, hentry]
  exact if_pos (by decide)

end WarkRune.Elf

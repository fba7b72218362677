import WarkRune.Fat12.Build
import WarkRune.Fat12.Flush
import WarkRune.Fat12.FreeChain
import WarkRune.Fat12.Transfer

/-!
# Termination

On a working disk every call returns, whatever the FAT, the directories and the data area
contain, with one exception. `alloc_dir_entry` follows the chain of a full directory to its
last cluster, and nothing stops it on a chain without one.

Transfers that fail stop no call that follows no chain to its end. `fat_free_chain` does, and goes
round a cycle as long as the disk refuses to write what it frees.

## Main definitions

* `Call.Endless`: the call extends a full directory whose chain has no last cluster
* `Driver.Recovers`: from some point on every transfer succeeds
* `Call.Bounded`: what makes a call return

## Main results

* `call_halts_iff`: a bounded call returns, and on a working disk the others do not
* `create_cyclic_diverges`: a file created in a full directory linked to itself
* `delete_refused_diverges`: a file on a cycle deleted on a disk that refuses to write
-/

namespace WarkRune.Fat12

open Exec (Total)

/-- The call extends a full directory whose chain has no last cluster. `fat12_mkdir` takes the
cluster of the new directory first. -/
def Call.Endless (V : Volume) : Call → Prop
  | .create path => ∃ dir t, V.New path dir t ∧ V.Endless dir
  | .mkdir path => ∃ dir t c, V.New path dir t ∧ V.freeCluster = some c ∧
      (V.takeDir c).Endless dir
  | _ => False

/-- `fat12_size`. -/
def Volume.sizeOf (V : Volume) (fd : ℤ) : ℤ :=
  if V.FdValid fd then asInt (V.fds fd.toNat).size else -1

theorem acts_fat12Size (V : Volume) (fd : ℤ) : Acts (fat12Size fd) V (V.sizeOf fd) V := by
  refine (acts_volume V).bind ?_
  unfold Volume.sizeOf
  split <;> exact .pure _ _

/-- A call that is not endless has an outcome. -/
theorem Call.acts_of_not_endless {V : Volume} (hspc : 0 < V.geo.secPerClus) {c : Call}
    (h : ¬ c.Endless V) : ∃ r V', Acts c.exec V r V' := by
  cases c with
  | openPath path =>
    obtain ⟨r, V', ho⟩ := opens_total V path
    exact ⟨_, _, (acts_fat12Open ho).bind (.pure _ _)⟩
  | create path =>
    rcases creates_or V path with ⟨r, V', hc⟩ | he
    · exact ⟨_, _, (acts_fat12Create hc).bind (.pure _ _)⟩
    · exact absurd he h
  | read fd n =>
    obtain ⟨r, V', hr, -⟩ := fat12Read_total hspc fd n
    exact ⟨_, _, hr.bind (.pure _ _)⟩
  | write fd src =>
    obtain ⟨r, V', hr⟩ := fat12Write_total hspc fd src
    exact ⟨_, _, hr.bind (.pure _ _)⟩
  | flush fd => exact ⟨_, _, (acts_fat12Flush V fd).bind (.pure _ _)⟩
  | close fd => exact ⟨_, _, (acts_fat12Close V fd).bind (.pure _ _)⟩
  | size fd => exact ⟨_, _, (acts_fat12Size V fd).bind (.pure _ _)⟩
  | delete path =>
    obtain ⟨r, V', hd⟩ := deletes_total V path
    exact ⟨_, _, (acts_fat12Delete hd).bind (.pure _ _)⟩
  | rename p q =>
    obtain ⟨r, V', hr⟩ := renames_total V p q
    exact ⟨_, _, (acts_fat12Rename hr).bind (.pure _ _)⟩
  | mkdir path =>
    rcases mkdirs_or V path with ⟨r, V', hm⟩ | he
    · exact ⟨_, _, (acts_fat12Mkdir hm).bind (.pure _ _)⟩
    · exact absurd he h
  | rmdir path =>
    obtain ⟨r, V', hr⟩ := rmdirs_total V path
    exact ⟨_, _, (acts_fat12Rmdir hr).bind (.pure _ _)⟩
  | ls stack path => exact ⟨_, _, (acts_fat12Ls V stack path).bind (.pure _ _)⟩

/-- Extending a full directory whose chain has no last cluster never returns. -/
theorem Call.not_halts_of_endless {s : Driver} (hw : s.Working) {c : Call}
    (h : c.Endless s.vol) : ¬ c.exec.Halts s := by
  rintro ⟨r, s', hr⟩
  cases c with
  | create path =>
    obtain ⟨dir, t, hn, hf, hd, hl⟩ := h
    obtain ⟨a, s₁, h₁, -⟩ := Exec.returns_bind.mp hr
    obtain ⟨hc, -⟩ := creates_of_returns h₁ hw
    generalize s₁.vol = V' at hc
    cases hc with
    | refused hno => exact hno dir t hn
    | noSlot hn' hs | noEntry hn' hs | entry hn' hs =>
      obtain ⟨rfl, rfl⟩ := hn.det hn'
      exact not_endless_of_takesSlot hs ⟨hf, hd, hl⟩
  | mkdir path =>
    obtain ⟨dir, t, c, hn, hc, hend⟩ := h
    obtain ⟨a, s₁, h₁, -⟩ := Exec.returns_bind.mp hr
    obtain ⟨hm, -⟩ := mkdirs_of_returns h₁ hw
    generalize s₁.vol = V' at hm
    cases hm with
    | refused hno => exact hno dir t hn
    | diskFull hc' =>
      rw [hc] at hc'
      cases hc'
    | noSlot hn' hc' hs | entry hn' hc' hs =>
      obtain ⟨rfl, rfl⟩ := hn.det hn'
      obtain rfl := Option.some.inj (hc.symm.trans hc')
      exact not_endless_of_takesSlot hs hend
  | _ => exact h

/-! ## Transfers that fail -/

/-- A path without directories leads into the root directory. -/
theorem resolvePath_root {path : Path} (h : (splitPath path).1 = []) {s s' : Driver}
    {r : Option (ℕ × Name)} (hr : (resolvePath path).Returns s r s') : ∃ t, r = some (0, t) := by
  rw [← splitPath_slash] at h
  refine hr.loop_induct (P := fun b _ r _ => b.2 = 0 → (splitPath b.1).1 = [] →
    ∃ t, r = some (0, t)) ?_ ?_ rfl h
  · rintro ⟨p, d⟩ s r s' hdone rfl hp
    rw [resolveRound] at hdone
    dsimp only at hdone
    split_ifs at hdone with hl hhead hend
    · exact ⟨_, Sum.inr.inj (Exec.returns_pure.mp hdone).1⟩
    · simp at hdone
    · exact ⟨_, Sum.inr.inj (Exec.returns_pure.mp hdone).1⟩
    · rw [splitPath_step hl hend] at hp
      cases hp
  · rintro ⟨p, d⟩ s b' s₁ r s' hnext ih rfl hp
    rw [resolveRound] at hnext
    dsimp only at hnext
    split_ifs at hnext with hl hhead hend
    · simp at hnext
    · obtain rfl := Sum.inl.inj (Exec.returns_pure.mp hnext).1
      exact ih rfl (by rwa [splitPath_skip hl hhead] at hp)
    · simp at hnext
    · rw [splitPath_step hl hend] at hp
      cases hp

/-- A file is created in the root directory, or not. -/
theorem halts_fat12Create {path : Path} (h : (splitPath path).1 = []) (s : Driver) :
    (fat12Create path).Halts s := by
  refine .bind (total_resolvePath _ _) fun r s₁ h₁ => ?_
  obtain ⟨t, rfl⟩ := resolvePath_root h h₁
  refine Total.ite (.pure _) (.bind (total_findInDir _ _) fun r => ?_) s₁
  cases r with
  | some _ => exact .pure _
  | none =>
    refine .bind total_allocDirEntry_root fun r => ?_
    cases r with
    | none => exact .pure _
    | some i => exact .bind (total_dirWriteEntry _ _ _) fun _ => .ite (total_fdAlloc _ _ _ _) (.pure _)

/-- A directory is made in the root directory, or not. -/
theorem halts_fat12Mkdir {path : Path} (h : (splitPath path).1 = []) (s : Driver) :
    (fat12Mkdir path).Halts s := by
  refine .bind (total_resolvePath _ _) fun r s₁ h₁ => ?_
  obtain ⟨t, rfl⟩ := resolvePath_root h h₁
  refine Total.ite (.pure _) (.bind (total_findInDir _ _) fun r => ?_) s₁
  cases r with
  | some _ => exact .pure _
  | none =>
    refine .bind total_fatAlloc fun c => .ite (.pure _) (.bind (total_zeroCluster _) fun _ => ?_)
    refine .bind total_allocDirEntry_root fun r => ?_
    cases r with
    | none => exact .bind (total_fatSet _ _) fun _ => .pure _
    | some i => exact total_dirWriteEntry _ _ _

/-- From some point on every transfer succeeds. -/
def Driver.Recovers (s : Driver) : Prop := ∃ N, ∀ n, N ≤ n → s.wait n = true

theorem Driver.Working.recovers {s : Driver} (h : s.Working) : s.Recovers := ⟨s.waits, h⟩

/-- Freeing a chain returns once the disk works: every round before makes a transfer. -/
theorem halts_fatFreeChain {s : Driver} (h : s.Recovers) (c : ℕ) : (fatFreeChain c).Halts s := by
  obtain ⟨N, hN⟩ := h
  induction hk : N - s.waits using Nat.strong_induction_on generalizing s c with
  | _ k ih =>
    by_cases hw : N ≤ s.waits
    · obtain ⟨V', hV⟩ := frees_total s.vol c
      exact (acts_fatFreeChain hV).halts (fun n hn => hN n (hw.trans hn)) rfl
    · obtain ⟨x, s₁, hr⟩ := total_freeRound c s
      rcases x with c' | u
      · obtain ⟨hwait, hlt⟩ := freeRound_waits hr
        obtain ⟨a, s', hl⟩ := ih (N - s₁.waits) (by omega) c' (by rwa [hwait]) rfl
        exact ⟨a, s', hr.loop_next hl⟩
      · exact ⟨u, s₁, hr.loop_done⟩

/-- The start the name operations share. -/
theorem halts_lookup {α : Type} {path : Path} {refuse : Fat α} {k : ℕ → Name → Fat α} {s : Driver}
    (hr : Total refuse) (hk : ∀ dir t s', s'.wait = s.wait → (k dir t).Halts s') :
    (do
      match ← resolvePath path with
      | none => refuse
      | some (dir, target) => if target 0 = 0 then refuse else k dir target : Fat α).Halts s := by
  refine .bind (total_resolvePath _ _) fun r s₁ h₁ => ?_
  have hw := (keptIoOnly.resolvePath path _ _ _ h₁).2.2.1
  rcases r with - | ⟨dir, t⟩
  · exact hr s₁
  · dsimp only
    split_ifs
    · exact hr s₁
    · exact hk dir t s₁ hw

/-- A file is deleted once the disk works. -/
theorem halts_fat12Delete {s : Driver} (h : s.Recovers) (path : Path) :
    (fat12Delete path).Halts s := by
  refine halts_lookup (.pure _) fun dir t s₁ hw₁ => ?_
  refine .bind (total_findInDir _ _ _) fun r s₂ h₂ => ?_
  have hw₂ := (keptIoOnly.findInDir dir t _ _ _ h₂).2.2.1
  rcases r with - | ⟨i, e⟩
  · exact .pure _ _
  have hmark : Total (do
      let _ ← dirWriteEntry dir i (e.setFirst dirFree)
      return true) := .bind (total_dirWriteEntry _ _ _) fun _ => .pure _
  dsimp only
  split_ifs
  · exact .pure _ _
  · refine .bind (halts_fatFreeChain ?_ _) fun _ s₃ _ => hmark s₃
    rwa [Driver.Recovers, hw₂, hw₁]
  · exact hmark s₂

/-- A directory is removed once the disk works. -/
theorem halts_fat12Rmdir {s : Driver} (h : s.Recovers) (path : Path) :
    (fat12Rmdir path).Halts s := by
  refine halts_lookup (.pure _) fun dir t s₁ hw₁ => ?_
  refine .bind (total_findInDir _ _ _) fun r s₂ h₂ => ?_
  have hw₂ := (keptIoOnly.findInDir dir t _ _ _ h₂).2.2.1
  rcases r with - | ⟨i, e⟩
  · exact .pure _ _
  dsimp only
  by_cases hdir : e.IsDir
  swap
  · rw [if_pos hdir]
    exact .pure _ _
  rw [if_neg (not_not.mpr hdir)]
  refine .bind (total_dirEmpty _ _) fun empty s₃ h₃ => ?_
  have hw₃ := (keptIoOnly.dirEmpty _ _ _ _ h₃).2.2.1
  split_ifs
  · exact .pure _ _
  · refine .bind (halts_fatFreeChain ?_ _) fun _ s₄ _ => total_dirWriteEntry _ _ _ s₄
    rwa [Driver.Recovers, hw₃, hw₂, hw₁]
  · exact total_dirWriteEntry _ _ _ s₃

/-- What makes a call return. `fat12_delete` and `fat12_rmdir` free a chain, which takes a disk that
works in the end; `fat12_create` and `fat12_mkdir` may extend a directory other than the root. -/
def Call.Bounded (s : Driver) : Call → Prop
  | .create path => (splitPath path).1 = [] ∨ s.Working ∧ ¬ (Call.create path).Endless s.vol
  | .mkdir path => (splitPath path).1 = [] ∨ s.Working ∧ ¬ (Call.mkdir path).Endless s.vol
  | .delete _ | .rmdir _ => s.Recovers
  | _ => True

theorem Call.halts_of_not_endless {s : Driver} (hg : s.vol.geo.Accepted) (hw : s.Working) {c : Call}
    (h : ¬ c.Endless s.vol) : c.exec.Halts s := by
  obtain ⟨r, V', ha⟩ := c.acts_of_not_endless hg.secPerClus_pos h
  exact ha.halts hw rfl

/-- A bounded call returns, whatever the transfers do that its bound leaves open. -/
theorem Call.halts_of_bounded {s : Driver} (hg : s.vol.geo.Accepted) {c : Call}
    (h : c.Bounded s) : c.exec.Halts s := by
  have hret : ∀ {α : Type} {m : Fat α} {f : α → Reply}, m.Halts s →
      (do return f (← m) : Fat Reply).Halts s := fun hm => hm.bind fun _ _ _ => .pure _ _
  have hdone : ∀ {m : Fat Unit}, m.Halts s → (do m; return .unit : Fat Reply).Halts s :=
    fun hm => hm.bind fun _ _ _ => .pure _ _
  cases c with
  | openPath path => exact hret (total_fat12Open path s)
  | create path =>
    obtain h | ⟨hw, he⟩ := h
    · exact hret (halts_fat12Create h s)
    · exact halts_of_not_endless hg hw he
  | read fd n => exact (halts_fat12Read hg.secPerClus_pos fd n).bind fun _ _ _ => .pure _ _
  | write fd src => exact hret (halts_fat12Write hg.secPerClus_pos fd src)
  | flush fd => exact hdone (total_fat12Flush fd s)
  | close fd => exact hdone (total_fat12Close fd s)
  | size fd => exact hret (total_fat12Size fd s)
  | delete path => exact hret (halts_fat12Delete h path)
  | rename p q => exact hret (total_fat12Rename p q s)
  | mkdir path =>
    obtain h | ⟨hw, he⟩ := h
    · exact hret (halts_fat12Mkdir h s)
    · exact halts_of_not_endless hg hw he
  | rmdir path => exact hret (halts_fat12Rmdir h path)
  | ls stack path => exact hret (total_fat12Ls stack path s)

/-- On a working disk a call that is not endless is bounded, and no other. -/
theorem Call.bounded_iff {s : Driver} (hw : s.Working) (c : Call) :
    c.Bounded s ↔ ¬ c.Endless s.vol := by
  have hroot : ∀ {path dir t}, (splitPath path).1 = [] → s.vol.New path dir t → dir = 0 := by
    intro path dir t h hn
    have hd := (Volume.resolve_eq_some.mp hn.1.1).1
    rw [h] at hd
    exact (Option.some.inj hd).symm
  cases c with
  | create path =>
    refine ⟨?_, fun h => .inr ⟨hw, h⟩⟩
    rintro (h | h)
    · rintro ⟨dir, t, hn, -, hdir, -⟩
      exact hdir (hroot h hn)
    · exact h.2
  | mkdir path =>
    refine ⟨?_, fun h => .inr ⟨hw, h⟩⟩
    rintro (h | h)
    · rintro ⟨dir, t, c, hn, -, -, hdir, -⟩
      exact hdir (hroot h hn)
    · exact h.2
  | delete _ | rmdir _ => exact ⟨fun _ h => h, fun _ => hw.recovers⟩
  | _ => exact ⟨fun _ h => h, fun _ => trivial⟩

/-- The directory `D` in slot 0 of the root directory. Its only cluster is linked to itself and
holds sixteen long-name entries. -/
def cyclicDir : Volume :=
  .build smallGeometry (fun c => if c = 2 then 2 else if c < 2 then 0xFFF else 0)
    (fun i => if i = 0 then letterEntry 68 attrDir 2 else .zero)
    fun c _ => if c = 2 then fun _ => 0x0F else fun _ => 0

theorem cyclicDir_walk (n : ℕ) : cyclicDir.walk n 2 = some 2 := by
  have hf : cyclicDir.fat 2 = 2 := by decide +kernel
  induction n with
  | zero => rfl
  | succ n ih => rw [Volume.walk, hf, if_neg (by decide), ih]

/-- Every slot of the directory holds a long-name entry. -/
theorem cyclicDir_slot (i : ℕ) : cyclicDir.slot 2 i = some fun _ => 0x0F := by
  have hl : cyclicDir.slotLoc 2 i = some (4, i % 16) := by
    have hc : cyclicDir.geo.clusterSize / 32 = 16 := by decide
    have h0 : cyclicDir.geo.clusterLba 2 = 4 := by decide
    simp only [Volume.slotLoc, hc, cyclicDir_walk, Option.map_some, h0,
      show ¬ (2 = 0) by decide, ↓reduceIte]
    congr 2 <;> omega
  rw [cyclicDir.slot_of_some hl]
  rfl

theorem cyclicDir_endless : cyclicDir.Endless 2 := by
  refine ⟨?_, by decide, fun last h => ?_⟩
  · rw [Volume.freeSlot, List.findSome?_eq_none_iff.mpr]
    · rfl
    · intro i _
      simp only [Volume.freeAt, cyclicDir_slot]
      rfl
  · have hf : cyclicDir.fat 2 = 2 := by decide +kernel
    generalize hc : 2 = c at h
    induction h with
    | out h => exact h (hc ▸ by decide)
    | eoc h hf' => exact absurd (hc ▸ hf') (by rw [hf]; decide)
    | next h hf' hl ih => exact ih (by rw [← hc, hf])

/-- The disk that refuses to write. -/
def refusingDriver : Driver := { selfLinked.driver with wait := refusesWrites }

theorem refusingDriver_resolve :
    (resolvePath [70]).Returns refusingDriver (some (0, name83 [70])) refusingDriver :=
  ⟨30, rfl⟩

theorem refusingDriver_find : ∃ e s, (findInDir 0 (name83 [70])).Returns refusingDriver
    (some (0, e)) s ∧ ¬ e.IsDir ∧ e.firstCluster = 2 ∧ Refused 0 s :=
  ⟨_, _, ⟨30, rfl⟩, by decide, by decide, rfl, rfl, by decide, rfl⟩

/-- **A file on a cycle deleted on a disk that refuses to write**: `fat12_delete` never returns. -/
theorem delete_refused_diverges : ¬ (Call.delete [70]).exec.Halts refusingDriver := by
  rintro ⟨r, s', hr⟩
  obtain ⟨_, s₁, hdel, -⟩ := Exec.returns_bind.mp hr
  obtain ⟨_, s₂, hres, hdel⟩ := Exec.returns_bind.mp hdel
  obtain ⟨rfl, rfl⟩ := hres.det refusingDriver_resolve
  obtain ⟨e, s₃, hfind, hfile, hc, href⟩ := refusingDriver_find
  dsimp only at hdel
  rw [if_neg (by decide)] at hdel
  obtain ⟨_, s₄, hfound, hdel⟩ := Exec.returns_bind.mp hdel
  obtain ⟨rfl, rfl⟩ := hfound.det hfind
  dsimp only at hdel
  rw [if_neg hfile, if_pos (by omega), hc] at hdel
  obtain ⟨_, s₅, hfree, -⟩ := Exec.returns_bind.mp hdel
  exact not_halts_fatFreeChain href hfree.halts

end WarkRune.Fat12

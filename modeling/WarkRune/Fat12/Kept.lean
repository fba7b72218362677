import WarkRune.Exec.Always
import WarkRune.Fat12.Call

/-!
# Relations every call keeps

Every helper of the driver is put together from four uses of the sector buffer: a sector is
read and looked at, a byte of a sector is read for a write that follows, a sector is read, changed
and written back, or a cluster is zeroed. A
reflexive and transitive relation that these keep is kept by every helper, and by every call if
writing a descriptor keeps it too.

## Main definitions

* `Kept R`: the four uses of the buffer keep `R`

## Main results

* `Kept.fatSet`, `Kept.resolvePath`, `Kept.allocDirEntry` and their siblings: the helpers keep `R`
* `Kept.call`: every call keeps `R`
-/

namespace WarkRune.Fat12

open Exec (Always)

/-- The uses of the sector buffer keep `R`. -/
structure Kept (R : Driver → Driver → Prop) : Prop where
  readBuf : ∀ lba, Always R (readBuf lba)
  keepBuf : ∀ lba, Always R (keepBuf lba)
  modifySector : ∀ lba f, Always R (modifySector lba f)
  zeroCluster : ∀ c, Always R (zeroCluster c)

namespace Kept

variable {R : Driver → Driver → Prop} [Std.Refl R] [IsTrans Driver R] (h : Kept R)

theorem geometry : Always R geometry := .bind .get fun _ => .pure _

theorem volume : Always R volume := .bind .get fun _ => .pure _

theorem fat12Size (fd : ℤ) : Always R (fat12Size fd) :=
  .bind volume fun _ => .ite (.pure _) (.pure _)

include h

/-! ## Helpers -/

theorem fatGet (c : ℕ) : Always R (fatGet c) := by
  refine .bind geometry fun _ => .bind (h.readBuf _) fun _ => .ite ?_ (.pure _)
  exact .bind (h.readBuf _) fun _ => .pure _

omit [Std.Refl R] in
theorem writeFat (c v base : ℕ) : Always R (writeFat c v base) := by
  refine .ite ?_ (h.modifySector _ _)
  exact .bind (h.keepBuf _) fun _ => .bind (h.keepBuf _) fun _ =>
    .bind (h.modifySector _ _) fun _ => h.modifySector _ _

theorem fatSet (c v : ℕ) : Always R (fatSet c v) :=
  .bind geometry fun _ => .bind (h.writeFat _ _ _) fun _ => .ite (h.writeFat _ _ _) (.pure _)

theorem fatAlloc : Always R fatAlloc :=
  .bind geometry fun _ => .bind (.forUntil (fun _ => .bind (h.fatGet _) fun _ =>
    .ite (.bind (h.fatSet _ _) fun _ => .pure _) (.pure _)) _ _) fun _ => .pure _

theorem freeRound (c : ℕ) : Always R (freeRound c) :=
  .ite (.bind (h.fatGet _) fun _ => .bind (h.fatSet _ _) fun _ => .ite (.pure _) (.pure _)) (.pure _)

theorem fatFreeChain (c : ℕ) : Always R (fatFreeChain c) := .loop h.freeRound _

theorem walkChain : ∀ skip c, Always R (walkChain skip c)
  | 0, _ => .pure _
  | skip + 1, _ => .bind (h.fatGet _) fun _ => .ite (.pure _) (walkChain skip _)

theorem dirReadEntry (dir i : ℕ) : Always R (dirReadEntry dir i) := by
  refine .bind geometry fun _ => .ite (.ite (.pure _) (.bind (h.readBuf _) fun _ => .pure _)) ?_
  apply Always.bind (h.walkChain _ _)
  intro r
  cases r with
  | none => exact .pure _
  | some c => exact .bind (h.readBuf _) fun _ => .pure _

theorem dirWriteEntry (dir i : ℕ) (e : DirEntry) : Always R (dirWriteEntry dir i e) := by
  refine .bind geometry fun _ => .ite
    (.ite (.pure _) (.bind (h.modifySector _ _) fun _ => .pure _)) ?_
  apply Always.bind (h.walkChain _ _)
  intro r
  cases r with
  | none => exact .pure _
  | some c => exact .bind (h.modifySector _ _) fun _ => .pure _

theorem findInDir (dir : ℕ) (target : Name) : Always R (findInDir dir target) := by
  refine .bind geometry fun _ => .bind (.forUntil (fun i => ?_) _ _) fun _ => .pure _
  apply Always.bind (h.dirReadEntry _ _)
  intro r
  cases r with
  | none => exact .pure _
  | some e => exact .ite (.pure _) (.ite (.pure _) (.ite (.pure _) (.ite (.pure _) (.pure _))))

theorem resolvePath (path : Path) : Always R (resolvePath path) := by
  apply Always.loop
  rintro ⟨p, d⟩
  refine .ite (.ite (.pure _) (.pure _)) (.ite (.pure _) ?_)
  apply Always.bind (h.findInDir _ _)
  intro r
  cases r with
  | none => exact .pure _
  | some e => exact .ite (.pure _) (.pure _)

theorem allocDirEntry (dir : ℕ) : Always R (allocDirEntry dir) := by
  refine .bind geometry fun _ => .bind (.forUntil (fun i => ?_) _ _) fun r => ?_
  · apply Always.bind (h.dirReadEntry _ _)
    intro r
    cases r with
    | none => exact .pure _
    | some e => exact .ite (.pure _) (.pure _)
  · cases r.getD none with
    | some i => exact .pure _
    | none =>
      -- the directory is extended: the walk to its last cluster, and a new cluster
      refine .ite (.pure _) (.bind (.loop (fun c => ?_) _) fun _ => .bind h.fatAlloc fun _ => ?_)
      · exact .ite (.bind (h.fatGet _) fun _ => .ite (.pure _) (.pure _)) (.pure _)
      · exact .ite (.pure _) (.bind (h.fatSet _ _) fun _ => .bind (h.zeroCluster _) fun _ =>
          .pure _)

theorem dirEmpty (dir : ℕ) : Always R (dirEmpty dir) := by
  refine .bind geometry fun _ => .bind (.forUntil (fun i => ?_) _ _) fun _ => .pure _
  apply Always.bind (h.dirReadEntry _ _)
  intro r
  cases r with
  | none => exact .pure _
  | some e => exact .ite (.pure _) (.ite (.pure _) (.ite (.pure _) (.ite (.pure _) (.pure _))))

theorem listDir (dir : ℕ) : ∀ n i, Always R (listDir dir i n)
  | 0, _ => .pure _
  | n + 1, i => by
    apply Always.bind (h.dirReadEntry _ _)
    intro r
    cases r with
    | none => exact .pure _
    | some e =>
      exact .ite (.pure _) (.ite (listDir dir n _) (.bind (listDir dir n _) fun _ => .pure _))

theorem readCluster (clba size : ℕ) :
    ∀ n s off out, Always R (readCluster clba size s n off out)
  | 0, _, _, _ => .pure _
  | n + 1, _, _, _ => .ite (.ite (readCluster clba size n _ _ _)
      (.bind (h.readBuf _) fun _ => readCluster clba size n _ _ _)) (.pure _)

theorem readRound (size : ℕ) (b : ℕ × ℕ × List UInt8) : Always R (readRound size b) := by
  obtain ⟨c, off, out⟩ := b
  refine .ite (.bind geometry fun _ => .bind (h.readCluster _ _ _ _ _ _) fun _ => ?_) (.pure _)
  exact .ite (.bind (h.fatGet _) fun _ => .ite (.pure _) (.pure _)) (.pure _)

theorem readLoop (size clus off : ℕ) : Always R (readLoop size clus off) :=
  .loop (h.readRound size) _

theorem writeCluster (clba : ℕ) : ∀ n s off src, Always R (writeCluster clba s n off src)
  | 0, _, _, _ => .pure _
  | n + 1, _, _, _ => .ite (.pure _) (.ite (writeCluster clba n _ _ _)
      (.bind (h.modifySector _ _) fun _ => writeCluster clba n _ _ _))

theorem appendCluster (c : ℕ) : Always R (appendCluster c) :=
  .bind h.fatAlloc fun _ => .ite (.pure _) (.bind (h.fatSet _ _) fun _ =>
    .bind (h.zeroCluster _) fun _ => .pure _)

theorem walkExtend : ∀ skip c, Always R (walkExtend skip c)
  | 0, _ => .pure _
  | skip + 1, _ => .bind (h.fatGet _) fun _ => .ite
      (.bind (h.appendCluster _) fun _ => .ite (.pure _) (walkExtend skip _))
      (.bind (.pure _) fun _ => .ite (.pure _) (walkExtend skip _))

theorem writeRound (b : ℕ × ℕ × List UInt8) : Always R (writeRound b) := by
  obtain ⟨c, off, src⟩ := b
  refine .ite (.bind geometry fun _ => .bind (h.writeCluster _ _ _ _ _) fun _ => ?_) (.pure _)
  refine .ite (.bind (h.fatGet _) fun _ => .ite ?_ (.pure _)) (.pure _)
  exact .bind (h.appendCluster _) fun _ => .ite (.pure _) (.pure _)

theorem writeLoop (clus off : ℕ) (src : List UInt8) : Always R (writeLoop clus off src) :=
  .loop h.writeRound _

/-! ## Operations that write no descriptor -/

theorem fat12Flush (fd : ℤ) : Always R (fat12Flush fd) := by
  refine .bind volume fun _ => .ite (.bind (h.dirReadEntry _ _) fun r => ?_) (.pure _)
  cases r with
  | none => exact .pure _
  | some e => exact .bind (h.dirWriteEntry _ _ _) fun _ => .pure _

/-- The start the name operations share. -/
theorem lookup {α : Type} (path : Path) {refuse : Fat α} {k : ℕ → Name → Fat α}
    (hr : Always R refuse) (hk : ∀ dir t, Always R (k dir t)) :
    Always R (do
      match ← Fat12.resolvePath path with
      | none => refuse
      | some (dir, target) => if target 0 = 0 then refuse else k dir target) := by
  apply Always.bind (h.resolvePath path)
  intro r
  cases r with
  | none => exact hr
  | some p => exact .ite hr (hk _ _)

theorem fat12Delete (path : Path) : Always R (fat12Delete path) := by
  apply h.lookup path (.pure _)
  intro dir t
  apply Always.bind (h.findInDir dir t)
  intro r
  rcases r with - | ⟨i, e⟩
  · exact .pure _
  · have hmark : Always R (do
        let _ ← Fat12.dirWriteEntry dir i (e.setFirst dirFree)
        return true) := .bind (h.dirWriteEntry _ _ _) fun _ => .pure _
    exact .ite (.pure _) (.ite (.bind (h.fatFreeChain _) fun _ => hmark) hmark)

theorem fat12Rename (p q : Path) : Always R (fat12Rename p q) := by
  apply h.lookup p (.pure _)
  intro dir t
  apply Always.bind (h.findInDir dir t)
  intro r
  rcases r with - | ⟨i, e⟩
  · exact .pure _
  · apply h.lookup q (.pure _)
    intro newDir u
    apply Always.bind (h.findInDir newDir u)
    intro r
    cases r with
    | some _ => exact .pure _
    | none => exact .bind (h.dirWriteEntry _ _ _) fun _ => .pure _

theorem fat12Mkdir (path : Path) : Always R (fat12Mkdir path) := by
  apply h.lookup path (.pure _)
  intro dir t
  apply Always.bind (h.findInDir dir t)
  intro r
  cases r with
  | some _ => exact .pure _
  | none =>
    refine .bind h.fatAlloc fun _ => .ite (.pure _) (.bind (h.zeroCluster _) fun _ => ?_)
    apply Always.bind (h.allocDirEntry dir)
    intro r
    cases r with
    | none => exact .bind (h.fatSet _ _) fun _ => .pure _
    | some i => exact h.dirWriteEntry _ _ _

theorem fat12Rmdir (path : Path) : Always R (fat12Rmdir path) := by
  apply h.lookup path (.pure _)
  intro dir t
  apply Always.bind (h.findInDir dir t)
  intro r
  rcases r with - | ⟨i, e⟩
  · exact .pure _
  · refine .ite (.pure _) (.bind (h.dirEmpty _) fun _ => .ite (.pure _) ?_)
    exact .ite (.bind (h.fatFreeChain _) fun _ => h.dirWriteEntry _ _ _) (h.dirWriteEntry _ _ _)

theorem fat12Ls (stack : DirEntry) (path : Path) : Always R (fat12Ls stack path) := by
  refine .bind (.ite (.pure _) (.bind (h.resolvePath path) fun r => ?_)) fun r => ?_
  · rcases r with - | ⟨d, t⟩
    · exact .pure _
    · refine .ite (.pure _) (.bind (h.findInDir _ _) fun r => ?_)
      rcases r with - | ⟨- | i, e⟩ <;> exact .pure _
  · cases r with
    | none => exact .pure _
    | some d => exact .bind geometry fun _ => .bind (h.listDir _ _ _) fun _ => .pure _

/-! ## Operations that write a descriptor -/

theorem fat12Open (ha : ∀ c n p i, Always R (fdAlloc c n p i)) (path : Path) :
    Always R (fat12Open path) := by
  apply h.lookup path (.pure _)
  intro dir t
  apply Always.bind (h.findInDir dir t)
  intro r
  rcases r with - | ⟨i, e⟩
  · exact .pure _
  · exact .ite (.pure _) (ha _ _ _ _)

theorem fat12Create (ha : ∀ c n p i, Always R (fdAlloc c n p i)) (path : Path) :
    Always R (fat12Create path) := by
  apply h.lookup path (.pure _)
  intro dir t
  apply Always.bind (h.findInDir dir t)
  intro r
  cases r with
  | some _ => exact .pure _
  | none =>
    apply Always.bind (h.allocDirEntry dir)
    intro r
    cases r with
    | none => exact .pure _
    | some i => exact .bind (h.dirWriteEntry _ _ _) fun _ => .ite (ha _ _ _ _) (.pure _)

variable {fd : ℤ} (hs : 0 ≤ fd → ∀ f, Always R (setFd fd.toNat f))
include hs

theorem fat12Read (n : ℕ) : Always R (fat12Read fd n) := by
  refine .bind volume fun V => .ite_of (fun hv => ?_) fun _ => .pure _
  refine .ite (.pure _) (.ite (.pure _) (.bind (h.walkChain _ _) fun r => ?_))
  cases r with
  | none => exact .pure _
  | some c => exact .bind (h.readLoop _ _ _) fun _ => .bind (hs hv.1 _) fun _ => .pure _

theorem fat12Write (src : List UInt8) : Always R (fat12Write fd src) := by
  have hfrom (hfd : 0 ≤ fd) (csz : ℕ) (f : FD) : Always R (writeFrom csz fd.toNat f src) := by
    apply Always.bind (h.walkExtend _ _)
    intro r
    cases r with
    | none => exact .pure _
    | some c => exact .bind (h.writeLoop _ _ _) fun _ => .bind (hs hfd _) fun _ => .pure _
  refine .bind volume fun V => .ite_of (fun hv => ?_) fun _ => .pure _
  refine .ite (.pure _) (.ite (.bind h.fatAlloc fun c => .ite (.pure _) ?_) (hfrom hv.1 _ _))
  exact .bind (hs hv.1 _) fun _ => .bind (h.zeroCluster _) fun _ => hfrom hv.1 _ _

theorem fat12Close : Always R (fat12Close fd) := by
  refine .ite_of (fun _ => .pure _) fun hfd => .bind (h.fat12Flush _) fun _ => ?_
  exact .bind volume fun _ => hs (by omega) _

omit hs

/-- **Every call keeps `R`** when writing a descriptor does. -/
theorem call (hs : ∀ fd f, Always R (setFd fd f)) (c : Call) : Always R c.exec := by
  have ha : ∀ c n p i, Always R (fdAlloc c n p i) := by
    intro c n p i
    refine .bind volume fun V => ?_
    cases V.freeFd with
    | none => exact .pure _
    | some fd => exact .bind (hs _ _) fun _ => .pure _
  cases c with
  | openPath path => exact .bind (h.fat12Open ha _) fun _ => .pure _
  | create path => exact .bind (h.fat12Create ha _) fun _ => .pure _
  | read fd n => exact .bind (h.fat12Read (fun _ => hs _) _) fun _ => .pure _
  | write fd src => exact .bind (h.fat12Write (fun _ => hs _) _) fun _ => .pure _
  | flush fd => exact .bind (h.fat12Flush _) fun _ => .pure _
  | close fd => exact .bind (h.fat12Close fun _ => hs _) fun _ => .pure _
  | size fd => exact .bind (fat12Size _) fun _ => .pure _
  | delete path => exact .bind (h.fat12Delete _) fun _ => .pure _
  | rename p q => exact .bind (h.fat12Rename _ _) fun _ => .pure _
  | mkdir path => exact .bind (h.fat12Mkdir _) fun _ => .pure _
  | rmdir path => exact .bind (h.fat12Rmdir _) fun _ => .pure _
  | ls stack path => exact .bind (h.fat12Ls _ _) fun _ => .pure _

end Kept

end WarkRune.Fat12

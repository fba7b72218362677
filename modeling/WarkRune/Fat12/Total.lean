import WarkRune.Exec.Total
import WarkRune.Fat12.Descriptor
import WarkRune.Fat12.Init

/-!
# What returns whatever the transfers do

A transfer that fails changes what a loop of the driver reads. It does not change what bounds most
of the loops: an index, the length of a path, or the bytes still to be moved. Two walks are bounded
by the chain alone, and are missing here: `fat_free_chain`, and the walk of `alloc_dir_entry` to the
last cluster of a directory.

## Main results

* `total_resolvePath`, `total_findInDir` and their siblings: the helpers that return from every state
* `halts_fat12Read`, `halts_fat12Write`: reading and writing return where clusters have sectors
* `total_fat12Open`, `total_fat12Rename`, `total_fat12Close` and their siblings: the operations
-/

namespace WarkRune.Fat12

open Exec (Total)

/-! ## Transfers -/

theorem total_ataWait : Total ataWait :=
  .bind .get fun _ => .bind (.set _) fun _ => .pure _

theorem total_record (e : Access) : Total (record e) := .modify _

theorem total_geometry : Total geometry := .bind .get fun _ => .pure _

theorem total_volume : Total volume := .bind .get fun _ => .pure _

theorem total_readSector (lba : ℕ) : Total (readSector lba) := by
  refine .bind total_ataWait fun _ => .ite ?_ ?_
  · exact .bind (.modify _) fun _ => .bind (total_record _) fun _ => .pure _
  · exact .bind (total_record _) fun _ => .pure _

theorem total_readBuf (lba : ℕ) : Total (readBuf lba) :=
  .bind (total_readSector lba) fun _ => .bind (total_record _) fun _ => .bind .get fun _ => .pure _

theorem total_keepBuf (lba : ℕ) : Total (keepBuf lba) :=
  .bind (total_readSector lba) fun _ => .bind (total_record _) fun _ => .bind .get fun _ => .pure _

theorem total_ataWrite (lba : ℕ) : Total (ataWrite lba) := by
  refine .bind (total_record _) fun _ => .bind total_ataWait fun _ => .ite ?_ (.pure _)
  exact .bind (.modify _) fun _ => .bind total_ataWait fun _ => .ite total_ataWait (.pure _)

theorem total_modifySector (lba : ℕ) (f : Sector → Sector) : Total (modifySector lba f) :=
  .bind (total_record _) fun _ => .bind (total_readBuf lba) fun _ =>
    .bind (.modify _) fun _ => .bind (total_ataWrite _) fun _ => .pure _

theorem total_zeroCluster (c : ℕ) : Total (zeroCluster c) :=
  .bind (.modify _) fun _ => .bind (total_record _) fun _ => .bind total_geometry fun _ =>
    .forRange (fun _ => .bind (total_ataWrite _) fun _ => .pure _) _ _

theorem volume_returns {s s' : Driver} {V : Volume} (h : volume.Returns s V s') :
    V = s.vol ∧ s' = s := by
  simpa [volume, -bind_pure_comp, and_comm, and_assoc] using h

/-! ## The FAT -/

theorem total_fatGet (c : ℕ) : Total (fatGet c) := by
  refine .bind total_geometry fun _ => .bind (total_readBuf _) fun _ => .ite ?_ (.pure _)
  exact .bind (total_readBuf _) fun _ => .pure _

theorem total_writeFat (c v base : ℕ) : Total (writeFat c v base) := by
  refine .ite ?_ (total_modifySector _ _)
  exact .bind (total_keepBuf _) fun _ => .bind (total_keepBuf _) fun _ =>
    .bind (total_modifySector _ _) fun _ => total_modifySector _ _

theorem total_fatSet (c v : ℕ) : Total (fatSet c v) :=
  .bind total_geometry fun _ => .bind (total_writeFat _ _ _) fun _ =>
    .ite (total_writeFat _ _ _) (.pure _)

theorem total_fatAlloc : Total fatAlloc := by
  refine .bind total_geometry fun _ => .bind (.forUntil (fun i => ?_) _ _) fun _ => .pure _
  exact .bind (total_fatGet i) fun _ => .ite (.bind (total_fatSet _ _) fun _ => .pure _) (.pure _)

theorem total_appendCluster (c : ℕ) : Total (appendCluster c) :=
  .bind total_fatAlloc fun _ => .ite (.pure _) (.bind (total_fatSet _ _) fun _ =>
    .bind (total_zeroCluster _) fun _ => .pure _)

theorem total_walkChain : ∀ skip c, Total (walkChain skip c)
  | 0, _ => .pure _
  | skip + 1, _ => .bind (total_fatGet _) fun _ => .ite (.pure _) (total_walkChain skip _)

theorem total_walkExtend : ∀ skip c, Total (walkExtend skip c)
  | 0, _ => .pure _
  | skip + 1, _ => .bind (total_fatGet _) fun _ => .ite
      (.bind (total_appendCluster _) fun _ => .ite (.pure _) (total_walkExtend skip _))
      (.bind (.pure _) fun _ => .ite (.pure _) (total_walkExtend skip _))

theorem total_freeRound (c : ℕ) : Total (freeRound c) :=
  .ite (.bind (total_fatGet _) fun _ => .bind (total_fatSet _ _) fun _ => .ite (.pure _) (.pure _))
    (.pure _)

/-! ## Directories -/

theorem total_dirReadEntry (dir i : ℕ) : Total (dirReadEntry dir i) := by
  refine .bind total_geometry fun _ => .ite (.ite (.pure _) ?_) ?_
  · exact .bind (total_readBuf _) fun _ => .pure _
  · apply Total.bind (total_walkChain _ _)
    intro r
    cases r with
    | none => exact .pure _
    | some c => exact .bind (total_readBuf _) fun _ => .pure _

theorem total_dirWriteEntry (dir i : ℕ) (e : DirEntry) : Total (dirWriteEntry dir i e) := by
  refine .bind total_geometry fun _ => .ite (.ite (.pure _) ?_) ?_
  · exact .bind (total_modifySector _ _) fun _ => .pure _
  · apply Total.bind (total_walkChain _ _)
    intro r
    cases r with
    | none => exact .pure _
    | some c => exact .bind (total_modifySector _ _) fun _ => .pure _

theorem total_findInDir (dir : ℕ) (target : Name) : Total (findInDir dir target) := by
  refine .bind total_geometry fun _ => .bind (.forUntil (fun i => ?_) _ _) fun _ => .pure _
  apply Total.bind (total_dirReadEntry _ _)
  intro r
  cases r with
  | none => exact .pure _
  | some e => exact .ite (.pure _) (.ite (.pure _) (.ite (.pure _) (.ite (.pure _) (.pure _))))

theorem total_slotSearch (dir n : ℕ) : Total (Exec.forUntil (slotRound dir) 0 n) := by
  refine .forUntil (fun i => ?_) _ _
  apply Total.bind (total_dirReadEntry _ _)
  intro r
  cases r with
  | none => exact .pure _
  | some e => exact .ite (.pure _) (.pure _)

/-- The root directory is not extended. -/
theorem total_allocDirEntry_root : Total (allocDirEntry 0) := by
  refine .bind total_geometry fun _ => .bind (total_slotSearch _ _) fun r => ?_
  cases r.getD none with
  | some i => exact .pure _
  | none => exact .pure _

theorem total_dirEmpty (dir : ℕ) : Total (dirEmpty dir) := by
  refine .bind total_geometry fun _ => .bind (.forUntil (fun i => ?_) _ _) fun _ => .pure _
  apply Total.bind (total_dirReadEntry _ _)
  intro r
  cases r with
  | none => exact .pure _
  | some e => exact .ite (.pure _) (.ite (.pure _) (.ite (.pure _) (.ite (.pure _) (.pure _))))

theorem total_listDir (dir : ℕ) : ∀ n i, Total (listDir dir i n)
  | 0, _ => .pure _
  | n + 1, i => by
    apply Total.bind (total_dirReadEntry _ _)
    intro r
    cases r with
    | none => exact .pure _
    | some e =>
      exact .ite (.pure _) (.ite (total_listDir dir n _)
        (.bind (total_listDir dir n _) fun _ => .pure _))

/-- A round that goes on leaves a shorter path. -/
theorem resolveRound_lt {b b' : Path × ℕ} {s s' : Driver}
    (h : (resolveRound b).Returns s (.inl b') s') : b'.1.length < b.1.length := by
  obtain ⟨path, dir⟩ := b
  rw [resolveRound] at h
  dsimp only at h
  split_ifs at h with hlen hhead hend
  · simp at h
  · obtain ⟨hb, -⟩ := Exec.returns_pure.mp h
    obtain rfl := Sum.inl.inj hb
    cases path with
    | nil => exact absurd rfl hhead
    | cons c path => exact Nat.lt_succ_self _
  · simp at h
  · obtain ⟨r, s₁, -, h⟩ := Exec.returns_bind.mp h
    rcases r with - | ⟨i, e⟩
    · simp at h
    · dsimp only at h
      split_ifs at h
      · obtain ⟨hb, -⟩ := Exec.returns_pure.mp h
        obtain rfl := Sum.inl.inj hb
        have hlt : (path.takeWhile inComponent).length < path.length := by
          by_contra hge
          rw [List.getD_eq_getElem?_getD, List.getElem?_eq_none (Nat.le_of_not_lt hge)] at hend
          exact hend rfl
        dsimp only
        rw [List.length_drop]
        omega
      · simp at h

theorem total_resolvePath (path : Path) : Total (resolvePath path) := by
  refine .loop (fun b => b.1.length) (fun b => ?_) (fun _ _ _ _ h => resolveRound_lt h) _
  obtain ⟨p, d⟩ := b
  refine .ite (.ite (.pure _) (.pure _)) (.ite (.pure _) ?_)
  apply Total.bind (total_findInDir _ _)
  intro r
  cases r with
  | none => exact .pure _
  | some e => exact .ite (.pure _) (.pure _)

/-! ## File data -/

/-- Reading sectors of a cluster leaves less to do: the offset shrinks where a sector is passed over,
and the request where bytes are read. -/
theorem readCluster_lt {clba size : ℕ} {r : ℕ × List UInt8} :
    ∀ {n i off : ℕ} {out : List UInt8} {s s' : Driver},
      (readCluster clba size i n off out).Returns s r s' →
        size - r.2.length + r.1 ≤ size - out.length + off ∧
          (0 < n → out.length < size → size - r.2.length + r.1 < size - out.length + off)
  | 0, _, _, _, _, _, h => by
    obtain ⟨rfl, -⟩ := Exec.returns_pure.mp h
    exact ⟨le_rfl, fun h => absurd h (lt_irrefl 0)⟩
  | n + 1, i, off, out, s, s', h => by
    rw [readCluster] at h
    split_ifs at h with hlt hoff
    · have ih := (readCluster_lt h).1
      omega
    · obtain ⟨b, s₁, -, h⟩ := Exec.returns_bind.mp h
      have ih := (readCluster_lt h).1
      rw [List.length_append, List.length_map, List.length_range] at ih
      omega
    · obtain ⟨rfl, -⟩ := Exec.returns_pure.mp h
      exact ⟨le_rfl, fun _ h => absurd h hlt⟩

theorem total_readCluster (clba size : ℕ) : ∀ n i off out, Total (readCluster clba size i n off out)
  | 0, _, _, _ => .pure _
  | n + 1, _, _, _ => .ite (.ite (total_readCluster clba size n _ _ _)
      (.bind (total_readBuf _) fun _ => total_readCluster clba size n _ _ _)) (.pure _)

theorem total_readRound (size : ℕ) (b : ℕ × ℕ × List UInt8) : Total (readRound size b) := by
  obtain ⟨clus, off, out⟩ := b
  refine .ite (.bind total_geometry fun _ => .bind (total_readCluster _ _ _ _ _ _) fun _ => ?_)
    (.pure _)
  exact .ite (.bind (total_fatGet _) fun _ => .ite (.pure _) (.pure _)) (.pure _)

/-- A round of the outer loop of `fat12_read` leaves less to do. -/
theorem readRound_lt {size : ℕ} {b b' : ℕ × ℕ × List UInt8} {s s' : Driver}
    (hg : 0 < s.vol.geo.secPerClus) (h : (readRound size b).Returns s (.inl b') s') :
    size - b'.2.2.length + b'.2.1 < size - b.2.2.length + b.2.1 := by
  obtain ⟨clus, off, out⟩ := b
  rw [readRound] at h
  split_ifs at h with hgo
  · obtain ⟨g, s₁, h₁, h⟩ := Exec.returns_bind.mp h
    obtain ⟨hgeo, -⟩ := geometry_returns h₁
    obtain ⟨⟨off', out'⟩, s₂, hread, h⟩ := Exec.returns_bind.mp h
    have hlt := (readCluster_lt hread).2 (by rwa [hgeo]) hgo.1
    have hinl : ∀ {c : ℕ} {t t' : Driver}, (pure (.inl (c, off', out')) :
        Fat (ℕ × ℕ × List UInt8 ⊕ List UInt8)).Returns t (.inl b') t' →
        size - b'.2.2.length + b'.2.1 < size - out.length + off := by
      intro c t t' hp
      obtain rfl := Sum.inl.inj (Exec.returns_pure.mp hp).1
      exact hlt
    dsimp only at h
    split_ifs at h
    · obtain ⟨next, s₃, -, h⟩ := Exec.returns_bind.mp h
      split_ifs at h
      · simp at h
      · exact hinl h
    · exact hinl h
  · simp at h

/-- The outer loop of `fat12_read` returns: every cluster it goes through has a sector. -/
theorem halts_readLoop (size clus off : ℕ) {s : Driver} (h : 0 < s.vol.geo.secPerClus) :
    (readLoop size clus off).Halts s := by
  refine .loop (I := fun s => 0 < s.vol.geo.secPerClus) (fun b => size - b.2.2.length + b.2.1)
    (fun b s _ => total_readRound size b s) (fun b s b' s' hI hr => ⟨?_, readRound_lt hI hr⟩) _ s h
  rwa [(keptIoOnly.readRound size b _ _ _ hr).1]

/-- Writing sectors of a cluster leaves less to do: the offset shrinks where a sector is passed over,
and the bytes where some are stored. -/
theorem writeCluster_lt {clba : ℕ} {r : ℕ × List UInt8} :
    ∀ {n i off : ℕ} {src : List UInt8} {s s' : Driver},
      (writeCluster clba i n off src).Returns s r s' →
        r.2.length + r.1 ≤ src.length + off ∧
          (0 < n → src ≠ [] → r.2.length + r.1 < src.length + off)
  | 0, _, _, _, _, _, h => by
    obtain ⟨rfl, -⟩ := Exec.returns_pure.mp h
    exact ⟨le_rfl, fun h => absurd h (lt_irrefl 0)⟩
  | n + 1, i, off, src, s, s', h => by
    rw [writeCluster] at h
    split_ifs at h with hsrc hoff
    · obtain ⟨rfl, -⟩ := Exec.returns_pure.mp h
      exact ⟨le_rfl, fun _ h => absurd hsrc h⟩
    · have ih := (writeCluster_lt h).1
      omega
    · obtain ⟨_, s₁, -, h⟩ := Exec.returns_bind.mp h
      have ih := (writeCluster_lt h).1
      have hpos := List.length_pos_iff.mpr hsrc
      rw [List.length_drop] at ih
      omega

theorem total_writeCluster (clba : ℕ) : ∀ n i off src, Total (writeCluster clba i n off src)
  | 0, _, _, _ => .pure _
  | n + 1, _, _, _ => .ite (.pure _) (.ite (total_writeCluster clba n _ _ _)
      (.bind (total_modifySector _ _) fun _ => total_writeCluster clba n _ _ _))

theorem total_writeRound (b : ℕ × ℕ × List UInt8) : Total (writeRound b) := by
  obtain ⟨clus, off, src⟩ := b
  refine .ite (.bind total_geometry fun _ => .bind (total_writeCluster _ _ _ _ _) fun _ => ?_)
    (.pure _)
  refine .ite (.bind (total_fatGet _) fun _ => .ite ?_ (.pure _)) (.pure _)
  exact .bind (total_appendCluster _) fun _ => .ite (.pure _) (.pure _)

/-- A round of the outer loop of `fat12_write` leaves less to do. -/
theorem writeRound_lt {b b' : ℕ × ℕ × List UInt8} {s s' : Driver} (hg : 0 < s.vol.geo.secPerClus)
    (h : (writeRound b).Returns s (.inl b') s') :
    b'.2.2.length + b'.2.1 < b.2.2.length + b.2.1 := by
  obtain ⟨clus, off, src⟩ := b
  rw [writeRound] at h
  split_ifs at h with hgo
  · obtain ⟨g, s₁, h₁, h⟩ := Exec.returns_bind.mp h
    obtain ⟨hgeo, -⟩ := geometry_returns h₁
    obtain ⟨⟨off', src'⟩, s₂, hwrite, h⟩ := Exec.returns_bind.mp h
    have hlt := (writeCluster_lt hwrite).2 (by rwa [hgeo]) hgo.1
    have hinl : ∀ {c : ℕ} {t t' : Driver}, (pure (.inl (c, off', src')) :
        Fat (ℕ × ℕ × List UInt8 ⊕ List UInt8)).Returns t (.inl b') t' →
        b'.2.2.length + b'.2.1 < src.length + off := by
      intro c t t' hp
      obtain rfl := Sum.inl.inj (Exec.returns_pure.mp hp).1
      exact hlt
    dsimp only at h
    split_ifs at h
    · obtain ⟨next, s₃, -, h⟩ := Exec.returns_bind.mp h
      split_ifs at h
      · obtain ⟨next', s₄, -, h⟩ := Exec.returns_bind.mp h
        split_ifs at h
        · simp at h
        · exact hinl h
      · exact hinl h
    · exact hinl h
  · simp at h

/-- The outer loop of `fat12_write` returns. -/
theorem halts_writeLoop (clus off : ℕ) (src : List UInt8) {s : Driver}
    (h : 0 < s.vol.geo.secPerClus) : (writeLoop clus off src).Halts s := by
  refine .loop (I := fun s => 0 < s.vol.geo.secPerClus) (fun b => b.2.2.length + b.2.1)
    (fun b s _ => total_writeRound b s) (fun b s b' s' hI hr => ⟨?_, writeRound_lt hI hr⟩) _ s h
  rwa [(keptIoOnly.writeRound b _ _ _ hr).1]

/-! ## The operations -/

/-- The start the name operations share. -/
theorem total_lookup {α : Type} (path : Path) {refuse : Fat α} {k : ℕ → Name → Fat α}
    (hr : Total refuse) (hk : ∀ dir t, Total (k dir t)) :
    Total (do
      match ← resolvePath path with
      | none => refuse
      | some (dir, target) => if target 0 = 0 then refuse else k dir target) := by
  apply Total.bind (total_resolvePath path)
  intro r
  cases r with
  | none => exact hr
  | some p => exact .ite hr (hk _ _)

theorem total_fdAlloc (c n p i : ℕ) : Total (fdAlloc c n p i) := by
  refine .bind total_volume fun V => ?_
  cases V.freeFd with
  | none => exact .pure _
  | some fd => exact .bind (.modify _) fun _ => .pure _

theorem total_fat12Open (path : Path) : Total (fat12Open path) := by
  apply total_lookup path (.pure _)
  intro dir t
  apply Total.bind (total_findInDir dir t)
  intro r
  rcases r with - | ⟨i, e⟩
  · exact .pure _
  · exact .ite (.pure _) (total_fdAlloc _ _ _ _)

theorem total_fat12Rename (p q : Path) : Total (fat12Rename p q) := by
  apply total_lookup p (.pure _)
  intro dir t
  apply Total.bind (total_findInDir dir t)
  intro r
  rcases r with - | ⟨i, e⟩
  · exact .pure _
  · apply total_lookup q (.pure _)
    intro newDir u
    apply Total.bind (total_findInDir newDir u)
    intro r
    cases r with
    | some _ => exact .pure _
    | none => exact .bind (total_dirWriteEntry _ _ _) fun _ => .pure _

theorem total_fat12Ls (stack : DirEntry) (path : Path) : Total (fat12Ls stack path) := by
  refine .bind (.ite (.pure _) (.bind (total_resolvePath path) fun r => ?_)) fun r => ?_
  · rcases r with - | ⟨d, t⟩
    · exact .pure _
    · refine .ite (.pure _) (.bind (total_findInDir _ _) fun r => ?_)
      rcases r with - | ⟨- | i, e⟩ <;> exact .pure _
  · cases r with
    | none => exact .pure _
    | some d => exact .bind total_geometry fun _ => .bind (total_listDir _ _ _) fun _ => .pure _

theorem total_fat12Flush (fd : ℤ) : Total (fat12Flush fd) := by
  refine .bind total_volume fun V => .ite ?_ (.pure _)
  apply Total.bind (total_dirReadEntry _ _)
  intro r
  cases r with
  | none => exact .pure _
  | some e => exact .bind (total_dirWriteEntry _ _ _) fun _ => .pure _

/-- **Closing returns**, whatever the disk holds and the transfers do. -/
theorem total_fat12Close (fd : ℤ) : Total (fat12Close fd) :=
  .ite (.pure _) (.bind (total_fat12Flush fd) fun _ => .bind total_volume fun _ => .modify _)

theorem total_fat12Size (fd : ℤ) : Total (fat12Size fd) :=
  .bind total_volume fun _ => .ite (.pure _) (.pure _)

section Data

variable {s : Driver} (h : 0 < s.vol.geo.secPerClus)
include h

/-- **Reading returns**, whatever the disk holds and the transfers do. -/
theorem halts_fat12Read (fd : ℤ) (n : ℕ) : (fat12Read fd n).Halts s := by
  refine .bind (total_volume s) fun V s₁ h₁ => ?_
  obtain ⟨rfl, rfl⟩ := volume_returns h₁
  dsimp only
  split_ifs
  · exact .pure _ _
  · exact .pure _ _
  · refine .bind (total_walkChain _ _ _) fun r s₂ h₂ => ?_
    cases r with
    | none => exact .pure _ _
    | some c =>
      have hg := (keptIoOnly.walkChain _ _ _ _ _ h₂).1
      refine .bind (halts_readLoop _ _ _ (by rwa [hg])) fun out s₃ _ => ?_
      exact Total.bind (.modify _) (fun _ => .pure _) s₃
  · exact .pure _ _

theorem halts_writeFrom (csz fd : ℕ) (f : FD) (src : List UInt8) :
    (writeFrom csz fd f src).Halts s := by
  refine .bind (total_walkExtend _ _ _) fun r s₁ h₁ => ?_
  cases r with
  | none => exact .pure _ _
  | some c =>
    have hg := (keptIoOnly.walkExtend _ _ _ _ _ h₁).1
    refine .bind (halts_writeLoop _ _ _ (by rwa [hg])) fun rest s₂ _ => ?_
    exact Total.bind (.modify _) (fun _ => .pure _) s₂

/-- **Writing returns**, whatever the disk holds and the transfers do. -/
theorem halts_fat12Write (fd : ℤ) (src : List UInt8) : (fat12Write fd src).Halts s := by
  refine .bind (total_volume s) fun V s₁ h₁ => ?_
  obtain ⟨rfl, rfl⟩ := volume_returns h₁
  dsimp only
  split_ifs
  · exact .pure _ _
  · refine .bind (total_fatAlloc _) fun c s₂ h₂ => ?_
    split_ifs
    · exact .pure _ _
    refine .bind (Total.modify _ _) fun _ s₃ h₃ => .bind (total_zeroCluster _ _) fun _ s₄ h₄ => ?_
    obtain rfl := Exec.returns_modify.mp h₃
    -- transfers and a descriptor stored leave the geometry alone
    refine halts_writeFrom ?_ _ _ _ _
    rw [(keptIoOnly.zeroCluster _ _ _ _ h₄).1]
    change 0 < s₂.vol.geo.secPerClus
    rwa [(keptIoOnly.fatAlloc _ _ _ h₂).1]
  · exact halts_writeFrom h _ _ _ _
  · exact .pure _ _

end Data

end WarkRune.Fat12

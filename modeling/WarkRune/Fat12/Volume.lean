import WarkRune.Fat12.File

/-!
# The operations as functions on volumes

While every ATA transfer succeeds, the sector buffer and the log do not matter: each helper of
the driver computes a function of the volume. This holds on every volume, whatever its geometry
and its bytes.

## Main definitions

* `Acts m V a V'`: on a working disk, the program `m` turns `V` into `V'` and returns `a`
* `Volume.fat`, `Volume.fatSet`, `Volume.slot`, `Volume.setSlot`: the FAT entries and the
  directory slots of a volume
* `Volume.find`, `Volume.resolve`, `Volume.freeSlot`: search and path resolution

## Main results

* `acts_fatGet`, `acts_fatSet`, `acts_fatAlloc`: the FAT helpers
* `acts_dirReadEntry`, `acts_dirWriteEntry`, `acts_findInDir`, `acts_resolvePath`: the directory
  helpers
-/

namespace WarkRune.Fat12

open Exec (Computes)

/-- What the transfers act on: the volume and the sector buffer. -/
def Driver.view (s : Driver) : Volume × Sector := (s.vol, s.buf)

/-- On a working disk, `m` turns the volume and the buffer `x` into `y` and returns `a`. -/
abbrev Works {α : Type} (m : Fat α) (x : Volume × Sector) (a : α) (y : Volume × Sector) : Prop :=
  Computes Driver.view Driver.Working m x a y

/-- On a working disk, `m` turns the volume `V` into `V'` and returns `a`. -/
abbrev Acts {α : Type} (m : Fat α) (V : Volume) (a : α) (V' : Volume) : Prop :=
  Computes Driver.vol Driver.Working m V a V'

theorem Acts.of_works {α : Type} {m : Fat α} {V V' : Volume} {a : α}
    (h : ∀ b, ∃ b', Works m (V, b) a (V', b')) : Acts m V a V' := by
  refine Computes.coarsen Driver.view Prod.fst ?_
  rintro ⟨U, b⟩ rfl
  obtain ⟨b', hb'⟩ := h b
  exact ⟨(V', b'), rfl, hb'⟩

/-! ## Transfers -/

section Transfers

variable (V : Volume) (b : Sector)

/-- The sector at an address, as the controller sees it. -/
def Volume.sector (lba : ℕ) : Sector := V.disk (lba % 2 ^ 28)

theorem works_geometry : Works geometry (V, b) V.geo (V, b) := by
  rintro s hw hs
  obtain ⟨rfl, rfl⟩ := Prod.mk.inj hs
  exact ⟨s, by simp [geometry], rfl, hw⟩

/-- A look at the buffer, logged as `e`. -/
theorem works_look (e : Access) :
    Works (do record e; return (← get).buf : Fat Sector) (V, b) b (V, b) := by
  rintro s hw hs
  obtain ⟨rfl, rfl⟩ := Prod.mk.inj hs
  exact ⟨{ s with log := e :: s.log }, by simp [record], rfl, hw⟩

theorem works_gBuf : Works gBuf (V, b) b (V, b) := works_look V b .peek

theorem works_setBuf (b' : Sector) : Works (setBuf b') (V, b) () (V, b') := by
  rintro s hw hs
  obtain ⟨rfl, rfl⟩ := Prod.mk.inj hs
  exact ⟨{ s with buf := b' }, by simp [setBuf], rfl, hw⟩

theorem works_record (e : Access) : Works (record e) (V, b) () (V, b) := by
  rintro s hw hs
  obtain ⟨rfl, rfl⟩ := Prod.mk.inj hs
  exact ⟨{ s with log := e :: s.log }, by simp [record], rfl, hw⟩

theorem works_ataWait : Works ataWait (V, b) true (V, b) := by
  rintro s hw hs
  obtain ⟨rfl, rfl⟩ := Prod.mk.inj hs
  exact ⟨{ s with waits := s.waits + 1 }, by simp [ataWait, hw _ le_rfl], rfl,
    fun n hn => hw n (Nat.le_of_succ_le hn)⟩

theorem works_ataRead (lba : ℕ) : Works (ataRead lba) (V, b) true (V, V.sector lba) := by
  refine (works_ataWait V b).bind ?_
  rintro s hw hs
  obtain ⟨rfl, rfl⟩ := Prod.mk.inj hs
  exact ⟨{ s with buf := s.vol.sector lba, log := .read lba true :: s.log },
    by simp [record, Volume.sector], rfl, hw⟩

theorem works_ataWrite (lba : ℕ) : Works (ataWrite lba) (V, b) true (V.put lba b, b) := by
  refine (works_record V b _).bind ((works_ataWait V b).bind ?_)
  have hput : Works (modify fun s => { s with vol := s.vol.put lba s.buf }) (V, b) ()
      (V.put lba b, b) := by
    rintro s hw hs
    obtain ⟨rfl, rfl⟩ := Prod.mk.inj hs
    exact ⟨{ s with vol := s.vol.put lba s.buf }, by simp, rfl, hw⟩
  exact hput.bind ((works_ataWait _ _).bind (works_ataWait _ _))

theorem works_readSector (lba : ℕ) : Works (readSector lba) (V, b) true (V, V.sector lba) := by
  have h := works_ataRead V b (lba % 2 ^ 32)
  rwa [show V.sector (lba % 2 ^ 32) = V.sector lba by simp [Volume.sector]] at h

theorem works_writeSector (lba : ℕ) : Works (writeSector lba) (V, b) true (V.put lba b, b) := by
  have h := works_ataWrite V b (lba % 2 ^ 32)
  rwa [show V.put (lba % 2 ^ 32) b = V.put lba b by simp [Volume.put]] at h

theorem works_readBuf (lba : ℕ) :
    Works (readBuf lba) (V, b) (V.sector lba) (V, V.sector lba) :=
  (works_readSector V b lba).bind (works_gBuf V _)

theorem acts_readBuf (lba : ℕ) : Acts (readBuf lba) V (V.sector lba) V :=
  .of_works fun b => ⟨_, works_readBuf V b lba⟩

theorem acts_keepBuf (lba : ℕ) : Acts (keepBuf lba) V (V.sector lba) V :=
  .of_works fun b => ⟨_, (works_readSector V b lba).bind (works_look V _ .keep)⟩

/-- A read-modify-write changes one sector. -/
theorem acts_modifySector (lba : ℕ) (f : Sector → Sector) :
    Acts (modifySector lba f) V () (V.put lba (f (V.sector lba))) :=
  .of_works fun b => ⟨_, (works_record V b _).bind ((works_readBuf V b lba).bind
    ((works_setBuf V _ _).bind ((works_writeSector V _ lba).bind (.pure _ _))))⟩

theorem acts_geometry : Acts geometry V V.geo V :=
  .of_works fun b => ⟨b, works_geometry V b⟩

theorem acts_volume : Acts volume V V V := by
  rintro s hw rfl
  exact ⟨s, by simp [volume], rfl, hw⟩

theorem acts_setFd (fd : ℕ) (f : FD) : Acts (setFd fd f) V () (V.setFd fd f) := by
  rintro s hw rfl
  exact ⟨{ s with vol := s.vol.setFd fd f }, by simp [setFd], rfl, hw⟩

end Transfers

/-! ## Storing a sector -/

section Put

variable (V : Volume) (lba : ℕ) (b : Sector)

@[simp] theorem Volume.put_geo : (V.put lba b).geo = V.geo := rfl

@[simp] theorem Volume.put_fds : (V.put lba b).fds = V.fds := rfl

@[simp] theorem Volume.sector_put_self : (V.put lba b).sector lba = b := by
  simp [Volume.put, Volume.sector]

theorem Volume.sector_put_of_ne {l : ℕ} (h : l % 2 ^ 28 ≠ lba % 2 ^ 28) :
    (V.put lba b).sector l = V.sector l := by
  simp only [Volume.put, Volume.sector, Function.update_of_ne h]

theorem Volume.sector_put {l : ℕ} :
    (V.put lba b).sector l = if l % 2 ^ 28 = lba % 2 ^ 28 then b else V.sector l := by
  split
  · next h => simp only [Volume.put, Volume.sector, h, Function.update_self]
  · next h => exact V.sector_put_of_ne lba b h

@[simp] theorem Volume.put_put (b' : Sector) : (V.put lba b).put lba b' = V.put lba b' := by
  simp [Volume.put]

theorem Volume.put_sector : V.put lba (V.sector lba) = V := by
  simp [Volume.put, Volume.sector]

@[simp] theorem Volume.setFd_sector (fd : ℕ) (f : FD) : (V.setFd fd f).sector = V.sector := rfl

end Put

/-! ## The FAT -/

namespace Volume

variable (V : Volume)

/-- Byte `o` of the table whose first sector is `base`. -/
def byteAt (base o : ℕ) : UInt8 := V.sector (base + o / 512) (o % 512)

def setByte (base o : ℕ) (x : UInt8) : Volume :=
  V.put (base + o / 512) (Function.update (V.sector (base + o / 512)) (o % 512) x)

/-- The FAT entry of a cluster, in the first copy. -/
def fat (c : ℕ) : ℕ :=
  unpack c (V.byteAt V.geo.fatLba (c * 3 / 2)) (V.byteAt V.geo.fatLba (c * 3 / 2 + 1))

/-- The volume with the entry of `c` patched in the copy at `base`. -/
def patchFat (c v base : ℕ) : Volume :=
  (V.setByte base (c * 3 / 2) (packLo c v (V.byteAt base (c * 3 / 2)))).setByte base
    (c * 3 / 2 + 1) (packHi c v (V.byteAt base (c * 3 / 2 + 1)))

/-- The volume with the FAT entry of `c` set to `v`. -/
def fatSet (c v : ℕ) : Volume :=
  if V.geo.numFats > 1 then
    (V.patchFat c v V.geo.fatLba).patchFat c v (V.geo.fatLba + V.geo.fatSize)
  else V.patchFat c v V.geo.fatLba

/-- The volume with `n` sectors from `lba` on zeroed. -/
def zeroSectors (lba : ℕ) : ℕ → Volume
  | 0 => V
  | n + 1 => (zeroSectors lba n).put (lba + n) fun _ => 0

/-- The volume with the sectors of a cluster zeroed. -/
def zeroCluster (c : ℕ) : Volume := V.zeroSectors (V.geo.clusterLba c) V.geo.secPerClus

/-- The first free cluster. -/
def freeCluster : Option ℕ :=
  (List.range' 2 V.geo.totalClusters).find? fun c => V.fat c = fat12Free

/-- The volume once the first free cluster is marked as an end of chain. -/
def takeFree : Volume :=
  match V.freeCluster with
  | none => V
  | some c => V.fatSet c fat12Eoc

@[simp] theorem setByte_geo (base o : ℕ) (x : UInt8) : (V.setByte base o x).geo = V.geo := rfl

@[simp] theorem setByte_fds (base o : ℕ) (x : UInt8) : (V.setByte base o x).fds = V.fds := rfl

@[simp] theorem patchFat_geo (c v base : ℕ) : (V.patchFat c v base).geo = V.geo := rfl

@[simp] theorem patchFat_fds (c v base : ℕ) : (V.patchFat c v base).fds = V.fds := rfl

@[simp] theorem fatSet_geo (c v : ℕ) : (V.fatSet c v).geo = V.geo := by
  unfold fatSet
  split <;> rfl

@[simp] theorem fatSet_fds (c v : ℕ) : (V.fatSet c v).fds = V.fds := by
  unfold fatSet
  split <;> rfl

@[simp] theorem zeroSectors_geo (lba n : ℕ) : (V.zeroSectors lba n).geo = V.geo := by
  induction n with
  | zero => rfl
  | succ n ih => exact ih

@[simp] theorem zeroSectors_fds (lba n : ℕ) : (V.zeroSectors lba n).fds = V.fds := by
  induction n with
  | zero => rfl
  | succ n ih => exact ih

@[simp] theorem zeroCluster_geo (c : ℕ) : (V.zeroCluster c).geo = V.geo := by
  simp [zeroCluster]

@[simp] theorem zeroCluster_fds (c : ℕ) : (V.zeroCluster c).fds = V.fds := by
  simp [zeroCluster]

@[simp] theorem takeFree_geo : V.takeFree.geo = V.geo := by
  unfold takeFree
  split <;> simp

@[simp] theorem takeFree_fds : V.takeFree.fds = V.fds := by
  unfold takeFree
  split <;> simp

end Volume

section Fat

variable (V : Volume)

theorem acts_fatGet (c : ℕ) : Acts (fatGet c) V (V.fat c) V := by
  refine (acts_geometry V).bind ((acts_readBuf V _).bind ?_)
  by_cases h : c * 3 / 2 % 512 = 511
  · have h₁ : (c * 3 / 2 + 1) / 512 = c * 3 / 2 / 512 + 1 := by omega
    have h₂ : (c * 3 / 2 + 1) % 512 = 0 := by omega
    simp only [h, ↓reduceIte]
    refine (acts_readBuf V _).bind ?_
    simp only [Volume.fat, Volume.byteAt, h, h₁, h₂, Nat.add_assoc]
    exact .pure _ _
  · have h₁ : (c * 3 / 2 + 1) / 512 = c * 3 / 2 / 512 := by omega
    have h₂ : (c * 3 / 2 + 1) % 512 = c * 3 / 2 % 512 + 1 := by omega
    simp only [h, ↓reduceIte, Volume.fat, Volume.byteAt, h₁, h₂]
    exact .pure _ _

/-- Neighbouring sectors have different addresses. -/
theorem succ_mod_ne (l : ℕ) : (l + 1) % 2 ^ 28 ≠ l % 2 ^ 28 := by omega

theorem acts_writeFat (c v base : ℕ) : Acts (writeFat c v base) V () (V.patchFat c v base) := by
  unfold writeFat
  by_cases h : c * 3 / 2 % 512 = 511
  · have h₁ : (c * 3 / 2 + 1) / 512 = c * 3 / 2 / 512 + 1 := by omega
    have h₂ : (c * 3 / 2 + 1) % 512 = 0 := by omega
    simp only [h, ↓reduceIte, Volume.patchFat, Volume.setByte, Volume.byteAt, h₁, h₂,
      ← Nat.add_assoc]
    refine (acts_keepBuf V _).bind ((acts_keepBuf V _).bind
      ((acts_modifySector V _ _).bind (acts_modifySector _ _ _)))
  · have h₁ : (c * 3 / 2 + 1) / 512 = c * 3 / 2 / 512 := by omega
    have h₂ : (c * 3 / 2 + 1) % 512 = c * 3 / 2 % 512 + 1 := by omega
    simp only [h, ↓reduceIte, Volume.patchFat, Volume.setByte, Volume.byteAt, h₁, h₂,
      Volume.sector_put_self, Volume.put_put]
    exact acts_modifySector V _ _

theorem acts_fatSet (c v : ℕ) : Acts (fatSet c v) V () (V.fatSet c v) := by
  refine (acts_geometry V).bind ((acts_writeFat V c v _).bind ?_)
  unfold Volume.fatSet
  split
  · exact acts_writeFat _ c v _
  · exact .pure _ _

theorem acts_zeroCluster (c : ℕ) : Acts (zeroCluster c) V () (V.zeroCluster c) := by
  refine .of_works fun b => ⟨fun _ => 0, ?_⟩
  refine (works_setBuf V b _).bind ((works_record V _ _).bind ((works_geometry V _).bind ?_))
  refine Computes.forRange (fun n => (V.zeroSectors (V.geo.clusterLba c) n, fun _ => 0))
    fun k _ => ?_
  have h := works_ataWrite (V.zeroSectors (V.geo.clusterLba c) k) (fun _ => 0)
    ((V.geo.clusterLba c + (0 + k)) % 2 ^ 32)
  rw [Nat.zero_add] at h ⊢
  have hp : ∀ U : Volume, ∀ l, U.put (l % 2 ^ 32) (fun _ => 0) = U.put l fun _ => 0 :=
    fun U l => by simp [Volume.put]
  rw [hp] at h
  exact h.bind (.pure _ _)

theorem acts_fatAlloc : Acts fatAlloc V (V.freeCluster.getD 0) V.takeFree := by
  refine (acts_geometry V).bind ?_
  have hloop : ∀ n i, Acts (Exec.forUntil allocRound i n) V
      ((List.range' i n).find? fun c => V.fat c = fat12Free)
      (match (List.range' i n).find? fun c => V.fat c = fat12Free with
        | none => V
        | some c => V.fatSet c fat12Eoc) := by
    intro n
    induction n with
    | zero => exact fun i => .pure _ _
    | succ n ih =>
      intro i
      rw [List.range'_succ, List.find?_cons]
      by_cases hi : V.fat i = fat12Free
      · simp only [hi, decide_true]
        refine .forUntil_done ((acts_fatGet V i).bind ?_)
        simp only [hi, ↓reduceIte]
        exact (acts_fatSet V i _).bind (.pure _ _)
      · simp only [hi, decide_false]
        refine .forUntil_next ((acts_fatGet V i).bind ?_) (ih (i + 1))
        simp only [hi, ↓reduceIte]
        exact .pure _ _
  exact (hloop V.geo.totalClusters 2).bind (.pure _ _)

end Fat

end WarkRune.Fat12

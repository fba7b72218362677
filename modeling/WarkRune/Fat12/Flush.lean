import WarkRune.Fat12.Descriptor
import WarkRune.Fat12.Build
import WarkRune.Fat12.Slot
import Mathlib.Tactic.Common

/-!
# Flushing a descriptor

`fat12_flush` writes the size and the first cluster a descriptor cached back to its directory
slot, whether or not anything was written through it. A descriptor nothing was written through
still caches what its entry recorded when it was opened, so flushing it puts that back.

## Main definitions

* `Volume.flush`, `Volume.close`: the volume after `fat12_flush` and `fat12_close`
* `EntriesKept V V'`: every directory entry is where it was and as it was
* `Recorded V f`: the slot of `f` records the size and first cluster `f` caches
* `SetBack V V' f`: the slot of `f` is set back to the size and first cluster `f` caches

## Main results

* `flush_unwritten_iff`: over every run, flushing or closing a descriptor nothing was written
  through keeps every entry exactly when its slot still records what it cached, and sets that
  slot, and no other, back
* `flush_unwritten_loses_update`: two descriptors of one file lose an update
-/

namespace WarkRune.Fat12

open Exec (Computes)

/-- The volume after `fat12_flush`. -/
def Volume.flush (V : Volume) (fd : ℤ) : Volume :=
  if V.FdValid fd then
    let f := V.fds fd.toNat
    match V.slot f.parentCluster f.dirIdx with
    | none => V
    | some e => V.setSlot f.parentCluster f.dirIdx (e.setRecord f.size f.firstCluster)
  else V

/-- The volume after `fat12_close`. -/
def Volume.close (V : Volume) (fd : ℤ) : Volume :=
  if fd < 0 ∨ fd ≥ maxFds then V
  else (V.flush fd).setFd fd.toNat { (V.flush fd).fds fd.toNat with used := false }

theorem acts_fat12Flush (V : Volume) (fd : ℤ) : Acts (fat12Flush fd) V () (V.flush fd) := by
  refine (acts_volume V).bind ?_
  unfold Volume.flush
  by_cases hv : V.FdValid fd
  · simp only [hv, ↓reduceIte]
    refine (acts_dirReadEntry V _ _).bind ?_
    cases V.slot (V.fds fd.toNat).parentCluster (V.fds fd.toNat).dirIdx with
    | none => exact .pure _ _
    | some e => exact (acts_dirWriteEntry V _ _ _).bind (.pure _ _)
  · simp only [hv, ↓reduceIte]
    exact .pure _ _

theorem acts_fat12Close (V : Volume) (fd : ℤ) : Acts (fat12Close fd) V () (V.close fd) := by
  unfold fat12Close Volume.close
  split
  · exact .pure _ _
  · exact (acts_fat12Flush V fd).bind ((acts_volume _).bind (acts_setFd _ _ _))

/-- Every directory entry is where it was and as it was. -/
def EntriesKept (V V' : Volume) : Prop :=
  ∀ dir i, V'.slotLoc dir i = V.slotLoc dir i ∧ V'.slot dir i = V.slot dir i

/-- The slot of `f` records the size and first cluster `f` caches. -/
def Recorded (V : Volume) (f : FD) : Prop :=
  ∀ e, V.slot f.parentCluster f.dirIdx = some e →
    e.fileSize = f.size ∧ e.firstCluster = f.firstCluster

/-- Two slots that lie at one place of the disk. -/
def SamePlace (p q : ℕ × ℕ) : Prop := p.1 % 2 ^ 28 = q.1 % 2 ^ 28 ∧ p.2 = q.2

/-- The slot of `f`, if it has one, is set back: its entry gets the size and first cluster `f`
caches and keeps its other bytes, and every other entry of every sector is as it was. A store
can move slots only where it hits the FAT, so the slots are compared where they were. -/
structure SetBack (V V' : Volume) (f : FD) : Prop where
  entry : ∀ e p, V.slot f.parentCluster f.dirIdx = some e →
    V.slotLoc f.parentCluster f.dirIdx = some p →
      entryOf (V'.sector p.1) p.2 = e.setRecord f.size f.firstCluster
  others : ∀ p q, V.slotLoc f.parentCluster f.dirIdx = some p → ¬ SamePlace q p →
    entryOf (V'.sector q.1) q.2 = entryOf (V.sector q.1) q.2
  slots : ∀ dir i p q, V.slotLoc f.parentCluster f.dirIdx = some p →
    V.slotLoc dir i = some q → V'.slotLoc dir i = some q → ¬ SamePlace q p →
      V'.slot dir i = V.slot dir i
  slot : V'.slotLoc f.parentCluster f.dirIdx = V.slotLoc f.parentCluster f.dirIdx →
    V'.slot f.parentCluster f.dirIdx =
      (V.slot f.parentCluster f.dirIdx).map fun e => e.setRecord f.size f.firstCluster

/-- The numbers a descriptor caches fit their fields. -/
def FD.Fits (f : FD) : Prop := f.size < 2 ^ 32 ∧ f.firstCluster < 65536

theorem Volume.setSlot_self {V : Volume} {dir i : ℕ} {e : DirEntry}
    (h : V.slot dir i = some e) : V.setSlot dir i e = V := by
  unfold slot at h
  cases hl : V.slotLoc dir i with
  | none => simp [setSlot, hl]
  | some p =>
    rw [hl] at h
    obtain rfl : entryOf (V.sector p.1) p.2 = e := by simpa using h
    rw [V.setSlot_of_some hl, withEntry_entryOf, put_sector]

/-- A flush keeps every entry exactly when the slot records what the descriptor caches. -/
theorem entriesKept_flush_iff {V : Volume} {fd : ℤ} (hv : V.FdValid fd)
    (hf : (V.fds fd.toNat).Fits) :
    EntriesKept V (V.flush fd) ↔ Recorded V (V.fds fd.toNat) := by
  simp only [Volume.flush, hv, ↓reduceIte]
  set f := V.fds fd.toNat with hfd
  cases hs : V.slot f.parentCluster f.dirIdx with
  | none => simp [EntriesKept, Recorded, hs]
  | some e =>
    dsimp only
    -- the entry records the numbers when storing them changes nothing
    have hrec : Recorded V f ↔ e.setRecord f.size f.firstCluster = e := by
      rw [e.setRecord_eq_self_iff hf.1 hf.2]
      simp [Recorded, hs]
    rw [hrec]
    constructor
    · intro hk
      obtain ⟨hloc, hslot⟩ := hk f.parentCluster f.dirIdx
      cases hl : V.slotLoc f.parentCluster f.dirIdx with
      | none => simp [Volume.slot, hl] at hs
      | some p =>
        rw [V.setSlot_of_some hl] at hloc hslot
        rw [Volume.slot_of_some _ (hloc.trans hl), hs, Volume.sector_put_self,
          entryOf_withEntry] at hslot
        exact Option.some.inj hslot
    · intro he
      rw [he, Volume.setSlot_self hs]
      exact fun dir i => ⟨rfl, rfl⟩

theorem entriesKept_close_iff {V : Volume} {fd : ℤ} (hv : V.FdValid fd)
    (hf : (V.fds fd.toNat).Fits) :
    EntriesKept V (V.close fd) ↔ Recorded V (V.fds fd.toNat) := by
  rw [← entriesKept_flush_iff hv hf]
  have h₁ := hv.1
  have h₂ := hv.2.1
  simp [EntriesKept, Volume.close, show ¬ (fd < 0 ∨ fd ≥ maxFds) by omega]

/-- Storing an entry changes the entry at that place and no other. -/
theorem entryOf_put {V : Volume} {p q : ℕ × ℕ} {e : DirEntry} :
    (SamePlace q p → entryOf ((V.put p.1 (withEntry (V.sector p.1) p.2 e)).sector q.1) q.2 = e) ∧
      (¬ SamePlace q p → entryOf ((V.put p.1 (withEntry (V.sector p.1) p.2 e)).sector q.1) q.2 =
        entryOf (V.sector q.1) q.2) := by
  simp only [Volume.sector, Volume.put]
  constructor
  · rintro ⟨hl, hpos⟩
    rw [hl, hpos, Function.update_self, entryOf_withEntry]
  · intro h
    by_cases hl : q.1 % 2 ^ 28 = p.1 % 2 ^ 28
    · have hpos : q.2 ≠ p.2 := fun hp => h ⟨hl, hp⟩
      rw [hl, Function.update_self, entryOf_withEntry_of_ne _ _ hpos]
    · rw [Function.update_of_ne hl]

/-- Storing the numbers in the slot sets it back. -/
theorem setBack_setSlot {V : Volume} {f : FD} {e : DirEntry}
    (h : V.slot f.parentCluster f.dirIdx = some e) :
    SetBack V (V.setSlot f.parentCluster f.dirIdx (e.setRecord f.size f.firstCluster)) f := by
  cases hl : V.slotLoc f.parentCluster f.dirIdx with
  | none => simp [Volume.slot, hl] at h
  | some p =>
    have hput := V.setSlot_of_some (e := e.setRecord f.size f.firstCluster) hl
    rw [hput]
    have hothers : ∀ q, ¬ SamePlace q p → entryOf ((V.put p.1 (withEntry (V.sector p.1) p.2
        (e.setRecord f.size f.firstCluster))).sector q.1) q.2 = entryOf (V.sector q.1) q.2 :=
      fun q => entryOf_put.2
    refine ⟨fun x q hx hq => ?_, fun r q hr => ?_, fun dir i r q hr hq hq' hne => ?_,
      fun hloc => ?_⟩
    · obtain rfl : e = x := by simpa [h] using hx
      obtain rfl : p = q := by simpa [hl] using hq
      exact entryOf_put.1 ⟨rfl, rfl⟩
    · obtain rfl : p = r := by simpa [hl] using hr
      exact hothers q
    · obtain rfl : p = r := by simpa [hl] using hr
      rw [Volume.slot_of_some _ hq', Volume.slot_of_some _ hq, hothers q hne]
    · rw [Volume.slot_of_some _ (hloc.trans hl), h, entryOf_put.1 ⟨rfl, rfl⟩]
      rfl

/-- A flush sets the slot of the descriptor back. -/
theorem setBack_flush {V : Volume} {fd : ℤ} (hv : V.FdValid fd) :
    SetBack V (V.flush fd) (V.fds fd.toNat) := by
  simp only [Volume.flush, hv, ↓reduceIte]
  cases hs : V.slot (V.fds fd.toNat).parentCluster (V.fds fd.toNat).dirIdx with
  | none =>
    refine ⟨fun e p he => ?_, fun p q hp => ?_, fun dir i p q hp => ?_, fun hloc => ?_⟩
    · rw [hs] at he
      cases he
    · simp [Volume.slot, hp] at hs
    · simp [Volume.slot, hp] at hs
    · rw [hs]
      rfl
  | some e => exact setBack_setSlot hs

theorem setBack_close {V : Volume} {fd : ℤ} (hv : V.FdValid fd) :
    SetBack V (V.close fd) (V.fds fd.toNat) := by
  have h := setBack_flush hv
  have h₁ := hv.1
  have h₂ := hv.2.1
  have hc : V.close fd =
      (V.flush fd).setFd fd.toNat { (V.flush fd).fds fd.toNat with used := false } := by
    simp [Volume.close, show ¬ (fd < 0 ∨ fd ≥ maxFds) by omega]
  rw [hc]
  refine ⟨h.entry, h.others, fun dir i p q hp hq hq' hne => ?_, fun hloc => ?_⟩
  · rw [Volume.setFd_slot]
    exact h.slots dir i p q hp hq (by simpa using hq') hne
  · rw [Volume.setFd_slot]
    exact h.slot (by simpa using hloc)

/-- Where a descriptor stands in its file is not set back. -/
theorem SetBack.of_pos {V V' : Volume} {f : FD} {n : ℕ} (h : SetBack V V' { f with pos := n }) :
    SetBack V V' f :=
  ⟨h.entry, h.others, h.slots, h.slot⟩

/-! ## Opened descriptors -/

theorem fdAlloc_opened {c n p i : ℕ} {s s' : Driver} {fd : ℤ}
    (h : (fdAlloc c n p i).Returns s fd s') (hfd : 0 ≤ fd) :
    s'.vol.FdValid fd ∧ (s'.vol.fds fd.toNat).firstCluster = c ∧
      (s'.vol.fds fd.toNat).size = n := by
  rw [fdAlloc, returns_volume_bind] at h
  cases hf : s.vol.freeFd with
  | none =>
    rw [hf] at h
    obtain ⟨rfl, -⟩ := Exec.returns_pure.mp h
    omega
  | some j =>
    rw [hf] at h
    obtain ⟨_, s₁, hs₁, h⟩ := Exec.returns_bind.mp h
    obtain ⟨rfl, rfl⟩ := Exec.returns_pure.mp h
    obtain rfl := Exec.returns_modify.mp hs₁
    have hj : j < maxFds := List.mem_range.mp (List.mem_of_find?_eq_some hf)
    simp [Volume.FdValid, hj]

/-- `fat12_open` and `fat12_create` return an open descriptor that caches numbers read from, or
fit for, a directory entry. -/
theorem opened {c : Call} {path : Path} (hc : c = .openPath path ∨ c = .create path)
    {s s' : Driver} {fd : ℤ} (h : c.exec.Returns s (.int fd) s') (hfd : 0 ≤ fd) :
    s'.vol.FdValid fd ∧ (s'.vol.fds fd.toNat).Fits := by
  rcases hc with rfl | rfl
  · -- `fat12_open` caches the numbers of the entry that it found, and returns -1 elsewhere
    obtain ⟨a, s₁, h, hr⟩ := Exec.returns_bind.mp h
    obtain ⟨he, rfl⟩ := Exec.returns_pure.mp hr
    obtain rfl := Reply.int.inj he
    obtain ⟨r, s₂, -, h⟩ := Exec.returns_bind.mp h
    rcases r with - | ⟨d, t⟩
    · obtain ⟨rfl, -⟩ := Exec.returns_pure.mp h
      omega
    dsimp only at h
    split_ifs at h
    · obtain ⟨rfl, -⟩ := Exec.returns_pure.mp h
      omega
    obtain ⟨r, s₃, -, h⟩ := Exec.returns_bind.mp h
    rcases r with - | ⟨i, e⟩
    · obtain ⟨rfl, -⟩ := Exec.returns_pure.mp h
      omega
    dsimp only at h
    split_ifs at h
    · obtain ⟨rfl, -⟩ := Exec.returns_pure.mp h
      omega
    obtain ⟨hv, hc, hn⟩ := fdAlloc_opened h hfd
    exact ⟨hv, by rw [hn]; exact e.fileSize_lt, by rw [hc]; exact e.firstCluster_lt⟩
  · -- `fat12_create` caches those of a new entry, which are zero
    obtain ⟨a, s₁, h, hr⟩ := Exec.returns_bind.mp h
    obtain ⟨he, rfl⟩ := Exec.returns_pure.mp hr
    obtain rfl := Reply.int.inj he
    obtain ⟨r, s₂, -, h⟩ := Exec.returns_bind.mp h
    rcases r with - | ⟨d, t⟩
    · obtain ⟨rfl, -⟩ := Exec.returns_pure.mp h
      omega
    dsimp only at h
    split_ifs at h
    · obtain ⟨rfl, -⟩ := Exec.returns_pure.mp h
      omega
    obtain ⟨r, s₃, -, h⟩ := Exec.returns_bind.mp h
    rcases r with - | ⟨i, e⟩
    swap
    · obtain ⟨rfl, -⟩ := Exec.returns_pure.mp h
      omega
    obtain ⟨r, s₄, -, h⟩ := Exec.returns_bind.mp h
    rcases r with - | i
    · obtain ⟨rfl, -⟩ := Exec.returns_pure.mp h
      omega
    obtain ⟨b, s₅, -, h⟩ := Exec.returns_bind.mp h
    split_ifs at h
    · obtain ⟨hv, hc, hn⟩ := fdAlloc_opened h hfd
      exact ⟨hv, by rw [hn]; decide, by rw [hc]; decide⟩
    · obtain ⟨rfl, -⟩ := Exec.returns_pure.mp h
      omega

/-! ## Over a run -/

/-- A call that flushes the descriptor. -/
def Call.Flushes (fd : ℤ) (c : Call) : Prop := c = .flush fd ∨ c = .close fd

/-- **Flushing or closing a descriptor nothing was written through** since it was opened, after
any run of other calls, keeps every directory entry exactly when the descriptor's slot still
records the size and first cluster it had when it was opened, and sets that slot, and no other,
back to these. -/
theorem flush_unwritten_iff {s₀ s₁ s₂ s₃ : Driver} {c d : Call} {path : Path} {fd : ℤ}
    {cs : List Call} {r : Reply} (hc : c = .openPath path ∨ c = .create path)
    (hopen : c.exec.Returns s₀ (.int fd) s₁) (hfd : 0 ≤ fd)
    (hrun : Run (fun _ e => ¬ e.Disturbs fd.toNat) s₁ cs s₂) (hw : s₂.Working)
    (hd : d.Flushes fd) (hflush : d.exec.Returns s₂ r s₃) :
    (EntriesKept s₂.vol s₃.vol ↔ Recorded s₂.vol (s₁.vol.fds fd.toNat)) ∧
      SetBack s₂.vol s₃.vol (s₁.vol.fds fd.toNat) := by
  obtain ⟨hv, hfits⟩ := opened hc hopen hfd
  have hkeep : KeepsFd fd.toNat s₁ s₂ :=
    hrun.induct (I := KeepsFd fd.toNat s₁)
      (fun s e r s' hs he h => trans_of (KeepsFd fd.toNat) hs (Call.always_keepsFd he _ _ _ h))
      (refl_of _ s₁)
  have hf := hkeep.2.2.2 hv.2.2
  have hv₂ : s₂.vol.FdValid fd := ⟨hv.1, hv.2.1, by rw [hf]; exact hv.2.2⟩
  have hfits₂ : (s₂.vol.fds fd.toNat).Fits := by
    rw [hf]
    exact hfits
  have hrec : Recorded s₂.vol (s₂.vol.fds fd.toNat) ↔ Recorded s₂.vol (s₁.vol.fds fd.toNat) := by
    rw [hf]
    rfl
  have hset : SetBack s₂.vol s₃.vol (s₂.vol.fds fd.toNat) →
      SetBack s₂.vol s₃.vol (s₁.vol.fds fd.toNat) := by
    rw [hf]
    exact SetBack.of_pos
  rw [← hrec]
  rcases hd with rfl | rfl
  · obtain ⟨_, s, h, hr⟩ := Exec.returns_bind.mp hflush
    obtain ⟨-, rfl⟩ := Exec.returns_pure.mp hr
    rw [((acts_fat12Flush s₂.vol fd).eq_of_returns hw rfl h).2.1] at hset ⊢
    exact ⟨entriesKept_flush_iff hv₂ hfits₂, hset (setBack_flush hv₂)⟩
  · obtain ⟨_, s, h, hr⟩ := Exec.returns_bind.mp hflush
    obtain ⟨-, rfl⟩ := Exec.returns_pure.mp hr
    rw [((acts_fat12Close s₂.vol fd).eq_of_returns hw rfl h).2.1] at hset ⊢
    exact ⟨entriesKept_close_iff hv₂ hfits₂, hset (setBack_close hv₂)⟩

/-- The empty file `F` in slot 0 of the root directory. -/
def emptyFile : Volume :=
  .build smallGeometry (fun c => if c < 2 then 0xFFF else 0)
    (fun i => if i = 0 then letterEntry 70 attrArch 0 else DirEntry.zero) fun _ _ _ => 0

/-- `F` is opened as 0 and as 1, a byte is written through 1, and both are closed. -/
theorem emptyFile_run :
    ∃ s₁ s₂ s₃, (Call.openPath [70]).exec.Returns emptyFile.driver (.int 0) s₁ ∧
      Run (fun _ e => ¬ e.Disturbs 0) s₁ [.openPath [70], .write 1 [120], .close 1] s₂ ∧
      (Call.close 0).exec.Returns s₂ .unit s₃ ∧
      (s₂.vol.slot 0 0).map DirEntry.fileSize = some 1 ∧
      (s₃.vol.slot 0 0).map DirEntry.fileSize = some 0 := by
  have h : (do
      let p₁ ← (Call.openPath [70]).exec.run 30 emptyFile.driver
      let s₂ ← runAll 30 [.openPath [70], .write 1 [120], .close 1] p₁.2
      let p₃ ← (Call.close 0).exec.run 30 s₂
      return (p₁.1, p₃.1, (s₂.vol.slot 0 0).map DirEntry.fileSize,
        (p₃.2.vol.slot 0 0).map DirEntry.fileSize)) =
      some (.int 0, .unit, some 1, some 0) := by decide +kernel
  obtain ⟨⟨r₁, s₁⟩, h₁, h⟩ := Option.bind_eq_some_iff.mp h
  obtain ⟨s₂, h₂, h⟩ := Option.bind_eq_some_iff.mp h
  obtain ⟨⟨r₃, s₃⟩, h₃, h⟩ := Option.bind_eq_some_iff.mp h
  obtain ⟨rfl, rfl, hb, ha⟩ := by simpa using h
  refine ⟨s₁, s₂, s₃, ⟨30, h₁⟩, run_of_runAll h₂ fun V c hc => ?_, ⟨30, h₃⟩, ?_, ?_⟩
  · simp only [List.mem_cons, List.not_mem_nil, or_false] at hc
    rcases hc with rfl | rfl | rfl <;> simp [Call.Disturbs]
  · simpa using hb
  · simpa using ha

/-- The theorem at two descriptors of one file. -/
theorem flush_unwritten_emptyFile :
    ∃ s₁ s₂ s₃, Run (fun _ e => ¬ e.Disturbs 0) s₁ [.openPath [70], .write 1 [120], .close 1] s₂ ∧
      (Call.close 0).exec.Returns s₂ .unit s₃ ∧
      (EntriesKept s₂.vol s₃.vol ↔ Recorded s₂.vol (s₁.vol.fds 0)) ∧
        SetBack s₂.vol s₃.vol (s₁.vol.fds 0) := by
  obtain ⟨s₁, s₂, s₃, h₁, hrun, h₃, -⟩ := emptyFile_run
  have hw : s₁.Working := by
    obtain ⟨-, hwait, -⟩ := Call.always_wait _ _ _ _ h₁
    exact fun n _ => by rw [hwait]; rfl
  exact ⟨s₁, s₂, s₃, hrun, h₃, flush_unwritten_iff (.inl rfl) h₁ le_rfl hrun (hrun.working hw)
    (.inr rfl) h₃⟩

/-- **Two descriptors of one file lose an update**: nothing is written through 0, and closing it
takes back the size recorded when 1 was closed. -/
theorem flush_unwritten_loses_update :
    ∃ s₁ s₂ s₃, (Call.openPath [70]).exec.Returns emptyFile.driver (.int 0) s₁ ∧
      Run (fun _ e => ¬ e.Disturbs 0) s₁ [.openPath [70], .write 1 [120], .close 1] s₂ ∧
      (Call.close 0).exec.Returns s₂ .unit s₃ ∧ ¬ EntriesKept s₂.vol s₃.vol := by
  obtain ⟨s₁, s₂, s₃, h₁, hrun, h₃, hb, ha⟩ := emptyFile_run
  refine ⟨s₁, s₂, s₃, h₁, hrun, h₃, fun hk => ?_⟩
  rw [(hk 0 0).2, hb] at ha
  simp at ha

end WarkRune.Fat12

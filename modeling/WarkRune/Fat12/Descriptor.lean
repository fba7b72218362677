import WarkRune.Fat12.Kept

/-!
# Descriptors over a run

The helpers of the driver only transfer sectors: the geometry and the descriptor table stay as
they are. Whatever the transfers do, an open descriptor keeps its cached first cluster, size and
slot until something is written through it or it is closed.

## Main definitions

* `IoOnly s s'`: from `s` to `s'` only sectors were transferred
* `KeepsFd k s s'`: the descriptor `k`, when open, is the same up to its position, and so are
  the geometry and the outcomes of `ata_wait`

## Main results

* `Call.always_keepsFd`: every call keeps every descriptor it does not write or close
* `Run.working`: the disk works throughout a run
-/

namespace WarkRune.Fat12

open Exec (Always)

/-- From `s` to `s'` only sectors were transferred. -/
def IoOnly (s s' : Driver) : Prop :=
  s'.vol.geo = s.vol.geo ∧ s'.vol.fds = s.vol.fds ∧ s'.wait = s.wait ∧ s.waits ≤ s'.waits

instance : Std.Refl IoOnly := ⟨fun _ => ⟨rfl, rfl, rfl, le_rfl⟩⟩

instance : IsTrans Driver IoOnly :=
  ⟨fun _ _ _ h₁ h₂ => ⟨h₂.1.trans h₁.1, h₂.2.1.trans h₁.2.1, h₂.2.2.1.trans h₁.2.2.1,
    h₁.2.2.2.trans h₂.2.2.2⟩⟩

namespace IoOnly

theorem record (e : Access) : Always IoOnly (record e) :=
  .modify fun _ => ⟨rfl, rfl, rfl, le_rfl⟩

theorem setBuf (b : Sector) : Always IoOnly (setBuf b) :=
  .modify fun _ => ⟨rfl, rfl, rfl, le_rfl⟩

theorem ataWait : Always IoOnly ataWait := by
  intro s a s' h
  simp only [Fat12.ataWait, Exec.returns_bind, Exec.returns_get, Exec.returns_set,
    Exec.returns_pure] at h
  obtain ⟨_, _, ⟨rfl, rfl⟩, _, _, rfl, -, rfl⟩ := h
  exact ⟨rfl, rfl, rfl, Nat.le_succ _⟩

theorem ataWrite (lba : ℕ) : Always IoOnly (ataWrite lba) := by
  refine .bind (record _) fun _ => .bind ataWait fun _ => .ite ?_ (.pure _)
  refine .bind (.modify fun _ => ⟨rfl, rfl, rfl, le_rfl⟩) fun _ => ?_
  exact .bind ataWait fun _ => .ite ataWait (.pure _)

theorem readSector (lba : ℕ) : Always IoOnly (readSector lba) := by
  refine .bind ataWait fun _ => .ite ?_ (.bind (record _) fun _ => .pure _)
  exact .bind (.modify fun _ => ⟨rfl, rfl, rfl, le_rfl⟩) fun _ => .bind (record _) fun _ => .pure _

theorem readBuf (lba : ℕ) : Always IoOnly (readBuf lba) :=
  .bind (readSector lba) fun _ => .bind (record _) fun _ => .bind .get fun _ => .pure _

theorem keepBuf (lba : ℕ) : Always IoOnly (keepBuf lba) :=
  .bind (readSector lba) fun _ => .bind (record _) fun _ => .bind .get fun _ => .pure _

end IoOnly

/-- The uses of the sector buffer only transfer sectors. -/
theorem keptIoOnly : Kept IoOnly where
  readBuf := IoOnly.readBuf
  keepBuf := IoOnly.keepBuf
  modifySector _ _ := .bind (.record _) fun _ => .bind (.readBuf _) fun _ =>
    .bind (.setBuf _) fun _ => .bind (.ataWrite _) fun _ => .pure _
  zeroCluster _ := .bind (.setBuf _) fun _ => .bind (.record _) fun _ =>
    .bind Kept.geometry fun _ => .forRange (fun _ => .bind (.ataWrite _) fun _ => .pure _) _ _

/-! ## Descriptors -/

/-- The geometry and the outcomes of `ata_wait` are the same, and the descriptor `k`, when open,
is the same up to its position. -/
def KeepsFd (k : ℕ) (s s' : Driver) : Prop :=
  s'.vol.geo = s.vol.geo ∧ s'.wait = s.wait ∧ s.waits ≤ s'.waits ∧
    ((s.vol.fds k).used = true →
      s'.vol.fds k = { s.vol.fds k with pos := (s'.vol.fds k).pos })

instance (k : ℕ) : Std.Refl (KeepsFd k) := ⟨fun _ => ⟨rfl, rfl, le_rfl, fun _ => rfl⟩⟩

instance (k : ℕ) : IsTrans Driver (KeepsFd k) :=
  ⟨fun _ _ _ ⟨g₁, w₁, n₁, h₁⟩ ⟨g₂, w₂, n₂, h₂⟩ =>
    ⟨g₂.trans g₁, w₂.trans w₁, n₁.trans n₂, fun hu => by
      have he := h₁ hu
      rw [h₂ (by rw [he]; exact hu), he]⟩⟩

theorem returns_volume_bind {β : Type} {f : Volume → Fat β} {s s' : Driver} {b : β} :
    (volume >>= f).Returns s b s' ↔ (f s.vol).Returns s b s' := by
  simp [volume, and_assoc]

namespace KeepsFd

variable {k : ℕ}

theorem of_io {α : Type} {m : Fat α} (h : Always IoOnly m) : Always (KeepsFd k) m :=
  h.mono fun _ _ ⟨hg, hf, hw, hn⟩ => ⟨hg, hw, hn, fun _ => by rw [hf]⟩

theorem kept : Kept (KeepsFd k) where
  readBuf lba := of_io (keptIoOnly.readBuf lba)
  keepBuf lba := of_io (keptIoOnly.keepBuf lba)
  modifySector lba f := of_io (keptIoOnly.modifySector lba f)
  zeroCluster c := of_io (keptIoOnly.zeroCluster c)

/-- Writing another descriptor keeps this one. -/
theorem setFd_of_ne {j : ℕ} (h : k ≠ j) (f : FD) : Always (KeepsFd k) (setFd j f) :=
  .modify fun s => ⟨rfl, rfl, le_rfl, fun _ => by simp [Volume.setFd, Function.update_of_ne h]⟩

/-- A program that looks at the volume and then writes an unused descriptor. -/
theorem fdAlloc (c n p i : ℕ) : Always (KeepsFd k) (fdAlloc c n p i) := by
  intro s a s' h
  rw [Fat12.fdAlloc, returns_volume_bind] at h
  cases hf : s.vol.freeFd with
  | none =>
    rw [hf] at h
    obtain ⟨-, rfl⟩ := Exec.returns_pure.mp h
    exact refl_of _ _
  | some j =>
    rw [hf] at h
    obtain ⟨_, s₂, hs₂, h⟩ := Exec.returns_bind.mp h
    obtain ⟨-, rfl⟩ := Exec.returns_pure.mp h
    obtain rfl := Exec.returns_modify.mp hs₂
    have hj : (s.vol.fds j).used = false := by simpa using List.find?_some hf
    refine ⟨rfl, rfl, le_rfl, fun hu => ?_⟩
    have hkj : k ≠ j := by
      rintro rfl
      simp [hj] at hu
    simp [Function.update_of_ne hkj]

/-- Reading through any descriptor keeps every descriptor up to its position. -/
theorem fat12Read (fd : ℤ) (n : ℕ) : Always (KeepsFd k) (fat12Read fd n) := by
  intro s a s' h
  rw [Fat12.fat12Read, returns_volume_bind] at h
  dsimp only at h
  split_ifs at h
  · exact Always.pure _ _ _ _ h
  · exact Always.pure _ _ _ _ h
  · obtain ⟨r, s₁, h₁, h⟩ := Exec.returns_bind.mp h
    have hio₁ := keptIoOnly.walkChain _ _ _ _ _ h₁
    cases r with
    | none =>
      obtain ⟨-, rfl⟩ := Exec.returns_pure.mp h
      exact of_io (keptIoOnly.walkChain _ _) _ _ _ h₁
    | some c =>
      obtain ⟨out, s₂, h₂, h⟩ := Exec.returns_bind.mp h
      have hio := trans_of IoOnly hio₁ (keptIoOnly.readLoop _ _ _ _ _ _ h₂)
      obtain ⟨_, s₃, h₃, h⟩ := Exec.returns_bind.mp h
      obtain ⟨-, rfl⟩ := Exec.returns_pure.mp h
      obtain rfl := Exec.returns_modify.mp h₃
      refine ⟨hio.1, hio.2.2.1, hio.2.2.2, fun hu => ?_⟩
      simp only [Volume.setFd_fds, hio.2.1]
      by_cases hk : k = fd.toNat
      · subst hk
        simp
      · rw [Function.update_of_ne hk]
  · exact Always.pure _ _ _ _ h

end KeepsFd

/-- A call that writes something through a descriptor or closes it. -/
def Call.Disturbs (k : ℕ) : Call → Prop
  | .write fd src => (k : ℤ) = fd ∧ src ≠ []
  | .close fd => (k : ℤ) = fd
  | _ => False

/-- **Every call keeps every descriptor it does not write or close**, whatever the transfers
do. -/
theorem Call.always_keepsFd {k : ℕ} {c : Call} (h : ¬ c.Disturbs k) :
    Always (KeepsFd k) c.exec := by
  cases c with
  | openPath path => exact .bind (KeepsFd.kept.fat12Open KeepsFd.fdAlloc _) fun _ => .pure _
  | create path => exact .bind (KeepsFd.kept.fat12Create KeepsFd.fdAlloc _) fun _ => .pure _
  | read fd n => exact .bind (KeepsFd.fat12Read _ _) fun _ => .pure _
  | write fd src =>
    refine .bind ?_ fun _ => .pure _
    by_cases hk : (k : ℤ) = fd
    · obtain rfl : src = [] := by_contra fun hs => h ⟨hk, hs⟩
      exact .bind Kept.volume fun _ => .ite (.pure _) (.pure _)
    · exact KeepsFd.kept.fat12Write (fun _ => KeepsFd.setFd_of_ne (by omega)) _
  | flush fd => exact .bind (KeepsFd.kept.fat12Flush _) fun _ => .pure _
  | close fd =>
    have hk : ¬ (k : ℤ) = fd := h
    exact .bind (KeepsFd.kept.fat12Close fun _ => KeepsFd.setFd_of_ne (by omega)) fun _ => .pure _
  | size fd => exact .bind (Kept.fat12Size _) fun _ => .pure _
  | delete path => exact .bind (KeepsFd.kept.fat12Delete _) fun _ => .pure _
  | rename p q => exact .bind (KeepsFd.kept.fat12Rename _ _) fun _ => .pure _
  | mkdir path => exact .bind (KeepsFd.kept.fat12Mkdir _) fun _ => .pure _
  | rmdir path => exact .bind (KeepsFd.kept.fat12Rmdir _) fun _ => .pure _
  | ls stack path => exact .bind (KeepsFd.kept.fat12Ls _ _) fun _ => .pure _

/-- A call leaves the geometry and the outcomes of `ata_wait` alone. -/
theorem Call.always_wait (c : Call) : Always (fun s s' => s'.vol.geo = s.vol.geo ∧
    s'.wait = s.wait ∧ s.waits ≤ s'.waits) c.exec := by
  -- some descriptor is left alone by the call
  obtain ⟨k, hk⟩ : ∃ k, ¬ c.Disturbs k := by
    cases c with
    | write fd src => exact ⟨fd.toNat + 1, fun h => by have := h.1; omega⟩
    | close fd => exact ⟨fd.toNat + 1, fun h => by simp only [Disturbs] at h; omega⟩
    | _ => exact ⟨0, id⟩
  exact (always_keepsFd hk).mono fun _ _ h => ⟨h.1, h.2.1, h.2.2.1⟩

/-- **The disk works throughout a run** that starts with a working disk. -/
theorem Run.working {ok : Volume → Call → Prop} {s s' : Driver} {cs : List Call}
    (h : Run ok s cs s') (hw : s.Working) : s'.Working := by
  refine h.induct (I := Driver.Working) (fun s c r s' hs _ hc n hn => ?_) hw
  obtain ⟨-, hwait, hle⟩ := c.always_wait _ _ _ hc
  rw [hwait]
  exact hs n (hle.trans hn)

end WarkRune.Fat12

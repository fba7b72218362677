import WarkRune.Fat12.Directory

/-!
# The fields of a directory entry

## Main results

* `DirEntry.fileSize_setFileSize`, `DirEntry.firstCluster_setFirstCluster`: what is stored is
  read back
* `DirEntry.setRecord_eq_self_iff`: storing a size and a first cluster changes the entry unless
  it holds them
* `entryOf_withEntry`, `entryOf_withEntry_of_ne`: the entries of a sector
-/

namespace WarkRune.Fat12

namespace DirEntry

variable (e : DirEntry)

theorem firstCluster_lt : e.firstCluster < 65536 := by
  have h₀ := (e 26).toNat_lt
  have h₁ := (e 27).toNat_lt
  unfold firstCluster
  omega

theorem fileSize_lt : e.fileSize < 2 ^ 32 := by
  have h₀ := (e 28).toNat_lt
  have h₁ := (e 29).toNat_lt
  have h₂ := (e 30).toNat_lt
  have h₃ := (e 31).toNat_lt
  unfold fileSize
  omega

@[simp] theorem firstCluster_setFirstCluster (c : ℕ) :
    (e.setFirstCluster c).firstCluster = c % 65536 := by
  simp [firstCluster, setFirstCluster, Function.update]
  omega

@[simp] theorem fileSize_setFileSize (n : ℕ) : (e.setFileSize n).fileSize = n % 2 ^ 32 := by
  simp [fileSize, setFileSize, Function.update]
  omega

@[simp] theorem firstCluster_setFileSize (n : ℕ) :
    (e.setFileSize n).firstCluster = e.firstCluster := by
  simp [firstCluster, setFileSize]

@[simp] theorem fileSize_setFirstCluster (c : ℕ) :
    (e.setFirstCluster c).fileSize = e.fileSize := by
  simp [fileSize, setFirstCluster]

@[simp] theorem attr_setFileSize (n : ℕ) : (e.setFileSize n).attr = e.attr := by
  simp [attr, setFileSize]

@[simp] theorem attr_setFirstCluster (c : ℕ) : (e.setFirstCluster c).attr = e.attr := by
  simp [attr, setFirstCluster]

@[simp] theorem name_setFileSize (n : ℕ) : (e.setFileSize n).name = e.name := by
  funext i
  simp only [name, setFileSize]
  rw [Function.update_of_ne, Function.update_of_ne, Function.update_of_ne,
    Function.update_of_ne] <;> exact Fin.ne_of_val_ne (by simp; omega)

@[simp] theorem name_setFirstCluster (c : ℕ) : (e.setFirstCluster c).name = e.name := by
  funext i
  simp only [name, setFirstCluster]
  rw [Function.update_of_ne, Function.update_of_ne] <;>
    exact Fin.ne_of_val_ne (by simp; omega)

/-- The entry with a size and a first cluster stored, as `fat12_flush` does. -/
def setRecord (n c : ℕ) : DirEntry := (e.setFileSize n).setFirstCluster c

@[simp] theorem attr_setRecord (n c : ℕ) : (e.setRecord n c).attr = e.attr := by
  simp [setRecord]

@[simp] theorem name_setRecord (n c : ℕ) : (e.setRecord n c).name = e.name := by
  simp [setRecord]

@[simp] theorem firstCluster_setRecord (n c : ℕ) :
    (e.setRecord n c).firstCluster = c % 65536 := by
  simp [setRecord]

@[simp] theorem fileSize_setRecord (n c : ℕ) : (e.setRecord n c).fileSize = n % 2 ^ 32 := by
  simp [setRecord]

/-- A byte is determined by the number it stands for at its place. -/
theorem ofNat_eq_of_mod {x : UInt8} {n : ℕ} (h : n % 256 = x.toNat) : UInt8.ofNat n = x :=
  UInt8.toNat_inj.mp (by simpa using h)

theorem setFirstCluster_firstCluster : e.setFirstCluster e.firstCluster = e := by
  have h₀ := (e 26).toNat_lt
  have h₁ := (e 27).toNat_lt
  have e₀ : UInt8.ofNat e.firstCluster = e 26 :=
    ofNat_eq_of_mod (by unfold firstCluster; omega)
  have e₁ : UInt8.ofNat (e.firstCluster / 256) = e 27 :=
    ofNat_eq_of_mod (by unfold firstCluster; omega)
  simp [setFirstCluster, e₀, e₁]

theorem setFileSize_fileSize : e.setFileSize e.fileSize = e := by
  have h₀ := (e 28).toNat_lt
  have h₁ := (e 29).toNat_lt
  have h₂ := (e 30).toNat_lt
  have h₃ := (e 31).toNat_lt
  have e₀ : UInt8.ofNat e.fileSize = e 28 := ofNat_eq_of_mod (by unfold fileSize; omega)
  have e₁ : UInt8.ofNat (e.fileSize / 256) = e 29 :=
    ofNat_eq_of_mod (by unfold fileSize; omega)
  have e₂ : UInt8.ofNat (e.fileSize / 65536) = e 30 :=
    ofNat_eq_of_mod (by unfold fileSize; omega)
  have e₃ : UInt8.ofNat (e.fileSize / 16777216) = e 31 :=
    ofNat_eq_of_mod (by unfold fileSize; omega)
  simp [setFileSize, e₀, e₁, e₂, e₃]

/-- **Storing a size and a first cluster changes the entry unless it holds them.** -/
theorem setRecord_eq_self_iff {n c : ℕ} (hn : n < 2 ^ 32) (hc : c < 65536) :
    e.setRecord n c = e ↔ e.fileSize = n ∧ e.firstCluster = c := by
  constructor
  · intro h
    have hs := congrArg fileSize h
    have hf := congrArg firstCluster h
    rw [fileSize_setRecord, Nat.mod_eq_of_lt hn] at hs
    rw [firstCluster_setRecord, Nat.mod_eq_of_lt hc] at hf
    exact ⟨hs.symm, hf.symm⟩
  · rintro ⟨rfl, rfl⟩
    rw [setRecord, setFileSize_fileSize, setFirstCluster_firstCluster]

end DirEntry

@[simp] theorem entryOf_withEntry (b : Sector) (p : ℕ) (e : DirEntry) :
    entryOf (withEntry b p e) p = e := by
  funext i
  simp [entryOf, withEntry]

theorem entryOf_withEntry_of_ne {p q : ℕ} (b : Sector) (e : DirEntry) (h : q ≠ p) :
    entryOf (withEntry b p e) q = entryOf b q := by
  funext i
  simp only [entryOf, withEntry]
  rw [dif_neg (by omega)]

theorem withEntry_entryOf (b : Sector) (p : ℕ) : withEntry b p (entryOf b p) = b := by
  funext j
  simp only [withEntry, entryOf]
  split
  · next h => rw [Nat.add_sub_cancel' h.1]
  · rfl

end WarkRune.Fat12

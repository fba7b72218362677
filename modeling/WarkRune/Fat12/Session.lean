import WarkRune.Fat12.Descriptor
import WarkRune.Fat12.Entry

/-!
# Reading a file through a descriptor of one's own

A caller that opens a file, reads it and closes it leaves the same descriptors open as before: an
open that succeeds takes an unused descriptor, reading keeps every descriptor in use, and closing
gives the descriptor back. An open that fails leaves the descriptors alone.

## Main definitions

* `Driver.used`: the descriptors in use

## Main results

* `fat12Open_used`, `fat12Create_used`, `fat12Read_used`, `fat12Write_used`, `fat12Close_used`: what
  the operations do to them
* `fat12Read_length`: `fat12_read` stores at most as many bytes as it is asked for
-/

namespace WarkRune.Fat12

open Exec (Always)
open Function (update)

/-- The descriptors in use. -/
def Driver.used (s : Driver) (k : ℕ) : Bool := (s.vol.fds k).used

/-- The same descriptors are in use. -/
def SameUsed (s s' : Driver) : Prop := s'.used = s.used

instance : Std.Refl SameUsed := ⟨fun _ => rfl⟩

instance : IsTrans Driver SameUsed := ⟨fun _ _ _ h₁ h₂ => h₂.trans h₁⟩

variable {s s' : Driver} {fd : ℤ}

theorem IoOnly.sameUsed (h : IoOnly s s') : SameUsed s s' :=
  funext fun k => congrArg FD.used (congrFun h.2.1 k)

/-- Storing a descriptor changes whether it is in use, and no other. -/
theorem used_setFd {k : ℕ} {f : FD} {u : Unit} (h : (setFd k f).Returns s u s') :
    s'.used = update s.used k f.used := by
  obtain rfl := Exec.returns_modify.mp h
  funext j
  by_cases hj : j = k
  · subst hj
    simp [Driver.used]
  · simp [Driver.used, Function.update_of_ne hj]

/-- Storing a descriptor that stays in use. -/
theorem sameUsed_setFd {k : ℕ} {f : FD} {u : Unit} (h : (setFd k f).Returns s u s')
    (hk : s.used k = f.used) : SameUsed s s' := by
  have hs := used_setFd h
  rw [← hk] at hs
  exact hs.trans (Function.update_eq_self _ _)

/-- What taking a descriptor for a file can do: it takes an unused one and stores the size of the
file, which has 32 bits, or answers a negative number. -/
def Opened (s : Driver) (fd : ℤ) (s' : Driver) : Prop :=
  fd < 0 ∧ s'.used = s.used ∨
    ∃ k < maxFds, fd = k ∧ s.used k = false ∧ s'.used = update s.used k true ∧
      (s'.vol.fds k).size < 2 ^ 32

theorem fdAlloc_used {c n p i : ℕ} (hn : n < 2 ^ 32) (h : (fdAlloc c n p i).Returns s fd s') :
    Opened s fd s' := by
  rw [fdAlloc, returns_volume_bind] at h
  cases hf : s.vol.freeFd with
  | none =>
    rw [hf] at h
    obtain ⟨rfl, rfl⟩ := Exec.returns_pure.mp h
    exact .inl ⟨by omega, rfl⟩
  | some k =>
    rw [hf] at h
    obtain ⟨_, s₁, hs₁, h⟩ := Exec.returns_bind.mp h
    obtain ⟨rfl, rfl⟩ := Exec.returns_pure.mp h
    refine .inr ⟨k, List.mem_range.mp (List.mem_of_find?_eq_some hf), rfl, ?_, used_setFd hs₁, ?_⟩
    · simpa [Driver.used] using List.find?_some hf
    · obtain rfl := Exec.returns_modify.mp hs₁
      simpa using hn

theorem Opened.of_neg {s₁ : Driver} (hs : SameUsed s s₁)
    (h : (pure (-1) : Fat ℤ).Returns s₁ fd s') : Opened s fd s' := by
  obtain ⟨rfl, rfl⟩ := Exec.returns_pure.mp h
  exact .inl ⟨by omega, hs⟩

/-- Transfers before a descriptor is taken change nothing about it. -/
theorem Opened.after {s₁ : Driver} (hs : SameUsed s s₁) (h : Opened s₁ fd s') :
    Opened s fd s' := by
  unfold Opened at h ⊢
  rwa [show s₁.used = s.used from hs] at h

/-- **What `fat12_open` does to the descriptors.** -/
theorem fat12Open_used {path : Path} (h : (fat12Open path).Returns s fd s') :
    Opened s fd s' := by
  obtain ⟨r, s₁, h₁, h⟩ := Exec.returns_bind.mp h
  have hs₁ := (keptIoOnly.resolvePath path _ _ _ h₁).sameUsed
  rcases r with - | ⟨dir, t⟩
  · exact .of_neg hs₁ h
  dsimp only at h
  split_ifs at h
  · exact .of_neg hs₁ h
  obtain ⟨r, s₂, h₂, h⟩ := Exec.returns_bind.mp h
  have hs₂ := trans_of SameUsed hs₁ (keptIoOnly.findInDir dir t _ _ _ h₂).sameUsed
  rcases r with - | ⟨i, e⟩
  · exact .of_neg hs₂ h
  dsimp only at h
  split_ifs at h
  · exact .of_neg hs₂ h
  -- the search changed no descriptor
  exact .after hs₂ (fdAlloc_used e.fileSize_lt h)

/-- **What `fat12_create` does to the descriptors.** -/
theorem fat12Create_used {path : Path} (h : (fat12Create path).Returns s fd s') :
    Opened s fd s' := by
  obtain ⟨r, s₁, h₁, h⟩ := Exec.returns_bind.mp h
  have hs₁ := (keptIoOnly.resolvePath path _ _ _ h₁).sameUsed
  rcases r with - | ⟨dir, t⟩
  · exact .of_neg hs₁ h
  dsimp only at h
  split_ifs at h
  · exact .of_neg hs₁ h
  obtain ⟨r, s₂, h₂, h⟩ := Exec.returns_bind.mp h
  have hs₂ := trans_of SameUsed hs₁ (keptIoOnly.findInDir dir t _ _ _ h₂).sameUsed
  cases r with
  | some _ => exact .of_neg hs₂ h
  | none =>
    obtain ⟨r, s₃, h₃, h⟩ := Exec.returns_bind.mp h
    have hs₃ := trans_of SameUsed hs₂ (keptIoOnly.allocDirEntry dir _ _ _ h₃).sameUsed
    cases r with
    | none => exact .of_neg hs₃ h
    | some i =>
      obtain ⟨ok, s₄, h₄, h⟩ := Exec.returns_bind.mp h
      have hs₄ := trans_of SameUsed hs₃ (keptIoOnly.dirWriteEntry _ _ _ _ _ _ h₄).sameUsed
      split_ifs at h
      · exact .after hs₄ (fdAlloc_used (by decide) h)
      · exact .of_neg hs₄ h

/-- **`fat12_size` of a descriptor** is the size it caches, as an `int`. -/
theorem fat12Size_returns {n : ℤ} (h : (fat12Size fd).Returns s n s') :
    s' = s ∧ (n = -1 ∨ n = asInt (s.vol.fds fd.toNat).size) := by
  rw [fat12Size, returns_volume_bind] at h
  split_ifs at h
  · obtain ⟨rfl, rfl⟩ := Exec.returns_pure.mp h
    exact ⟨rfl, .inr rfl⟩
  · obtain ⟨rfl, rfl⟩ := Exec.returns_pure.mp h
    exact ⟨rfl, .inl rfl⟩

/-- **Reading keeps the descriptors in use.** -/
theorem fat12Read_used (n : ℕ) : Always SameUsed (fat12Read fd n) := by
  intro s a s' h
  rw [fat12Read, returns_volume_bind] at h
  dsimp only at h
  split_ifs at h with hv
  · exact Always.pure _ _ _ _ h
  · exact Always.pure _ _ _ _ h
  · obtain ⟨r, s₁, h₁, h⟩ := Exec.returns_bind.mp h
    have hs₁ := (keptIoOnly.walkChain _ _ _ _ _ h₁).sameUsed
    cases r with
    | none => exact trans_of SameUsed hs₁ (Always.pure _ _ _ _ h)
    | some c =>
      obtain ⟨out, s₂, h₂, h⟩ := Exec.returns_bind.mp h
      have hs₂ := trans_of SameUsed hs₁ (keptIoOnly.readLoop _ _ _ _ _ _ h₂).sameUsed
      obtain ⟨_, s₃, h₃, h⟩ := Exec.returns_bind.mp h
      obtain ⟨-, rfl⟩ := Exec.returns_pure.mp h
      exact trans_of SameUsed hs₂ (sameUsed_setFd h₃ (congrFun hs₂ _))
  · exact Always.pure _ _ _ _ h

theorem writeFrom_used {csz k : ℕ} {f : FD} {src : List UInt8} {n : ℤ}
    (h : (writeFrom csz k f src).Returns s n s') (hk : s.used k = f.used) : SameUsed s s' := by
  obtain ⟨r, s₁, h₁, h⟩ := Exec.returns_bind.mp h
  have hs₁ := (keptIoOnly.walkExtend _ _ _ _ _ h₁).sameUsed
  cases r with
  | none => exact trans_of SameUsed hs₁ (Always.pure _ _ _ _ h)
  | some c =>
    obtain ⟨rest, s₂, h₂, h⟩ := Exec.returns_bind.mp h
    have hs₂ := trans_of SameUsed hs₁ (keptIoOnly.writeLoop _ _ _ _ _ _ h₂).sameUsed
    obtain ⟨_, s₃, h₃, h⟩ := Exec.returns_bind.mp h
    obtain ⟨-, rfl⟩ := Exec.returns_pure.mp h
    have hk₂ : s₂.used k = f.used := by rw [show s₂.used = s.used from hs₂, hk]
    exact trans_of SameUsed hs₂ (sameUsed_setFd h₃ hk₂)

/-- **Writing keeps the descriptors in use.** -/
theorem fat12Write_used (src : List UInt8) : Always SameUsed (fat12Write fd src) := by
  intro s n s' h
  rw [fat12Write, returns_volume_bind] at h
  dsimp only at h
  split_ifs at h with hv hnil h0
  · exact Always.pure _ _ _ _ h
  · obtain ⟨c, s₁, h₁, h⟩ := Exec.returns_bind.mp h
    have hs₁ := (keptIoOnly.fatAlloc _ _ _ h₁).sameUsed
    split_ifs at h
    · exact trans_of SameUsed hs₁ (Always.pure _ _ _ _ h)
    obtain ⟨_, s₂, h₂, h⟩ := Exec.returns_bind.mp h
    have hk₁ : s₁.used fd.toNat = (s.vol.fds fd.toNat).used :=
      congrFun (show s₁.used = s.used from hs₁) _
    have hs₂ := trans_of SameUsed hs₁ (sameUsed_setFd h₂ hk₁)
    obtain ⟨_, s₃, h₃, h⟩ := Exec.returns_bind.mp h
    have hs₃ := trans_of SameUsed hs₂ (keptIoOnly.zeroCluster _ _ _ _ h₃).sameUsed
    have hk₃ : s₃.used fd.toNat = (s.vol.fds fd.toNat).used :=
      congrFun (show s₃.used = s.used from hs₃) _
    exact trans_of SameUsed hs₃ (writeFrom_used h hk₃)
  · exact writeFrom_used h rfl
  · exact Always.pure _ _ _ _ h

/-- **Closing gives the descriptor back.** -/
theorem fat12Close_used {k : ℕ} (hk : k < maxFds) {u : Unit}
    (h : (fat12Close k).Returns s u s') : s'.used = update s.used k false := by
  rw [fat12Close, if_neg (by omega)] at h
  obtain ⟨_, s₁, h₁, h⟩ := Exec.returns_bind.mp h
  rw [returns_volume_bind] at h
  have hs₁ : s₁.used = s.used := (keptIoOnly.fat12Flush k _ _ _ h₁).sameUsed
  rw [← hs₁]
  exact used_setFd h

/-! ## The bytes read -/

theorem readCluster_length {clba size : ℕ} {r : ℕ × List UInt8} :
    ∀ {n i off : ℕ} {out : List UInt8} {s s' : Driver},
      (readCluster clba size i n off out).Returns s r s' → out.length ≤ size →
        r.2.length ≤ size
  | 0, _, _, _, _, _, h, hlen => by
    obtain ⟨rfl, -⟩ := Exec.returns_pure.mp h
    exact hlen
  | n + 1, i, off, out, s, s', h, hlen => by
    rw [readCluster] at h
    split_ifs at h
    · exact readCluster_length h hlen
    · obtain ⟨b, s₁, -, h⟩ := Exec.returns_bind.mp h
      refine readCluster_length h ?_
      rw [List.length_append, List.length_map, List.length_range]
      omega
    · obtain ⟨rfl, -⟩ := Exec.returns_pure.mp h
      exact hlen

theorem readLoop_length {size clus off : ℕ} {out : List UInt8}
    (h : (readLoop size clus off).Returns s out s') : out.length ≤ size := by
  -- a round adds at most what is still asked for
  have hround (b : ℕ × ℕ × List UInt8) (s : Driver) (x : ℕ × ℕ × List UInt8 ⊕ List UInt8)
      (s' : Driver) (hr : (readRound size b).Returns s x s') (hb : b.2.2.length ≤ size) :
      (x.elim (fun c => c.2.2) id).length ≤ size := by
    obtain ⟨clus, off, out⟩ := b
    rw [readRound] at hr
    split_ifs at hr
    · obtain ⟨g, s₁, -, hr⟩ := Exec.returns_bind.mp hr
      obtain ⟨⟨off', out'⟩, s₂, hread, hr⟩ := Exec.returns_bind.mp hr
      have hlen := readCluster_length hread hb
      dsimp only at hr
      split_ifs at hr
      · obtain ⟨next, s₃, -, hr⟩ := Exec.returns_bind.mp hr
        split_ifs at hr
        · obtain ⟨rfl, -⟩ := Exec.returns_pure.mp hr
          exact hlen
        · obtain ⟨rfl, -⟩ := Exec.returns_pure.mp hr
          exact hlen
      · obtain ⟨rfl, -⟩ := Exec.returns_pure.mp hr
        exact hlen
    · obtain ⟨rfl, -⟩ := Exec.returns_pure.mp hr
      exact hb
  refine Exec.Returns.loop_induct
    (P := fun b _ out _ => b.2.2.length ≤ size → out.length ≤ size)
    (fun b s out s' hr hb => hround b s _ s' hr hb)
    (fun b s b' s₁ out s' hr ih hb => ih (hround b s _ s₁ hr hb)) h (Nat.zero_le _)

/-- **`fat12_read` stores at most as many bytes as it is asked for.** -/
theorem fat12Read_length {n : ℕ} {r : ℤ × List UInt8} (h : (fat12Read fd n).Returns s r s') :
    r.2.length ≤ n := by
  rw [fat12Read, returns_volume_bind] at h
  dsimp only at h
  split_ifs at h
  · obtain ⟨rfl, -⟩ := Exec.returns_pure.mp h
    exact Nat.zero_le _
  · obtain ⟨rfl, -⟩ := Exec.returns_pure.mp h
    exact Nat.zero_le _
  · obtain ⟨c, s₁, -, h⟩ := Exec.returns_bind.mp h
    cases c with
    | none =>
      obtain ⟨rfl, -⟩ := Exec.returns_pure.mp h
      exact Nat.zero_le _
    | some c =>
      obtain ⟨out, s₂, h₂, h⟩ := Exec.returns_bind.mp h
      obtain ⟨_, s₃, -, h⟩ := Exec.returns_bind.mp h
      obtain ⟨rfl, -⟩ := Exec.returns_pure.mp h
      have hlen := readLoop_length h₂
      exact hlen.trans (Nat.min_le_left _ _)
  · obtain ⟨rfl, -⟩ := Exec.returns_pure.mp h
    exact Nat.zero_le _

end WarkRune.Fat12

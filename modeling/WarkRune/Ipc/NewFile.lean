import WarkRune.Fat12.NewFile
import WarkRune.Ipc.Descriptors

/-!
# The descriptor of a new file

`fd_create_case` takes a descriptor for the one that FAT12 returns, at the first or at the second
try.

## Main definitions

* `State.IsFile s k gd`: the descriptor `k` is for the FAT12 descriptor `gd`

## Main results

* `fdCreate_returns`: what `fd_create` returns
* `fdCreateCase_creates`: what `fd_create_case` leaves
-/

namespace WarkRune.Ipc

open Fat12 (Driver Path CreatesCase cString fat12Create)

variable {s s' : State} {path : Path} {n : ℤ}

/-- The descriptor `k` is for the FAT12 descriptor `gd`. -/
def State.IsFile (s : State) (k : ℕ) (gd : ℤ) : Prop :=
  k < fdMax ∧ s.fds k = ⟨true, .file, gd, -1⟩

/-- **What `fd_create` returns**: FAT12 has failed, no descriptor was free, or one is taken. -/
theorem fdCreate_returns (h : (fdCreate path).Returns s n s') : ∃ gd t,
    (fat12Create path).Returns s.fat gd t ∧
      (gd < 0 ∧ n = -1 ∧ s' = { s with fat := t } ∨
        0 ≤ gd ∧ s.allocFd = none ∧ n = -1 ∧ (∃ t', s' = { s with fat := t' }) ∨
        ∃ k : ℕ, 0 ≤ gd ∧ s.allocFd = some k ∧ n = k ∧
          s' = ({ s with fat := t } : State).setFd k ⟨true, .file, gd, -1⟩) := by
  obtain ⟨gd, s₁, h₁, h⟩ := Exec.returns_bind.mp h
  obtain ⟨t, ht, rfl⟩ := Exec.returns_on.mp h₁
  refine ⟨gd, t, ht, ?_⟩
  by_cases hgd : gd < 0
  · rw [installFd, if_pos hgd] at h
    obtain ⟨rfl, rfl⟩ := Exec.returns_pure.mp h
    exact .inl ⟨hgd, rfl, rfl⟩
  · right
    rw [installFd, if_neg hgd] at h
    obtain ⟨_, s₂, h₂, h⟩ := Exec.returns_bind.mp h
    obtain ⟨rfl, rfl⟩ := Exec.returns_get.mp h₂
    have halloc : (State.fatPart.put t s).allocFd = s.allocFd := rfl
    rw [halloc] at h
    cases hfd : s.allocFd with
    | none =>
      rw [hfd] at h
      -- the file is closed again when no descriptor is left for it
      obtain ⟨_, s₂, hclose, h⟩ := Exec.returns_bind.mp h
      obtain ⟨rfl, rfl⟩ := Exec.returns_pure.mp h
      obtain ⟨t', -, rfl⟩ := Exec.returns_on.mp hclose
      exact .inl ⟨Int.not_lt.mp hgd, rfl, rfl, t', rfl⟩
    | some k =>
      rw [hfd] at h
      obtain ⟨_, s₂, hm, h⟩ := Exec.returns_bind.mp h
      obtain rfl := Exec.returns_modify.mp hm
      obtain ⟨rfl, rfl⟩ := Exec.returns_pure.mp h
      exact .inr ⟨k, Int.not_lt.mp hgd, rfl, rfl, rfl⟩

/-- **What `fd_create_case` leaves**: a descriptor for a new file under the name, and nothing else
in the tables. -/
theorem fdCreateCase_creates (hw : s.fat.Working) (hlen : (cString path).length ≤ 255)
    (hr : (fdCreateCase path).Returns s n s') (hn : 0 ≤ n) :
    ∃ (k : ℕ) (gd : ℤ) (t : Driver), n = k ∧ s'.IsFile k gd ∧ t.Working ∧
      s' = ({ s with fat := t } : State).setFd k ⟨true, .file, gd, -1⟩ ∧ 0 ≤ gd ∧
      CreatesCase s.fat.vol path (((cString path).any fun c => 97 ≤ c && c ≤ 122) = true) gd
        t.vol := by
  have hfile : ∀ {k : ℕ} {gd : ℤ} {t : Driver}, s.allocFd = some k →
      (({ s with fat := t } : State).setFd k ⟨true, .file, gd, -1⟩).IsFile k gd := by
    intro k gd t hk
    exact ⟨(allocFd_spec hk).1, Function.update_self ..⟩
  obtain ⟨n₁, s₁, h₁, hr⟩ := Exec.returns_bind.mp hr
  obtain ⟨gd, t, ht, hcase⟩ := fdCreate_returns h₁
  obtain ⟨hc, hwt⟩ := Fat12.creates_of_returns ht hw
  by_cases hn₁ : n₁ ≥ 0
  · rw [if_pos hn₁] at hr
    obtain ⟨rfl, rfl⟩ := Exec.returns_pure.mp hr
    rcases hcase with ⟨-, rfl, -⟩ | ⟨-, -, rfl, -⟩ | ⟨k, hgd, hk, rfl, rfl⟩
    · exact absurd hn (by decide)
    · exact absurd hn (by decide)
    · exact ⟨k, gd, t, rfl, hfile hk, hwt, rfl, hgd, .first hc⟩
  · rw [if_neg hn₁] at hr
    split_ifs at hr with hlow
    swap
    · obtain ⟨rfl, -⟩ := Exec.returns_pure.mp hr
      exact absurd hn (by decide)
    -- the copy in upper case leads to where the name does
    have hup : ∀ W : Fat12.Volume, W.resolve (((cString path).take 255).map Fat12.upper) =
        W.resolve path := by
      intro W
      rw [List.take_of_length_le hlen, Fat12.Volume.resolve_map_upper, Fat12.Volume.resolve_cString]
    obtain ⟨gd', t', ht', hcase'⟩ := fdCreate_returns hr
    rcases hcase' with ⟨-, rfl, -⟩ | ⟨-, -, rfl, -⟩ | ⟨k, hgd', hk', rfl, rfl⟩
    · exact absurd hn (by decide)
    · exact absurd hn (by decide)
    · rcases hcase with ⟨hgd, -, rfl⟩ | ⟨-, hk, -, t₁, rfl⟩ | ⟨k₁, -, -, rfl, -⟩
      · obtain ⟨hc', hwt'⟩ := Fat12.creates_of_returns ht' hwt
        exact ⟨k, gd', t', rfl, hfile hk', hwt', rfl, hgd', .second hlow hc hgd hup hc'⟩
      · exact absurd (hk'.symm.trans hk) nofun
      · exact absurd (Int.natCast_nonneg k₁) hn₁

end WarkRune.Ipc

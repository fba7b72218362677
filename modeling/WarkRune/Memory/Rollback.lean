import WarkRune.Memory.Regions

/-!
# Regions that cannot be had, and regions given back

A creation that fails midway goes back over the pages it took, from the first one on, and a region
that is closed gives back its pages in the same way. Both leave every other page and frame as it
is. A region whose name was stored without its end is not found when it is to be closed, and keeps
its frames.

## Main definitions

* `RolledBack`: what is promised of a creation that fails
* `Later`: a run in which a region is not closed
* `Returned`: what is promised of closing a region

## Main results

* `shmemCreate_rolls_back`: a creation that fails changes nothing, and a region is given back
  exactly when its name has at most 31 bytes
-/

namespace WarkRune.Memory

open Function (update update_self update_of_ne)
open Elf (pageAt)

/-- **Nothing has changed** for the translation of any page, the count of frames and the table. -/
structure RolledBack (s s' : Shmem) : Prop where
  mapping : ∀ virt, s'.vmm.pages.mapping virt = s.vmm.pages.mapping virt
  physical : ∀ virt, pagingGetPhysical virt s'.vmm.pages = pagingGetPhysical virt s.vmm.pages
  used : s'.vmm.pmm.used = s.vmm.pmm.used
  regions : s'.regions = s.regions

/-- A run in which the name is not closed, and no region is created under a name that does not fit
the table. -/
def Later (s₀ : Pmm) (name : ShmemName) : Shmem → Shmem → Prop :=
  Relation.ReflTransGen
    (Shmem.Step s₀ fun s c => Storable (s, fun _ => none) c ∧ c ≠ .close name)

/-- **Closing returns exactly the frames that creating took**: from `s` to `s₁` a region is created,
from `s₂` to `s₃` it is closed. -/
def Returned (s₀ s s₁ s₂ s₃ : Pmm) : Prop :=
  ∀ p, (Pmm.Outstanding s₀ s₂ p ∧ ¬ Pmm.Outstanding s₀ s₃ p) ↔
    (Pmm.Outstanding s₀ s₁ p ∧ ¬ Pmm.Outstanding s₀ s p)

/-- The pages that a request spans, as far as the address space goes, are not mapped. -/
def Vacant (size : BitVec 32) (s : Vmm) : Prop :=
  ∀ j < pagesOf size, s.nextVirt.toNat + j * 4096 < 2 ^ 32 →
    s.pages.mapping (pageAt s.nextVirt j) = none

/-! ## A creation that fails -/

theorem GivenBack.rolledBack {s₀ : Pmm} {s : Shmem} {o : Finset ℕ} {vmm : Vmm} {size : BitVec 32}
    (h : GivenBack s₀ o s.vmm (pagesOf size) vmm) (hl : s.vmm.pages.Linked)
    (hacc : Pmm.Accounts s₀ s.vmm.pmm o) (hv : Vacant size s.vmm) :
    RolledBack s { s with vmm } := by
  -- a page that was taken was not present before and is not now
  have hentry virt : vmm.pages.entry virt = s.vmm.pages.entry virt ∨
      vmm.pages.entry virt &&& pagePresent = 0 ∧ s.vmm.pages.entry virt &&& pagePresent = 0 := by
    rcases h.entries virt with he | ⟨he, j, hj, hlt, hpage⟩
    · exact .inl he
    · have hnone := hv j hj hlt
      rw [hl.mapping_eq] at hnone
      have hsame : s.vmm.pages.entry virt = s.vmm.pages.entry (pageAt s.vmm.nextVirt j) := by
        rw [PageTables.entry, PageTables.entry, (pageOf_eq_iff.mp hpage).1,
          (pageOf_eq_iff.mp hpage).2]
      refine .inr ⟨by rw [he]; decide, ?_⟩
      rw [hsame]
      by_contra hp
      rw [if_neg hp] at hnone
      cases hnone
  refine ⟨fun virt => ?_, fun virt => ?_, h.accounts.used.trans hacc.used.symm, rfl⟩
  · rw [h.linked.mapping_eq, hl.mapping_eq]
    rcases hentry virt with he | ⟨h₁, h₂⟩
    · rw [he]
    · rw [if_pos h₁, if_pos h₂]
  · rw [h.linked.getPhysical, hl.getPhysical]
    rcases hentry virt with he | ⟨h₁, h₂⟩
    · rw [he]
    · rw [if_pos h₁, if_pos h₂]

/-! ## A region given back -/

/-- The region under the name is the one in the slot, with the frames. -/
structure HoldsRegion (s₀ : Pmm) (name : ShmemName) (i : ℕ) (fs : List ℕ) (s : Shmem) : Prop where
  backed : ∃ o fr, Regions s₀ s o fr ∧ fr i = fs
  found : s.find name = some i
  only : ∀ j < shmemMax, (s.regions j).used = true → (s.regions j).name = name → j = i

/-- Regions under other names do not hide a region. -/
theorem find_of_only {s : Shmem} {name : ShmemName} {i : ℕ} (hi : i < shmemMax)
    (hu : (s.regions i).used = true) (hn : (s.regions i).name = name)
    (honly : ∀ j < shmemMax, (s.regions j).used = true → (s.regions j).name = name → j = i) :
    s.find name = some i := by
  cases hf : s.find name with
  | none => exact absurd hn (Shmem.find_eq_none.mp hf i hi hu)
  | some j =>
    obtain ⟨hj, hju, hjn⟩ := Shmem.find_eq_some hf
    rw [honly j hj hju hjn]

/-- A call that does not close the name adds no second region under it. -/
theorem used_of_call {s₀ : Pmm} {s : Shmem} {o : Finset ℕ} {fr : ℕ → List ℕ} {name : ShmemName}
    {i : ℕ} (h : Regions s₀ s o fr) (hp : s₀.Placed) (ha : s₀.bitmap % 4096 = 0) {c : ShmemCall}
    (hc : Storable (s, fun _ => none) c) (hf : s.find name = some i) {j : ℕ}
    (hu : ((s.call c).regions j).used = true) (hn : ((s.call c).regions j).name = name) :
    (s.regions j).used = true ∧ (s.regions j).name = name := by
  cases c with
  | openName m => exact ⟨hu, hn⟩
  | create m size =>
    simp only [Shmem.call] at hu hn
    rcases h.create_cases hp ha m size with ⟨k, -, he⟩ | ⟨hm, ⟨vmm, he, -⟩ |
      ⟨k, fs, vmm, -, -, -, -, hslot, htake, he⟩⟩ <;> rw [he] at hu hn
    · exact ⟨hu, hn⟩
    · exact ⟨hu, hn⟩
    · dsimp only at hu hn
      rw [Shmem.put_regions] at hu hn
      by_cases hjk : j = k
      · rw [hjk, update_self] at hn
        have hlen : m.1.length ≤ 31 := hc.resolve_right (not_or.mpr ⟨hslot, htake⟩)
        rw [m.copy_eq_iff.mpr hlen] at hn
        rw [← hn, hm] at hf
        cases hf
      · rw [update_of_ne hjk] at hu hn
        exact ⟨hu, hn⟩
  | close m =>
    simp only [Shmem.call] at hu hn
    cases hm : s.find m with
    | none =>
      rw [shmemClose, hm] at hu hn
      exact ⟨hu, hn⟩
    | some k =>
      rw [shmemClose, hm] at hu hn
      dsimp only at hu hn
      rw [Shmem.put_regions] at hu hn
      by_cases hjk : j = k
      · rw [hjk, update_self] at hu
        cases hu
      · rw [update_of_ne hjk] at hu hn
        exact ⟨hu, hn⟩

section Runs

variable {s₀ : Pmm} (hp : s₀.Placed) (ha : s₀.bitmap % 4096 = 0) {s s' : Shmem} {o : Finset ℕ}
  {fr : ℕ → List ℕ} {name : ShmemName} {size : BitVec 32} {i : ℕ} {fs : List ℕ}
include hp ha

/-- **A region stays until its name is closed.** -/
theorem HoldsRegion.later (h : HoldsRegion s₀ name i fs s) (hl : Later s₀ name s s') :
    HoldsRegion s₀ name i fs s' := by
  induction hl with
  | refl => exact h
  | tail _ hstep ih =>
    obtain ⟨⟨o, fr, hr, hfs⟩, hf, honly⟩ := ih
    obtain ⟨hi, hu, hn⟩ := Shmem.find_eq_some hf
    cases hstep with
    | call hc =>
      obtain ⟨o', fr', hr', hkeep⟩ := hr.call hp ha _
      obtain ⟨hregion, hframes⟩ := hkeep i hu (by rw [hn]; exact hc.2)
      have honly' : ∀ j < shmemMax, ((Shmem.call _ _).regions j).used = true →
          ((Shmem.call _ _).regions j).name = name → j = i := fun j hj hju hjn =>
        have hold := used_of_call hr hp ha hc.1 hf hju hjn
        honly j hj hold.1 hold.2
      exact ⟨⟨o', fr', hr', hframes.trans hfs⟩, find_of_only hi (by rw [hregion, hu])
        (by rw [hregion, hn]) honly', honly'⟩
    | others hx =>
      obtain ⟨o', hr'⟩ := hr.others hp ha hx
      have honly' := honly
      rw [← hx.regions] at hu hn honly'
      exact ⟨⟨o', fr, hr', hfs⟩, find_of_only hi hu hn honly', honly'⟩

/-- Closing a region returns its frames. -/
theorem HoldsRegion.close (h : HoldsRegion s₀ name i fs s) (p : ℕ) :
    (Pmm.Outstanding s₀ s.vmm.pmm p ∧ ¬ Pmm.Outstanding s₀ (shmemClose name s).vmm.pmm p) ↔
      p ∈ fs := by
  obtain ⟨⟨o, fr, hr, rfl⟩, hf, -⟩ := h
  obtain ⟨hi, hu, -⟩ := Shmem.find_eq_some hf
  have hclosed := hr.close hp ha hf
  rw [hr.accounts.outstanding_iff, hclosed.accounts.outstanding_iff, Finset.mem_sdiff,
    List.mem_toFinset]
  constructor
  · rintro ⟨hpo, hnot⟩
    by_contra hpf
    exact hnot ⟨hpo, hpf⟩
  · intro hpf
    exact ⟨(hr.backed i hi hu).out p hpf, fun hh => hh.2 hpf⟩

/-- **A region is given back in any later state exactly when its name fits the table.** -/
theorem Regions.returned_iff (h : Regions s₀ s o fr) (hnew : s.find name = none)
    (hne : (shmemCreate name size s).1 ≠ 0) :
    (∀ s', Later s₀ name (shmemCreate name size s).2 s' →
      Returned s₀ s.vmm.pmm (shmemCreate name size s).2.vmm.pmm s'.vmm.pmm
        (shmemClose name s').vmm.pmm) ↔ name.1.length ≤ 31 := by
  rcases h.create_cases hp ha name size with ⟨i, hf, -⟩ | ⟨-, ⟨vmm, he, -⟩ |
    ⟨i, fs, vmm, hi, hu, hlen, ht, -, -, he⟩⟩
  · rw [hnew] at hf
    cases hf
  · rw [he] at hne
    exact absurd rfl hne
  rw [he]
  dsimp only
  have hadd := h.add (r := ⟨name.copy 32, true, s.vmm.nextVirt, .ofNat 32 (pagesOf size * 0x1000)⟩)
    ht hu rfl (by rw [hlen]; exact ht.size_eq hlen)
  have hfind := Shmem.find_put
    (r := ⟨name.copy 32, true, s.vmm.nextVirt, .ofNat 32 (pagesOf size * 0x1000)⟩) hnew hi rfl vmm
  have htaken p : (Pmm.Outstanding s₀ vmm.pmm p ∧ ¬ Pmm.Outstanding s₀ s.vmm.pmm p) ↔ p ∈ fs := by
    rw [ht.accounts.outstanding_iff, h.accounts.outstanding_iff, Finset.mem_union,
      List.mem_toFinset]
    exact ⟨fun hh => hh.1.resolve_left hh.2, fun hpf => ⟨.inr hpf, ht.spare.spare p hpf⟩⟩
  constructor
  · intro hall
    by_contra hlong
    rw [if_neg fun hc => hlong (name.copy_eq_iff.mp hc)] at hfind
    obtain ⟨f, hf⟩ : ∃ f, f ∈ fs := List.exists_mem_of_length_pos (hlen ▸ pagesOf_pos size)
    have hback := (hall _ .refl f).mpr ((htaken f).mpr hf)
    rw [shmemClose, hfind] at hback
    exact hback.2 hback.1
  · intro hshort s' hl p
    rw [if_pos (name.copy_eq_iff.mpr hshort)] at hfind
    have hholds : HoldsRegion s₀ name i fs (s.put i
        ⟨name.copy 32, true, s.vmm.nextVirt, .ofNat 32 (pagesOf size * 0x1000)⟩ vmm) := by
      refine ⟨⟨_, _, hadd, update_self ..⟩, hfind, fun j hj hju hjn => ?_⟩
      by_contra hji
      rw [Shmem.put_regions, update_of_ne hji] at hju hjn
      exact Shmem.find_eq_none.mp hnew j hj hju hjn
    rw [(hholds.later hp ha hl).close hp ha p]
    exact (htaken p).symm

end Runs

end WarkRune.Memory

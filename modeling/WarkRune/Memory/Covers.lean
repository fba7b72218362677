import Mathlib.Tactic.IntervalCases
import WarkRune.Memory.Regions

/-!
# The size of a shared region

`shmem_create` returns the address of an area that the caller takes to be as large as it asked for.
Four things keep it from being so. A region that exists is returned whatever its size is. The
rounding of the size to pages wraps for the last 4 KB of sizes. The mapping that creates a directory
entry leaves the user bit out, so that the only page of a region under one is not accessible to
the user. A name of more than 31 bytes is stored without its end, and the region is not found under
it.

## Main definitions

* `Covers`: the addresses of an area are in the region under a name, accessible to the user, each
  page with an outstanding frame of its own
* `FitsArea`: the four things do not happen

## Main results

* `shmemCreate_covers_iff`: the area returned is covered exactly when the call fits
-/

namespace WarkRune.Memory

open Function (update_self)
open Elf (pageAt userFlags mapAll)

/-- **The area is accessible to the user**: its addresses lie in the region under the name, and
each page of it has an outstanding frame of its own. -/
def Covers (s₀ : Pmm) (name : ShmemName) (v size : BitVec 32) (s : Shmem) : Prop :=
  ∃ frame : ℕ → ℕ,
    (∀ k < size.toNat,
      (∃ i, s.find name = some i ∧ (s.regions i).virtAddr.toNat ≤ v.toNat + k ∧
        v.toNat + k < (s.regions i).virtAddr.toNat + (s.regions i).size.toNat) ∧
      s.vmm.pages.walk (v + .ofNat 32 k) =
        some ⟨.ofNat 32 (frame ((v.toNat + k) / 4096)), true, true⟩ ∧
      Pmm.Outstanding s₀ s.vmm.pmm (frame ((v.toNat + k) / 4096))) ∧
    ∀ k < size.toNat, ∀ l < size.toNat,
      frame ((v.toNat + k) / 4096) = frame ((v.toNat + l) / 4096) →
        (v.toNat + k) / 4096 = (v.toNat + l) / 4096

/-- A region that exists is large enough, and the directory entries over it have the user bit. For
a new region the name fits the table, the size can be rounded to pages, and over every page the
directory entry is present already or has another page of the region under it. -/
def FitsArea (name : ShmemName) (size : BitVec 32) (s : Shmem) : Prop :=
  match s.find name with
  | some i => size.toNat ≤ (s.regions i).size.toNat ∧ ∀ k < size.toNat,
      s.vmm.pages.directory (dirIdx ((s.regions i).virtAddr + .ofNat 32 k)) &&& pageUser ≠ 0
  | none => size = 0 ∨ name.1.length ≤ 31 ∧ size.toNat + 0xFFF < 2 ^ 32 ∧
      ∀ j < pagesOf size,
        s.vmm.pages.directory (dirIdx (pageAt s.vmm.nextVirt j)) &&& pagePresent ≠ 0 ∨
          ∃ i < pagesOf size, i ≠ j ∧
            dirIdx (pageAt s.vmm.nextVirt i) = dirIdx (pageAt s.vmm.nextVirt j)

/-- The number of pages is the size rounded up, unless the sum wraps: then it is one. -/
theorem pagesOf_eq (size : BitVec 32) : pagesOf size =
    if size.toNat + 0xFFF < 2 ^ 32 then max 1 ((size.toNat + 0xFFF) / 4096) else 1 := by
  have hlt := size.isLt
  have hdiv : ((size + 0xFFF) / 0x1000).toNat = (size.toNat + 0xFFF) % 2 ^ 32 / 4096 := by
    rw [BitVec.toNat_udiv, BitVec.toNat_add]
    rfl
  have hzero : (size + 0xFFF) / 0x1000 = 0 ↔ (size.toNat + 0xFFF) % 2 ^ 32 / 4096 = 0 := by
    rw [← hdiv]
    exact ⟨fun h => by rw [h]; rfl, fun h => BitVec.eq_of_toNat_eq h⟩
  rw [pagesOf, hdiv]
  simp only [hzero]
  split_ifs <;> omega

/-- The page of an address of an area that starts a page. -/
theorem pageOf_add {v : BitVec 32} {k : ℕ} (hv : v.toNat % 4096 = 0) (hk : v.toNat + k < 2 ^ 32) :
    (v + .ofNat 32 k).toNat = v.toNat + k ∧
      pageOf (v + .ofNat 32 k) = pageOf (pageAt v (k / 4096)) := by
  have hto : (v + .ofNat 32 k).toNat = v.toNat + k := by
    rw [BitVec.toNat_add, BitVec.toNat_ofNat]
    omega
  refine ⟨hto, ?_⟩
  rw [pageOf, pageOf, hto, toNat_pageAt (by omega)]
  omega

theorem mapWord_userFlags (f : BitVec 32) :
    mapWord f userFlags &&& pageUser ≠ 0 ∧ mapWord f userFlags &&& pageWrite ≠ 0 := by
  rw [Ne, mapWord_user, Ne, and_pageWrite, getLsbD_mapWord (by decide), if_neg (by decide),
    if_pos (by decide)]
  exact ⟨by decide, by decide⟩

/-- **A region in use covers an area from its start** exactly when it is large enough and the
directory entries over the area have the user bit. -/
theorem Regions.covers_iff {s₀ : Pmm} {s : Shmem} {o : Finset ℕ} {fr : ℕ → List ℕ}
    (h : Regions s₀ s o fr) (hp : s₀.Placed) (ha : s₀.bitmap % 4096 = 0) {name : ShmemName} {i : ℕ}
    (hf : s.find name = some i) (size : BitVec 32) :
    Covers s₀ name (s.regions i).virtAddr size s ↔ size.toNat ≤ (s.regions i).size.toNat ∧
      ∀ k < size.toNat,
        s.vmm.pages.directory (dirIdx ((s.regions i).virtAddr + .ofNat 32 k)) &&& pageUser ≠ 0 := by
  obtain ⟨hi, hu, -⟩ := Shmem.find_eq_some hf
  have hb := h.backed i hi hu
  have hsize := hb.size
  have haligned := hb.aligned
  have hbelow := hb.below
  have hlt := s.vmm.nextVirt.isLt
  generalize hr : s.regions i = r at *
  constructor
  · rintro ⟨frame, hall, -⟩
    refine ⟨?_, fun k hk => ?_⟩
    · by_contra hshort
      obtain ⟨⟨j, hj, -, hin⟩, -⟩ := hall r.size.toNat (by omega)
      rw [hf] at hj
      obtain rfl := Option.some.inj hj
      rw [hr] at hin
      exact absurd hin (Nat.lt_irrefl _)
    · obtain ⟨-, hwalk, -⟩ := hall k hk
      rw [h.linked.walk_eq] at hwalk
      split_ifs at hwalk
      have huser := congrArg Translation.user (Option.some.inj hwalk)
      exact (of_decide_eq_true huser).1
  · rintro ⟨hle, huser⟩
    refine ⟨fun page => (fr i)[page - r.virtAddr.toNat / 4096]?.getD 0, fun k hk => ?_,
      fun k hk l hl hframe => ?_⟩
    · have hidx : (r.virtAddr.toNat + k) / 4096 - r.virtAddr.toNat / 4096 = k / 4096 := by omega
      have hj : k / 4096 < (fr i).length := by omega
      obtain ⟨-, hpage⟩ := pageOf_add haligned (k := k) (by omega)
      have hout := hb.out _ (List.getElem_mem hj)
      obtain ⟨hfa, -, hflt⟩ := hp.aligned ha (h.accounts.sub hout)
      have hentry := hb.entries (k / 4096) _ (List.getElem?_eq_getElem hj)
      dsimp only
      rw [hidx, List.getElem?_eq_getElem hj, Option.getD_some]
      generalize (fr i)[k / 4096] = f at *
      refine ⟨⟨i, hf, by rw [hr]; omega, by rw [hr]; omega⟩, ?_,
        h.accounts.outstanding_iff.mpr hout⟩
      have hsame : s.vmm.pages.entry (r.virtAddr + .ofNat 32 k) =
          mapWord (.ofNat 32 f) userFlags := by
        rw [← hentry, PageTables.entry, PageTables.entry, (pageOf_eq_iff.mp hpage).1,
          (pageOf_eq_iff.mp hpage).2]
      have hflags := mapWord_userFlags (.ofNat 32 f)
      rw [h.linked.walk_eq, hsame, if_neg mapWord_present, mapWord_frame,
        frame_of_aligned (by rw [toNat_frame hflt]; exact hfa),
        decide_eq_true ⟨huser k hk, hflags.1⟩,
        decide_eq_true hflags.2]
    · have hidx (m : ℕ) : (r.virtAddr.toNat + m) / 4096 - r.virtAddr.toNat / 4096 = m / 4096 := by
        omega
      have hjk : k / 4096 < (fr i).length := by omega
      have hjl : l / 4096 < (fr i).length := by omega
      dsimp only at hframe
      rw [hidx, hidx, List.getElem?_eq_getElem hjk, List.getElem?_eq_getElem hjl, Option.getD_some,
        Option.getD_some, hb.nodup.getElem_inj_iff] at hframe
      omega

/-- The pages of a new region cover the size when it can be rounded, and are accessible to the user
where each has a directory entry that was present, or another page under its own. -/
theorem Taken.fits_iff {s₀ : Pmm} {t s : Vmm} {o : Finset ℕ} {fs : List ℕ} (h : Taken s₀ o t fs s)
    (ht : t.nextVirt.toNat % 4096 = 0) {size : BitVec 32} (hlen : fs.length = pagesOf size)
    (hsize : size ≠ 0) :
    (size.toNat ≤ pagesOf size * 4096 ∧ ∀ k < size.toNat,
      s.pages.directory (dirIdx (t.nextVirt + .ofNat 32 k)) &&& pageUser ≠ 0) ↔
    size.toNat + 0xFFF < 2 ^ 32 ∧ ∀ j < pagesOf size,
      t.pages.directory (dirIdx (pageAt t.nextVirt j)) &&& pagePresent ≠ 0 ∨
        ∃ i < pagesOf size, i ≠ j ∧
          dirIdx (pageAt t.nextVirt i) = dirIdx (pageAt t.nextVirt j) := by
  have hbound := h.bound
  have hpages := pagesOf_eq size
  have hpos : 0 < size.toNat := Nat.pos_of_ne_zero fun h0 => hsize (BitVec.eq_of_toNat_eq h0)
  have huser : ∀ j < pagesOf size,
      (s.pages.directory (dirIdx (pageAt t.nextVirt j)) &&& pageUser ≠ 0 ↔
        t.pages.directory (dirIdx (pageAt t.nextVirt j)) &&& pagePresent ≠ 0 ∨
        ∃ i < pagesOf size, i ≠ j ∧
          dirIdx (pageAt t.nextVirt i) = dirIdx (pageAt t.nextVirt j)) := by
    intro j hj
    have hiff : (mapAll t.nextVirt 0 fs t.pages).directory (dirIdx (pageAt t.nextVirt (0 + j))) &&&
        pageUser ≠ 0 ↔ _ := Elf.user_mapAll_iff (hlen ▸ hj)
    rw [← h.pages, hlen] at hiff
    simpa only [Nat.zero_add] using hiff
  rw [hlen] at hbound
  by_cases hround : size.toNat + 0xFFF < 2 ^ 32
  · rw [if_pos hround] at hpages
    have hcover : size.toNat ≤ pagesOf size * 4096 := by omega
    rw [and_iff_right hcover, and_iff_right hround]
    have hdir {k : ℕ} (hk : k < size.toNat) :
        dirIdx (t.nextVirt + .ofNat 32 k) = dirIdx (pageAt t.nextVirt (k / 4096)) :=
      (pageOf_eq_iff.mp (pageOf_add ht (by omega)).2).1
    constructor
    · intro hall j hj
      have hk : j * 4096 < size.toNat := by omega
      have hat := hall (j * 4096) hk
      rw [hdir hk, Nat.mul_div_cancel j (by decide)] at hat
      exact (huser j hj).mp hat
    · intro hall k hk
      have hj : k / 4096 < pagesOf size := by omega
      rw [hdir hk]
      exact (huser _ hj).mpr (hall _ hj)
  · rw [if_neg hround] at hpages
    refine iff_of_false (fun hh => ?_) fun hh => hround hh.1
    have hle := hh.1
    rw [hpages] at hle
    omega

section Create

variable {s₀ : Pmm} {s : Shmem} {o : Finset ℕ} {fr : ℕ → List ℕ} (h : Regions s₀ s o fr)
  (hp : s₀.Placed) (ha : s₀.bitmap % 4096 = 0) {name : ShmemName} {size : BitVec 32}
include h hp ha

/-- The area that `shmem_create` returns, in one state. -/
theorem Regions.create_covers_iff (hne : (shmemCreate name size s).1 ≠ 0) :
    Covers s₀ name (shmemCreate name size s).1 size (shmemCreate name size s).2 ↔
      FitsArea name size s := by
  unfold FitsArea
  rcases h.create_cases hp ha name size with ⟨i, hf, he⟩ | ⟨hf, ⟨vmm, he, -⟩ |
    ⟨i, fs, vmm, hi, hu, hlen, ht, -, -, he⟩⟩
  · rw [he, hf]
    exact h.covers_iff hp ha hf size
  · rw [he] at hne
    exact absurd rfl hne
  rw [he, hf]
  dsimp only
  -- a new region: its size is that of its pages, which `FitsArea` compares with the request
  have hsz := ht.size_eq hlen
  have hadd := h.add (r := ⟨name.copy 32, true, s.vmm.nextVirt, .ofNat 32 (pagesOf size * 0x1000)⟩)
    ht hu rfl (by rw [hlen]; exact hsz)
  have hfind := Shmem.find_put
    (r := ⟨name.copy 32, true, s.vmm.nextVirt, .ofNat 32 (pagesOf size * 0x1000)⟩) hf hi rfl vmm
  by_cases hzero : size = 0
  · subst hzero
    refine iff_of_true ⟨fun _ => 0, fun k hk => ?_, fun k hk => ?_⟩ (.inl rfl) <;>
      exact absurd hk (Nat.not_lt_zero k)
  rw [or_iff_right hzero]
  by_cases hshort : name.1.length ≤ 31
  · rw [if_pos (name.copy_eq_iff.mpr hshort)] at hfind
    -- with the name stored in full, what holds of any region holds of this one
    have hiff := hadd.covers_iff hp ha hfind size
    rw [Shmem.put_regions, update_self] at hiff
    dsimp only at hiff
    rw [hiff, hsz, and_iff_right hshort]
    exact ht.fits_iff h.next.1 hlen hzero
  · rw [if_neg fun hc => hshort (name.copy_eq_iff.mp hc)] at hfind
    refine iff_of_false ?_ fun hh => hshort hh.1
    rintro ⟨_, hall, -⟩
    have hpos : 0 < size.toNat := Nat.pos_of_ne_zero fun h0 => hzero (BitVec.eq_of_toNat_eq h0)
    obtain ⟨⟨j, hj, -⟩, -⟩ := hall 0 hpos
    rw [hfind] at hj
    cases hj

end Create

end WarkRune.Memory

import WarkRune.Memory.Vmm

/-!
# Shared memory by name

A region of shared memory has a name, and sixteen regions fit the table. A region's pages are taken
from `vmm_alloc` one after the other. The table stores the first 31 bytes of a name, and names are
compared in full.

The pages of a new region are cleared; no operation reads them, and the model leaves them out.

## Main definitions

* `Shmem`, `shmemCreate`, `shmemOpen`, `shmemClose`: the table and the operations
* `Shmem.recorded`: runs of the operations beside the names that are live
* `NameMap`: the table is a map from the live names to their regions
* `Storable`: the name of a new region fits the table

## Main results

* `takePages_spec`: the pages of a region follow one another from the counter on
* `nameMap_iff`: in a run the table is a name map throughout exactly when every name of a new region
  has at most 31 bytes
-/

namespace WarkRune.Memory

open Function (update update_self update_of_ne)
open Machine (after Admits)

/-- A NUL-terminated name: its bytes before the NUL. -/
abbrev ShmemName : Type := { bytes : List UInt8 // 0 ∉ bytes }

/-- `SHMEM_MAX`. -/
def shmemMax : ℕ := 16

structure ShmemRegion where
  name : ShmemName
  used : Bool
  virtAddr : BitVec 32
  size : BitVec 32

structure Shmem where
  regions : ℕ → ShmemRegion
  vmm : Vmm

/-- `name_eq`: both names end where they stop to agree. -/
def nameEq : List UInt8 → List UInt8 → Bool
  | [], [] => true
  | a :: as, b :: bs => if a = b then nameEq as bs else false
  | _, _ => false

/-- `name_copy`. -/
def ShmemName.copy (name : ShmemName) (max : ℕ) : ShmemName :=
  ⟨name.1.take (max - 1), fun h => name.2 (List.mem_of_mem_take h)⟩

/-- The first region in use with the name. -/
def Shmem.find (s : Shmem) (name : ShmemName) : Option ℕ :=
  (List.range shmemMax).find? fun i => (s.regions i).used && nameEq (s.regions i).name.1 name.1

/-- The first region that is not in use. -/
def Shmem.freeSlot (s : Shmem) : Option ℕ :=
  (List.range shmemMax).find? fun i => !(s.regions i).used

/-- The number of pages for `size` bytes. -/
def pagesOf (size : BitVec 32) : ℕ :=
  if (size + 0xFFF) / 0x1000 = 0 then 1 else ((size + 0xFFF) / 0x1000).toNat

/-- `vmm_free` of `n` pages from `virt` on. -/
def givePages (virt : BitVec 32) (n : ℕ) (s : Vmm) : Vmm :=
  (List.range n).foldl (fun s p => vmmFree (virt + .ofNat 32 (p * 0x1000)) s) s

/-- The loop of `shmem_create` after `p` rounds, with `n` to go: the address of the first page. A
page that cannot be had gives the others back. -/
def takePages (virt : BitVec 32) (p : ℕ) : ℕ → Vmm → Option (BitVec 32) × Vmm
  | 0, s => (some virt, s)
  | n + 1, s =>
    let r := vmmAlloc 0 (pagePresent ||| pageWrite ||| pageUser) s
    if r.1 = 0 then (none, givePages virt p r.2)
    else takePages (if p = 0 then r.1 else virt) (p + 1) n r.2

/-- The table with one region stored. -/
def Shmem.put (s : Shmem) (i : ℕ) (r : ShmemRegion) (vmm : Vmm) : Shmem where
  regions := update s.regions i r
  vmm := vmm

@[simp] theorem Shmem.put_regions (s : Shmem) (i : ℕ) (r : ShmemRegion) (vmm : Vmm) :
    (s.put i r vmm).regions = update s.regions i r := rfl

@[simp] theorem Shmem.put_vmm (s : Shmem) (i : ℕ) (r : ShmemRegion) (vmm : Vmm) :
    (s.put i r vmm).vmm = vmm := rfl

/-- `shmem_init`. -/
def shmemInit (s : Shmem) : Shmem :=
  { s with regions := fun i =>
      if i < shmemMax then { s.regions i with used := false } else s.regions i }

/-- `shmem_create`; null is 0. -/
def shmemCreate (name : ShmemName) (size : BitVec 32) (s : Shmem) : BitVec 32 × Shmem :=
  match s.find name with
  | some i => ((s.regions i).virtAddr, s)
  | none =>
    match s.freeSlot with
    | none => (0, s)
    | some i =>
      match takePages 0 0 (pagesOf size) s.vmm with
      | (none, vmm) => (0, { s with vmm })
      | (some virt, vmm) =>
        (virt, s.put i ⟨name.copy 32, true, virt, .ofNat 32 (pagesOf size * 0x1000)⟩ vmm)

/-- `shmem_open`. -/
def shmemOpen (name : ShmemName) (s : Shmem) : BitVec 32 :=
  match s.find name with
  | some i => (s.regions i).virtAddr
  | none => 0

/-- `shmem_close`. -/
def shmemClose (name : ShmemName) (s : Shmem) : Shmem :=
  match s.find name with
  | some i => s.put i { s.regions i with used := false }
      (givePages (s.regions i).virtAddr ((s.regions i).size.toNat / 0x1000) s.vmm)
  | none => s

/-! ## Runs -/

inductive ShmemCall
  | create (name : ShmemName) (size : BitVec 32)
  | openName (name : ShmemName)
  | close (name : ShmemName)

/-- The names created and not closed since, with the addresses their creations returned. -/
abbrev LiveNames := ShmemName → Option (BitVec 32)

/-- A call beside the live names. -/
def Shmem.recorded (q : Shmem × LiveNames) : ShmemCall → Shmem × LiveNames
  | .create name size =>
    let r := shmemCreate name size q.1
    (r.2, if q.2 name = none ∧ r.1 ≠ 0 then update q.2 name (some r.1) else q.2)
  | .openName _ => q
  | .close name => (shmemClose name q.1, update q.2 name none)

theorem Shmem.recorded_create (q : Shmem × LiveNames) (name : ShmemName) (size : BitVec 32) :
    Shmem.recorded q (.create name size) = ((shmemCreate name size q.1).2,
      if q.2 name = none ∧ (shmemCreate name size q.1).1 ≠ 0 then
        update q.2 name (some (shmemCreate name size q.1).1)
      else q.2) := rfl

/-- The region reaches into the page. -/
def ShmemRegion.Occupies (r : ShmemRegion) (page : ℕ) : Prop :=
  ∃ addr, r.virtAddr.toNat ≤ addr ∧ addr < r.virtAddr.toNat + r.size.toNat ∧ addr / 4096 = page

/-- **The table is a name map**: a live name opens its region, creating it again returns the region,
and a name that is not live opens nothing; no two regions in use share a page. -/
structure NameMap (q : Shmem × LiveNames) : Prop where
  opens : ∀ name, shmemOpen name q.1 = (q.2 name).getD 0
  creates : ∀ name size a, q.2 name = some a → (shmemCreate name size q.1).1 = a
  apart : ∀ i < shmemMax, ∀ j < shmemMax, i ≠ j → (q.1.regions i).used = true →
    (q.1.regions j).used = true → ∀ page,
      ¬ ((q.1.regions i).Occupies page ∧ (q.1.regions j).Occupies page)

/-- A name to create a region under fits the table, or there is no slot or no memory for a region. -/
def Storable (q : Shmem × LiveNames) : ShmemCall → Prop
  | .create name size => name.1.length ≤ 31 ∨ q.1.freeSlot = none ∨
      (takePages 0 0 (pagesOf size) q.1.vmm).1 = none
  | _ => True

/-- **`name_eq` compares names in full.** -/
theorem nameEq_iff : ∀ {a b : List UInt8}, nameEq a b = true ↔ a = b
  | [], [] => by simp [nameEq]
  | [], _ :: _ => by simp [nameEq]
  | _ :: _, [] => by simp [nameEq]
  | a :: as, b :: bs => by
    rw [nameEq, List.cons.injEq]
    split
    · rename_i hab
      rw [nameEq_iff, and_iff_right hab]
    · rename_i hab
      simp [hab]

/-! ## The pages of a region -/

theorem nextVirt_vmmFree (virt : BitVec 32) (s : Vmm) : (vmmFree virt s).nextVirt = s.nextVirt := by
  unfold vmmFree
  dsimp only
  split <;> rfl

theorem nextVirt_givePages (virt : BitVec 32) (n : ℕ) (s : Vmm) :
    (givePages virt n s).nextVirt = s.nextVirt := by
  unfold givePages
  generalize List.range n = ps
  induction ps generalizing s with
  | nil => rfl
  | cons p ps ih => rw [List.foldl_cons, ih, nextVirt_vmmFree]

/-- What `vmm_alloc` does to the counter: it returns null and leaves it, or returns it and moves on
by a page. -/
theorem nextVirt_vmmAlloc (flags : BitVec 32) (s : Vmm) (h : 0 < s.nextVirt.toNat) :
    (vmmAlloc 0 flags s).1 = 0 ∧ (vmmAlloc 0 flags s).2.nextVirt = s.nextVirt ∨
      (vmmAlloc 0 flags s).1 ≠ 0 ∧ (vmmAlloc 0 flags s).1 = s.nextVirt ∧
        (vmmAlloc 0 flags s).2.nextVirt.toNat = s.nextVirt.toNat + 4096 := by
  have hlt := s.nextVirt.isLt
  have hnz : s.nextVirt ≠ 0 := by
    intro he
    rw [he] at h
    exact absurd h (Nat.lt_irrefl 0)
  unfold vmmAlloc
  dsimp only
  by_cases hp : (pmmAlloc s.pmm).1 = 0
  · rw [if_pos hp]
    exact .inl ⟨rfl, rfl⟩
  · rw [if_neg hp, if_pos rfl]
    by_cases hwrap : s.nextVirt + 4096 < s.nextVirt
    · rw [if_pos hwrap]
      exact .inl ⟨rfl, rfl⟩
    · rw [if_neg hwrap]
      refine .inr ⟨hnz, rfl, ?_⟩
      have hadd : (s.nextVirt + 4096).toNat = (s.nextVirt.toNat + 4096) % 2 ^ 32 :=
        BitVec.toNat_add ..
      rw [BitVec.lt_def, hadd] at hwrap
      change (s.nextVirt + 4096).toNat = _
      omega

/-- Further pages of a region: the counter moves on by a page for each. -/
theorem takePages_succ (virt : BitVec 32) (n p : ℕ) {s : Vmm} (h : 0 < s.nextVirt.toNat) :
    ∃ k, (takePages virt (p + 1) n s).2.nextVirt.toNat = s.nextVirt.toNat + k * 4096 ∧
      ((takePages virt (p + 1) n s).1 = none ∨
        (takePages virt (p + 1) n s).1 = some virt ∧ k = n) := by
  induction n generalizing p s with
  | zero => exact ⟨0, by simp [takePages], .inr ⟨rfl, rfl⟩⟩
  | succ n ih =>
    rw [takePages]
    rcases nextVirt_vmmAlloc (pagePresent ||| pageWrite ||| pageUser) s h with
      ⟨h0, hn⟩ | ⟨h0, -, hn⟩
    · rw [if_pos h0]
      exact ⟨0, by rw [nextVirt_givePages, hn]; omega, .inl rfl⟩
    · rw [if_neg h0, if_neg (Nat.succ_ne_zero p)]
      obtain ⟨k, hk, hres⟩ := ih (p + 1)
        (s := (vmmAlloc 0 (pagePresent ||| pageWrite ||| pageUser) s).2) (by omega)
      refine ⟨k + 1, by rw [hk, hn]; omega, hres.imp id fun hr => ⟨hr.1, by rw [hr.2]⟩⟩

/-- **The pages of a region follow one another from the counter on.** -/
theorem takePages_spec {n : ℕ} (hn : 0 < n) {s : Vmm} (h : 0 < s.nextVirt.toNat) :
    ∃ k, (takePages 0 0 n s).2.nextVirt.toNat = s.nextVirt.toNat + k * 4096 ∧
      ((takePages 0 0 n s).1 = none ∨ (takePages 0 0 n s).1 = some s.nextVirt ∧ k = n) := by
  obtain ⟨n, rfl⟩ := Nat.exists_eq_add_of_lt hn
  rw [Nat.zero_add, takePages]
  rcases nextVirt_vmmAlloc (pagePresent ||| pageWrite ||| pageUser) s h with
    ⟨h0, hv⟩ | ⟨h0, he, hv⟩
  · rw [if_pos h0]
    exact ⟨0, by rw [nextVirt_givePages, hv]; omega, .inl rfl⟩
  · rw [if_neg h0, if_pos rfl, he]
    obtain ⟨k, hk, hres⟩ := takePages_succ s.nextVirt n 0
      (s := (vmmAlloc 0 (pagePresent ||| pageWrite ||| pageUser) s).2) (by omega)
    refine ⟨k + 1, by rw [hk, hv]; omega, hres.imp id fun hr => ⟨hr.1, by rw [hr.2]⟩⟩

theorem pagesOf_pos (size : BitVec 32) : 0 < pagesOf size := by
  unfold pagesOf
  split
  · exact Nat.one_pos
  · rename_i h
    refine Nat.pos_of_ne_zero fun h0 => h ?_
    exact BitVec.eq_of_toNat_eq h0

/-! ## The invariant -/

/-- The regions in use are those of the live names, one after the other below the counter. -/
structure Shmem.Ok (q : Shmem × LiveNames) : Prop where
  next : 0 < q.1.vmm.nextVirt.toNat ∧ q.1.vmm.nextVirt.toNat % 4096 = 0
  short : ∀ i < shmemMax, (q.1.regions i).used = true → (q.1.regions i).name.1.length ≤ 31
  live : ∀ i < shmemMax, (q.1.regions i).used = true →
    q.2 (q.1.regions i).name = some (q.1.regions i).virtAddr
  slot : ∀ name a, q.2 name = some a → ∃ i < shmemMax, (q.1.regions i).used = true ∧
    (q.1.regions i).name = name
  inj : ∀ i < shmemMax, ∀ j < shmemMax, (q.1.regions i).used = true →
    (q.1.regions j).used = true → (q.1.regions i).name = (q.1.regions j).name → i = j
  extent : ∀ i < shmemMax, (q.1.regions i).used = true →
    (q.1.regions i).virtAddr.toNat % 4096 = 0 ∧ (q.1.regions i).size.toNat % 4096 = 0 ∧
      (q.1.regions i).virtAddr.toNat + (q.1.regions i).size.toNat ≤ q.1.vmm.nextVirt.toNat
  apart : ∀ i < shmemMax, ∀ j < shmemMax, i ≠ j → (q.1.regions i).used = true →
    (q.1.regions j).used = true →
      (q.1.regions i).virtAddr.toNat + (q.1.regions i).size.toNat ≤ (q.1.regions j).virtAddr.toNat ∨
      (q.1.regions j).virtAddr.toNat + (q.1.regions j).size.toNat ≤ (q.1.regions i).virtAddr.toNat

theorem Shmem.find_eq_some {s : Shmem} {name : ShmemName} {i : ℕ} (h : s.find name = some i) :
    i < shmemMax ∧ (s.regions i).used = true ∧ (s.regions i).name = name := by
  have hp := List.find?_some h
  rw [Bool.and_eq_true, nameEq_iff] at hp
  exact ⟨List.mem_range.mp (List.mem_of_find?_eq_some h), hp.1, Subtype.ext hp.2⟩

theorem Shmem.find_eq_none {s : Shmem} {name : ShmemName} : s.find name = none ↔
    ∀ i < shmemMax, (s.regions i).used = true → (s.regions i).name ≠ name := by
  simp only [Shmem.find, List.find?_eq_none, List.mem_range, Bool.and_eq_true, nameEq_iff, not_and,
    ne_eq, Subtype.ext_iff]

theorem Shmem.freeSlot_eq_some {s : Shmem} {i : ℕ} (h : s.freeSlot = some i) :
    i < shmemMax ∧ (s.regions i).used = false :=
  ⟨List.mem_range.mp (List.mem_of_find?_eq_some h), by simpa using List.find?_some h⟩

namespace Shmem.Ok

variable {q : Shmem × LiveNames} (h : Shmem.Ok q)
include h

/-- **A live name is found**, in the region its creation returned. -/
theorem find_of_live {name : ShmemName} {a : BitVec 32} (ha : q.2 name = some a) :
    ∃ i, q.1.find name = some i ∧ (q.1.regions i).virtAddr = a := by
  obtain ⟨j, hj, hu, hname⟩ := h.slot name a ha
  cases hf : q.1.find name with
  | none => exact absurd hname (Shmem.find_eq_none.mp hf j hj hu)
  | some i =>
    obtain ⟨hi, hiu, hin⟩ := Shmem.find_eq_some hf
    refine ⟨i, rfl, ?_⟩
    have hlive := h.live i hi hiu
    rw [hin, ha] at hlive
    exact (Option.some.inj hlive).symm

/-- A name that is not live is not found. -/
theorem find_of_not_live {name : ShmemName} (hn : q.2 name = none) : q.1.find name = none := by
  rw [Shmem.find_eq_none]
  rintro i hi hu rfl
  rw [h.live i hi hu] at hn
  cases hn

/-- **The table is a name map.** -/
theorem nameMap : NameMap q where
  opens name := by
    unfold shmemOpen
    cases hn : q.2 name with
    | none => rw [h.find_of_not_live hn, Option.getD_none]
    | some a =>
      obtain ⟨i, hf, ha⟩ := h.find_of_live hn
      rw [hf, Option.getD_some]
      exact ha
  creates name size a hn := by
    obtain ⟨i, hf, ha⟩ := h.find_of_live hn
    rw [shmemCreate, hf]
    exact ha
  apart i hi j hj hij hiu hju page := by
    rintro ⟨⟨x, hx₁, hx₂, hx⟩, y, hy₁, hy₂, hy⟩
    obtain ⟨hi₁, hi₂, -⟩ := h.extent i hi hiu
    obtain ⟨hj₁, hj₂, -⟩ := h.extent j hj hju
    rcases h.apart i hi j hj hij hiu hju with hlt | hlt <;> omega

/-- Pages tried for and given back change no region. -/
theorem advance {vmm : Vmm} {k : ℕ}
    (hv : vmm.nextVirt.toNat = q.1.vmm.nextVirt.toNat + k * 4096) :
    Shmem.Ok ({ q.1 with vmm }, q.2) := by
  have hnext := h.next
  refine ⟨⟨?_, ?_⟩, h.short, h.live, h.slot, h.inj, fun i hi hu => ?_, h.apart⟩
  · dsimp only
    omega
  · dsimp only
    omega
  · obtain ⟨h₁, h₂, h₃⟩ := h.extent i hi hu
    refine ⟨h₁, h₂, ?_⟩
    dsimp only at h₃ ⊢
    omega

/-- **A new region behind all others.** -/
theorem add {name : ShmemName} {i n : ℕ} {vmm : Vmm} (hn : q.2 name = none)
    (hlen : name.1.length ≤ 31) (hi : i < shmemMax) (hfree : (q.1.regions i).used = false)
    (hv : vmm.nextVirt.toNat = q.1.vmm.nextVirt.toNat + n * 4096) :
    Shmem.Ok (q.1.put i ⟨name, true, q.1.vmm.nextVirt, .ofNat 32 (n * 0x1000)⟩ vmm,
      update q.2 name (some q.1.vmm.nextVirt)) := by
  have hnext := h.next
  have hlt := vmm.nextVirt.isLt
  have hsize : (BitVec.ofNat 32 (n * 0x1000)).toNat = n * 4096 := by
    rw [BitVec.toNat_ofNat]
    omega
  -- the new region is slot `i`, the others are as they were
  obtain ⟨s', hs'⟩ : ∃ s', s' = q.1.put i ⟨name, true, q.1.vmm.nextVirt, .ofNat 32 (n * 0x1000)⟩ vmm :=
    ⟨_, rfl⟩
  have hnew : s'.regions i = ⟨name, true, q.1.vmm.nextVirt, .ofNat 32 (n * 0x1000)⟩ := by
    rw [hs']
    exact update_self ..
  have hold {j : ℕ} (hj : j ≠ i) : s'.regions j = q.1.regions j := by
    rw [hs']
    exact update_of_ne hj ..
  have hvmm : s'.vmm = vmm := by rw [hs']; rfl
  -- no region in use has the new name, as it is not live
  have hother {j : ℕ} (hj : j < shmemMax) (hu : (q.1.regions j).used = true) :
      (q.1.regions j).name ≠ name := by
    rintro rfl
    rw [h.live j hj hu] at hn
    cases hn
  rw [← hs']
  refine ⟨⟨?_, ?_⟩, fun j hj hu => ?_, fun j hj hu => ?_, fun m a ha => ?_,
    fun j hj k hk hju hku he => ?_, fun j hj hu => ?_, fun j hj k hk hjk hju hku => ?_⟩
  · rw [hvmm]
    omega
  · rw [hvmm]
    omega
  · by_cases hji : j = i
    · rw [hji, hnew]
      exact hlen
    · rw [hold hji] at hu ⊢
      exact h.short j hj hu
  · by_cases hji : j = i
    · rw [hji, hnew]
      exact update_self ..
    · rw [hold hji] at hu ⊢
      exact (update_of_ne (hother hj hu) ..).trans (h.live j hj hu)
  · by_cases hm : m = name
    · exact ⟨i, hi, by rw [hnew], by rw [hnew, hm]⟩
    · replace ha : q.2 m = some a := (update_of_ne hm ..).symm.trans ha
      obtain ⟨j, hj, hu, hname⟩ := h.slot m a ha
      have hji : j ≠ i := by
        rintro rfl
        rw [hfree] at hu
        cases hu
      exact ⟨j, hj, by rwa [hold hji], by rwa [hold hji]⟩
  · by_cases hji : j = i
    · by_cases hki : k = i
      · rw [hji, hki]
      · rw [hold hki] at hku he
        rw [hji, hnew] at he
        exact absurd he.symm (hother hk hku)
    · rw [hold hji] at hju he
      by_cases hki : k = i
      · rw [hki, hnew] at he
        exact absurd he (hother hj hju)
      · rw [hold hki] at hku he
        exact h.inj j hj k hk hju hku he
  · by_cases hji : j = i
    · rw [hji, hnew, hvmm]
      exact ⟨hnext.2, by rw [hsize]; omega, by rw [hsize]; exact hv.ge⟩
    · rw [hold hji] at hu ⊢
      rw [hvmm]
      obtain ⟨h₁, h₂, h₃⟩ := h.extent j hj hu
      exact ⟨h₁, h₂, by omega⟩
  · by_cases hji : j = i
    · have hki : k ≠ i := fun hki => hjk (hji.trans hki.symm)
      rw [hold hki] at hku ⊢
      rw [hji, hnew]
      exact .inr (h.extent k hk hku).2.2
    · rw [hold hji] at hju ⊢
      by_cases hki : k = i
      · rw [hki, hnew]
        exact .inl (h.extent j hj hju).2.2
      · rw [hold hki] at hku ⊢
        exact h.apart j hj k hk hjk hju hku

/-- **A region is closed.** -/
theorem remove {i : ℕ} {vmm : Vmm} (hi : i < shmemMax) (hu : (q.1.regions i).used = true)
    (hv : vmm.nextVirt = q.1.vmm.nextVirt) :
    Shmem.Ok (q.1.put i { q.1.regions i with used := false } vmm,
      update q.2 (q.1.regions i).name none) := by
  obtain ⟨s', hs'⟩ : ∃ s', s' = q.1.put i { q.1.regions i with used := false } vmm := ⟨_, rfl⟩
  have hvmm : s'.vmm = vmm := by rw [hs']; rfl
  -- a region still in use is another one, as it was
  have hold {j : ℕ} (hj : (s'.regions j).used = true) : j ≠ i ∧ s'.regions j = q.1.regions j := by
    by_cases hji : j = i
    · rw [hji, hs', Shmem.put_regions, update_self] at hj
      cases hj
    · rw [hs', Shmem.put_regions, update_of_ne hji]
      exact ⟨hji, rfl⟩
  rw [← hs']
  refine ⟨by rw [hvmm, hv]; exact h.next, fun j hj hju => ?_, fun j hj hju => ?_, fun m a ha => ?_,
    fun j hj k hk hju hku he => ?_, fun j hj hju => ?_, fun j hj k hk hjk hju hku => ?_⟩
  · obtain ⟨-, he⟩ := hold hju
    rw [he] at hju ⊢
    exact h.short j hj hju
  · obtain ⟨hji, he⟩ := hold hju
    rw [he] at hju ⊢
    have hne : (q.1.regions j).name ≠ (q.1.regions i).name :=
      fun hname => hji (h.inj j hj i hi hju hu hname)
    exact (update_of_ne hne ..).trans (h.live j hj hju)
  · by_cases hm : m = (q.1.regions i).name
    · have hnone : update q.2 (q.1.regions i).name none m = none := by rw [hm, update_self]
      cases hnone.symm.trans ha
    · replace ha : q.2 m = some a := (update_of_ne hm ..).symm.trans ha
      obtain ⟨j, hj, hju, hname⟩ := h.slot m a ha
      have hji : j ≠ i := by
        rintro rfl
        exact hm hname.symm
      have he : s'.regions j = q.1.regions j := by
        rw [hs']
        exact update_of_ne hji ..
      exact ⟨j, hj, by rwa [he], by rwa [he]⟩
  · obtain ⟨-, hej⟩ := hold hju
    obtain ⟨-, hek⟩ := hold hku
    rw [hej] at hju he
    rw [hek] at hku he
    exact h.inj j hj k hk hju hku he
  · obtain ⟨-, hej⟩ := hold hju
    rw [hej] at hju
    rw [hvmm, hv, hej]
    exact h.extent j hj hju
  · obtain ⟨-, hej⟩ := hold hju
    obtain ⟨-, hek⟩ := hold hku
    rw [hej] at hju ⊢
    rw [hek] at hku ⊢
    exact h.apart j hj k hk hjk hju hku

/-- What creating a region under a name that is not live can do. -/
theorem create_cases {name : ShmemName} (size : BitVec 32) (hn : q.2 name = none) :
    (∃ vmm k, shmemCreate name size q.1 = (0, { q.1 with vmm }) ∧
      vmm.nextVirt.toNat = q.1.vmm.nextVirt.toNat + k * 4096 ∧
      (q.1.freeSlot = none ∨ (takePages 0 0 (pagesOf size) q.1.vmm).1 = none)) ∨
    ∃ i vmm, i < shmemMax ∧ (q.1.regions i).used = false ∧ q.1.freeSlot ≠ none ∧
      (takePages 0 0 (pagesOf size) q.1.vmm).1 ≠ none ∧
      vmm.nextVirt.toNat = q.1.vmm.nextVirt.toNat + pagesOf size * 4096 ∧
      shmemCreate name size q.1 = (q.1.vmm.nextVirt, q.1.put i
        ⟨name.copy 32, true, q.1.vmm.nextVirt, .ofNat 32 (pagesOf size * 0x1000)⟩ vmm) := by
  have hcreate : shmemCreate name size q.1 = match q.1.freeSlot with
      | none => (0, q.1)
      | some i =>
        match takePages 0 0 (pagesOf size) q.1.vmm with
        | (none, vmm) => (0, { q.1 with vmm })
        | (some virt, vmm) => (virt, q.1.put i
            ⟨name.copy 32, true, virt, .ofNat 32 (pagesOf size * 0x1000)⟩ vmm) := by
    rw [shmemCreate, h.find_of_not_live hn]
  cases hslot : q.1.freeSlot with
  | none =>
    rw [hslot] at hcreate
    exact .inl ⟨q.1.vmm, 0, hcreate, by omega, .inl rfl⟩
  | some i =>
    rw [hslot] at hcreate
    obtain ⟨hi, hu⟩ := Shmem.freeSlot_eq_some hslot
    obtain ⟨k, hk, hres⟩ := takePages_spec (pagesOf_pos size) h.next.1
    rcases htake : takePages 0 0 (pagesOf size) q.1.vmm with ⟨- | virt, vmm⟩
    · rw [htake] at hcreate hk
      exact .inl ⟨vmm, k, hcreate, hk, .inr rfl⟩
    · rw [htake] at hcreate hk hres
      obtain ⟨hvirt, rfl⟩ := hres.resolve_left nofun
      obtain rfl := Option.some.inj hvirt
      exact .inr ⟨i, vmm, hi, hu, nofun, nofun, hk, hcreate⟩

/-- **An admitted call keeps the invariant.** -/
theorem step {c : ShmemCall} (hc : Storable q c) : Shmem.Ok (Shmem.recorded q c) := by
  cases c with
  | openName name => exact h
  | close name =>
    change Shmem.Ok (shmemClose name q.1, update q.2 name none)
    cases hf : q.1.find name with
    | none =>
      have hn : q.2 name = none := by
        by_contra hne
        obtain ⟨a, ha⟩ := Option.ne_none_iff_exists'.mp hne
        obtain ⟨i, hi, -⟩ := h.find_of_live ha
        rw [hf] at hi
        cases hi
      rw [shmemClose, hf, ← hn, Function.update_eq_self]
      exact h
    | some i =>
      rw [shmemClose, hf]
      obtain ⟨hi, hu, rfl⟩ := Shmem.find_eq_some hf
      exact h.remove hi hu (nextVirt_givePages _ _ _)
  | create name size =>
    rw [Shmem.recorded_create]
    cases hn : q.2 name with
    | some a =>
      obtain ⟨i, hf, -⟩ := h.find_of_live hn
      have hsame : (shmemCreate name size q.1).2 = q.1 := by rw [shmemCreate, hf]
      have hkeep : Shmem.Ok ((shmemCreate name size q.1).2, q.2) := by rwa [hsame]
      rw [if_neg fun hh => nomatch hh.1]
      exact hkeep
    | none =>
      rcases h.create_cases size hn with ⟨vmm, k, he, hv, -⟩ | ⟨i, vmm, hi, hu, hs, ht, hv, he⟩
      · rw [he, if_neg fun hh => hh.2 rfl]
        exact h.advance hv
      · have hlen : name.1.length ≤ 31 := hc.resolve_right (not_or.mpr ⟨hs, ht⟩)
        have hcopy : name.copy 32 = name := Subtype.ext (List.take_of_length_le hlen)
        have hnz : q.1.vmm.nextVirt ≠ 0 := fun h0 => by
          have := h.next.1
          rw [h0] at this
          exact absurd this (Nat.lt_irrefl 0)
        rw [he, if_pos ⟨rfl, hnz⟩, hcopy]
        exact h.add hn hlen hi hu hv

/-- **A region under a longer name is not found again.** -/
theorem not_nameMap {c : ShmemCall} (hc : ¬ Storable q c) : ¬ NameMap (Shmem.recorded q c) := by
  intro hm
  cases c with
  | openName name => exact hc trivial
  | close name => exact hc trivial
  | create name size =>
    obtain ⟨hlen, hrest⟩ := not_or.mp hc
    have hn : q.2 name = none := by
      by_contra hne
      obtain ⟨a, ha⟩ := Option.ne_none_iff_exists'.mp hne
      obtain ⟨i, hi, hu, rfl⟩ := h.slot name a ha
      exact hlen (h.short i hi hu)
    rcases h.create_cases size hn with ⟨_, _, -, -, hno⟩ | ⟨i, vmm, hi, hu, -, -, hv, he⟩
    · exact hrest hno
    · have hnz : q.1.vmm.nextVirt ≠ 0 := fun h0 => by
        have := h.next.1
        rw [h0] at this
        exact absurd this (Nat.lt_irrefl 0)
      have hopen := hm.opens name
      have hlive : (Shmem.recorded q (.create name size)).2 name = some q.1.vmm.nextVirt := by
        rw [Shmem.recorded_create, he, if_pos ⟨hn, hnz⟩]
        exact update_self ..
      have hnone : (Shmem.recorded q (.create name size)).1.find name = none := by
        rw [Shmem.recorded_create, he, Shmem.find_eq_none]
        intro j hj hju hname
        dsimp only at hju hname
        rw [Shmem.put_regions] at hju hname
        by_cases hji : j = i
        · rw [hji, update_self] at hname
          apply hlen
          rw [← hname]
          exact List.length_take_le _ _
        · rw [update_of_ne hji] at hju hname
          exact hlen (hname ▸ h.short j hj hju)
      rw [shmemOpen, hnone, hlive] at hopen
      exact hnz hopen.symm

end Shmem.Ok

/-- **At the start no name is live.** -/
theorem shmemOk_init (s : Shmem) :
    Shmem.Ok (shmemInit { s with vmm := vmmInit s.vmm }, fun _ => none) := by
  have hunused (i : ℕ) (hi : i < shmemMax) :
      ((shmemInit { s with vmm := vmmInit s.vmm }).regions i).used = false := by
    simp [shmemInit, hi]
  have hno {P : Prop} {i : ℕ} (hi : i < shmemMax)
      (hu : ((shmemInit { s with vmm := vmmInit s.vmm }).regions i).used = true) : P := by
    rw [hunused i hi] at hu
    cases hu
  have hbase : 0 < (0xD0000000#32).toNat ∧ (0xD0000000#32).toNat % 4096 = 0 := by decide
  exact ⟨hbase, fun i hi hu => hno hi hu, fun i hi hu => hno hi hu, nofun,
    fun i hi j hj hu => hno hi hu, fun i hi hu => hno hi hu, fun i hi j hj hij hu => hno hi hu⟩

/-- **Shared memory is a name map exactly when every name fits the table**: in a run from
`shmem_init` the operations are those of a map from the live names to regions that share no page, in
every state, exactly when no region is created under a name of more than 31 bytes. -/
theorem nameMap_iff (s : Shmem) (cs : List ShmemCall) :
    (∀ ds, ds <+: cs → NameMap
      (after Shmem.recorded (shmemInit { s with vmm := vmmInit s.vmm }, fun _ => none) ds)) ↔
    Admits Shmem.recorded Storable
      (shmemInit { s with vmm := vmmInit s.vmm }, fun _ => none) cs :=
  Machine.visits_iff (I := Shmem.Ok) (fun _ _ hq hc => hq.step hc) (fun _ hq => hq.nameMap)
    (fun _ _ hq hc => hq.not_nameMap hc) (shmemOk_init s)

/-- A machine with no region yet. -/
def smallShmem : Shmem where
  regions _ := ⟨⟨[], nofun⟩, false, 0, 0⟩
  vmm := smallBoot 0xFD000000

/-- A region is created under thirty-two letters and not found under them. -/
theorem nameMap_longName : ¬ NameMap (after Shmem.recorded
    (shmemInit { smallShmem with vmm := vmmInit smallShmem.vmm }, fun _ => none)
    [.create ⟨List.replicate 32 97, by decide⟩ 1]) := by
  have hbad : ¬ Storable (shmemInit { smallShmem with vmm := vmmInit smallShmem.vmm }, fun _ => none)
      (.create ⟨List.replicate 32 97, by decide⟩ 1) := ?_
  · exact (shmemOk_init smallShmem).not_nameMap hbad
  intro hs
  rcases hs with hlen | hslot | hpages
  · exact absurd hlen (by decide)
  · exact absurd hslot (by decide)
  · refine absurd hpages ?_
    decide +kernel

end WarkRune.Memory

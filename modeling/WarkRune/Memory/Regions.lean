import Mathlib.Logic.Relation
import WarkRune.Elf.Pages
import WarkRune.Memory.Shmem

/-!
# Regions, their pages and their frames

The pages of a region are counted up from the counter of `vmm_alloc`, each with a frame of its own;
a page that cannot be had gives the others back, and so does closing the region. Between the calls
the rest of the system takes and returns frames and pages of its own.

## Main definitions

* `Taken`, `GivenBack`: pages taken from a state on, and given back
* `Regions`: the regions in use are backed by outstanding frames, no two by the same
* `Shmem.Step`, `Reachable`: the calls and what the rest of the system does between them

## Main results

* `Taken.takePages`: the loop takes every page of a region, or gives back those it had
* `Regions.create_cases`, `Regions.close`: what the operations can do
* `Reachable.regions`: the regions in use are backed in every state of a run
-/

namespace WarkRune.Memory

open Function (update update_self update_of_ne)
open Elf (pageAt userFlags mapAll clearAll Space unmapPage unmapPages Spare)

/-! ## Pages given back -/

section Give

variable {base virt : BitVec 32}

theorem pageAt_aligned (hb : base.toNat % 4096 = 0) (p : ℕ) : (pageAt base p).toNat % 4096 = 0 := by
  rw [pageAt, BitVec.toNat_add, BitVec.toNat_ofNat]
  omega

/-- The address of a page that the address space has. -/
theorem toNat_pageAt {p : ℕ} (h : base.toNat + p * 4096 < 2 ^ 32) :
    (pageAt base p).toNat = base.toNat + p * 4096 := by
  rw [pageAt, BitVec.toNat_add, BitVec.toNat_ofNat]
  omega

/-- The frame allocator and the page tables. -/
def Vmm.space (s : Vmm) : Space := ⟨s.pmm, s.pages⟩

/-- `vmm_free` of a page is a round of the loop of `elf_unload`. -/
theorem vmmFree_eq (hv : virt.toNat % 4096 = 0) (s : Vmm) : vmmFree virt s =
    ⟨(unmapPage virt s.space).pmm, (unmapPage virt s.space).pages, s.nextVirt⟩ := by
  have hmask : pagingGetPhysical virt s.pages &&& 0xFFFFF000#32 =
      pagingGetPhysical virt s.pages := by
    unfold pagingGetPhysical
    dsimp only
    split_ifs
    · exact BitVec.zero_and
    · exact BitVec.zero_and
    · rw [offset_of_aligned hv, show (0 : BitVec 32) = 0#32 from rfl, BitVec.or_zero,
        BitVec.and_assoc, BitVec.and_self]
  unfold vmmFree unmapPage Elf.frameAt Vmm.space
  dsimp only
  rw [hmask]
  split_ifs <;> rfl

theorem givePages_zero (base : BitVec 32) (s : Vmm) : givePages base 0 s = s := rfl

/-- The loop that gives the pages of a region back is that of `elf_unload`. -/
theorem givePages_eq (hb : base.toNat % 4096 = 0) (n : ℕ) (s : Vmm) : givePages base n s =
    ⟨(unmapPages base 0 n s.space).pmm, (unmapPages base 0 n s.space).pages, s.nextVirt⟩ := by
  have hrange (n p : ℕ) (s : Vmm) :
      (List.range' p n).foldl (fun s p => vmmFree (base + .ofNat 32 (p * 0x1000)) s) s =
        ⟨(unmapPages base p n s.space).pmm, (unmapPages base p n s.space).pages, s.nextVirt⟩ := by
    induction n generalizing p s with
    | zero => rfl
    | succ n ih =>
      have hfree := vmmFree_eq (pageAt_aligned hb p) s
      rw [pageAt] at hfree
      rw [List.range'_succ, List.foldl_cons, ih, hfree]
      rfl
  rw [givePages, List.range_eq_range']
  exact hrange n 0 s

end Give

/-! ## Pages taken -/

section Take

variable {s₀ : Pmm} {t s : Vmm} {o : Finset ℕ} {fs : List ℕ} {n : ℕ}

/-- From `t` on the frames are taken: the pages from the counter on are mapped to them, one after
the other. -/
structure Taken (s₀ : Pmm) (o : Finset ℕ) (t : Vmm) (fs : List ℕ) (s : Vmm) : Prop where
  pages : s.pages = mapAll t.nextVirt 0 fs t.pages
  next : s.nextVirt.toNat = t.nextVirt.toNat + fs.length * 4096
  accounts : Pmm.Accounts s₀ s.pmm (o ∪ fs.toFinset)
  spare : Spare s₀ o fs

/-- Pages were taken from `t` on, at most `n` of them, and given back: their entries are clear. -/
structure GivenBack (s₀ : Pmm) (o : Finset ℕ) (t : Vmm) (n : ℕ) (s : Vmm) : Prop where
  linked : s.pages.Linked
  accounts : Pmm.Accounts s₀ s.pmm o
  next : t.nextVirt.toNat ≤ s.nextVirt.toNat ∧ s.nextVirt.toNat % 4096 = 0
  entries : ∀ virt, s.pages.entry virt = t.pages.entry virt ∨ s.pages.entry virt = 0 ∧
    ∃ j < n, t.nextVirt.toNat + j * 4096 < 2 ^ 32 ∧ pageOf virt = pageOf (pageAt t.nextVirt j)

theorem taken_nil (hacc : Pmm.Accounts s₀ t.pmm o) : Taken s₀ o t [] t where
  pages := rfl
  next := by rw [List.length_nil]; omega
  accounts := by rwa [List.toFinset_nil, Finset.union_empty]
  spare := ⟨List.nodup_nil, fun _ h => (List.not_mem_nil h).elim,
    fun _ h => (List.not_mem_nil h).elim⟩

namespace Taken

variable (h : Taken s₀ o t fs s)
include h

theorem bound : t.nextVirt.toNat + fs.length * 4096 < 2 ^ 32 := h.next ▸ s.nextVirt.isLt

/-- The counter is at the page after those taken. -/
theorem nextVirt_eq : s.nextVirt = pageAt t.nextVirt fs.length :=
  BitVec.eq_of_toNat_eq (h.next.trans (toNat_pageAt h.bound).symm)

theorem linked (hl : t.pages.Linked) : s.pages.Linked := by
  rw [h.pages]
  exact Elf.linked_mapAll hl

theorem entry {j f : ℕ} (hf : fs[j]? = some f) :
    s.pages.entry (pageAt t.nextVirt j) = mapWord (.ofNat 32 f) userFlags := by
  have hlt := h.bound
  rw [h.pages]
  exact Elf.entry_mapAll (by omega) hf (by rw [Nat.zero_add])

/-- The entries of the other pages are as they were. -/
theorem entry_of_ne {virt : BitVec 32}
    (hne : ∀ j < fs.length, pageOf virt ≠ pageOf (pageAt t.nextVirt j)) :
    s.pages.entry virt = t.pages.entry virt := by
  rw [h.pages]
  refine Elf.entry_mapAll_of_ne fun j hj => ?_
  rw [Nat.zero_add]
  exact hne j hj

variable (hp : s₀.Placed) (ha : s₀.bitmap % 4096 = 0)
include hp ha

/-- **The pages taken are given back.** -/
theorem give (hl : t.pages.Linked) (hnext : t.nextVirt.toNat % 4096 = 0) (hn : fs.length ≤ n) :
    GivenBack s₀ o t n (givePages t.nextVirt fs.length s) := by
  have hlt := h.bound
  have hentries : ∀ j f, fs[j]? = some f → s.space.pages.entry (pageAt t.nextVirt (0 + j)) =
      mapWord (.ofNat 32 f) userFlags := by
    intro j f hf
    rw [Nat.zero_add]
    exact h.entry hf
  obtain ⟨pmm, he, hacc⟩ := Elf.unmapPages_spec hp ha (by omega) (h.linked hl) hentries h.spare
    h.accounts
  rw [givePages_eq hnext, he]
  refine ⟨Elf.linked_clearAll (h.linked hl), hacc, ?_, fun virt => ?_⟩
  · have := h.next
    dsimp only
    omega
  · dsimp only
    -- a page taken is cleared, every other one is as before
    by_cases hin : ∃ j < fs.length, pageOf virt = pageOf (pageAt t.nextVirt j)
    · obtain ⟨j, hj, hpage⟩ := hin
      have hroom : t.nextVirt.toNat + j * 4096 < 2 ^ 32 :=
        (Nat.add_le_add_left (Nat.mul_le_mul_right _ hj.le) _).trans_lt hlt
      refine .inr ⟨?_, j, hj.trans_le hn, hroom, hpage⟩
      refine Elf.entry_clearAll (h.linked hl) hj ?_
      rw [Nat.zero_add]
      exact hpage
    · push Not at hin
      refine .inl ?_
      have hclear : (clearAll t.nextVirt 0 fs.length s.pages).entry virt = s.pages.entry virt := by
        refine Elf.entry_clearAll_of_ne (h.linked hl) fun j hj => ?_
        rw [Nat.zero_add]
        exact hin j hj
      exact hclear.trans (h.entry_of_ne hin)

/-- **A round of the loop**: the page of the counter is taken, or there is none to take. -/
theorem alloc (hnext : t.nextVirt.toNat % 4096 = 0 ∧ 0 < t.nextVirt.toNat) :
    ((vmmAlloc 0 userFlags s).1 = 0 ∧ Taken s₀ o t fs (vmmAlloc 0 userFlags s).2) ∨
    ((vmmAlloc 0 userFlags s).1 ≠ 0 ∧ (vmmAlloc 0 userFlags s).1 = pageAt t.nextVirt fs.length ∧
      ∃ f, Taken s₀ o t (fs ++ [f]) (vmmAlloc 0 userFlags s).2) := by
  have hs := h.next
  rcases vmmAlloc_cases hp ha h.accounts (by omega) userFlags with
    ⟨pmm, he, hacc, -⟩ | ⟨f, pmm, -, hf, hout, hacc, hsum, he⟩ <;> rw [he]
  · exact .inl ⟨rfl, h.pages, h.next, hacc, h.spare⟩
  · refine .inr ⟨fun h0 => ?_, h.nextVirt_eq, f, ?_, ?_, ?_, ?_⟩
    · have hzero : s.nextVirt.toNat = 0 := congrArg BitVec.toNat h0
      omega
    · rw [Elf.mapAll_concat, Nat.zero_add, ← h.nextVirt_eq, ← h.pages]
    · rw [List.length_append, List.length_singleton]
      dsimp only
      omega
    · rw [List.toFinset_append, List.toFinset_cons, List.toFinset_nil, insert_empty_eq,
        ← Finset.union_assoc, Finset.union_comm _ {f}, ← Finset.insert_eq]
      exact hacc
    · -- the frame was not outstanding, so it is not one of those taken
      rw [Finset.mem_union, not_or, List.mem_toFinset] at hout
      refine ⟨?_, fun g hg => ?_, fun g hg => ?_⟩
      · rw [List.nodup_append_comm]
        exact List.nodup_cons.mpr ⟨hout.2, h.spare.nodup⟩
      · rcases List.mem_append.mp hg with hg | hg
        · exact h.spare.addrs g hg
        · exact List.mem_singleton.mp hg ▸ hf
      · rcases List.mem_append.mp hg with hg | hg
        · exact h.spare.spare g hg
        · exact List.mem_singleton.mp hg ▸ hout.1

/-- **The loop** takes the pages that are left, or gives back those it had. -/
theorem takePages (hl : t.pages.Linked)
    (hnext : t.nextVirt.toNat % 4096 = 0 ∧ 0 < t.nextVirt.toNat) {virt : BitVec 32}
    (hvirt : fs ≠ [] → virt = t.nextVirt) (hn : 0 < fs.length + n) :
    (∃ gs, gs.length = fs.length + n ∧
      (takePages virt fs.length n s).1 = some t.nextVirt ∧
      Taken s₀ o t gs (takePages virt fs.length n s).2) ∨
    (takePages virt fs.length n s).1 = none ∧
      GivenBack s₀ o t (fs.length + n) (takePages virt fs.length n s).2 := by
  induction n generalizing fs s virt with
  | zero =>
    have hne : fs ≠ [] := by
      rintro rfl
      exact absurd hn (Nat.lt_irrefl 0)
    exact .inl ⟨fs, rfl, congrArg some (hvirt hne), h⟩
  | succ n ih =>
    rw [Memory.takePages]
    rcases h.alloc hp ha hnext with ⟨h0, htaken⟩ | ⟨h0, heq, f, htaken⟩
    · -- the pages taken start at the counter of `t`, if there are any
      have hgive : givePages virt fs.length (vmmAlloc 0 userFlags s).2 =
          givePages t.nextVirt fs.length (vmmAlloc 0 userFlags s).2 := by
        by_cases hne : fs = []
        · rw [hne, List.length_nil, givePages_zero, givePages_zero]
        · rw [hvirt hne]
      rw [show pagePresent ||| pageWrite ||| pageUser = userFlags from rfl, if_pos h0, hgive]
      exact .inr ⟨rfl, htaken.give hp ha hl hnext.1 (Nat.le_add_right _ _)⟩
    · have hlen : (fs ++ [f]).length = fs.length + 1 := List.length_append
      have hstart : fs ++ [f] ≠ [] → (if fs.length = 0 then (vmmAlloc 0 userFlags s).1 else virt) =
          t.nextVirt := by
        intro _
        split_ifs with hz
        · rw [heq, hz, pageAt]
          exact BitVec.add_zero _
        · exact hvirt fun hnil => hz (by rw [hnil]; rfl)
      have hrest := ih htaken hstart (by omega)
      rw [hlen, show fs.length + 1 + n = fs.length + (n + 1) by omega] at hrest
      rw [show pagePresent ||| pageWrite ||| pageUser = userFlags from rfl, if_neg h0]
      exact hrest

end Taken

end Take

/-! ## The invariant -/

/-- The frame is one of the allocator's, and taken. -/
def Pmm.Outstanding (s₀ s : Pmm) (p : ℕ) : Prop :=
  ∃ f, s₀.Allocatable f ∧ s₀.frameAddr f = p ∧ s.tst f = true

theorem Pmm.Accounts.outstanding_iff {s₀ s : Pmm} {o : Finset ℕ} {p : ℕ} (h : Accounts s₀ s o) :
    Outstanding s₀ s p ↔ p ∈ o := by
  constructor
  · rintro ⟨f, hf, rfl, ht⟩
    exact (h.marked f hf).mp ht
  · intro hpo
    obtain ⟨f, hf, rfl⟩ := mem_addrs.mp (h.sub hpo)
    exact ⟨f, hf, rfl, (h.marked f hf).mpr hpo⟩

/-- The pages of the region are mapped to the frames, which are outstanding; the region ends below
the counter. -/
structure Backed (vmm : Vmm) (o : Finset ℕ) (r : ShmemRegion) (fs : List ℕ) : Prop where
  aligned : r.virtAddr.toNat % 4096 = 0
  size : r.size.toNat = fs.length * 4096
  below : r.virtAddr.toNat + r.size.toNat ≤ vmm.nextVirt.toNat
  nodup : fs.Nodup
  out : ∀ f ∈ fs, f ∈ o
  entries : ∀ j f, fs[j]? = some f →
    vmm.pages.entry (pageAt r.virtAddr j) = mapWord (.ofNat 32 f) userFlags

/-- One of the areas ends before the other. -/
def ShmemRegion.Apart (r r' : ShmemRegion) : Prop :=
  r.virtAddr.toNat + r.size.toNat ≤ r'.virtAddr.toNat ∨
    r'.virtAddr.toNat + r'.size.toNat ≤ r.virtAddr.toNat

theorem ShmemRegion.Apart.symm {r r' : ShmemRegion} (h : r.Apart r') : r'.Apart r := Or.symm h

/-- **The regions in use** are backed by frames, no two by the same, and share no address. -/
structure Regions (s₀ : Pmm) (s : Shmem) (o : Finset ℕ) (frames : ℕ → List ℕ) : Prop where
  linked : s.vmm.pages.Linked
  accounts : Pmm.Accounts s₀ s.vmm.pmm o
  next : s.vmm.nextVirt.toNat % 4096 = 0 ∧ 0 < s.vmm.nextVirt.toNat
  backed : ∀ i < shmemMax, (s.regions i).used = true → Backed s.vmm o (s.regions i) (frames i)
  apart : ∀ i < shmemMax, ∀ j < shmemMax, i ≠ j → (s.regions i).used = true →
    (s.regions j).used = true →
      (frames i).Disjoint (frames j) ∧ (s.regions i).Apart (s.regions j)

/-- What the rest of the system does between the calls: it changes the page tables and the frames
that are outstanding, but leaves the regions with their pages and frames alone. -/
structure Others (s₀ : Pmm) (s s' : Shmem) : Prop where
  regions : s'.regions = s.regions
  linked : s'.vmm.pages.Linked
  accounts : ∃ o, Pmm.Accounts s₀ s'.vmm.pmm o
  next : s.vmm.nextVirt.toNat ≤ s'.vmm.nextVirt.toNat ∧ s'.vmm.nextVirt.toNat % 4096 = 0
  pages : ∀ i < shmemMax, (s.regions i).used = true → ∀ j, j * 4096 < (s.regions i).size.toNat →
    s'.vmm.pages.entry (pageAt (s.regions i).virtAddr j) =
      s.vmm.pages.entry (pageAt (s.regions i).virtAddr j)
  frames : ∀ i < shmemMax, (s.regions i).used = true → ∀ j, j * 4096 < (s.regions i).size.toNat →
    let frame := (pagingGetPhysical (pageAt (s.regions i).virtAddr j) s.vmm.pages).toNat
    Pmm.Outstanding s₀ s.vmm.pmm frame → Pmm.Outstanding s₀ s'.vmm.pmm frame

namespace Backed

variable {vmm vmm' : Vmm} {o o' : Finset ℕ} {r : ShmemRegion} {fs : List ℕ} {j : ℕ}
  (h : Backed vmm o r fs)
include h

/-- The pages of a region lie below the counter. -/
theorem page (hj : j < fs.length) : (pageAt r.virtAddr j).toNat = r.virtAddr.toNat + j * 4096 ∧
    (pageAt r.virtAddr j).toNat + 4096 ≤ r.virtAddr.toNat + r.size.toNat := by
  have hlt := vmm.nextVirt.isLt
  have hsize := h.size
  have hbelow := h.below
  have hto : (pageAt r.virtAddr j).toNat = r.virtAddr.toNat + j * 4096 :=
    toNat_pageAt (by omega)
  exact ⟨hto, by omega⟩

/-- A region whose pages and frames are left alone. -/
theorem keep (hnext : vmm.nextVirt.toNat ≤ vmm'.nextVirt.toNat) (hout : ∀ f ∈ fs, f ∈ o')
    (hpages : ∀ j < fs.length,
      vmm'.pages.entry (pageAt r.virtAddr j) = vmm.pages.entry (pageAt r.virtAddr j)) :
    Backed vmm' o' r fs where
  aligned := h.aligned
  size := h.size
  below := h.below.trans hnext
  nodup := h.nodup
  out := hout
  entries j f hf := (hpages j (List.getElem?_eq_some_iff.mp hf).1).trans (h.entries j f hf)

end Backed

namespace Regions

variable {s₀ : Pmm} {s s' : Shmem} {vmm : Vmm} {o : Finset ℕ} {fr : ℕ → List ℕ} {fs : List ℕ}
  {name : ShmemName} {i n : ℕ} (h : Regions s₀ s o fr)
include h

theorem givenBack_refl (n : ℕ) : GivenBack s₀ o s.vmm n s.vmm :=
  ⟨h.linked, h.accounts, ⟨Nat.le_refl _, h.next.1⟩, fun _ => .inl rfl⟩

/-- **Pages taken and given back** are behind all regions. -/
theorem givenBack (hg : GivenBack s₀ o s.vmm n vmm) : Regions s₀ { s with vmm } o fr where
  linked := hg.linked
  accounts := hg.accounts
  next := ⟨hg.next.2, h.next.2.trans_le hg.next.1⟩
  backed i hi hu := by
    have hb := h.backed i hi hu
    refine hb.keep hg.next.1 hb.out fun j hj => ?_
    rcases hg.entries (pageAt (s.regions i).virtAddr j) with he | ⟨-, k, -, hk, hpage⟩
    · exact he
    · -- a page of the region lies below the counter
      have hto := toNat_pageAt hk
      have hpj := (hb.page hj).2
      have hbelow := hb.below
      unfold pageOf at hpage
      omega
  apart := h.apart

/-- **A new region** behind all others. -/
theorem add {r : ShmemRegion} (ht : Taken s₀ o s.vmm fs vmm)
    (hfree : (s.regions i).used = false) (hvirt : r.virtAddr = s.vmm.nextVirt)
    (hsize : r.size.toNat = fs.length * 4096) :
    Regions s₀ (s.put i r vmm) (o ∪ fs.toFinset) (update fr i fs) := by
  have hnext := h.next
  have hadv := ht.next
  have hnew : Backed vmm (o ∪ fs.toFinset) r fs := by
    refine ⟨by rw [hvirt]; exact hnext.1, hsize, ?_, ht.spare.nodup, fun f hf => ?_,
      fun j f hf => ?_⟩
    · rw [hvirt, hsize]
      exact hadv.ge
    · exact Finset.mem_union_right _ (List.mem_toFinset.mpr hf)
    · rw [hvirt]
      exact ht.entry hf
  have hne {j : ℕ} (hu : (s.regions j).used = true) : j ≠ i := by
    rintro rfl
    rw [hfree] at hu
    cases hu
  -- an older region lies below the new one, and its frames were outstanding
  have hold {j : ℕ} (hj : j < shmemMax) (hu : (s.regions j).used = true) :
      Backed vmm (o ∪ fs.toFinset) (s.regions j) (fr j) ∧ (fr j).Disjoint fs ∧
        (s.regions j).Apart r := by
    have hb := h.backed j hj hu
    have hbelow := hb.below
    refine ⟨hb.keep (by omega) (fun f hf => Finset.mem_union_left _ (hb.out f hf))
      fun k hk => ht.entry_of_ne fun l hl hpage => ?_, fun f hf hf' => ?_, .inl ?_⟩
    · have hlt := ht.bound
      have hroom : s.vmm.nextVirt.toNat + l * 4096 < 2 ^ 32 :=
        (Nat.add_le_add_left (Nat.mul_le_mul_right _ hl.le) _).trans_lt hlt
      have hto := toNat_pageAt hroom
      have hpk := (hb.page hk).2
      unfold pageOf at hpage
      omega
    · exact ht.spare.spare f hf' (hb.out f hf)
    · rw [hvirt]
      exact hbelow
  refine ⟨ht.linked h.linked, ht.accounts, ?_, fun j hj hu => ?_, fun j hj k hk hjk hju hku => ?_⟩
  · rw [Shmem.put_vmm]
    omega
  · rw [Shmem.put_regions] at hu ⊢
    by_cases hji : j = i
    · rw [hji, update_self, update_self]
      exact hnew
    · rw [update_of_ne hji] at hu
      rw [update_of_ne hji, update_of_ne hji]
      exact (hold hj hu).1
  · rw [Shmem.put_regions] at hju hku ⊢
    by_cases hji : j = i
    · have hki : k ≠ i := fun hki => hjk (hji.trans hki.symm)
      rw [update_of_ne hki] at hku
      rw [hji, update_self, update_self, update_of_ne hki, update_of_ne hki]
      obtain ⟨-, hdisj, hapart⟩ := hold hk hku
      exact ⟨hdisj.symm, hapart.symm⟩
    · rw [update_of_ne hji] at hju
      rw [update_of_ne hji, update_of_ne hji]
      by_cases hki : k = i
      · rw [hki, update_self, update_self]
        exact (hold hj hju).2
      · rw [update_of_ne hki] at hku
        rw [update_of_ne hki, update_of_ne hki]
        exact h.apart j hj k hk hjk hju hku

/-- The rest of the system keeps the regions. -/
theorem others (hp : s₀.Placed) (ha : s₀.bitmap % 4096 = 0) (hx : Others s₀ s s') :
    ∃ o', Regions s₀ s' o' fr := by
  obtain ⟨o', hacc⟩ := hx.accounts
  refine ⟨o', hx.linked, hacc, ⟨hx.next.2, h.next.2.trans_le hx.next.1⟩, fun i hi hu => ?_, ?_⟩
  · rw [hx.regions] at hu ⊢
    have hb := h.backed i hi hu
    have hsize := hb.size
    refine hb.keep hx.next.1 (fun f hf => ?_) fun j hj => hx.pages i hi hu j (by omega)
    obtain ⟨j, hj, he⟩ := List.getElem_of_mem hf
    obtain ⟨hfa, -, hflt⟩ := hp.aligned ha (h.accounts.sub (hb.out f hf))
    have hphys := h.linked.getPhysical_frame
      (hb.entries j f (by rw [List.getElem?_eq_getElem hj, he])) (pageAt_aligned hb.aligned j)
      ⟨hfa, hflt⟩
    have hout := hx.frames i hi hu j (by omega)
    dsimp only at hout
    rw [hphys, toNat_frame hflt, h.accounts.outstanding_iff, hacc.outstanding_iff] at hout
    exact hout (hb.out f hf)
  · rw [hx.regions]
    exact h.apart

variable (hp : s₀.Placed) (ha : s₀.bitmap % 4096 = 0)
include hp ha

/-- **A region is closed**: its frames are not outstanding any more. -/
theorem close (hf : s.find name = some i) :
    Regions s₀ (shmemClose name s) (o \ (fr i).toFinset) fr := by
  obtain ⟨hi, hu, -⟩ := Shmem.find_eq_some hf
  have hb := h.backed i hi hu
  have hsub : (fr i).toFinset ⊆ o := fun f hf => hb.out f (List.mem_toFinset.mp hf)
  have hspare : Spare s₀ (o \ (fr i).toFinset) (fr i) :=
    ⟨hb.nodup, fun f hf => h.accounts.sub (hb.out f hf), fun f hf hn =>
      (Finset.mem_sdiff.mp hn).2 (List.mem_toFinset.mpr hf)⟩
  have hlen : (s.regions i).size.toNat / 0x1000 = (fr i).length := by
    rw [hb.size]
    exact Nat.mul_div_cancel _ (by decide)
  have hshort : (fr i).length ≤ 2 ^ 20 := by
    have := hb.size
    have := (s.regions i).size.isLt
    omega
  have hentries : ∀ j f, (fr i)[j]? = some f →
      s.vmm.space.pages.entry (pageAt (s.regions i).virtAddr (0 + j)) =
        mapWord (.ofNat 32 f) userFlags := by
    intro j f hf
    rw [Nat.zero_add]
    exact hb.entries j f hf
  obtain ⟨pmm, he, hacc⟩ := Elf.unmapPages_spec hp ha hshort h.linked hentries hspare
    (by rw [Finset.sdiff_union_of_subset hsub]; exact h.accounts)
  rw [shmemClose, hf]
  dsimp only
  rw [hlen, givePages_eq hb.aligned, he]
  -- a region still in use is another one, as it was
  have hold {j : ℕ} {vmm : Vmm}
      (hj : ((s.put i { s.regions i with used := false } vmm).regions j).used = true) :
      j ≠ i ∧ (s.put i { s.regions i with used := false } vmm).regions j = s.regions j := by
    by_cases hji : j = i
    · rw [hji, Shmem.put_regions, update_self] at hj
      cases hj
    · exact ⟨hji, update_of_ne hji ..⟩
  refine ⟨Elf.linked_clearAll h.linked, hacc, h.next, fun j hj hju => ?_,
    fun j hj k hk hjk hju hku => ?_⟩
  · obtain ⟨hji, he⟩ := hold hju
    rw [he] at hju ⊢
    have hbj := h.backed j hj hju
    obtain ⟨hdisj, hapart⟩ := h.apart j hj i hi hji hju hu
    refine hbj.keep (Nat.le_refl _) (fun f hf => ?_) fun k hk => ?_
    · exact Finset.mem_sdiff.mpr ⟨hbj.out f hf, fun hin => hdisj hf (List.mem_toFinset.mp hin)⟩
    · refine Elf.entry_clearAll_of_ne h.linked fun l hl hpage => ?_
      rw [Nat.zero_add] at hpage
      have hpk := hbj.page hk
      have hpl := hb.page hl
      unfold pageOf at hpage
      unfold ShmemRegion.Apart at hapart
      omega
  · obtain ⟨-, hej⟩ := hold hju
    obtain ⟨-, hek⟩ := hold hku
    rw [hej] at hju ⊢
    rw [hek] at hku ⊢
    exact h.apart j hj k hk hjk hju hku

/-- **What `shmem_create` can do**: it returns the region under the name, or gives back what pages
it took, or stores a new region with the pages from the counter on. -/
theorem create_cases (name : ShmemName) (size : BitVec 32) :
    (∃ i, s.find name = some i ∧ shmemCreate name size s = ((s.regions i).virtAddr, s)) ∨
    s.find name = none ∧
      ((∃ vmm, shmemCreate name size s = (0, { s with vmm }) ∧
        GivenBack s₀ o s.vmm (pagesOf size) vmm) ∨
      ∃ i fs vmm, i < shmemMax ∧ (s.regions i).used = false ∧ fs.length = pagesOf size ∧
        Taken s₀ o s.vmm fs vmm ∧ s.freeSlot ≠ none ∧
        (takePages 0 0 (pagesOf size) s.vmm).1 ≠ none ∧
        shmemCreate name size s = (s.vmm.nextVirt, s.put i
          ⟨name.copy 32, true, s.vmm.nextVirt, .ofNat 32 (pagesOf size * 0x1000)⟩ vmm)) := by
  cases hf : s.find name with
  | some i => exact .inl ⟨i, rfl, by rw [shmemCreate, hf]⟩
  | none =>
    refine .inr ⟨rfl, ?_⟩
    cases hslot : s.freeSlot with
    | none => exact .inl ⟨s.vmm, by simp only [shmemCreate, hf, hslot], h.givenBack_refl _⟩
    | some i =>
      obtain ⟨hi, hu⟩ := Shmem.freeSlot_eq_some hslot
      have hstart : ([] : List ℕ) ≠ [] → 0 = s.vmm.nextVirt := fun hne => absurd rfl hne
      -- the loop takes the pages from the counter on, with none taken at its start
      have htake := (taken_nil h.accounts).takePages hp ha h.linked h.next hstart
        (n := pagesOf size) (by rw [List.length_nil, Nat.zero_add]; exact pagesOf_pos size)
      rw [List.length_nil, Nat.zero_add] at htake
      rcases hpair : takePages 0 0 (pagesOf size) s.vmm with ⟨r, vmm⟩
      rw [hpair] at htake
      rcases htake with ⟨fs, hlen, hsome, ht⟩ | ⟨hnone, hg⟩
      · dsimp only at hsome
        subst hsome
        exact .inr ⟨i, fs, vmm, hi, hu, hlen, ht, Option.some_ne_none i, Option.some_ne_none _,
          by simp only [shmemCreate, hf, hslot, hpair]⟩
      · dsimp only at hnone
        subst hnone
        exact .inl ⟨vmm, by simp only [shmemCreate, hf, hslot, hpair], hg⟩

end Regions

/-- What is found under a name once a region is stored under it. -/
theorem Shmem.find_put {s : Shmem} {name : ShmemName} {i : ℕ} {r : ShmemRegion}
    (hf : s.find name = none) (hi : i < shmemMax) (hu : r.used = true) (vmm : Vmm) :
    (s.put i r vmm).find name = if r.name = name then some i else none := by
  have hother {j : ℕ} (hji : j ≠ i) (hj : j < shmemMax)
      (hju : ((s.put i r vmm).regions j).used = true) :
      ((s.put i r vmm).regions j).name ≠ name := by
    rw [put_regions, update_of_ne hji] at hju ⊢
    exact Shmem.find_eq_none.mp hf j hj hju
  have hself : (s.put i r vmm).regions i = r := update_self ..
  split_ifs with hname
  · cases hfind : (s.put i r vmm).find name with
    | none =>
      exact absurd (by rw [hself, hname]) (Shmem.find_eq_none.mp hfind i hi (by rw [hself, hu]))
    | some j =>
      obtain ⟨hj, hju, hjn⟩ := Shmem.find_eq_some hfind
      by_cases hji : j = i
      · rw [hji]
      · exact absurd hjn (hother hji hj hju)
  · rw [Shmem.find_eq_none]
    intro j hj hju
    by_cases hji : j = i
    · rw [hji, hself]
      exact hname
    · exact hother hji hj hju

/-- The stored name is the name, if it fits. -/
theorem ShmemName.copy_eq_iff (name : ShmemName) : name.copy 32 = name ↔ name.1.length ≤ 31 := by
  rw [ShmemName.copy, Subtype.ext_iff, List.take_eq_self_iff]

/-- The size stored for a new region does not wrap. -/
theorem Taken.size_eq {s₀ : Pmm} {t s : Vmm} {o : Finset ℕ} {fs : List ℕ} {size : BitVec 32}
    (h : Taken s₀ o t fs s) (hlen : fs.length = pagesOf size) :
    (BitVec.ofNat 32 (pagesOf size * 0x1000)).toNat = pagesOf size * 4096 := by
  have hbound := h.bound
  rw [hlen] at hbound
  rw [BitVec.toNat_ofNat]
  omega

/-! ## Runs -/

/-- A call's effect on the state; `shmem_open` has none. -/
def Shmem.call (s : Shmem) : ShmemCall → Shmem
  | .create name size => (shmemCreate name size s).2
  | .openName _ => s
  | .close name => shmemClose name s

/-- A call that is admissible, or what the rest of the system does. -/
inductive Shmem.Step (s₀ : Pmm) (Adm : Shmem → ShmemCall → Prop) (s : Shmem) : Shmem → Prop
  | call {c : ShmemCall} (hc : Adm s c) : Shmem.Step s₀ Adm s (s.call c)
  | others {s' : Shmem} (h : Others s₀ s s') : Shmem.Step s₀ Adm s s'

/-- **A state that calls in any order lead to**, from one after `vmm_init` and `shmem_init`. -/
inductive Reachable (s₀ : Pmm) : Shmem → Prop
  | start {s : Shmem} (hl : s.vmm.pages.Linked) (hacc : ∃ o, Pmm.Accounts s₀ s.vmm.pmm o) :
      Reachable s₀ (shmemInit { s with vmm := vmmInit s.vmm })
  | step {s s' : Shmem} (hs : Reachable s₀ s) (h : Shmem.Step s₀ (fun _ _ => True) s s') :
      Reachable s₀ s'

/-- The regions of a state stay, but those of a name that is closed. -/
theorem Regions.call {s₀ : Pmm} {s : Shmem} {o : Finset ℕ} {fr : ℕ → List ℕ}
    (h : Regions s₀ s o fr) (hp : s₀.Placed) (ha : s₀.bitmap % 4096 = 0) (c : ShmemCall) :
    ∃ o' fr', Regions s₀ (s.call c) o' fr' ∧
      ∀ i, (s.regions i).used = true → c ≠ .close (s.regions i).name →
        (s.call c).regions i = s.regions i ∧ fr' i = fr i := by
  cases c with
  | openName name => exact ⟨o, fr, h, fun _ _ _ => ⟨rfl, rfl⟩⟩
  | create name size =>
    simp only [Shmem.call]
    rcases h.create_cases hp ha name size with ⟨i, -, he⟩ | ⟨-, ⟨vmm, he, hg⟩ |
      ⟨i, fs, vmm, -, hu, hlen, ht, -, -, he⟩⟩ <;> rw [he]
    · exact ⟨o, fr, h, fun _ _ _ => ⟨rfl, rfl⟩⟩
    · exact ⟨o, fr, h.givenBack hg, fun _ _ _ => ⟨rfl, rfl⟩⟩
    · refine ⟨_, _, h.add ht hu rfl (by rw [hlen]; exact ht.size_eq hlen), fun j hju _ => ?_⟩
      · have hji : j ≠ i := by
          rintro rfl
          rw [hu] at hju
          cases hju
        exact ⟨update_of_ne hji .., update_of_ne hji ..⟩
  | close name =>
    simp only [Shmem.call]
    cases hf : s.find name with
    | none =>
      rw [shmemClose, hf]
      exact ⟨o, fr, h, fun _ _ _ => ⟨rfl, rfl⟩⟩
    | some i =>
      refine ⟨_, fr, h.close hp ha hf, fun j hju hc => ⟨?_, rfl⟩⟩
      obtain ⟨-, -, hname⟩ := Shmem.find_eq_some hf
      have hji : j ≠ i := by
        rintro rfl
        exact hc (by rw [hname])
      rw [shmemClose, hf]
      exact update_of_ne hji ..

/-- **The regions in use are backed in every state of a run.** -/
theorem Reachable.regions {s₀ : Pmm} (hp : s₀.Placed) (ha : s₀.bitmap % 4096 = 0) {s : Shmem}
    (hs : Reachable s₀ s) : ∃ o fr, Regions s₀ s o fr := by
  induction hs with
  | start hl hacc =>
    obtain ⟨o, hacc⟩ := hacc
    have hunused {P : Prop} {s : Shmem} {i : ℕ} (hi : i < shmemMax)
        (hu : ((shmemInit { s with vmm := vmmInit s.vmm }).regions i).used = true) : P := by
      simp [shmemInit, hi] at hu
    have hnext : (0xD0000000#32).toNat % 4096 = 0 ∧ 0 < (0xD0000000#32).toNat := by decide
    exact ⟨o, fun _ => [], hl, hacc, hnext, fun i hi hu => hunused hi hu,
      fun i hi j hj hij hu => hunused hi hu⟩
  | step _ hstep ih =>
    obtain ⟨o, fr, h⟩ := ih
    cases hstep with
    | call =>
      obtain ⟨o', fr', h', -⟩ := h.call hp ha _
      exact ⟨o', fr', h'⟩
    | others hx =>
      obtain ⟨o', h'⟩ := h.others hp ha hx
      exact ⟨o', fr, h'⟩

/-- **A page that another caller takes** from `vmm_alloc` leaves the regions alone. -/
theorem Regions.others_vmmAlloc {s₀ : Pmm} {s : Shmem} {o : Finset ℕ} {fr : ℕ → List ℕ}
    (h : Regions s₀ s o fr) (hp : s₀.Placed) (ha : s₀.bitmap % 4096 = 0) (flags : BitVec 32) :
    Others s₀ s { s with vmm := (vmmAlloc 0 flags s.vmm).2 } := by
  have hnext := h.next
  rcases vmmAlloc_cases hp ha h.accounts h.next.1 flags with
    ⟨pmm, he, hacc, -⟩ | ⟨f, pmm, -, -, -, hacc, hsum, he⟩ <;> rw [he]
  · refine ⟨rfl, h.linked, ⟨o, hacc⟩, ⟨Nat.le_refl _, hnext.1⟩, fun i hi hu j hj => rfl,
      fun i hi hu j hj => ?_⟩
    dsimp only
    rw [h.accounts.outstanding_iff, hacc.outstanding_iff]
    exact id
  · refine ⟨rfl, h.linked.map, ⟨_, hacc⟩, ?_, fun i hi hu j hj => ?_, fun i hi hu j hj => ?_⟩
    · dsimp only
      rw [hsum]
      omega
    · have hb := h.backed i hi hu
      have hpage := (hb.page (j := j) (by have := hb.size; omega)).2
      have hbelow := hb.below
      dsimp only
      rw [PageTables.entry_map, if_neg]
      unfold pageOf
      omega
    · dsimp only
      rw [h.accounts.outstanding_iff, hacc.outstanding_iff]
      exact Finset.mem_insert_of_mem

/-- The machine with no region yet, once it has started. -/
def startedShmem : Shmem := shmemInit { smallShmem with vmm := vmmInit smallShmem.vmm }

theorem fresh_small : Fresh 0xFD000000 (smallBoot 0xFD000000) :=
  fresh_boot _ _ _ (by decide) (by decide)

theorem reachable_started : Reachable (smallBoot 0xFD000000).pmm startedShmem :=
  .start fresh_small.linked ⟨∅, fresh_small.accounts⟩

end WarkRune.Memory

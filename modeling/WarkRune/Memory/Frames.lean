import WarkRune.Memory.Pmm
import Mathlib.Data.Finset.Card
import Mathlib.Data.Finset.Image
import Mathlib.Order.Interval.Finset.Nat
import Mathlib.Order.Bounds.Defs

/-!
# Frame accounting

A frame is outstanding from the call of `pmm_alloc` that returns its address to the first call of
`pmm_free` on an address inside it. That is what the callers see; the bitmap and the counter are
what the allocator keeps. On a region below 4 GiB the two agree after every run.

## Main definitions

* `Pmm.record`: the outstanding frames, by their addresses, over a call
* `Pmm.Placed`: the frames lie below 4 GiB
* `Pmm.Accounts s₀ s o`: the bitmap and the counter of `s` agree with the outstanding frames `o`

## Main results

* `Pmm.Accounts.step`: every call keeps the accounts
* `pmm_accounting`: after every run the counter counts the outstanding frames, `pmm_alloc`
  returns the lowest frame that is not, and `pmm_free` changes something exactly for an address
  in one that is
-/

namespace WarkRune.Memory

/-- The address lies in the frame at `p`. -/
def InFrame (p addr : ℕ) : Prop := p ≤ addr ∧ addr < p + pageSize

instance (p addr : ℕ) : Decidable (InFrame p addr) := inferInstanceAs (Decidable (_ ∧ _))

namespace Pmm

/-- The outstanding frames after a call: `pmm_alloc` adds the one it returns, `pmm_free` takes
away the one its address lies in. -/
def record (s : Pmm) (o : Finset ℕ) : PmmCall → Finset ℕ
  | .alloc => if (pmmAlloc s).1 = 0 then o else insert (pmmAlloc s).1 o
  | .free addr => o.filter fun p => ¬ InFrame p addr.toNat

/-- The allocator beside the record of the outstanding frames. -/
def recorded (p : Pmm × Finset ℕ) (c : PmmCall) : Pmm × Finset ℕ := (p.1.step c, p.1.record p.2 c)

/-- The variables of the allocator before `pmm_init`. -/
def boot (words : ℕ → BitVec 32) : Pmm := ⟨0, 0, 0, 0, words⟩

/-- The addresses of the allocatable frames. -/
def addrs (s : Pmm) : Finset ℕ := (Finset.Ico s.bmapSkip s.total).image s.frameAddr

/-- The frames lie below 4 GiB, and above the null pointer. -/
structure Placed (s : Pmm) : Prop where
  fits : s.bitmap + s.total * pageSize ≤ 2 ^ 32
  pos : s.total ≠ 0 → 0 < s.bitmap
  count : s.used + s.total < 2 ^ 32

variable {s s₀ : Pmm} {f g addr : ℕ} {o : Finset ℕ}

theorem mem_addrs {p : ℕ} : p ∈ s.addrs ↔ ∃ f, s.Allocatable f ∧ s.frameAddr f = p := by
  simp only [addrs, Finset.mem_image, Finset.mem_Ico, Allocatable]

namespace Placed

variable (h : s.Placed)
include h

theorem frameAddr_eq (hf : s.Allocatable f) : s.frameAddr f = s.bitmap + f * pageSize := by
  have hfits := h.fits
  have hlt := hf.2
  unfold pageSize at hfits
  unfold Pmm.frameAddr pageSize
  exact Nat.mod_eq_of_lt (by omega)

theorem frameAddr_pos (hf : s.Allocatable f) : s.frameAddr f ≠ 0 := by
  have hpos := h.pos (Nat.ne_zero_of_lt hf.2)
  rw [h.frameAddr_eq hf]
  omega

/-- Frames with one address are the same, and lower frames have lower addresses. -/
theorem frameAddr_le_iff (hf : s.Allocatable f) (hg : s.Allocatable g) :
    s.frameAddr f ≤ s.frameAddr g ↔ f ≤ g := by
  rw [h.frameAddr_eq hf, h.frameAddr_eq hg]
  unfold pageSize
  omega

theorem frameAddr_inj (hf : s.Allocatable f) (hg : s.Allocatable g) :
    s.frameAddr f = s.frameAddr g ↔ f = g := by
  rw [h.frameAddr_eq hf, h.frameAddr_eq hg]
  unfold pageSize
  omega

/-- **The frame `pmm_free` computes** is the one the address lies in: the subtraction does not
lead from an address below the region to a frame. -/
theorem inFrame_iff (hf : s.Allocatable f) (ha : addr < 2 ^ 32) :
    InFrame (s.frameAddr f) addr ↔ s.frameOf addr = f := by
  have hfits := h.fits
  have hlt := hf.2
  unfold InFrame
  rw [h.frameAddr_eq hf]
  unfold pageSize at hfits ⊢
  unfold frameOf pageSize
  by_cases hb : s.bitmap ≤ addr
  · rw [show (addr + 2 ^ 32 - s.bitmap) % 2 ^ 32 = addr - s.bitmap by omega]
    omega
  · rw [Nat.mod_eq_of_lt (by omega : addr + 2 ^ 32 - s.bitmap < 2 ^ 32)]
    omega

end Placed

/-- The bitmap and the counter agree with the outstanding frames. -/
structure Accounts (s₀ s : Pmm) (o : Finset ℕ) : Prop where
  frames : s₀.SameFrames s
  sub : o ⊆ s₀.addrs
  marked : ∀ f, s₀.Allocatable f → (s.tst f = true ↔ s₀.frameAddr f ∈ o)
  used : s.used = s₀.used + o.card

namespace Accounts

variable (h : Accounts s₀ s o) (hp : s₀.Placed)
include h

theorem card_le : o.card ≤ s₀.total := by
  refine (Finset.card_le_card h.sub).trans (Finset.card_image_le.trans ?_)
  rw [Nat.card_Ico]
  exact Nat.sub_le _ _

include hp

/-- The outstanding frames that an address lies in: the one that `pmm_free` computes, if any. -/
theorem record_free (addr : BitVec 32) : s.record o (.free addr) =
    if s₀.Allocatable (s₀.frameOf addr.toNat) then o.erase (s₀.frameAddr (s₀.frameOf addr.toNat))
    else o := by
  ext p
  simp only [record, Finset.mem_filter]
  constructor
  · rintro ⟨hpo, hout⟩
    split
    · next ha =>
      refine Finset.mem_erase.mpr ⟨?_, hpo⟩
      rintro rfl
      exact hout ((hp.inFrame_iff ha addr.isLt).mpr rfl)
    · exact hpo
  · intro hmem
    have hpo : p ∈ o := by
      split at hmem
      · exact Finset.mem_of_mem_erase hmem
      · exact hmem
    refine ⟨hpo, fun hin => ?_⟩
    obtain ⟨f, hf, rfl⟩ := mem_addrs.mp (h.sub hpo)
    have hfo := (hp.inFrame_iff hf addr.isLt).mp hin
    rw [hfo, if_pos hf] at hmem
    exact Finset.notMem_erase _ _ hmem

/-- An allocation keeps the accounts. -/
theorem alloc : Accounts s₀ (s.step .alloc) (s.record o .alloc) := by
  rcases pmmAlloc_cases s with ⟨f, hf, hclear, -, he⟩ | ⟨-, he⟩
  swap
  · simp only [step, record, he, ↓reduceIte]
    exact h
  have hf₀ := (h.frames.allocatable f).mp hf
  have haddr : s.frameAddr f = s₀.frameAddr f := h.frames.frameAddr f
  have hout : s₀.frameAddr f ∉ o := by
    intro hmem
    have := (h.marked f hf₀).mpr hmem
    rw [hclear] at this
    cases this
  have hcard := h.card_le
  have hcount := hp.count
  simp only [step, record, he, haddr, hp.frameAddr_pos hf₀, ↓reduceIte]
  refine ⟨h.frames.trans ⟨rfl, rfl, rfl⟩, ?_, fun g hg => ?_, ?_⟩
  · intro p hpm
    rcases Finset.mem_insert.mp hpm with rfl | hpm
    · exact mem_addrs.mpr ⟨f, hf₀, rfl⟩
    · exact h.sub hpm
  · rw [tst_used, tst_set, Bool.or_eq_true, decide_eq_true_iff, Finset.mem_insert]
    exact or_congr (hp.frameAddr_inj hg hf₀).symm (h.marked g hg)
  · have hused := h.used
    rw [Finset.card_insert_of_notMem hout]
    show (s.used + 1) % 2 ^ 32 = _
    -- there are fewer outstanding frames than frames, so the count does not wrap
    have hlt : o.card < s₀.total := by
      refine (Finset.card_lt_card ⟨h.sub, fun hall => hout ?_⟩).trans_le ?_
      · exact hall (mem_addrs.mpr ⟨f, hf₀, rfl⟩)
      · refine Finset.card_image_le.trans ?_
        rw [Nat.card_Ico]
        exact Nat.sub_le _ _
    omega

/-- A release keeps the accounts. -/
theorem free (addr : BitVec 32) :
    Accounts s₀ (s.step (.free addr)) (s.record o (.free addr)) := by
  have hof : s.frameOf addr.toNat = s₀.frameOf addr.toNat := by
    rw [frameOf, frameOf, h.frames.1]
  rw [h.record_free hp]
  rcases pmmFree_cases addr.toNat s with ⟨-, hf, hmark, he⟩ | ⟨hnone, he⟩
  · rw [hof] at hf hmark he
    have hf₀ := (h.frames.allocatable _).mp hf
    have hin := (h.marked _ hf₀).mp hmark
    have hpos : 0 < o.card := Finset.card_pos.mpr ⟨_, hin⟩
    have hcard := h.card_le
    have hcount := hp.count
    have hused := h.used
    rw [if_pos hf₀, step, he]
    refine ⟨h.frames.trans ⟨rfl, rfl, rfl⟩, (Finset.erase_subset _ _).trans h.sub,
      fun g hg => ?_, ?_⟩
    · rw [tst_used, tst_clr, Bool.and_eq_true, decide_eq_true_iff, Finset.mem_erase]
      exact and_congr (not_congr (hp.frameAddr_inj hg hf₀)).symm (h.marked g hg)
    · rw [Finset.card_erase_of_mem hin]
      show (s.used + 2 ^ 32 - 1) % 2 ^ 32 = _
      omega
  · rw [step, he]
    split
    swap
    · exact h
    next hf₀ =>
    -- the frame is allocatable and not marked, so it is not outstanding
    rw [Finset.erase_eq_of_notMem]
    · exact h
    intro hin
    have hmark := (h.marked _ hf₀).mpr hin
    rw [hof] at hnone
    rcases hnone with h0 | hna | hclear
    · obtain ⟨hle, -⟩ := (hp.inFrame_iff hf₀ addr.isLt).mpr rfl
      have := hp.frameAddr_pos hf₀
      omega
    · exact hna ((h.frames.allocatable _).mpr hf₀)
    · rw [hclear] at hmark
      cases hmark

/-- **Every call keeps the accounts.** -/
theorem step (c : PmmCall) : Accounts s₀ (s.step c) (s.record o c) := by
  cases c with
  | alloc => exact h.alloc hp
  | free addr => exact h.free hp addr

/-- What balanced accounts promise the callers. -/
theorem promises : (s₀.used ≤ s.used ∧ s.used - s₀.used = o.card) ∧
    ((∃ p ∈ s₀.addrs, p ∉ o) → IsLeast {p | p ∈ s₀.addrs ∧ p ∉ o} (pmmAlloc s).1) ∧
    ((∀ p ∈ s₀.addrs, p ∈ o) → (pmmAlloc s).1 = 0) ∧
    ∀ addr : BitVec 32, (s.step (.free addr) ≠ s ↔ ∃ p ∈ o, InFrame p addr.toNat) ∧
      ∀ p ∈ o, InFrame p addr.toNat → s.record o (.free addr) = o.erase p := by
  have hused := h.used
  refine ⟨⟨by omega, by omega⟩, fun hsome => ?_, fun hall => ?_, fun addr => ⟨?_, ?_⟩⟩
  · -- the first clear bit is the lowest address that is not outstanding
    rcases pmmAlloc_cases s with ⟨f, hf, hclear, hmin, he⟩ | ⟨hfull, -⟩
    · have hf₀ := (h.frames.allocatable f).mp hf
      rw [he, h.frames.frameAddr]
      refine ⟨⟨Pmm.mem_addrs.mpr ⟨f, hf₀, rfl⟩, fun hin => ?_⟩, ?_⟩
      · have := (h.marked f hf₀).mpr hin
        rw [hclear] at this
        cases this
      · rintro p ⟨hpa, hpo⟩
        obtain ⟨g, hg, rfl⟩ := Pmm.mem_addrs.mp hpa
        refine (hp.frameAddr_le_iff hf₀ hg).mpr (hmin g ((h.frames.allocatable g).mpr hg) ?_)
        exact Bool.eq_false_iff.mpr fun hm => hpo ((h.marked g hg).mp hm)
    · obtain ⟨p, hpa, hpo⟩ := hsome
      obtain ⟨g, hg, rfl⟩ := Pmm.mem_addrs.mp hpa
      exact absurd ((h.marked g hg).mp (hfull g ((h.frames.allocatable g).mpr hg))) hpo
  · rcases pmmAlloc_cases s with ⟨f, hf, hclear, -, -⟩ | ⟨-, he⟩
    · have hf₀ := (h.frames.allocatable f).mp hf
      have := (h.marked f hf₀).mpr (hall _ (Pmm.mem_addrs.mpr ⟨f, hf₀, rfl⟩))
      rw [hclear] at this
      cases this
    · rw [he]
  · -- a call changes the bitmap only where it clears a set bit: that of an outstanding frame
    have hof : s.frameOf addr.toNat = s₀.frameOf addr.toNat := by
      rw [Pmm.frameOf, Pmm.frameOf, h.frames.1]
    rcases pmmFree_cases addr.toNat s with ⟨-, hf, hmark, he⟩ | ⟨hnone, he⟩
    · rw [hof] at hf hmark he
      have hf₀ := (h.frames.allocatable _).mp hf
      have hin := (h.marked _ hf₀).mp hmark
      rw [Pmm.step, he]
      exact iff_of_true (Pmm.clr_ne hmark _) ⟨_, hin, (hp.inFrame_iff hf₀ addr.isLt).mpr rfl⟩
    · rw [Pmm.step, he]
      refine iff_of_false (not_not_intro rfl) ?_
      rintro ⟨p, hpo, hin⟩
      obtain ⟨f, hf₀, rfl⟩ := Pmm.mem_addrs.mp (h.sub hpo)
      have hfo := (hp.inFrame_iff hf₀ addr.isLt).mp hin
      rw [hof, hfo] at hnone
      rcases hnone with h0 | hna | hclear
      · have := hp.frameAddr_pos hf₀
        have := hin.1
        omega
      · exact hna ((h.frames.allocatable _).mpr hf₀)
      · have := (h.marked f hf₀).mpr hpo
        rw [hclear] at this
        cases this
  · intro p hpo hin
    obtain ⟨f, hf₀, rfl⟩ := Pmm.mem_addrs.mp (h.sub hpo)
    have hfo := (hp.inFrame_iff hf₀ addr.isLt).mp hin
    rw [h.record_free hp, hfo, if_pos hf₀]

/-- **`pmm_alloc` on balanced accounts**: null and no change, or a frame that was not outstanding. -/
theorem pmmAlloc_spec : (pmmAlloc s = (0, s) ∧ ∀ p ∈ s₀.addrs, p ∈ o) ∨
    ∃ p ∈ s₀.addrs, p ∉ o ∧ (pmmAlloc s).1 = p ∧ Accounts s₀ (pmmAlloc s).2 (insert p o) := by
  have halloc := h.alloc hp
  rcases pmmAlloc_cases s with ⟨f, hf, hclear, -, he⟩ | ⟨hfull, he⟩
  · have hf₀ := (h.frames.allocatable f).mp hf
    have hpos := hp.frameAddr_pos hf₀
    rw [Pmm.step, record, he, h.frames.frameAddr, if_neg hpos] at halloc
    refine .inr ⟨s₀.frameAddr f, Pmm.mem_addrs.mpr ⟨f, hf₀, rfl⟩, fun hin => ?_, ?_, ?_⟩
    · have := (h.marked f hf₀).mpr hin
      rw [hclear] at this
      cases this
    · rw [he, h.frames.frameAddr]
    · rw [he]
      exact halloc
  · refine .inl ⟨he, fun p hpa => ?_⟩
    obtain ⟨f, hf, rfl⟩ := Pmm.mem_addrs.mp hpa
    exact (h.marked f hf).mp (hfull f ((h.frames.allocatable f).mpr hf))

/-- **`pmm_free` on balanced accounts** releases the frame that an address is the start of. -/
theorem pmmFree_spec {p : ℕ} (hpo : p ∈ o) : Accounts s₀ (pmmFree p s) (o.erase p) := by
  obtain ⟨f, hf, hfp⟩ := Pmm.mem_addrs.mp (h.sub hpo)
  have hlt : p < 2 ^ 32 := by
    rw [← hfp]
    exact Nat.mod_lt _ (by decide)
  have hto : (BitVec.ofNat 32 p).toNat = p := by rw [BitVec.toNat_ofNat, Nat.mod_eq_of_lt hlt]
  have hfree := h.free hp (.ofNat 32 p)
  have hin : InFrame p (BitVec.ofNat 32 p).toNat := by
    rw [hto]
    exact ⟨Nat.le_refl _, by unfold pageSize; omega⟩
  rw [(h.promises hp).2.2.2 (.ofNat 32 p) |>.2 p hpo hin, Pmm.step, hto] at hfree
  exact hfree

end Accounts

end Pmm

/-! ## Over a run -/

section Run

variable {map : List E820Entry} (words : ℕ → BitVec 32)
  (hbelow : (bestRegion map).1 + (bestRegion map).2 ≤ 2 ^ 32)
include hbelow

/-- A region below 4 GiB is placed, and its accounts start balanced. -/
theorem pmmInit_placed : (pmmInit map (.boot words)).Placed ∧
    Pmm.Accounts (pmmInit map (.boot words)) (pmmInit map (.boot words)) ∅ := by
  obtain ⟨hnone | ⟨e, -, hu, he⟩, -⟩ := bestRegion_spec map
  · rw [pmmInit_none hnone]
    have hplaced : (Pmm.boot words).Placed := by
      constructor <;> simp [Pmm.boot]
    refine ⟨hplaced, ⟨Pmm.sameFrames_refl _, by simp, ?_, rfl⟩⟩
    rintro f ⟨-, hf⟩
    exact absurd hf (Nat.not_lt_zero f)
  · have hbase := hu.2.1
    have hlen := hu.2.2
    rw [he] at hbelow
    dsimp only at hbelow
    obtain ⟨hb, ht, hk, hused, hclear⟩ :=
      pmmInit_spec he (by omega) (by omega) (.boot words)
    unfold pageSize kmallocReservedPages at *
    refine ⟨⟨?_, fun _ => ?_, ?_⟩, ⟨Pmm.sameFrames_refl _, by simp, fun f hf => ?_, by simp⟩⟩
    · rw [hb, ht, pageSize]
      omega
    · rw [hb]
      omega
    · rw [hused, hk, ht]
      omega
    · rw [hclear f hf]
      simp

theorem pmm_accounts (cs : List PmmCall) :
    Pmm.Accounts (pmmInit map (.boot words))
      (Machine.after Pmm.step (pmmInit map (.boot words)) cs)
      (Machine.after Pmm.recorded (pmmInit map (.boot words), ∅) cs).2 := by
  obtain ⟨hp, ha⟩ := pmmInit_placed words hbelow
  have hinv : Pmm.Accounts (pmmInit map (.boot words))
      (Machine.after Pmm.recorded (pmmInit map (.boot words), ∅) cs).1
      (Machine.after Pmm.recorded (pmmInit map (.boot words), ∅) cs).2 :=
    Machine.invariant_of_forall
      (I := fun p : Pmm × Finset ℕ => Pmm.Accounts (pmmInit map (.boot words)) p.1 p.2)
      (fun p c h => h.step hp c) ha cs
  have hfst : (Machine.after Pmm.recorded (pmmInit map (.boot words), ∅) cs).1 =
      Machine.after Pmm.step (pmmInit map (.boot words)) cs :=
    Machine.simulates (R := fun (p : Pmm × Finset ℕ) t => p.1 = t)
      (fun p t c h (_ : True) => by rw [← h]; rfl) rfl
      (Machine.admits_of_forall (fun _ _ => trivial) _ cs)
  rwa [hfst] at hinv

/-- **The allocator and its callers agree after every run** on a region below 4 GiB: the counter
has grown by the number of outstanding frames, `pmm_alloc` returns the lowest allocatable frame
that is not outstanding, or null when there is none, and `pmm_free` changes something exactly for
an address in an outstanding frame, which it then releases. -/
theorem pmm_accounting (cs : List PmmCall) :
    let s₀ := pmmInit map (.boot words)
    let s := Machine.after Pmm.step s₀ cs
    let o := (Machine.after Pmm.recorded (s₀, ∅) cs).2
    (s₀.used ≤ s.used ∧ s.used - s₀.used = o.card) ∧
      ((∃ p ∈ s₀.addrs, p ∉ o) → IsLeast {p | p ∈ s₀.addrs ∧ p ∉ o} (pmmAlloc s).1) ∧
      ((∀ p ∈ s₀.addrs, p ∈ o) → (pmmAlloc s).1 = 0) ∧
      ∀ addr : BitVec 32, (s.step (.free addr) ≠ s ↔ ∃ p ∈ o, InFrame p addr.toNat) ∧
        ∀ p ∈ o, InFrame p addr.toNat → s.record o (.free addr) = o.erase p :=
  (pmm_accounts words hbelow cs).promises (pmmInit_placed words hbelow).1

end Run

/-- The theorem on a map with one region of 200 pages at 1 MB. -/
theorem pmm_accounting_small :
    let map : List E820Entry := [⟨0x100000, 200 * pageSize, 1, by decide, by decide⟩]
    let s := Machine.after Pmm.step (pmmInit map (.boot fun _ => 0)) [.alloc]
    s.used - (pmmInit map (.boot fun _ => 0)).used =
      (Machine.after Pmm.recorded (pmmInit map (.boot fun _ => 0), ∅) [.alloc]).2.card :=
  (pmm_accounting _ (by decide) _).1.2

end WarkRune.Memory

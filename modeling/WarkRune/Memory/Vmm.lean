import WarkRune.Memory.Frames
import WarkRune.Memory.Paging

/-!
# Pages for the kernel

`vmm_alloc` takes a frame and maps it at an address of its own, counted up from `0xD0000000`;
`vmm_free` unmaps the page and gives the frame back. The counter never looks at the page tables,
and `paging_init` has mapped the framebuffer where the firmware put it.

## Main definitions

* `Vmm`: the frame allocator, the page tables and the counter
* `vmmAlloc`, `vmmFree`: the operations
* `Vmm.step`: runs of the operations beside the live pages
* `StepSound`, `StepClear`: what a call promises, and when it keeps the promise

## Main results

* `vmm_sound_iff`: every call of a run keeps its promise exactly when no page is allocated inside the
  framebuffer
-/

namespace WarkRune.Memory

open Machine (after Admits)

/-- The frame allocator, the page tables and the counter `next_virt`. -/
structure Vmm where
  pmm : Pmm
  pages : PageTables
  nextVirt : BitVec 32

/-- `vmm_init`. -/
def vmmInit (s : Vmm) : Vmm := { s with nextVirt := 0xD0000000 }

/-- `vmm_alloc`; null is 0. -/
def vmmAlloc (virt flags : BitVec 32) (s : Vmm) : BitVec 32 × Vmm :=
  let (frame, pmm) := pmmAlloc s.pmm
  if frame = 0 then (0, { s with pmm })
  else if virt = 0 then
    if s.nextVirt + 4096 < s.nextVirt then (0, { s with pmm := pmmFree frame pmm })
    else (s.nextVirt, {
      pmm
      pages := pagingMap s.nextVirt (.ofNat 32 frame) flags s.pages
      nextVirt := s.nextVirt + 4096 })
  else (virt, { s with pmm, pages := pagingMap virt (.ofNat 32 frame) flags s.pages })

/-- `vmm_free`. -/
def vmmFree (virt : BitVec 32) (s : Vmm) : Vmm :=
  let phys := pagingGetPhysical virt s.pages
  if phys = 0 then s
  else { s with pages := pagingUnmap virt s.pages, pmm := pmmFree phys.toNat s.pmm }

/-! ## Runs -/

/-- A call: `vmm_alloc(0, flags)`, or `vmm_free`. -/
inductive VmmCall
  | alloc (flags : BitVec 32)
  | free (virt : BitVec 32)

/-- The live pages: their addresses and the frames `pmm_alloc` returned for them. -/
abbrev LivePages := List (BitVec 32 × ℕ)

/-- A call beside the live pages; `vmm_free` is called on a live page. -/
def Vmm.step (q : Vmm × LivePages) : VmmCall → Vmm × LivePages
  | .alloc flags =>
    let r := vmmAlloc 0 flags q.1
    (r.2, if r.1 = 0 then q.2 else (r.1, (pmmAlloc q.1.pmm).1) :: q.2)
  | .free virt =>
    if virt ∈ q.2.map Prod.fst then (vmmFree virt q.1, q.2.filter fun x => x.1 ≠ virt) else q

/-- The live pages translate to frames of the allocator, no two to the same. -/
def LiveSound (s₀ : Vmm) (q : Vmm × LivePages) : Prop :=
  (∀ x ∈ q.2, pagingGetPhysical x.1 q.1.pages = .ofNat 32 x.2 ∧ x.2 ∈ s₀.pmm.addrs) ∧
    q.2.Pairwise fun x y => x.2 ≠ y.2

/-- **What a call promises** in a run from `s₀`: the live pages are sound, a page returned was not
mapped, no other live mapping and no mapping from before the run changes, and a page given back
releases its frame and no other. -/
structure StepSound (s₀ : Vmm) (q : Vmm × LivePages) (c : VmmCall) : Prop where
  live : LiveSound s₀ (Vmm.step q c)
  fresh : ∀ flags, c = .alloc flags → (vmmAlloc 0 flags q.1).1 ≠ 0 →
    q.1.pages.mapping (vmmAlloc 0 flags q.1).1 = none
  keepsLive : ∀ x ∈ q.2, x ∈ (Vmm.step q c).2 →
    (Vmm.step q c).1.pages.mapping x.1 = q.1.pages.mapping x.1
  keepsInit : ∀ virt w, s₀.pages.mapping virt = some w →
    (Vmm.step q c).1.pages.mapping virt = some w
  frees : ∀ virt f, c = .free virt → (virt, f) ∈ q.2 →
    (∃ g, s₀.pmm.Allocatable g ∧ s₀.pmm.frameAddr g = f ∧ q.1.pmm.tst g = true) ∧
      ∀ g, s₀.pmm.Allocatable g → ((Vmm.step q c).1.pmm.tst g = true ↔
        q.1.pmm.tst g = true ∧ s₀.pmm.frameAddr g ≠ f)

/-- A call that allocates has no frame to take, or its page is outside the framebuffer. -/
def StepClear (fb : BitVec 32) (q : Vmm × LivePages) : VmmCall → Prop
  | .alloc _ => (pmmAlloc q.1.pmm).1 ≠ 0 → ¬ InFramebuffer fb q.1.nextVirt
  | .free _ => True

/-! ## The invariant -/

/-- The outstanding frames of the live pages. -/
def liveFrames (l : LivePages) : Finset ℕ := (l.map Prod.snd).toFinset

/-- In a run from `s₀` the accounts of the frame allocator balance with the live pages, which lie
below the counter, outside the framebuffer; the other entries are those of `s₀`. -/
structure Running (fb : BitVec 32) (s₀ : Vmm) (q : Vmm × LivePages) : Prop where
  linked : q.1.pages.Linked
  accounts : Pmm.Accounts s₀.pmm q.1.pmm (liveFrames q.2)
  nodupPages : (q.2.map Prod.fst).Nodup
  nodupFrames : (q.2.map Prod.snd).Nodup
  next : q.1.nextVirt.toNat % 4096 = 0 ∧ 0xD0000000 ≤ q.1.nextVirt.toNat
  below : ∀ x ∈ q.2, x.1.toNat % 4096 = 0 ∧ 0xD0000000 ≤ x.1.toNat ∧
    x.1.toNat < q.1.nextVirt.toNat ∧ ¬ InFramebuffer fb x.1
  entries : ∀ x ∈ q.2, ∃ flags, q.1.pages.entry x.1 = mapWord (.ofNat 32 x.2) flags
  others : ∀ virt, (∀ x ∈ q.2, pageOf virt ≠ pageOf x.1) →
    q.1.pages.entry virt = s₀.pages.entry virt

/-- A state to start from: frames on page boundaries below 4 GiB, the tables of `paging_init` and
the counter of `vmm_init`. -/
structure Fresh (fb : BitVec 32) (s₀ : Vmm) : Prop where
  placed : s₀.pmm.Placed
  accounts : Pmm.Accounts s₀.pmm s₀.pmm ∅
  aligned : s₀.pmm.bitmap % 4096 = 0
  linked : s₀.pages.Linked
  upper : ∀ virt, 0xD0000 ≤ pageOf virt →
    (InFramebuffer fb virt → ∃ a flags, s₀.pages.entry virt = mapWord a flags) ∧
    (¬ InFramebuffer fb virt → s₀.pages.entry virt = 0)
  next : s₀.nextVirt = 0xD0000000

/-- The frames of the allocator are on page boundaries. -/
theorem Pmm.Placed.aligned {s : Pmm} (hp : s.Placed) (ha : s.bitmap % 4096 = 0) {p : ℕ}
    (h : p ∈ s.addrs) : p % 4096 = 0 ∧ p ≠ 0 ∧ p < 2 ^ 32 := by
  obtain ⟨f, hf, rfl⟩ := Pmm.mem_addrs.mp h
  refine ⟨?_, hp.frameAddr_pos hf, Nat.mod_lt _ (by decide)⟩
  rw [hp.frameAddr_eq hf, pageSize]
  omega

theorem toNat_frame {p : ℕ} (h : p < 2 ^ 32) : (BitVec.ofNat 32 p).toNat = p := by
  rw [BitVec.toNat_ofNat, Nat.mod_eq_of_lt h]

/-- The start of a page that is mapped to a frame translates to it. -/
theorem PageTables.Linked.getPhysical_frame {s : PageTables} (hl : s.Linked)
    {virt flags : BitVec 32} {f : ℕ} (he : s.entry virt = mapWord (.ofNat 32 f) flags)
    (hv : virt.toNat % 4096 = 0) (hf : f % 4096 = 0 ∧ f < 2 ^ 32) :
    pagingGetPhysical virt s = .ofNat 32 f := by
  rw [hl.getPhysical, he, if_neg mapWord_present, mapWord_frame,
    frame_of_aligned (by rw [toNat_frame hf.2]; exact hf.1), offset_of_aligned hv]
  exact BitVec.or_zero

/-- **What `vmm_alloc` can do**: it returns null and changes no page, or it maps the page of the
counter to a frame that was not outstanding. -/
theorem vmmAlloc_cases {s₀ : Pmm} {s : Vmm} {o : Finset ℕ} (hp : s₀.Placed)
    (ha : s₀.bitmap % 4096 = 0) (hacc : Pmm.Accounts s₀ s.pmm o) (hnext : s.nextVirt.toNat % 4096 = 0)
    (flags : BitVec 32) :
    (∃ pmm, vmmAlloc 0 flags s = (0, { s with pmm }) ∧ Pmm.Accounts s₀ pmm o ∧
      ((pmmAlloc s.pmm).1 = 0 ∨ s.nextVirt.toNat + 4096 = 2 ^ 32)) ∨
    ∃ p pmm, pmmAlloc s.pmm = (p, pmm) ∧ p ∈ s₀.addrs ∧ p ∉ o ∧
      Pmm.Accounts s₀ pmm (insert p o) ∧
      (s.nextVirt + 4096).toNat = s.nextVirt.toNat + 4096 ∧
      vmmAlloc 0 flags s = (s.nextVirt, {
        pmm
        pages := pagingMap s.nextVirt (.ofNat 32 p) flags s.pages
        nextVirt := s.nextVirt + 4096 }) := by
  have hlt := s.nextVirt.isLt
  rcases hacc.pmmAlloc_spec hp with ⟨he, -⟩ | ⟨p, hpa, hout, he, hacc'⟩
  · refine .inl ⟨s.pmm, ?_, hacc, .inl (by rw [he])⟩
    unfold vmmAlloc
    rw [he]
    rfl
  -- a frame is found; whether the page is mapped depends on the counter
  obtain ⟨-, hne, -⟩ := hp.aligned ha hpa
  have hpair : pmmAlloc s.pmm = (p, (pmmAlloc s.pmm).2) := Prod.ext he rfl
  generalize (pmmAlloc s.pmm).2 = pmm at *
  by_cases hwrap : s.nextVirt.toNat + 4096 = 2 ^ 32
  · have hcmp : s.nextVirt + 4096 < s.nextVirt := by
      rw [BitVec.lt_def, BitVec.toNat_add]
      exact (show (s.nextVirt.toNat + 4096) % 2 ^ 32 < s.nextVirt.toNat by omega)
    refine .inl ⟨pmmFree p pmm, ?_, ?_, .inr hwrap⟩
    · unfold vmmAlloc
      rw [hpair]
      dsimp only
      rw [if_neg hne, if_pos rfl, if_pos hcmp]
    · have hfree := hacc'.pmmFree_spec hp (Finset.mem_insert_self p _)
      rwa [Finset.erase_insert hout] at hfree
  · have hsum : (s.nextVirt + 4096).toNat = s.nextVirt.toNat + 4096 := by
      rw [BitVec.toNat_add]
      exact (show (s.nextVirt.toNat + 4096) % 2 ^ 32 = s.nextVirt.toNat + 4096 by omega)
    have hcmp : ¬ s.nextVirt + 4096 < s.nextVirt := by
      rw [BitVec.lt_def, hsum]
      omega
    refine .inr ⟨p, pmm, hpair, hpa, hout, hacc', hsum, ?_⟩
    unfold vmmAlloc
    rw [hpair]
    dsimp only
    rw [if_neg hne, if_pos rfl, if_neg hcmp]

namespace Running

variable {fb : BitVec 32} {s₀ : Vmm} {q : Vmm × LivePages} (hf : Fresh fb s₀)
  (h : Running fb s₀ q)
include hf h

/-- A live page translates to its frame. -/
theorem getPhysical {x : BitVec 32 × ℕ} (hx : x ∈ q.2) :
    pagingGetPhysical x.1 q.1.pages = .ofNat 32 x.2 ∧ x.2 ∈ s₀.pmm.addrs := by
  have hmem : x.2 ∈ s₀.pmm.addrs :=
    h.accounts.sub (List.mem_toFinset.mpr (List.mem_map_of_mem hx))
  obtain ⟨flags, he⟩ := h.entries x hx
  obtain ⟨ha, -, hlt⟩ := hf.placed.aligned hf.aligned hmem
  exact ⟨h.linked.getPhysical_frame he (h.below x hx).1 ⟨ha, hlt⟩, hmem⟩

theorem liveSound : LiveSound s₀ q :=
  ⟨fun _ hx => h.getPhysical hf hx, List.pairwise_map.mp h.nodupFrames⟩

omit hf in
/-- The page of the counter is not live. -/
theorem next_not_live {x : BitVec 32 × ℕ} (hx : x ∈ q.2) : pageOf q.1.nextVirt ≠ pageOf x.1 := by
  have hb := h.below x hx
  have hn := h.next
  unfold pageOf
  omega

/-- What was mapped before the run is mapped still. -/
theorem keepsInit {virt w : BitVec 32} (hw : s₀.pages.mapping virt = some w) :
    q.1.pages.mapping virt = some w := by
  rw [← hw]
  refine hf.linked.mapping_congr h.linked (h.others virt fun x hx hpage => ?_)
  -- a live page was not mapped before the run
  have hb := h.below x hx
  have hzero : s₀.pages.entry virt = 0 := by
    have hidx := pageOf_eq_iff.mp hpage
    rw [PageTables.entry, hidx.1, hidx.2]
    exact (hf.upper x.1 (by unfold pageOf; omega)).2 hb.2.2.2
  rw [hf.linked.mapping_eq, hzero, if_pos (by decide)] at hw
  cases hw

/-- **A call of `vmm_alloc` outside the framebuffer** keeps the run going and its promise. -/
theorem alloc {flags : BitVec 32} (hclear : StepClear fb q (.alloc flags)) :
    Running fb s₀ (Vmm.step q (.alloc flags)) ∧ StepSound s₀ q (.alloc flags) := by
  rcases vmmAlloc_cases hf.placed hf.aligned h.accounts h.next.1 flags with
    ⟨pmm, he, hacc, -⟩ | ⟨p, pmm, hp, hpa, hout, hacc, hsum, he⟩
  · have hstep : Vmm.step q (.alloc flags) = ({ q.1 with pmm }, q.2) := by
      rw [Vmm.step, he]
      rfl
    have hrun : Running fb s₀ (Vmm.step q (.alloc flags)) := by
      rw [hstep]
      exact ⟨h.linked, hacc, h.nodupPages, h.nodupFrames, h.next, h.below, h.entries, h.others⟩
    refine ⟨hrun, hrun.liveSound hf, fun flags' hc hne => ?_, fun x _ _ => ?_,
      fun virt w => hrun.keepsInit hf, fun virt f hc => nomatch hc⟩
    · obtain rfl : flags = flags' := by injection hc
      rw [he] at hne
      exact absurd rfl hne
    · rw [hstep]
  · have hne : q.1.nextVirt ≠ 0 := by
      intro h0
      have := h.next.2
      rw [h0] at this
      exact absurd this (by decide)
    obtain ⟨-, hp0, -⟩ := hf.placed.aligned hf.aligned hpa
    have hfb : ¬ InFramebuffer fb q.1.nextVirt := hclear (by rw [hp]; exact hp0)
    have hstep : Vmm.step q (.alloc flags) = (⟨pmm,
        pagingMap q.1.nextVirt (.ofNat 32 p) flags q.1.pages, q.1.nextVirt + 4096⟩,
        (q.1.nextVirt, p) :: q.2) := by
      rw [Vmm.step, he, hp]
      dsimp only
      rw [if_neg hne]
    have hnew x (hx : x ∈ q.2) : pageOf x.1 ≠ pageOf q.1.nextVirt := (h.next_not_live hx).symm
    have hbelow := h.below
    have hnext := h.next
    have hrun : Running fb s₀ (Vmm.step q (.alloc flags)) := by
      rw [hstep]
      refine ⟨h.linked.map, ?_, ?_, ?_, ?_, fun x hx => ?_, fun x hx => ?_, fun virt hv => ?_⟩
      · rw [liveFrames, List.map_cons, List.toFinset_cons]
        exact hacc
      · rw [List.map_cons, List.nodup_cons]
        refine ⟨fun hin => ?_, h.nodupPages⟩
        obtain ⟨x, hx, hxe⟩ := List.mem_map.mp hin
        exact hnew x hx (by rw [hxe])
      · rw [List.map_cons, List.nodup_cons]
        exact ⟨fun hin => hout (List.mem_toFinset.mpr hin), h.nodupFrames⟩
      · dsimp only
        rw [hsum]
        omega
      · dsimp only at hx ⊢
        rw [hsum]
        rcases List.mem_cons.mp hx with rfl | hx
        · exact ⟨hnext.1, hnext.2, Nat.lt_add_of_pos_right (by decide), hfb⟩
        · obtain ⟨h₁, h₂, h₃, h₄⟩ := hbelow x hx
          exact ⟨h₁, h₂, Nat.lt_add_right _ h₃, h₄⟩
      · rw [PageTables.entry_map]
        rcases List.mem_cons.mp hx with rfl | hx
        · exact ⟨flags, if_pos rfl⟩
        · rw [if_neg (hnew x hx)]
          exact h.entries x hx
      · have hvn : pageOf virt ≠ pageOf q.1.nextVirt := hv (q.1.nextVirt, p) (List.mem_cons_self ..)
        rw [PageTables.entry_map, if_neg hvn]
        exact h.others virt fun x hx => hv x (List.mem_cons_of_mem _ hx)
    refine ⟨hrun, hrun.liveSound hf, fun flags' hc _ => ?_, fun x hx _ => ?_,
      fun virt w => hrun.keepsInit hf, fun virt f hc => nomatch hc⟩
    · obtain rfl : flags = flags' := by injection hc
      rw [he]
      dsimp only
      rw [h.linked.mapping_eq, h.others _ fun x hx => h.next_not_live hx,
        (hf.upper _ (by unfold pageOf; omega)).2 hfb, if_pos (by decide)]
    · refine h.linked.mapping_congr hrun.linked ?_
      rw [hstep]
      dsimp only
      rw [PageTables.entry_map, if_neg (hnew x hx)]

/-- **A call of `vmm_alloc` inside the framebuffer** returns a page that was mapped. -/
theorem not_sound {flags : BitVec 32} (hclear : ¬ StepClear fb q (.alloc flags)) :
    ¬ StepSound s₀ q (.alloc flags) := by
  obtain ⟨hne, hin⟩ := Classical.not_imp.mp hclear
  rw [not_not] at hin
  intro hsound
  have hpage : 0xD0000 ≤ pageOf q.1.nextVirt := by
    have := h.next.2
    unfold pageOf
    omega
  rcases vmmAlloc_cases hf.placed hf.aligned h.accounts h.next.1 flags with
    ⟨-, -, -, hnull | hwrap⟩ | ⟨p, pmm, -, -, -, -, -, he⟩
  · exact hne hnull
  · -- the framebuffer ends before the last page
    obtain ⟨-, h₂, h₃, h₄⟩ := hin
    unfold pageOf at h₃ h₄
    omega
  · have hnext : q.1.nextVirt ≠ 0 := by
      intro h0
      rw [h0] at hpage
      exact absurd hpage (by decide)
    have hfresh := hsound.fresh flags rfl (by rw [he]; exact hnext)
    obtain ⟨a, fl, ha⟩ := (hf.upper _ hpage).1 hin
    rw [he] at hfresh
    dsimp only at hfresh
    rw [h.linked.mapping_eq, h.others _ fun x hx => h.next_not_live hx, ha,
      if_neg mapWord_present] at hfresh
    cases hfresh

section Free

variable {virt : BitVec 32} {f : ℕ} (hx : (virt, f) ∈ q.2)

omit hf in
include hx in
/-- Another live page is another page. -/
theorem pageOf_ne {x : BitVec 32 × ℕ} (hy : x ∈ q.2) (hne : x.1 ≠ virt) :
    pageOf x.1 ≠ pageOf virt := by
  have h₁ := (h.below x hy).1
  have h₂ := (h.below _ hx).1
  intro hpage
  unfold pageOf at hpage
  exact hne (BitVec.eq_of_toNat_eq (by dsimp only at h₂; omega))

omit hf in
include hx in
/-- The frames of the other live pages. -/
theorem liveFrames_filter :
    liveFrames (q.2.filter fun x => x.1 ≠ virt) = (liveFrames q.2).erase f := by
  ext g
  simp only [liveFrames, Finset.mem_erase, List.mem_toFinset, List.mem_map, List.mem_filter,
    decide_eq_true_eq]
  constructor
  · rintro ⟨x, ⟨hy, hne⟩, rfl⟩
    refine ⟨fun hxf => hne ?_, x, hy, rfl⟩
    have heq := List.inj_on_of_nodup_map h.nodupFrames hy hx hxf
    rw [heq]
  · rintro ⟨hne, x, hy, rfl⟩
    refine ⟨x, ⟨hy, fun hxv => hne ?_⟩, rfl⟩
    have heq := List.inj_on_of_nodup_map h.nodupPages hy hx hxv
    rw [heq]

include hx

/-- `vmm_free` of a live page unmaps it and gives its frame back. -/
theorem step_free : Vmm.step q (.free virt) =
    ({ q.1 with pages := pagingUnmap virt q.1.pages, pmm := pmmFree f q.1.pmm },
      q.2.filter fun x => x.1 ≠ virt) := by
  obtain ⟨hphys, hfa⟩ := h.getPhysical hf hx
  obtain ⟨-, hf0, hflt⟩ := hf.placed.aligned hf.aligned hfa
  dsimp only at hphys hf0 hflt
  have hne : BitVec.ofNat 32 f ≠ 0 := by
    intro h0
    have := congrArg BitVec.toNat h0
    rw [toNat_frame hflt] at this
    exact hf0 this
  rw [Vmm.step, if_pos (List.mem_map_of_mem hx)]
  unfold vmmFree
  dsimp only
  rw [hphys, if_neg hne, toNat_frame hflt]

theorem running_free : Running fb s₀ (Vmm.step q (.free virt)) := by
  have hsub : (q.2.filter fun x => x.1 ≠ virt).Sublist q.2 := List.filter_sublist
  rw [h.step_free hf hx]
  refine ⟨h.linked.unmap, ?_, (hsub.map _).nodup h.nodupPages, (hsub.map _).nodup h.nodupFrames,
    h.next, fun x hy => h.below x (hsub.subset hy), fun x hy => ?_, fun v hv => ?_⟩
  · dsimp only
    rw [h.liveFrames_filter hx]
    exact h.accounts.pmmFree_spec hf.placed (List.mem_toFinset.mpr (List.mem_map_of_mem hx))
  · obtain ⟨hy, hne⟩ := List.mem_filter.mp hy
    rw [h.linked.entry_unmap, if_neg (h.pageOf_ne hx hy (of_decide_eq_true hne))]
    exact h.entries x hy
  · rw [h.linked.entry_unmap]
    split_ifs with hpage
    · -- the page given back was not mapped before the run
      have hb := h.below _ hx
      have hidx := pageOf_eq_iff.mp hpage
      have hpg : 0xD0000 ≤ pageOf virt := by
        dsimp only at hb
        unfold pageOf
        omega
      rw [PageTables.entry, hidx.1, hidx.2]
      exact ((hf.upper virt hpg).2 hb.2.2.2).symm
    · refine h.others v fun x hy hvx => ?_
      by_cases hne : x.1 = virt
      · exact hpage (by rw [hvx, hne])
      · exact hv x (List.mem_filter.mpr ⟨hy, decide_eq_true hne⟩) hvx

/-- **A call of `vmm_free` on a live page** keeps its promise. -/
theorem sound_free : StepSound s₀ q (.free virt) := by
  have hrun := h.running_free hf hx
  have hfo : f ∈ liveFrames q.2 := List.mem_toFinset.mpr (List.mem_map_of_mem hx)
  refine ⟨hrun.liveSound hf, fun _ hc => (nomatch hc), fun x hy hyf => ?_,
    fun v w => hrun.keepsInit hf, fun v g hc hg => ?_⟩
  · refine h.linked.mapping_congr hrun.linked ?_
    rw [h.step_free hf hx] at hyf ⊢
    have hne := of_decide_eq_true (List.mem_filter.mp hyf).2
    dsimp only
    rw [h.linked.entry_unmap, if_neg (h.pageOf_ne hx hy hne)]
  · obtain rfl : virt = v := by injection hc
    obtain rfl : f = g := by
      have heq := List.inj_on_of_nodup_map h.nodupPages hx hg rfl
      exact congrArg Prod.snd heq
    obtain ⟨k, hk, hkf⟩ := Pmm.mem_addrs.mp (h.accounts.sub hfo)
    refine ⟨⟨k, hk, hkf, (h.accounts.marked k hk).mpr (by rwa [hkf])⟩, fun j hj => ?_⟩
    have hacc := h.accounts.pmmFree_spec hf.placed hfo
    rw [h.step_free hf hx]
    dsimp only
    rw [hacc.marked j hj, h.accounts.marked j hj, Finset.mem_erase, and_comm]

end Free

/-- A call on a page that is not live is not made. -/
theorem sound_idle {virt : BitVec 32} (hx : virt ∉ q.2.map Prod.fst) :
    StepSound s₀ q (.free virt) ∧ Running fb s₀ (Vmm.step q (.free virt)) := by
  have hstep : Vmm.step q (.free virt) = q := if_neg hx
  refine ⟨⟨?_, fun _ hc => (nomatch hc), fun x _ _ => by rw [hstep], fun v w hw => ?_,
    fun v f hc hg => ?_⟩, by rwa [hstep]⟩
  · rw [hstep]
    exact h.liveSound hf
  · rw [hstep]
    exact h.keepsInit hf hw
  · obtain rfl : virt = v := by injection hc
    exact absurd (List.mem_map_of_mem hg) hx

/-- What keeps a call from breaking its promise is that it is clear. -/
theorem sound_iff (c : VmmCall) : StepSound s₀ q c ↔ StepClear fb q c := by
  cases c with
  | alloc flags =>
    refine ⟨fun hs => ?_, fun hc => (h.alloc hf hc).2⟩
    by_contra hc
    exact h.not_sound hf hc hs
  | free virt =>
    refine iff_of_true ?_ trivial
    by_cases hx : virt ∈ q.2.map Prod.fst
    · obtain ⟨⟨v, f⟩, hy, rfl⟩ := List.mem_map.mp hx
      exact h.sound_free hf hy
    · exact (h.sound_idle hf hx).1

theorem step {c : VmmCall} (hc : StepClear fb q c) : Running fb s₀ (Vmm.step q c) := by
  cases c with
  | alloc flags => exact (h.alloc hf hc).1
  | free virt =>
    by_cases hx : virt ∈ q.2.map Prod.fst
    · obtain ⟨⟨v, f⟩, hy, rfl⟩ := List.mem_map.mp hx
      exact h.running_free hf hy
    · exact (h.sound_idle hf hx).2

end Running

/-! ## Over a run -/

/-- The state after `paging_init`, `pmm_init` and `vmm_init`. -/
def Vmm.boot (map : List E820Entry) (words : ℕ → BitVec 32) (fb : BitVec 32) (tables : PageTables) :
    Vmm :=
  vmmInit ⟨pmmInit map (.boot words), pagingInit fb tables, 0⟩

section Run

variable {map : List E820Entry} (words : ℕ → BitVec 32) (fb : BitVec 32) (tables : PageTables)
  (hbelow : (bestRegion map).1 + (bestRegion map).2 ≤ 2 ^ 32)
  (haligned : (bestRegion map).1 % 4096 = 0)
include hbelow haligned

theorem fresh_boot : Fresh fb (Vmm.boot map words fb tables) := by
  obtain ⟨hp, hacc⟩ := pmmInit_placed words hbelow
  obtain ⟨hl, hupper⟩ := pagingInit_spec fb tables
  -- the loops of `paging_init` are not to be unfolded
  generalize hpages : pagingInit fb tables = pages at *
  unfold Vmm.boot vmmInit
  rw [hpages]
  refine ⟨hp, hacc, ?_, hl, hupper, rfl⟩
  dsimp only
  obtain ⟨hnone | ⟨e, -, hu, he⟩, -⟩ := bestRegion_spec map
  · rw [pmmInit_none hnone]
    rfl
  · have hb := hu.2.1
    have hl := hu.2.2
    have hbitmap := (pmmInit_spec he (by omega) (by omega) (.boot words)).1
    rw [he] at haligned
    rw [hbitmap]
    dsimp only at haligned
    omega

theorem running_boot :
    Running fb (Vmm.boot map words fb tables) (Vmm.boot map words fb tables, []) := by
  have hf := fresh_boot words fb tables hbelow haligned
  refine ⟨hf.linked, hf.accounts, List.nodup_nil, List.nodup_nil, ?_, by simp, by simp,
    fun _ _ => rfl⟩
  dsimp only
  rw [hf.next]
  decide

/-- **Every call of a run keeps its promise exactly when no page is allocated inside the
framebuffer**, with the frames on page boundaries below 4 GiB. -/
theorem vmm_sound_iff (cs : List VmmCall) :
    Admits Vmm.step (StepSound (Vmm.boot map words fb tables))
      (Vmm.boot map words fb tables, []) cs ↔
    Admits Vmm.step (StepClear fb) (Vmm.boot map words fb tables, []) cs := by
  have hf := fresh_boot words fb tables hbelow haligned
  exact Machine.admits_congr (I := Running fb (Vmm.boot map words fb tables))
    (fun q c hq => hq.sound_iff hf c) (fun q c hq hc => hq.step hf hc)
    (running_boot words fb tables hbelow haligned)

end Run

/-- A machine with 200 pages of memory from 1 MB on, and the framebuffer at `fb`. -/
def smallBoot (fb : BitVec 32) : Vmm :=
  .boot (mapOf (200 * 4096) (by decide)) (fun _ => 0) fb ⟨fun _ => 0, fun _ _ => 0⟩

theorem smallBoot_pages (fb : BitVec 32) :
    (smallBoot fb).pages = pagingInit fb ⟨fun _ => 0, fun _ _ => 0⟩ := by
  rw [smallBoot, Vmm.boot, vmmInit]

/-- The first page, with the framebuffer elsewhere. -/
theorem vmm_sound_small : Admits Vmm.step (StepSound (smallBoot 0xFD000000))
    (smallBoot 0xFD000000, []) [.alloc pageWrite] := by
  refine (vmm_sound_iff _ 0xFD000000 _ (by decide) (by decide) _).mpr ⟨fun _ => ?_, trivial⟩
  exact fun hin => absurd hin.2.2.1 (by decide)

/-- With the framebuffer at `0xD0000000` the first page is one of its pages. -/
theorem vmm_sound_framebuffer : ¬ Admits Vmm.step (StepSound (smallBoot 0xD0000000))
    (smallBoot 0xD0000000, []) [.alloc pageWrite] := by
  rintro ⟨hsound, -⟩
  have hf : Fresh 0xD0000000 (smallBoot 0xD0000000) :=
    fresh_boot _ _ _ (by decide) (by decide)
  have hr : Running 0xD0000000 (smallBoot 0xD0000000) (smallBoot 0xD0000000, []) :=
    running_boot _ _ _ (by decide) (by decide)
  have hbad : ¬ StepClear 0xD0000000 (smallBoot 0xD0000000, []) (.alloc pageWrite) := by
    intro hclear
    refine hclear ?_ ⟨by decide, by decide, by decide, by decide⟩
    rcases hf.accounts.pmmAlloc_spec hf.placed with ⟨-, hall⟩ | ⟨p, hp, -, he, -⟩
    · have hbest : bestRegion (mapOf (200 * 4096) (by decide)) = (0x100000, 200 * 4096) := rfl
      obtain ⟨-, ht, hk, -⟩ := pmmInit_spec hbest (by decide) (by decide) (.boot fun _ => 0)
      refine absurd (hall _ (Pmm.mem_addrs.mpr ⟨150, ⟨?_, ?_⟩, rfl⟩)) (Finset.notMem_empty _)
      · exact hk.trans_le (by decide)
      · exact Nat.lt_of_lt_of_eq (by decide) ht.symm
    · exact he ▸ (hf.placed.aligned hf.aligned hp).2.1
  exact hr.not_sound hf hbad hsound

end WarkRune.Memory

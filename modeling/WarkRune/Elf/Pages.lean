import WarkRune.Memory.Mapped
import WarkRune.Memory.Vmm

/-!
# The pages of a program

The loader takes a frame for every page of an image and the same is done for a stack; each page is
mapped as soon as it has its frame. What was mapped there before is not looked at. Pages are given
back in two ways: `elf_load` releases the frames and leaves the pages mapped, `elf_unload` and
`elf_exec` unmap them as well.

## Main definitions

* `Space`: the frame allocator and the page tables
* `acquirePages`, `releaseFrames`, `unmapPages`: the loops over the pages
* `Pmm.freeFrames`: the frames `pmm_alloc` hands out next
* `mapAll`: the page tables once frames are mapped one page after the other

## Main results

* `acquirePages_spec`: the pages get the free frames in their order
* `releaseFrames_spec`, `unmapPages_spec`: the frames go back
-/

namespace WarkRune.Memory

/-! ## The frames that come next -/

/-- The frames `pmm_alloc` hands out next, by their addresses. -/
def Pmm.freeFrames (s : Pmm) : List ℕ :=
  ((List.range' s.bmapSkip (s.total - s.bmapSkip)).filter fun f => !s.tst f).map s.frameAddr

theorem pmmAlloc_of_nil {s : Pmm} (h : s.freeFrames = []) : pmmAlloc s = (0, s) := by
  have hfind := List.head?_filter (p := fun f => !s.tst f)
    (l := List.range' s.bmapSkip (s.total - s.bmapSkip))
  rw [List.map_eq_nil_iff.mp h, List.head?_nil] at hfind
  rw [pmmAlloc, ← hfind]

theorem pmmAlloc_of_cons {s : Pmm} {p : ℕ} {fs : List ℕ} (h : s.freeFrames = p :: fs) :
    (pmmAlloc s).1 = p ∧ (pmmAlloc s).2.freeFrames = fs := by
  obtain ⟨f, gs, hfilter, rfl, rfl⟩ := List.map_eq_cons_iff.mp h
  have hfind := List.head?_filter (p := fun f => !s.tst f)
    (l := List.range' s.bmapSkip (s.total - s.bmapSkip))
  rw [hfilter, List.head?_cons] at hfind
  rw [pmmAlloc, ← hfind]
  refine ⟨rfl, ?_⟩
  -- the frames still clear are those behind the one taken
  have hnodup : (f :: gs).Nodup := hfilter ▸ List.Nodup.filter _ List.nodup_range'
  have hne : ∀ g ∈ gs, g ≠ f := fun g hg => by
    rintro rfl
    exact (List.nodup_cons.mp hnodup).1 hg
  unfold Pmm.freeFrames
  simp only [Pmm.tst_used, Pmm.tst_set, Bool.not_or]
  rw [← List.filter_filter]
  dsimp only [Pmm.set_bmapSkip, Pmm.set_total]
  rw [hfilter, List.filter_cons_of_neg (by simp), List.filter_eq_self.mpr fun g hg => by
    simpa using hne g hg]
  rfl

/-- The frames that come next are those of the allocator that are not outstanding. -/
theorem Pmm.Accounts.mem_freeFrames {s₀ s : Pmm} {o : Finset ℕ} (h : Pmm.Accounts s₀ s o) {p : ℕ} :
    p ∈ s.freeFrames ↔ p ∈ s₀.addrs ∧ p ∉ o := by
  have hrange {f : ℕ} : (s.bmapSkip ≤ f ∧ f < s.bmapSkip + (s.total - s.bmapSkip)) ↔
      s₀.Allocatable f := by
    rw [← h.frames.allocatable]
    unfold Pmm.Allocatable
    omega
  rw [Pmm.mem_addrs]
  simp only [Pmm.freeFrames, List.mem_map, List.mem_filter, List.mem_range'_1, hrange,
    Bool.not_eq_true', h.frames.frameAddr]
  constructor
  · rintro ⟨f, ⟨hf, htst⟩, rfl⟩
    refine ⟨⟨f, hf, rfl⟩, fun ho => ?_⟩
    rw [(h.marked f hf).mpr ho] at htst
    cases htst
  · rintro ⟨⟨f, hf, rfl⟩, ho⟩
    exact ⟨f, ⟨hf, Bool.eq_false_iff.mpr fun htst => ho ((h.marked f hf).mp htst)⟩, rfl⟩

end WarkRune.Memory

namespace WarkRune.Elf

open Memory

/-- The frame allocator and the page tables. -/
structure Space where
  pmm : Pmm
  pages : PageTables

/-- The address of a page from `base` on. -/
def pageAt (base : BitVec 32) (p : ℕ) : BitVec 32 := base + .ofNat 32 (p * 0x1000)

/-- `PAGE_PRESENT | PAGE_WRITE | PAGE_USER`. -/
def userFlags : BitVec 32 := pagePresent ||| pageWrite ||| pageUser

/-- The loop that maps a frame at every page, from page `p` on, `n` of them. It answers the page
that found no frame, if any. -/
def acquirePages (base : BitVec 32) : ℕ → ℕ → Space → Option ℕ × Space
  | _, 0, s => (none, s)
  | p, n + 1, s =>
    let (frame, pmm) := pmmAlloc s.pmm
    if frame = 0 then (some p, { s with pmm })
    else acquirePages base (p + 1) n
      { pmm, pages := pagingMap (pageAt base p) (.ofNat 32 frame) userFlags s.pages }

/-- The frame of a page, as the callers of `pmm_free` compute it. -/
def frameAt (virt : BitVec 32) (s : Space) : ℕ :=
  (pagingGetPhysical virt s.pages &&& 0xFFFFF000#32).toNat

/-- The loop on the error paths of `elf_load`: the frames of the pages are released, and the pages
stay mapped. -/
def releaseFrames (base : BitVec 32) : ℕ → ℕ → Space → Space
  | _, 0, s => s
  | p, n + 1, s =>
    releaseFrames base (p + 1) n { s with pmm := pmmFree (frameAt (pageAt base p) s) s.pmm }

/-- A round of the loops of `elf_unload` and `elf_exec`. -/
def unmapPage (virt : BitVec 32) (s : Space) : Space :=
  if pagingGetPhysical virt s.pages = 0 then s
  else { pages := pagingUnmap virt s.pages, pmm := pmmFree (frameAt virt s) s.pmm }

/-- The loop of `elf_unload` and of the stack in `elf_exec`: the pages are unmapped and their
frames released. -/
def unmapPages (base : BitVec 32) : ℕ → ℕ → Space → Space
  | _, 0, s => s
  | p, n + 1, s => unmapPages base (p + 1) n (unmapPage (pageAt base p) s)

/-! ## The page tables -/

/-- The page tables once the frames are mapped, one page after the other from page `p` on. -/
def mapAll (base : BitVec 32) : ℕ → List ℕ → PageTables → PageTables
  | _, [], s => s
  | p, f :: fs, s => mapAll base (p + 1) fs (pagingMap (pageAt base p) (.ofNat 32 f) userFlags s)

/-- The page tables once `n` pages are unmapped, from page `p` on. -/
def clearAll (base : BitVec 32) : ℕ → ℕ → PageTables → PageTables
  | _, 0, s => s
  | p, n + 1, s => clearAll base (p + 1) n (pagingUnmap (pageAt base p) s)

section Tables

variable {base virt : BitVec 32} {fs : List ℕ} {s : PageTables} {d f i j n p : ℕ}

theorem pageOf_pageAt (base : BitVec 32) (p : ℕ) :
    pageOf (pageAt base p) = (pageOf base + p) % 2 ^ 20 := by
  have hlt := base.isLt
  rw [pageOf, pageOf, pageAt, BitVec.toNat_add, BitVec.toNat_ofNat]
  omega

/-- The pages of an image are distinct. -/
theorem pageAt_inj (hi : i < p + 2 ^ 20) (hj : j < p + 2 ^ 20) (hpi : p ≤ i) (hpj : p ≤ j)
    (h : pageOf (pageAt base i) = pageOf (pageAt base j)) : i = j := by
  rw [pageOf_pageAt, pageOf_pageAt] at h
  omega

theorem linked_mapAll (h : s.Linked) : (mapAll base p fs s).Linked := by
  induction fs generalizing p s with
  | nil => exact h
  | cons f fs ih => exact ih h.map

/-- The entries of the other pages stay. -/
theorem entry_mapAll_of_ne (h : ∀ j < fs.length, pageOf virt ≠ pageOf (pageAt base (p + j))) :
    (mapAll base p fs s).entry virt = s.entry virt := by
  induction fs generalizing p s with
  | nil => rfl
  | cons f fs ih =>
    have hfirst : pageOf virt ≠ pageOf (pageAt base p) := h 0 (Nat.succ_pos _)
    rw [mapAll, ih fun j hj => ?_, PageTables.entry_map, if_neg hfirst]
    have hne := h (j + 1) (Nat.succ_lt_succ hj)
    rwa [show p + (j + 1) = p + 1 + j by omega] at hne

/-- **Every page is mapped to its frame.** -/
theorem entry_mapAll (hn : fs.length ≤ 2 ^ 20) (hf : fs[j]? = some f)
    (hpage : pageOf virt = pageOf (pageAt base (p + j))) :
    (mapAll base p fs s).entry virt = mapWord (.ofNat 32 f) userFlags := by
  induction fs generalizing j p s with
  | nil => cases hf
  | cons g fs ih =>
    rw [List.length_cons] at hn
    cases j with
    | zero =>
      obtain rfl : g = f := Option.some.inj hf
      rw [Nat.add_zero] at hpage
      rw [mapAll, entry_mapAll_of_ne fun i hi hpi => ?_, PageTables.entry_map, if_pos hpage]
      rw [hpage] at hpi
      have := pageAt_inj (p := p) (by omega) (by omega) (by omega) (by omega) hpi
      omega
    | succ j =>
      refine ih (by omega) hf ?_
      rwa [show p + 1 + j = p + (j + 1) by omega]

/-- A directory entry over no page of the image stays. -/
theorem directory_mapAll_of_ne (h : ∀ j < fs.length, d ≠ dirIdx (pageAt base (p + j))) :
    (mapAll base p fs s).directory d = s.directory d := by
  induction fs generalizing p s with
  | nil => rfl
  | cons f fs ih =>
    have hfirst : d ≠ dirIdx (pageAt base p) := h 0 (Nat.succ_pos _)
    rw [mapAll, ih fun j hj => ?_, PageTables.directory_map, if_neg hfirst]
    have hne := h (j + 1) (Nat.succ_lt_succ hj)
    rwa [show p + (j + 1) = p + 1 + j by omega] at hne

/-- A directory entry with the user bit keeps it. -/
theorem user_mapAll_of_user (hp : s.directory d &&& pagePresent ≠ 0)
    (hu : s.directory d &&& pageUser ≠ 0) :
    (mapAll base p fs s).directory d &&& pageUser ≠ 0 := by
  induction fs generalizing p s with
  | nil => exact hu
  | cons f fs ih =>
    apply ih
    · rw [PageTables.directory_map]
      split_ifs with hd
      · exact PageTables.mappedDir_present
      · exact hp
    · rw [PageTables.directory_map]
      split_ifs with hd
      · subst hd
        exact mappedDir_keeps _ hu hp
      · exact hu

/-- A directory entry that is present gets the user bit with the first page under it. -/
theorem user_mapAll_of_present (hp : s.directory d &&& pagePresent ≠ 0) (hj : j < fs.length)
    (hd : dirIdx (pageAt base (p + j)) = d) :
    (mapAll base p fs s).directory d &&& pageUser ≠ 0 := by
  induction fs generalizing j p s with
  | nil => cases hj
  | cons f fs ih =>
    rw [mapAll]
    by_cases hfirst : dirIdx (pageAt base p) = d
    · subst hfirst
      apply user_mapAll_of_user <;> rw [PageTables.directory_map, if_pos rfl]
      · exact PageTables.mappedDir_present
      · exact mappedDir_user (fun _ => hp) (by decide) _
    · cases j with
      | zero => exact absurd hd hfirst
      | succ j =>
        refine ih (j := j) ?_ (Nat.lt_of_succ_lt_succ hj) ?_
        · rw [PageTables.directory_map, if_neg (Ne.symm hfirst)]
          exact hp
        · rwa [show p + 1 + j = p + (j + 1) by omega]

/-- **The directory entry over a page of the image has the user bit** exactly when it was present
before, or the image has another page under it: the mapping that creates the entry leaves the bit
out, the next one sets it. -/
theorem user_mapAll_iff (hj : j < fs.length) :
    (mapAll base p fs s).directory (dirIdx (pageAt base (p + j))) &&& pageUser ≠ 0 ↔
      s.directory (dirIdx (pageAt base (p + j))) &&& pagePresent ≠ 0 ∨
        ∃ i < fs.length, i ≠ j ∧
          dirIdx (pageAt base (p + i)) = dirIdx (pageAt base (p + j)) := by
  generalize hd : dirIdx (pageAt base (p + j)) = d
  induction fs generalizing j p s with
  | nil => cases hj
  | cons f fs ih =>
    rw [mapAll]
    by_cases hfirst : dirIdx (pageAt base p) = d
    swap
    · cases j with
      | zero => exact absurd hd hfirst
      | succ j =>
        rw [ih (Nat.lt_of_succ_lt_succ hj) (by rwa [show p + 1 + j = p + (j + 1) by omega]),
          PageTables.directory_map, if_neg (Ne.symm hfirst)]
        refine or_congr Iff.rfl ⟨?_, ?_⟩
        · rintro ⟨i, hi, hij, hid⟩
          refine ⟨i + 1, Nat.succ_lt_succ hi, fun h => hij (Nat.succ.inj h), ?_⟩
          rwa [show p + (i + 1) = p + 1 + i by omega]
        · rintro ⟨i, hi, hij, hid⟩
          cases i with
          | zero => exact absurd hid hfirst
          | succ i =>
            refine ⟨i, Nat.lt_of_succ_lt_succ hi, fun h => hij (congrArg _ h), ?_⟩
            rwa [show p + 1 + i = p + (i + 1) by omega]
    subst hfirst
    have hpresent : (pagingMap (pageAt base p) (.ofNat 32 f) userFlags s).directory
        (dirIdx (pageAt base p)) &&& pagePresent ≠ 0 := by
      rw [PageTables.directory_map, if_pos rfl]
      exact PageTables.mappedDir_present
    by_cases hpre : s.directory (dirIdx (pageAt base p)) &&& pagePresent = 0
    swap
    · refine iff_of_true (user_mapAll_of_user hpresent ?_) (.inl hpre)
      rw [PageTables.directory_map, if_pos rfl]
      exact mappedDir_user (fun _ => hpre) (by decide) _
    rw [List.length_cons] at hj ⊢
    by_cases hmore : ∃ i < fs.length, dirIdx (pageAt base (p + 1 + i)) = dirIdx (pageAt base p)
    · obtain ⟨i, hi, hid⟩ := hmore
      refine iff_of_true (user_mapAll_of_present hpresent hi hid) (.inr ?_)
      -- of the first page and this one, one is another than `j`
      cases j with
      | zero =>
        have hlater : dirIdx (pageAt base (p + (i + 1))) = dirIdx (pageAt base p) := by
          rw [show p + (i + 1) = p + 1 + i by omega]
          exact hid
        exact ⟨i + 1, by omega, by omega, hlater⟩
      | succ j => exact ⟨0, by omega, by omega, by rw [Nat.add_zero]⟩
    · push Not at hmore
      have hzero : ∀ k < fs.length + 1, dirIdx (pageAt base (p + k)) = dirIdx (pageAt base p) →
          k = 0 := by
        intro k hk hkd
        cases k with
        | zero => rfl
        | succ k =>
          refine absurd ?_ (hmore k (Nat.lt_of_succ_lt_succ hk))
          rwa [show p + 1 + k = p + (k + 1) by omega]
      refine iff_of_false (not_not_intro ?_) ?_
      · rw [directory_mapAll_of_ne fun i hi => (hmore i hi).symm, PageTables.directory_map,
          if_pos rfl]
        exact mappedDir_fresh hpre
      · rintro (hp | ⟨i, hi, hij, hid⟩)
        · exact hp hpre
        · exact hij ((hzero i hi hid).trans (hzero j hj hd).symm)

theorem mapAll_concat (base : BitVec 32) (p : ℕ) (fs : List ℕ) (f : ℕ) (s : PageTables) :
    mapAll base p (fs ++ [f]) s =
      pagingMap (pageAt base (p + fs.length)) (.ofNat 32 f) userFlags (mapAll base p fs s) := by
  induction fs generalizing p s with
  | nil => rfl
  | cons g fs ih =>
    rw [List.cons_append, mapAll, ih, mapAll, List.length_cons,
      show p + 1 + fs.length = p + (fs.length + 1) by omega]

theorem linked_clearAll (h : s.Linked) : (clearAll base p n s).Linked := by
  induction n generalizing p s with
  | zero => exact h
  | succ n ih => exact ih h.unmap

theorem entry_clearAll_of_ne (h : s.Linked)
    (hne : ∀ j < n, pageOf virt ≠ pageOf (pageAt base (p + j))) :
    (clearAll base p n s).entry virt = s.entry virt := by
  induction n generalizing p s with
  | zero => rfl
  | succ n ih =>
    have hfirst : pageOf virt ≠ pageOf (pageAt base p) := hne 0 (Nat.succ_pos _)
    rw [clearAll, ih h.unmap fun j hj => ?_, h.entry_unmap, if_neg hfirst]
    have hne' := hne (j + 1) (Nat.succ_lt_succ hj)
    rwa [show p + (j + 1) = p + 1 + j by omega] at hne'

/-- The entries of the pages unmapped are clear. -/
theorem entry_clearAll (h : s.Linked) (hj : j < n)
    (hpage : pageOf virt = pageOf (pageAt base (p + j))) :
    (clearAll base p n s).entry virt = 0 := by
  induction n generalizing j p s with
  | zero => omega
  | succ n ih =>
    rw [clearAll]
    by_cases hlater : ∃ i < n, pageOf virt = pageOf (pageAt base (p + 1 + i))
    · obtain ⟨i, hi, hpi⟩ := hlater
      exact ih h.unmap hi hpi
    · push Not at hlater
      rw [entry_clearAll_of_ne h.unmap hlater, h.entry_unmap, if_pos]
      cases j with
      | zero => exact hpage
      | succ j =>
        refine absurd ?_ (hlater j (by omega))
        rwa [show p + 1 + j = p + (j + 1) by omega]

end Tables

/-! ## Frames taken and given back -/

section Frames

variable {base virt : BitVec 32} {fs : List ℕ} {s : Space} {s₀ : Pmm} {o : Finset ℕ} {f n p : ℕ}

/-- Frames on page boundaries are frames of the allocator that are not outstanding, each once. -/
structure Spare (s₀ : Pmm) (o : Finset ℕ) (fs : List ℕ) : Prop where
  nodup : fs.Nodup
  addrs : ∀ f ∈ fs, f ∈ s₀.addrs
  spare : ∀ f ∈ fs, f ∉ o

theorem Spare.tail (h : Spare s₀ o (f :: fs)) : Spare s₀ o fs :=
  ⟨(List.nodup_cons.mp h.nodup).2, fun g hg => h.addrs g (List.mem_cons_of_mem _ hg),
    fun g hg => h.spare g (List.mem_cons_of_mem _ hg)⟩

/-- **The pages get the free frames in their order**, and those that are left over none. -/
theorem acquirePages_spec (hp : s₀.Placed) (hacc : Pmm.Accounts s₀ s.pmm o) (base : BitVec 32)
    (p n : ℕ) : ∃ pmm, acquirePages base p n s =
        (if n ≤ s.pmm.freeFrames.length then none else some (p + s.pmm.freeFrames.length),
          ⟨pmm, mapAll base p (s.pmm.freeFrames.take n) s.pages⟩) ∧
      Pmm.Accounts s₀ pmm (o ∪ (s.pmm.freeFrames.take n).toFinset) ∧
      Spare s₀ o (s.pmm.freeFrames.take n) := by
  induction n generalizing p s o with
  | zero =>
    refine ⟨s.pmm, rfl, ?_, List.nodup_nil, fun _ h => (List.not_mem_nil h).elim,
      fun _ h => (List.not_mem_nil h).elim⟩
    simpa using hacc
  | succ n ih =>
    rw [acquirePages]
    cases hfree : s.pmm.freeFrames with
    | nil =>
      rw [pmmAlloc_of_nil hfree]
      refine ⟨s.pmm, rfl, by simpa using hacc, ?_⟩
      exact ⟨List.nodup_nil, fun _ h => (List.not_mem_nil h).elim,
        fun _ h => (List.not_mem_nil h).elim⟩
    | cons f fs =>
      obtain ⟨hf, hfs⟩ := pmmAlloc_of_cons hfree
      rcases hacc.pmmAlloc_spec hp with ⟨hnull, -⟩ | ⟨g, hg, hgo, hfg, hacc'⟩
      · rw [hnull, hfree] at hfs
        exact absurd (congrArg List.length hfs) (by simp)
      -- the page gets the first of the free frames, and the others the rest
      obtain rfl : f = g := hf.symm.trans hfg
      have hne : f ≠ 0 := by
        obtain ⟨k, hk, rfl⟩ := Pmm.mem_addrs.mp hg
        exact hp.frameAddr_pos hk
      obtain ⟨pmm, heq, hacc'', hspare⟩ := ih (s := ⟨(pmmAlloc s.pmm).2,
        pagingMap (pageAt base p) (.ofNat 32 f) userFlags s.pages⟩) hacc' (p + 1)
      dsimp only at heq hacc'' hspare
      rw [hfs] at heq hacc'' hspare
      refine ⟨pmm, ?_, ?_, ?_⟩
      · dsimp only
        rw [hf, if_neg hne, heq]
        simp only [List.length_cons, Nat.add_le_add_iff_right, List.take_succ_cons, mapAll,
          Nat.add_right_comm p 1, Nat.add_assoc]
      · rw [List.take_succ_cons, List.toFinset_cons, Finset.union_insert]
        rwa [Finset.insert_union] at hacc''
      · rw [List.take_succ_cons]
        refine ⟨List.nodup_cons.mpr ⟨fun hin => ?_, hspare.nodup⟩, fun h hh => ?_, fun h hh => ?_⟩
        · exact hspare.spare f hin (Finset.mem_insert_self _ _)
        · rcases List.mem_cons.mp hh with rfl | hh
          · exact hg
          · exact hspare.addrs h hh
        · rcases List.mem_cons.mp hh with rfl | hh
          · exact hgo
          · exact fun ho => hspare.spare h hh (Finset.mem_insert_of_mem ho)

/-- The frame of a page that is mapped to a frame. -/
theorem frameAt_eq (hl : s.pages.Linked)
    (he : s.pages.entry virt = mapWord (.ofNat 32 f) userFlags)
    (hf : f % 4096 = 0 ∧ f ≠ 0 ∧ f < 2 ^ 32) :
    frameAt virt s = f ∧ pagingGetPhysical virt s.pages ≠ 0 := by
  have hto := toNat_frame hf.2.2
  have hphys : frameAt virt s = f := by
    have haligned : BitVec.ofNat 32 f &&& 0xFFFFF000#32 = .ofNat 32 f :=
      frame_of_aligned (by rw [hto]; exact hf.1)
    rw [frameAt, hl.getPhysical, he, if_neg mapWord_present, mapWord_frame, haligned, or_frame,
      haligned, hto]
    -- the offset of the address lies below the mask
    intro i hi h12
    rw [BitVec.getLsbD_and, getLsbD_flagMask i hi, decide_eq_false (by omega), Bool.and_false]
  refine ⟨hphys, fun h0 => hf.2.1 ?_⟩
  rw [← hphys, frameAt, h0]
  decide

variable (hp : s₀.Placed) (ha : s₀.bitmap % 4096 = 0)
include hp ha

/-- A frame given back. -/
theorem Spare.free (h : Spare s₀ o (f :: fs))
    (hacc : Pmm.Accounts s₀ s.pmm (o ∪ (f :: fs).toFinset)) :
    (f % 4096 = 0 ∧ f ≠ 0 ∧ f < 2 ^ 32) ∧
      Pmm.Accounts s₀ (pmmFree f s.pmm) (o ∪ fs.toFinset) := by
  have hmem : f ∈ o ∪ (f :: fs).toFinset := by simp
  refine ⟨hp.aligned ha (h.addrs f (List.mem_cons_self ..)), ?_⟩
  have hfree := hacc.pmmFree_spec hp hmem
  rwa [List.toFinset_cons, Finset.union_insert, Finset.erase_insert fun hin => ?_] at hfree
  rcases Finset.mem_union.mp hin with hin | hin
  · exact h.spare f (List.mem_cons_self ..) hin
  · exact (List.nodup_cons.mp h.nodup).1 (List.mem_toFinset.mp hin)

/-- **The frames of mapped pages are released**, and the pages stay as they are. -/
theorem releaseFrames_spec (hl : s.pages.Linked)
    (he : ∀ j f, fs[j]? = some f →
      s.pages.entry (pageAt base (p + j)) = mapWord (.ofNat 32 f) userFlags)
    (hspare : Spare s₀ o fs) (hacc : Pmm.Accounts s₀ s.pmm (o ∪ fs.toFinset)) :
    ∃ pmm, releaseFrames base p fs.length s = ⟨pmm, s.pages⟩ ∧ Pmm.Accounts s₀ pmm o := by
  induction fs generalizing p s with
  | nil => exact ⟨s.pmm, rfl, by simpa using hacc⟩
  | cons f fs ih =>
    obtain ⟨hf, hfree⟩ := hspare.free hp ha hacc
    have hframe := (frameAt_eq hl (he 0 f rfl) hf).1
    rw [Nat.add_zero] at hframe
    rw [List.length_cons, releaseFrames, hframe]
    refine ih (s := { s with pmm := pmmFree f s.pmm }) hl (fun j g hg => ?_) hspare.tail hfree
    rw [show p + 1 + j = p + (j + 1) by omega]
    exact he (j + 1) g hg

/-- **The pages are unmapped** and their frames released. -/
theorem unmapPages_spec (hn : fs.length ≤ 2 ^ 20) (hl : s.pages.Linked)
    (he : ∀ j f, fs[j]? = some f →
      s.pages.entry (pageAt base (p + j)) = mapWord (.ofNat 32 f) userFlags)
    (hspare : Spare s₀ o fs) (hacc : Pmm.Accounts s₀ s.pmm (o ∪ fs.toFinset)) :
    ∃ pmm, unmapPages base p fs.length s = ⟨pmm, clearAll base p fs.length s.pages⟩ ∧
      Pmm.Accounts s₀ pmm o := by
  induction fs generalizing p s with
  | nil => exact ⟨s.pmm, rfl, by simpa using hacc⟩
  | cons f fs ih =>
    obtain ⟨hf, hfree⟩ := hspare.free hp ha hacc
    have hfirst := frameAt_eq hl (he 0 f rfl) hf
    rw [Nat.add_zero] at hfirst
    rw [List.length_cons] at hn ⊢
    rw [unmapPages, unmapPage, if_neg hfirst.2, hfirst.1]
    refine ih (s := ⟨pmmFree f s.pmm, pagingUnmap (pageAt base p) s.pages⟩) (by omega) hl.unmap
      (fun j g hg => ?_) hspare.tail hfree
    have hlen := (List.getElem?_eq_some_iff.mp hg).1
    rw [hl.entry_unmap, if_neg fun hpage => ?_, show p + 1 + j = p + (j + 1) by omega]
    · exact he (j + 1) g hg
    · have := pageAt_inj (p := p) (by omega) (by omega) (by omega) (by omega) hpage
      omega

end Frames

end WarkRune.Elf

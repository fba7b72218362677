import Mathlib.Algebra.Group.Int.Defs
import Mathlib.Algebra.Group.Nat.Defs
import Mathlib.Data.Nat.Bitwise
import Mathlib.Logic.Function.Basic

/-!
# The page tables

One page directory and 1024 page tables, laid one behind the other from `0x300000`. `paging_map`
fills the entry of a page and creates or upgrades the directory entry over it; `paging_unmap`
clears the entry; `paging_get_physical` looks an address up.

Words are 32 bits wide. The processor's own lookup, `walk`, follows the address in the directory
entry and takes a permission only where both levels grant it.

## Main definitions

* `PageTables`: the words of the directory and of the tables
* `pagingMap`, `pagingUnmap`, `pagingGetPhysical`, `pagingInit`: the operations
* `PageTables.walk`: the processor's lookup
* `PageTables.entry`: the table entry of a page

## Main results

* `PageTables.Linked.entry_map`, `PageTables.Linked.entry_unmap`: the entries after an operation
-/

namespace WarkRune.Memory

open Function (update)

/-- `PAGE_PRESENT`. -/
def pagePresent : BitVec 32 := 0x1

/-- `PAGE_WRITE`. -/
def pageWrite : BitVec 32 := 0x2

/-- `PAGE_USER`. -/
def pageUser : BitVec 32 := 0x4

/-- `page_directory` and `page_tables`. -/
structure PageTables where
  directory : ℕ → BitVec 32
  tables : ℕ → ℕ → BitVec 32

/-- The index of the directory entry over an address. -/
def dirIdx (virt : BitVec 32) : ℕ := (virt >>> 22).toNat

/-- The index of the table entry of an address. -/
def tableIdx (virt : BitVec 32) : ℕ := (virt >>> 12 &&& 0x3FF#32).toNat

/-- The address of a page table. -/
def pageTableAddr (d : ℕ) : BitVec 32 := .ofNat 32 (0x300000 + d * 4096)

/-- The word that `paging_map` writes for a page. -/
def mapWord (phys flags : BitVec 32) : BitVec 32 :=
  phys &&& 0xFFFFF000#32 ||| flags &&& 0xFFF#32 ||| pagePresent

/-- `paging_map`. -/
def pagingMap (virt phys flags : BitVec 32) (s : PageTables) : PageTables :=
  let d := dirIdx virt
  let t := tableIdx virt
  { directory :=
      if s.directory d &&& pagePresent = 0 then
        update s.directory d (pageTableAddr d ||| pagePresent ||| pageWrite)
      else if flags &&& pageUser ≠ 0 ∧ s.directory d &&& pageUser = 0 then
        update s.directory d (s.directory d ||| pageUser)
      else s.directory
    tables := update s.tables d (update (s.tables d) t (mapWord phys flags)) }

/-- `paging_unmap`. -/
def pagingUnmap (virt : BitVec 32) (s : PageTables) : PageTables :=
  let d := dirIdx virt
  let t := tableIdx virt
  if s.directory d &&& pagePresent = 0 then s
  else { s with tables := update s.tables d (update (s.tables d) t 0) }

/-- `paging_get_physical`; 0 when the page is not present. -/
def pagingGetPhysical (virt : BitVec 32) (s : PageTables) : BitVec 32 :=
  let d := dirIdx virt
  let t := tableIdx virt
  if s.directory d &&& pagePresent = 0 then 0
  else
    let entry := s.tables d t
    if entry &&& pagePresent = 0 then 0
    else entry &&& 0xFFFFF000#32 ||| virt &&& 0xFFF#32

/-- A loop of `paging_init`: the pages from `start` to below `stop` are mapped to themselves. -/
def mapRange (start stop : ℕ) (flags : BitVec 32) (s : PageTables) : PageTables :=
  (List.range' start ((stop - start + 0xFFF) / 0x1000) 0x1000).foldl
    (fun s addr => pagingMap (.ofNat 32 addr) (.ofNat 32 addr) flags s) s

/-- The tables that `paging_init` starts from. -/
def clearedTables (s : PageTables) : PageTables where
  directory i := if i < 1024 then pageWrite else s.directory i
  tables i j := if i < 1024 ∧ j < 1024 then 0 else s.tables i j

/-- `paging_init`, where the word at `0x5000` is `fb`. -/
def pagingInit (fb : BitVec 32) (s : PageTables) : PageTables :=
  let s := clearedTables s
  let s := mapRange 0 0x4000000 (pagePresent ||| pageWrite) s
  let s := mapRange 0xA0000 0xC0000 (pagePresent ||| pageWrite) s
  let s := mapRange 0xC0000 0x100000 pagePresent s
  let s :=
    if fb.toNat > 0 then
      mapRange fb.toNat ((fb.toNat + 0x400000) % 2 ^ 32) (pagePresent ||| pageWrite) s
    else s
  mapRange 0xA00000 (0xA00000 + 0x400000) (pagePresent ||| pageWrite) s

/-! ## The processor's lookup -/

/-- What the processor finds for an address. -/
@[ext] structure Translation where
  frame : BitVec 32
  user : Bool
  write : Bool

/-- The table that a directory entry points to. -/
def tableOf (pde : BitVec 32) : ℕ := ((pde &&& 0xFFFFF000#32).toNat - 0x300000) / 4096

/-- **The two-level walk**: present only if both levels are, with the permissions that both
levels grant. -/
def PageTables.walk (s : PageTables) (virt : BitVec 32) : Option Translation :=
  let pde := s.directory (dirIdx virt)
  let pte := s.tables (tableOf pde) (tableIdx virt)
  if pde &&& pagePresent = 0 then none
  else if pte &&& pagePresent = 0 then none
  else some {
    frame := pte &&& 0xFFFFF000#32
    user := pde &&& pageUser ≠ 0 ∧ pte &&& pageUser ≠ 0
    write := pde &&& pageWrite ≠ 0 ∧ pte &&& pageWrite ≠ 0 }

/-- The number of the page of an address. -/
def pageOf (virt : BitVec 32) : ℕ := virt.toNat / 4096

/-! ## Bits -/

section Bits

variable {w v : BitVec 32} {d : ℕ}

theorem and_pagePresent : w &&& pagePresent = 0 ↔ w.getLsbD 0 = false := by
  rw [pagePresent, show (0x1 : BitVec 32) = BitVec.twoPow 32 0 by decide, BitVec.and_twoPow]
  cases w.getLsbD 0 <;> decide

theorem and_pageWrite : w &&& pageWrite = 0 ↔ w.getLsbD 1 = false := by
  rw [pageWrite, show (0x2 : BitVec 32) = BitVec.twoPow 32 1 by decide, BitVec.and_twoPow]
  cases w.getLsbD 1 <;> decide

theorem and_pageUser : w &&& pageUser = 0 ↔ w.getLsbD 2 = false := by
  rw [pageUser, show (0x4 : BitVec 32) = BitVec.twoPow 32 2 by decide, BitVec.and_twoPow]
  cases w.getLsbD 2 <;> decide

theorem getLsbD_frameMask : ∀ i < 32, (0xFFFFF000#32).getLsbD i = decide (12 ≤ i) := by decide

theorem getLsbD_flagMask : ∀ i < 32, (0xFFF#32).getLsbD i = decide (i < 12) := by decide

theorem getLsbD_mapWord {phys flags : BitVec 32} {i : ℕ} (hi : i < 32) :
    (mapWord phys flags).getLsbD i =
      if i = 0 then true else if i < 12 then flags.getLsbD i else phys.getLsbD i := by
  have hone : ∀ i < 32, pagePresent.getLsbD i = decide (i = 0) := by decide
  rw [mapWord, BitVec.getLsbD_or, BitVec.getLsbD_or, BitVec.getLsbD_and, BitVec.getLsbD_and,
    getLsbD_frameMask i hi, getLsbD_flagMask i hi, hone i hi]
  by_cases h0 : i = 0
  · simp [h0]
  · by_cases h12 : i < 12
    · simp [h0, h12]
    · simp [h0, h12]
      intro h
      omega

theorem mapWord_present {phys flags : BitVec 32} : mapWord phys flags &&& pagePresent ≠ 0 := by
  rw [Ne, and_pagePresent, getLsbD_mapWord (by decide), if_pos rfl]
  exact Bool.noConfusion

theorem mapWord_frame {phys flags : BitVec 32} :
    mapWord phys flags &&& 0xFFFFF000#32 = phys &&& 0xFFFFF000#32 := by
  apply BitVec.eq_of_getLsbD_eq
  intro i hi
  rw [BitVec.getLsbD_and, BitVec.getLsbD_and, getLsbD_mapWord hi, getLsbD_frameMask i hi]
  by_cases h12 : 12 ≤ i
  · rw [if_neg (by omega), if_neg (by omega)]
  · simp [h12]

theorem dirIdx_eq (virt : BitVec 32) : dirIdx virt = virt.toNat / 2 ^ 22 := by
  rw [dirIdx, BitVec.toNat_ushiftRight, Nat.shiftRight_eq_div_pow]

theorem tableIdx_eq (virt : BitVec 32) : tableIdx virt = virt.toNat / 2 ^ 12 % 2 ^ 10 := by
  rw [tableIdx, BitVec.toNat_and, BitVec.toNat_ushiftRight, Nat.shiftRight_eq_div_pow,
    show (0x3FF#32).toNat = 2 ^ 10 - 1 by decide, Nat.and_two_pow_sub_one_eq_mod]

theorem dirIdx_lt (virt : BitVec 32) : dirIdx virt < 1024 := by
  have := virt.isLt
  rw [dirIdx_eq]
  omega

/-- Addresses of one page have the same indices, and the other way round. -/
theorem pageOf_eq_iff {virt virt' : BitVec 32} :
    pageOf virt = pageOf virt' ↔ dirIdx virt = dirIdx virt' ∧ tableIdx virt = tableIdx virt' := by
  rw [dirIdx_eq, dirIdx_eq, tableIdx_eq, tableIdx_eq, pageOf, pageOf]
  omega

/-- The address of a table has no flag bits. -/
theorem getLsbD_pageTableAddr {i : ℕ} (hi : i < 12) : (pageTableAddr d).getLsbD i = false := by
  rw [pageTableAddr, BitVec.getLsbD_ofNat, show 0x300000 + d * 4096 = (768 + d) * 2 ^ 12 by omega,
    Nat.testBit_mul_two_pow]
  simp [hi]

/-- A word that agrees with the address of a table above the flags points to the table. -/
theorem tableOf_eq (hd : d < 1024) (h : w &&& 0xFFFFF000#32 = pageTableAddr d) :
    tableOf w = d := by
  rw [tableOf, h, pageTableAddr, BitVec.toNat_ofNat]
  omega

/-- Setting flags does not move the table. -/
theorem or_frame (h : ∀ i < 32, 12 ≤ i → v.getLsbD i = false) :
    (w ||| v) &&& 0xFFFFF000#32 = w &&& 0xFFFFF000#32 := by
  apply BitVec.eq_of_getLsbD_eq
  intro i hi
  rw [BitVec.getLsbD_and, BitVec.getLsbD_and, BitVec.getLsbD_or, getLsbD_frameMask i hi]
  by_cases h12 : 12 ≤ i
  · rw [h i hi h12, Bool.or_false]
  · simp [h12]

theorem pageTableAddr_frame : pageTableAddr d &&& 0xFFFFF000#32 = pageTableAddr d := by
  apply BitVec.eq_of_getLsbD_eq
  intro i hi
  rw [BitVec.getLsbD_and, getLsbD_frameMask i hi]
  by_cases h12 : 12 ≤ i
  · simp [h12]
  · rw [getLsbD_pageTableAddr (by omega), Bool.false_and]

/-- An aligned address has no offset. -/
theorem offset_of_aligned (h : w.toNat % 4096 = 0) : w &&& 0xFFF#32 = 0 := by
  apply BitVec.eq_of_toNat_eq
  rw [BitVec.toNat_and, show (0xFFF#32).toNat = 2 ^ 12 - 1 by decide, Nat.and_two_pow_sub_one_eq_mod]
  exact h

/-- An address is its frame and its offset. -/
theorem frame_or_offset : w &&& 0xFFFFF000#32 ||| w &&& 0xFFF#32 = w := by
  apply BitVec.eq_of_getLsbD_eq
  intro i hi
  rw [BitVec.getLsbD_or, BitVec.getLsbD_and, BitVec.getLsbD_and, getLsbD_frameMask i hi,
    getLsbD_flagMask i hi]
  by_cases h12 : 12 ≤ i
  · simp [h12]
  · simp [h12]
    omega

theorem frame_of_aligned (h : w.toNat % 4096 = 0) : w &&& 0xFFFFF000#32 = w := by
  have heq := @frame_or_offset w
  rw [offset_of_aligned h] at heq
  exact BitVec.or_zero.symm.trans heq

end Bits

/-! ## Table entries -/

theorem tableIdx_lt (virt : BitVec 32) : tableIdx virt < 1024 := by
  rw [tableIdx_eq]
  exact Nat.mod_lt _ (by decide)

/-- The directory entry over a page after `paging_map`. -/
def mappedDir (d : ℕ) (flags pde : BitVec 32) : BitVec 32 :=
  if pde &&& pagePresent = 0 then pageTableAddr d ||| pagePresent ||| pageWrite
  else if flags &&& pageUser ≠ 0 ∧ pde &&& pageUser = 0 then pde ||| pageUser
  else pde

namespace PageTables

/-- The table entry of the page of an address. -/
def entry (s : PageTables) (virt : BitVec 32) : BitVec 32 := s.tables (dirIdx virt) (tableIdx virt)

/-- Directory entries that are present are writable and point to their tables; the tables of the
others are clear. -/
structure Linked (s : PageTables) : Prop where
  points : ∀ d < 1024, s.directory d &&& pagePresent ≠ 0 →
    s.directory d &&& 0xFFFFF000#32 = pageTableAddr d
  writable : ∀ d < 1024, s.directory d &&& pagePresent ≠ 0 → s.directory d &&& pageWrite ≠ 0
  cleared : ∀ d < 1024, s.directory d &&& pagePresent = 0 → ∀ t < 1024, s.tables d t = 0

variable {s : PageTables} {virt virt' phys flags : BitVec 32} {d : ℕ}

theorem directory_map : (pagingMap virt phys flags s).directory d =
    if d = dirIdx virt then mappedDir d flags (s.directory d) else s.directory d := by
  unfold pagingMap mappedDir
  by_cases hd : d = dirIdx virt
  · subst hd
    dsimp only
    rw [if_pos rfl]
    split_ifs <;> first | rfl | rw [Function.update_self]
  · dsimp only
    rw [if_neg hd]
    split_ifs <;> first | rfl | rw [Function.update_of_ne hd]

theorem entry_map : (pagingMap virt phys flags s).entry virt' =
    if pageOf virt' = pageOf virt then mapWord phys flags else s.entry virt' := by
  simp only [entry, pagingMap, pageOf_eq_iff]
  by_cases hd : dirIdx virt' = dirIdx virt
  · rw [hd, Function.update_self]
    by_cases ht : tableIdx virt' = tableIdx virt
    · rw [ht, Function.update_self, if_pos ⟨rfl, rfl⟩]
    · rw [Function.update_of_ne ht, if_neg fun h => ht h.2]
  · rw [Function.update_of_ne hd, if_neg fun h => hd h.1]

theorem mappedDir_present {pde : BitVec 32} : mappedDir d flags pde &&& pagePresent ≠ 0 := by
  unfold mappedDir
  split_ifs with hp hu
  · rw [Ne, and_pagePresent, BitVec.getLsbD_or, BitVec.getLsbD_or]
    simp [pagePresent]
  · rw [Ne, and_pagePresent] at *
    simpa [pageUser] using hp
  · exact hp

theorem mappedDir_write {pde : BitVec 32}
    (h : pde &&& pagePresent ≠ 0 → pde &&& pageWrite ≠ 0) :
    mappedDir d flags pde &&& pageWrite ≠ 0 := by
  unfold mappedDir
  split_ifs with hp hu
  · rw [Ne, and_pageWrite, BitVec.getLsbD_or, BitVec.getLsbD_or]
    simp [pageWrite]
  · have hw := h hp
    rw [Ne, and_pageWrite] at *
    simpa [pageUser] using hw
  · exact h hp

theorem mappedDir_frame {pde : BitVec 32}
    (h : pde &&& pagePresent ≠ 0 → pde &&& 0xFFFFF000#32 = pageTableAddr d) :
    mappedDir d flags pde &&& 0xFFFFF000#32 = pageTableAddr d := by
  unfold mappedDir
  split_ifs with hp hu
  · rw [or_frame (by decide), or_frame (by decide), pageTableAddr_frame]
  · rw [or_frame (by decide), h hp]
  · exact h hp

theorem directory_cleared (s : PageTables) (hd : d < 1024) :
    (clearedTables s).directory d = pageWrite :=
  if_pos hd

theorem linked_cleared (s : PageTables) : (clearedTables s).Linked := by
  have habs : pageWrite &&& pagePresent = 0 := by decide
  refine ⟨fun d hd hp => ?_, fun d hd hp => ?_, fun d hd _ t ht => if_pos ⟨hd, ht⟩⟩
  · rw [directory_cleared s hd] at hp
    exact absurd habs hp
  · rw [directory_cleared s hd] at hp
    exact absurd habs hp

namespace Linked

variable (h : s.Linked)
include h

theorem map : (pagingMap virt phys flags s).Linked := by
  refine ⟨fun d hd hp => ?_, fun d hd hp => ?_, fun d hd hp t ht => ?_⟩ <;>
    rw [directory_map] at *
  · split_ifs at *
    · exact mappedDir_frame (h.points d hd)
    · exact h.points d hd hp
  · split_ifs at *
    · exact mappedDir_write (h.writable d hd)
    · exact h.writable d hd hp
  · split_ifs at hp with hdv
    · exact absurd hp mappedDir_present
    · unfold pagingMap
      dsimp only
      rw [Function.update_of_ne hdv]
      exact h.cleared d hd hp t ht

/-- A page over which no directory entry is present has a clear entry. -/
theorem entry_eq_zero (hp : s.directory (dirIdx virt) &&& pagePresent = 0) : s.entry virt = 0 :=
  h.cleared _ (dirIdx_lt virt) hp _ (tableIdx_lt virt)

theorem unmap : (pagingUnmap virt s).Linked := by
  unfold pagingUnmap
  dsimp only
  split_ifs with hp
  · exact h
  · refine ⟨h.points, h.writable, fun d hd hd' t ht => ?_⟩
    have hne : d ≠ dirIdx virt := by
      rintro rfl
      exact hp hd'
    dsimp only
    rw [Function.update_of_ne hne]
    exact h.cleared d hd hd' t ht

theorem entry_unmap : (pagingUnmap virt s).entry virt' =
    if pageOf virt' = pageOf virt then 0 else s.entry virt' := by
  unfold pagingUnmap
  dsimp only
  split_ifs with hp hpage hpage
  · rw [pageOf_eq_iff] at hpage
    refine h.entry_eq_zero ?_
    rwa [hpage.1]
  · rfl
  · obtain ⟨hd, ht⟩ := pageOf_eq_iff.mp hpage
    rw [entry, hd, ht]
    dsimp only
    rw [Function.update_self, Function.update_self]
  · rw [entry, entry]
    dsimp only
    by_cases hd : dirIdx virt' = dirIdx virt
    · have ht : tableIdx virt' ≠ tableIdx virt := fun ht => hpage (pageOf_eq_iff.mpr ⟨hd, ht⟩)
      rw [hd, Function.update_self, Function.update_of_ne ht]
    · rw [Function.update_of_ne hd]

theorem getPhysical : pagingGetPhysical virt s =
    if s.entry virt &&& pagePresent = 0 then 0
    else s.entry virt &&& 0xFFFFF000#32 ||| virt &&& 0xFFF#32 := by
  unfold pagingGetPhysical
  dsimp only
  by_cases hp : s.directory (dirIdx virt) &&& pagePresent = 0
  · rw [if_pos hp, h.entry_eq_zero hp, if_pos (by decide)]
  · rw [if_neg hp]
    rfl

/-- The walk finds the table entry of the page. -/
theorem walk_eq : s.walk virt =
    if s.entry virt &&& pagePresent = 0 then none
    else some {
      frame := s.entry virt &&& 0xFFFFF000#32
      user := s.directory (dirIdx virt) &&& pageUser ≠ 0 ∧ s.entry virt &&& pageUser ≠ 0
      write := s.entry virt &&& pageWrite ≠ 0 } := by
  unfold walk
  dsimp only
  by_cases hp : s.directory (dirIdx virt) &&& pagePresent = 0
  · rw [if_pos hp, h.entry_eq_zero hp, if_pos (by decide)]
  · have hlt := dirIdx_lt virt
    rw [if_neg hp, tableOf_eq hlt (h.points _ hlt hp)]
    have hw := h.writable _ hlt hp
    simp only [hw, ne_eq, not_false_eq_true, true_and]
    rfl

end Linked

/-- The mapping of a page: its table entry, if it is present at both levels. -/
def mapping (s : PageTables) (virt : BitVec 32) : Option (BitVec 32) :=
  if s.directory (dirIdx virt) &&& pagePresent = 0 ∨ s.entry virt &&& pagePresent = 0 then none
  else some (s.entry virt)

theorem Linked.mapping_eq (h : s.Linked) :
    s.mapping virt = if s.entry virt &&& pagePresent = 0 then none else some (s.entry virt) := by
  unfold mapping
  by_cases hp : s.directory (dirIdx virt) &&& pagePresent = 0
  · rw [if_pos (.inl hp), h.entry_eq_zero hp, if_pos (by decide)]
  · simp only [hp, false_or]

/-- Entries that are equal are equal mappings. -/
theorem Linked.mapping_congr {s' : PageTables} (h : s.Linked) (h' : s'.Linked)
    (he : s'.entry virt = s.entry virt) : s'.mapping virt = s.mapping virt := by
  rw [h.mapping_eq, h'.mapping_eq, he]

/-! ## The mappings of `paging_init` -/

/-- In `s'` the pages from the one of `start` on, `n` of them, are mapped with the flags; the other
entries are those of `s`. -/
structure Maps (s s' : PageTables) (start n : ℕ) (flags : BitVec 32) : Prop where
  linked : s'.Linked
  inside : ∀ virt, start / 4096 ≤ pageOf virt ∧ pageOf virt < start / 4096 + n →
    ∃ a, s'.entry virt = mapWord a flags
  outside : ∀ virt, ¬ (start / 4096 ≤ pageOf virt ∧ pageOf virt < start / 4096 + n) →
    s'.entry virt = s.entry virt

theorem maps_foldl (flags : BitVec 32) (n : ℕ) :
    ∀ (start : ℕ) {s : PageTables}, s.Linked → start + n * 0x1000 < 2 ^ 32 + 0x1000 →
      Maps s ((List.range' start n 0x1000).foldl
        (fun s addr => pagingMap (.ofNat 32 addr) (.ofNat 32 addr) flags s) s) start n flags := by
  induction n with
  | zero =>
    intro start s hs _
    exact ⟨hs, fun virt h => absurd h (by omega), fun virt _ => rfl⟩
  | succ n ih =>
    intro start s hs hlt
    rw [List.range'_succ, List.foldl_cons]
    have hpage : pageOf (.ofNat 32 start) = start / 4096 := by
      rw [pageOf, BitVec.toNat_ofNat, Nat.mod_eq_of_lt (by omega)]
    have hrest := ih (start + 0x1000)
      (hs.map : (pagingMap (.ofNat 32 start) (.ofNat 32 start) flags s).Linked) (by omega)
    refine ⟨hrest.linked, fun virt hin => ?_, fun virt hout => ?_⟩
    · by_cases hlater : (start + 0x1000) / 4096 ≤ pageOf virt ∧
          pageOf virt < (start + 0x1000) / 4096 + n
      · exact hrest.inside virt hlater
      · have hfirst : pageOf virt = start / 4096 := by omega
        rw [hrest.outside virt hlater, entry_map, if_pos (hfirst.trans hpage.symm)]
        exact ⟨_, rfl⟩
    · rw [hrest.outside virt (by omega), entry_map, if_neg (by rw [hpage]; omega)]

/-- A loop of `paging_init` maps its pages. -/
theorem maps_mapRange (start stop : ℕ) (flags : BitVec 32) (h : s.Linked)
    (hlt : start + (stop - start + 0xFFF) / 0x1000 * 0x1000 < 2 ^ 32 + 0x1000) :
    Maps s (mapRange start stop flags s) start ((stop - start + 0xFFF) / 0x1000) flags :=
  maps_foldl flags _ start h hlt

end PageTables

/-- An address in the pages that `paging_init` maps for the framebuffer at `fb`: 4 MB, or nothing
when they reach the end of the address space. -/
def InFramebuffer (fb virt : BitVec 32) : Prop :=
  0 < fb.toNat ∧ fb.toNat + 0x400000 < 2 ^ 32 ∧
    pageOf fb ≤ pageOf virt ∧ pageOf virt < pageOf fb + 1024

/-- A page that is mapped stays mapped. -/
theorem PageTables.Maps.keeps {s s' : PageTables} {start n : ℕ} {flags virt : BitVec 32}
    (h : PageTables.Maps s s' start n flags) (hs : ∃ a fl, s.entry virt = mapWord a fl) :
    ∃ a fl, s'.entry virt = mapWord a fl := by
  by_cases hin : start / 4096 ≤ pageOf virt ∧ pageOf virt < start / 4096 + n
  · obtain ⟨a, ha⟩ := h.inside virt hin
    exact ⟨a, flags, ha⟩
  · rwa [h.outside virt hin]

/-- The tables after `paging_init` map every page of the first 64 MB. -/
theorem pagingInit_low (fb : BitVec 32) (s : PageTables) {virt : BitVec 32}
    (hv : pageOf virt < 0x4000) : ∃ a flags, (pagingInit fb s).entry virt = mapWord a flags := by
  have h₁ := PageTables.maps_mapRange 0 0x4000000 (pagePresent ||| pageWrite)
    (PageTables.linked_cleared s) (by decide)
  have h₂ := PageTables.maps_mapRange 0xA0000 0xC0000 (pagePresent ||| pageWrite) h₁.linked
    (by decide)
  have h₃ := PageTables.maps_mapRange 0xC0000 0x100000 pagePresent h₂.linked (by decide)
  have hmapped₁ : ∃ a fl, (mapRange 0 0x4000000 (pagePresent ||| pageWrite)
      (clearedTables s)).entry virt = mapWord a fl := by
    obtain ⟨a, ha⟩ := h₁.inside virt (by omega)
    exact ⟨a, _, ha⟩
  -- the ranges mapped later change addresses, but take no mapping away
  have hmapped := h₃.keeps (h₂.keeps hmapped₁)
  unfold pagingInit
  dsimp only
  generalize mapRange 0xC0000 0x100000 _ _ = s₃ at *
  by_cases hfb : fb.toNat > 0
  · rw [if_pos hfb]
    have hfblt := fb.isLt
    have h₄ := PageTables.maps_mapRange fb.toNat ((fb.toNat + 0x400000) % 2 ^ 32)
      (pagePresent ||| pageWrite) h₃.linked (by omega)
    have h₅ := PageTables.maps_mapRange 0xA00000 (0xA00000 + 0x400000) (pagePresent ||| pageWrite)
      h₄.linked (by decide)
    exact h₅.keeps (h₄.keeps hmapped)
  · rw [if_neg hfb]
    have h₅ := PageTables.maps_mapRange 0xA00000 (0xA00000 + 0x400000) (pagePresent ||| pageWrite)
      h₃.linked (by decide)
    exact h₅.keeps hmapped

/-- **The tables after `paging_init`** map no page from `0xD0000000` on but the framebuffer's. -/
theorem pagingInit_spec (fb : BitVec 32) (s : PageTables) : (pagingInit fb s).Linked ∧
    ∀ virt, 0xD0000 ≤ pageOf virt →
      (InFramebuffer fb virt → ∃ a flags, (pagingInit fb s).entry virt = mapWord a flags) ∧
      (¬ InFramebuffer fb virt → (pagingInit fb s).entry virt = 0) := by
  have hcleared virt : (clearedTables s).entry virt = 0 :=
    if_pos ⟨dirIdx_lt virt, tableIdx_lt virt⟩
  have h₁ := PageTables.maps_mapRange 0 0x4000000 (pagePresent ||| pageWrite)
    (PageTables.linked_cleared s) (by decide)
  have h₂ := PageTables.maps_mapRange 0xA0000 0xC0000 (pagePresent ||| pageWrite) h₁.linked
    (by decide)
  have h₃ := PageTables.maps_mapRange 0xC0000 0x100000 pagePresent h₂.linked (by decide)
  have hlow virt (hv : 0xD0000 ≤ pageOf virt) := (h₃.outside virt (by omega)).trans
    ((h₂.outside virt (by omega)).trans ((h₁.outside virt (by omega)).trans (hcleared virt)))
  unfold pagingInit
  dsimp only
  generalize mapRange 0xC0000 0x100000 _ _ = s₃ at *
  by_cases hfb : fb.toNat > 0
  · rw [if_pos hfb]
    have hfblt := fb.isLt
    have h₄ := PageTables.maps_mapRange fb.toNat ((fb.toNat + 0x400000) % 2 ^ 32)
      (pagePresent ||| pageWrite) h₃.linked (by omega)
    have h₅ := PageTables.maps_mapRange 0xA00000 (0xA00000 + 0x400000) (pagePresent ||| pageWrite)
      h₄.linked (by decide)
    refine ⟨h₅.linked, fun virt hv => ⟨fun hin => ?_, fun hout => ?_⟩⟩
    · obtain ⟨-, hend, hin⟩ := hin
      unfold pageOf at hin
      rw [h₅.outside virt (by omega)]
      obtain ⟨a, ha⟩ := h₄.inside virt (by unfold pageOf; omega)
      exact ⟨a, _, ha⟩
    · unfold InFramebuffer pageOf at hout
      unfold pageOf at hv
      rw [h₅.outside virt (by unfold pageOf; omega), h₄.outside virt (by unfold pageOf; omega)]
      exact hlow virt hv
  · rw [if_neg hfb]
    have h₅ := PageTables.maps_mapRange 0xA00000 (0xA00000 + 0x400000) (pagePresent ||| pageWrite)
      h₃.linked (by decide)
    refine ⟨h₅.linked, fun virt hv => ⟨fun hin => absurd hin.1 hfb, fun _ => ?_⟩⟩
    rw [h₅.outside virt (by omega)]
    exact hlow virt hv

end WarkRune.Memory

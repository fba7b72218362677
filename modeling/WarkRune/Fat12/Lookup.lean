import WarkRune.Fat12.Tree
import WarkRune.Fat12.Components

/-!
# What path resolution and searches find

A search for a name meets live entries only, and a path leads through directories of the tree.
What a path leads to depends on the entries it meets.

## Main results

* `Volume.find_live`, `Volume.find_eq_none`: what a search finds and what it misses
* `Volume.freeSlot_spec`, `Volume.freeSlot_eq_none`: what the search for a slot finds
* `Volume.resolve_dirAt`: a path leads to a directory of the tree
* `Volume.resolve_congr`: a path leads to the same directory when its directories are found
-/

/-- The first answer over a range. -/
theorem List.findSome?_range'_eq {α : Type} {f : ℕ → Option α} {a : α} {i k : ℕ} :
    ∀ {n : ℕ}, i ≤ k → k < i + n → f k = some a → (∀ j, i ≤ j → j < k → f j = none) →
      (List.range' i n).findSome? f = some a := by
  intro n hik hkn hk hpre
  induction n generalizing i with
  | zero => omega
  | succ n ih =>
    rw [List.range'_succ, List.findSome?_cons]
    rcases Nat.eq_or_lt_of_le hik with rfl | hlt
    · rw [hk]
    · rw [hpre i le_rfl hlt]
      exact ih hlt (by omega) fun j hj => hpre j (by omega)

namespace WarkRune.Fat12

/-! ## Names -/

/-- A name from a path does not begin with a dot. -/
theorem to83_ne_dot (s : Path) : (to83 s).2 0 ≠ dot := by
  unfold to83
  dsimp only
  split
  · decide
  · next h =>
    rw [not_or] at h
    obtain ⟨c, cs, hc⟩ : ∃ c cs, cString s = c :: cs := by
      cases hs : cString s with
      | nil => simp [hs] at h
      | cons c cs => exact ⟨c, cs, rfl⟩
    rw [hc] at h ⊢
    have hd : c ≠ dot := h.2
    simp [hd, upper_eq_iff (x := dot) (by decide)]

theorem match83_iff {n t : Name} : match83 n t = true ↔ ∀ i, upper (n i) = upper (t i) := by
  simp [match83]

theorem match83_comm (n t : Name) : match83 n t = match83 t n := by
  simp only [match83, eq_comm]

theorem match83_trans {a b c : Name} (h : match83 a b = true) (h' : match83 b c = true) :
    match83 a c = true :=
  match83_iff.mpr fun i => (match83_iff.mp h i).trans (match83_iff.mp h' i)

theorem match83_self (t : Name) : match83 t t = true := match83_iff.mpr fun _ => rfl

/-- An entry that matches a name from a path is no dot entry. -/
theorem not_isDot_of_match {e : DirEntry} {t : Name} (ht : t 0 ≠ dot)
    (h : match83 e.name t = true) : ¬ e.IsDot := by
  rintro ⟨hd, -⟩
  have h0 := match83_iff.mp h 0
  rw [hd, show upper dot = dot from rfl] at h0
  exact ht ((upper_eq_iff (x := dot) (by decide)).mp h0.symm)

theorem not_masked_label {e : DirEntry} (h : ¬ e.Masked) : e.attr &&& 0x08 = 0 := by
  have hb : ∀ n < 256, UInt8.ofNat n &&& 0x0F = 0 → UInt8.ofNat n &&& 0x08 = 0 := by
    decide +kernel
  have he := hb e.attr.toNat e.attr.toNat_lt
  rw [UInt8.ofNat_toNat] at he
  exact he (not_not.mp h)

namespace Volume

variable {V V' : Volume}

/-! ## Slots in order -/

theorem walk_isSome_of_le {n m c : ℕ} (hmn : m ≤ n) (h : (V.walk n c).isSome = true) :
    (V.walk m c).isSome = true := by
  induction n generalizing m c with
  | zero =>
    obtain rfl : m = 0 := by omega
    exact h
  | succ n ih =>
    cases m with
    | zero => rfl
    | succ m =>
      simp only [walk] at h ⊢
      split at h
      · cases h
      · next he =>
        rw [if_neg he]
        exact ih (by omega) h

/-- The slots before a slot of a directory are slots of it. -/
theorem slot_isSome_of_le {d i j : ℕ} (hji : j ≤ i) (h : (V.slot d i).isSome = true) :
    (V.slot d j).isSome = true := by
  rw [slot_eq, Option.isSome_map] at h ⊢
  unfold place at h ⊢
  split at h
  · next hd =>
    rw [if_pos hd]
    split at h
    · rw [if_pos (by omega)]
      rfl
    · cases h
  · next hd =>
    rw [if_neg hd]
    rw [Option.isSome_map] at h ⊢
    exact walk_isSome_of_le (Nat.div_le_div_right hji) h

theorem exists_slot_of_le {d i j : ℕ} (hji : j ≤ i) (h : (V.slot d i).isSome = true) :
    ∃ e, V.slot d j = some e :=
  Option.isSome_iff_exists.mp (slot_isSome_of_le hji h)

/-! ## The search for a name -/

theorem findAt_eq_none {d j : ℕ} {t : Name} : V.findAt d t j = none ↔
    ∃ e, V.slot d j = some e ∧ e.name 0 ≠ dirEnd ∧
      (e.name 0 = dirFree ∨ e.Masked ∨ match83 e.name t = false) := by
  unfold findAt
  cases V.slot d j with
  | none => simp
  | some e =>
    dsimp only
    split_ifs with h₁ h₂ h₃ h₄ <;> simp [*]
    decide

theorem findAt_eq_some {d i k : ℕ} {t : Name} {e : DirEntry} :
    V.findAt d t i = some (some (k, e)) ↔ k = i ∧ V.slot d i = some e ∧ e.name 0 ≠ dirEnd ∧
      e.name 0 ≠ dirFree ∧ ¬ e.Masked ∧ match83 e.name t = true := by
  unfold findAt
  cases V.slot d i with
  | none => simp
  | some f =>
    dsimp only
    split_ifs with h₁ h₂ h₃ h₄
    · simp only [Option.some.injEq, reduceCtorEq, false_iff]
      rintro ⟨-, rfl, h, -⟩
      exact h h₁
    · simp only [false_iff]
      rintro ⟨-, he, -, h, -⟩
      exact h (Option.some.inj he ▸ h₂)
    · simp only [false_iff]
      rintro ⟨-, he, -, -, h, -⟩
      exact h (Option.some.inj he ▸ h₃)
    · simp only [Option.some.injEq, Prod.mk.injEq]
      constructor
      · rintro ⟨rfl, rfl⟩
        exact ⟨rfl, rfl, h₁, h₂, h₃, h₄⟩
      · rintro ⟨rfl, rfl, -⟩
        exact ⟨rfl, rfl⟩
    · simp only [false_iff]
      rintro ⟨-, he, -, -, -, h⟩
      exact h₄ (Option.some.inj he ▸ h)

/-- **What a search finds**: the first entry that answers, before an end marker. -/
theorem find_eq_some_iff {d i : ℕ} {t : Name} {e : DirEntry} :
    V.find d t = some (i, e) ↔ i < V.geo.maxEnts d ∧ V.findAt d t i = some (some (i, e)) ∧
      ∀ j < i, V.findAt d t j = none := by
  constructor
  · intro h
    unfold find at h
    cases hf : (List.range' 0 (V.geo.maxEnts d)).findSome? (V.findAt d t) with
    | none => simp [hf] at h
    | some r =>
      obtain rfl : r = some (i, e) := by simpa [hf] using h
      obtain ⟨k, hk, -, hr, hpre⟩ := List.findSome?_range'_eq_some hf
      obtain ⟨rfl, -⟩ := findAt_eq_some.mp hr
      exact ⟨by omega, hr, fun j hj => hpre j (by omega) hj⟩
  · rintro ⟨hi, hr, hpre⟩
    rw [find, List.findSome?_range'_eq (Nat.zero_le i) (by omega) hr fun j _ hj => hpre j hj]
    rfl

/-- The slots before one that a search looks at are not end markers. -/
theorem shown_of_findAt {d i : ℕ} {t : Name} (h : ∀ j < i, V.findAt d t j = none) :
    V.Shown d i := by
  intro j hj e he
  obtain ⟨f, hf, hend, -⟩ := findAt_eq_none.mp (h j hj)
  rw [hf] at he
  exact Option.some.inj he ▸ hend

/-- **A search finds a live entry**, with the name it looks for. -/
theorem find_live {d i : ℕ} {t : Name} {e : DirEntry} (ht : t 0 ≠ dot)
    (h : V.find d t = some (i, e)) :
    V.Live d i e ∧ i < V.geo.maxEnts d ∧ ¬ e.Masked ∧ match83 e.name t = true := by
  obtain ⟨hi, hr, hpre⟩ := find_eq_some_iff.mp h
  obtain ⟨-, hs, hend, hfree, hm, ht'⟩ := findAt_eq_some.mp hr
  exact ⟨⟨hs, ⟨hend, hfree, not_masked_label hm, not_isDot_of_match ht ht'⟩,
    shown_of_findAt hpre⟩, hi, hm, ht'⟩

/-- **What a search misses**: entries with masked attribute bits, or behind the slots it looks
at. -/
theorem find_eq_none {d i : ℕ} {t : Name} {e : DirEntry} (h : V.find d t = none)
    (he : V.Live d i e) (hi : i < V.geo.maxEnts d) (hm : ¬ e.Masked) :
    match83 e.name t = false := by
  by_contra hmt
  rw [Bool.not_eq_false] at hmt
  have hat : ∃ k, ∃ x, k ≤ i ∧ V.findAt d t k = some (some (k, x)) :=
    ⟨i, e, le_rfl, findAt_eq_some.mpr ⟨rfl, he.1, he.2.1.1, he.2.1.2.1, hm, hmt⟩⟩
  -- the first slot up to `i` that answers is found
  classical
  obtain ⟨x, hki, hx⟩ := Nat.find_spec hat
  have hmin : ∀ j < Nat.find hat, ¬ ∃ x, j ≤ i ∧ V.findAt d t j = some (some (j, x)) :=
    fun j hj => Nat.find_min hat hj
  generalize Nat.find hat = k at hki hx hmin
  have hfind : V.find d t = some (k, x) := by
    refine find_eq_some_iff.mpr ⟨by omega, hx, fun j hj => findAt_eq_none.mpr ?_⟩
    obtain ⟨f, hf⟩ := exists_slot_of_le (V := V) (d := d) (i := i) (j := j) (by omega)
      (by rw [he.1]; rfl)
    have hend := he.2.2 j (by omega) f hf
    refine ⟨f, hf, hend, ?_⟩
    by_contra hne
    simp only [not_or, Bool.not_eq_false] at hne
    exact hmin j hj ⟨f, by omega, findAt_eq_some.mpr ⟨rfl, hf, hend, hne.1, hne.2.1, hne.2.2⟩⟩
  rw [h] at hfind
  cases hfind

/-- The live entry in slot `i` answers a search for the name: the search looks at the slot, does not
skip the entry, and the names match. -/
def Answers (V : Volume) (d : ℕ) (t : Name) (i : ℕ) (e : DirEntry) : Prop :=
  V.Live d i e ∧ i < V.geo.maxEnts d ∧ ¬ e.Masked ∧ match83 e.name t = true

section Answers

variable {d i : ℕ} {t : Name} {e : DirEntry} (ht : t 0 ≠ dot)
include ht

theorem find_eq_none_iff : V.find d t = none ↔ ∀ j x, ¬ V.Answers d t j x := by
  constructor
  · intro h j x hx
    have hno := find_eq_none h hx.1 hx.2.1 hx.2.2.1
    rw [hx.2.2.2] at hno
    cases hno
  · intro h
    by_contra hsome
    obtain ⟨⟨j, x⟩, hj⟩ := Option.ne_none_iff_exists'.mp hsome
    exact h j x (find_live ht hj)

/-- **A search finds the first entry that answers.** -/
theorem find_eq_some_iff_first : V.find d t = some (i, e) ↔
    V.Answers d t i e ∧ ∀ j < i, ∀ x, ¬ V.Answers d t j x := by
  have hfirst : ∀ {k y}, V.find d t = some (k, y) → ∀ j < k, ∀ x, ¬ V.Answers d t j x := by
    intro k y hk j hj x hx
    obtain ⟨f, hf, -, hskip⟩ := findAt_eq_none.mp ((find_eq_some_iff.mp hk).2.2 j hj)
    obtain rfl := Option.some.inj (hf.symm.trans hx.1.1)
    rcases hskip with h | h | h
    · exact hx.1.2.1.2.1 h
    · exact hx.2.2.1 h
    · rw [hx.2.2.2] at h
      cases h
  constructor
  · exact fun h => ⟨find_live ht h, hfirst h⟩
  · rintro ⟨he, hmin⟩
    cases hf : V.find d t with
    | none => exact absurd he ((find_eq_none_iff ht).mp hf i e)
    | some r =>
      obtain ⟨k, y⟩ := r
      have hy := find_live ht hf
      rcases lt_trichotomy k i with hlt | rfl | hlt
      · exact absurd hy (hmin k hlt y)
      · rw [hy.1.det he.1]
      · exact absurd he (hfirst hf i hlt e)

/-- A search finds the same where the same entries answer. -/
theorem find_eq_of_answers (h : ∀ j x, V'.Answers d t j x ↔ V.Answers d t j x) :
    V'.find d t = V.find d t := by
  cases hf : V.find d t with
  | none =>
    rw [find_eq_none_iff ht] at hf ⊢
    exact fun j x hx => hf j x ((h j x).mp hx)
  | some r =>
    obtain ⟨k, y⟩ := r
    rw [find_eq_some_iff_first ht] at hf ⊢
    exact ⟨(h k y).mpr hf.1, fun j hj x hx => hf.2 j hj x ((h j x).mp hx)⟩

end Answers

/-- A search does not tell names apart that match. -/
theorem find_of_match {d : ℕ} {t u : Name} (h : match83 t u = true) : V.find d t = V.find d u := by
  have hmatch : ∀ n, match83 n t = match83 n u := by
    intro n
    rw [Bool.eq_iff_iff]
    exact ⟨fun hn => match83_trans hn h, fun hn => match83_trans hn (match83_comm t u ▸ h)⟩
  have hf : V.findAt d t = V.findAt d u := funext fun i => by simp only [findAt, hmatch]
  rw [find, find, hf]

/-- A search finds what it found when the entry it finds and the slots before it still answer as
they did. -/
theorem find_congr {d i : ℕ} {t : Name} {e e' : DirEntry} (hgeo : V'.geo = V.geo)
    (h : V.find d t = some (i, e)) (hi : V'.findAt d t i = some (some (i, e')))
    (hpre : ∀ j < i, V.findAt d t j = none → V'.findAt d t j = none) :
    V'.find d t = some (i, e') := by
  obtain ⟨hlt, -, hp⟩ := find_eq_some_iff.mp h
  exact find_eq_some_iff.mpr ⟨by rwa [hgeo], hi, fun j hj => hpre j hj (hp j hj)⟩

/-- A search of a directory with the same slots finds the same. -/
theorem find_eq_of_slot {d : ℕ} (hgeo : V'.geo = V.geo) (h : ∀ i, V'.slot d i = V.slot d i)
    (t : Name) : V'.find d t = V.find d t := by
  have hf : V'.findAt d t = V.findAt d t := funext fun i => by simp only [findAt, h]
  rw [find, find, hgeo, hf]

/-! ## The search for a slot -/

theorem freeAt_eq_none {d j : ℕ} : V.freeAt d j = none ↔
    ∃ e, V.slot d j = some e ∧ e.name 0 ≠ dirEnd ∧ e.name 0 ≠ dirFree := by
  unfold freeAt
  cases V.slot d j with
  | none => simp
  | some e =>
    dsimp only
    split_ifs with h
    · simp only [Option.some.injEq, exists_eq_left', false_iff, not_and, not_not]
      exact fun hne => h.resolve_left hne
    · simpa [not_or] using h

/-- **The slot found** is dead, and no slot before it is. -/
theorem freeSlot_spec {d i : ℕ} (h : V.freeSlot d = some i) : i < V.geo.maxEnts d ∧
    (∃ e, V.slot d i = some e ∧ (e.name 0 = dirEnd ∨ e.name 0 = dirFree)) ∧
      ∀ j < i, ∃ e, V.slot d j = some e ∧ e.name 0 ≠ dirEnd ∧ e.name 0 ≠ dirFree := by
  unfold freeSlot at h
  cases hf : (List.range' 0 (V.geo.maxEnts d)).findSome? (V.freeAt d) with
  | none => simp [hf] at h
  | some r =>
    obtain rfl : r = some i := by simpa [hf] using h
    obtain ⟨k, hk, -, hr, hpre⟩ := List.findSome?_range'_eq_some hf
    unfold freeAt at hr
    cases hs : V.slot d k with
    | none => simp [hs] at hr
    | some e =>
      simp only [hs] at hr
      split_ifs at hr with he
      obtain rfl : k = i := by simpa using hr
      exact ⟨by omega, ⟨e, hs, he⟩, fun j hj => freeAt_eq_none.mp (hpre j (by omega) hj)⟩

/-- **No slot is found** when none of the slots searched is dead. -/
theorem freeSlot_eq_none {d i : ℕ} {e : DirEntry} (h : V.freeSlot d = none)
    (hi : i < V.geo.maxEnts d) (he : V.slot d i = some e) :
    e.name 0 ≠ dirEnd ∧ e.name 0 ≠ dirFree := by
  have hnone : V.freeAt d i = none := by
    unfold freeSlot at h
    cases hf : (List.range' 0 (V.geo.maxEnts d)).findSome? (V.freeAt d) with
    | none => exact List.findSome?_eq_none_iff.mp hf i (by simpa using hi)
    | some r =>
      obtain rfl : r = none := by simpa [hf] using h
      obtain ⟨k, hk, -, hr, hpre⟩ := List.findSome?_range'_eq_some hf
      have hs : V.slot d k = none := by
        unfold freeAt at hr
        cases hs : V.slot d k with
        | none => rfl
        | some x =>
          simp only [hs] at hr
          split_ifs at hr
          cases hr
      by_cases hik : i < k
      · exact hpre i (by omega) hik
      · obtain ⟨x, hx⟩ := exists_slot_of_le (V := V) (d := d) (Nat.le_of_not_lt hik)
          (by rw [he]; rfl)
        rw [hs] at hx
        cases hx
  obtain ⟨f, hf, hend, hfree⟩ := freeAt_eq_none.mp hnone
  rw [he] at hf
  obtain rfl := Option.some.inj hf
  exact ⟨hend, hfree⟩

/-- A dead slot among those searched is found, or one before it. -/
theorem freeSlot_isSome {d i : ℕ} {e : DirEntry} (hi : i < V.geo.maxEnts d)
    (he : V.slot d i = some e) (hdead : e.name 0 = dirEnd ∨ e.name 0 = dirFree) :
    (V.freeSlot d).isSome = true := by
  cases hf : V.freeSlot d with
  | some k => rfl
  | none =>
    obtain ⟨h₁, h₂⟩ := freeSlot_eq_none hf hi he
    rcases hdead with h | h
    · exact absurd h h₁
    · exact absurd h h₂

/-! ## Paths -/

/-- **Directories entered** lie in the tree. -/
theorem descend_dirAt {ts : List Name} {d dir : ℕ} (hd : V.DirAt d) (hts : ∀ t ∈ ts, t 0 ≠ dot)
    (h : V.descend ts d = some dir) : V.DirAt dir := by
  induction ts generalizing d with
  | nil =>
    obtain rfl := Option.some.inj h
    exact hd
  | cons t ts ih =>
    rw [descend_cons, Option.bind_eq_some_iff] at h
    obtain ⟨d', henter, hrest⟩ := h
    obtain ⟨i, e, hf, he, rfl⟩ := enter_eq_some.mp henter
    have hlive := (find_live (hts t List.mem_cons_self) hf).1
    exact ih (hlive.dirAt hd he) (fun u hu => hts u (List.mem_cons_of_mem _ hu)) hrest

/-- The directory that is entered is the same when it is found again. -/
theorem descend_congr {ts : List Name} {d dir : ℕ} (hd : V.DirAt d) (hts : ∀ t ∈ ts, t 0 ≠ dot)
    (hfind : ∀ d, V.DirAt d → ∀ t i e, t 0 ≠ dot → V.find d t = some (i, e) → e.IsDir →
      ∃ j f, V'.find d t = some (j, f) ∧ f.IsDir ∧ f.firstCluster = e.firstCluster)
    (h : V.descend ts d = some dir) : V'.descend ts d = some dir := by
  induction ts generalizing d with
  | nil => exact h
  | cons t ts ih =>
    rw [descend_cons, Option.bind_eq_some_iff] at h ⊢
    obtain ⟨d', henter, hrest⟩ := h
    obtain ⟨i, e, hf, he, rfl⟩ := enter_eq_some.mp henter
    have ht := hts t List.mem_cons_self
    obtain ⟨j, f, hf', hfd, hfc⟩ := hfind d hd t i e ht hf he
    refine ⟨_, enter_eq_some.mpr ⟨j, f, hf', hfd, hfc⟩, ?_⟩
    exact ih ((find_live ht hf).1.dirAt hd he) (fun u hu => hts u (List.mem_cons_of_mem _ hu)) hrest

/-- The names of the directories of a path do not begin with a dot. -/
theorem names_ne_dot (path : Path) : ∀ t ∈ (splitPath path).1.map name83, t 0 ≠ dot := by
  intro t ht
  obtain ⟨s, -, rfl⟩ := List.mem_map.mp ht
  exact to83_ne_dot s

/-- **A path leads to a directory of the tree**, and to a name that no dot entry has. -/
theorem resolve_dirAt {path : Path} {dir : ℕ} {t : Name} (h : V.resolve path = some (dir, t)) :
    V.DirAt dir ∧ t 0 ≠ dot := by
  obtain ⟨hd, rfl⟩ := resolve_eq_some.mp h
  refine ⟨descend_dirAt dirAt_zero (names_ne_dot path) hd, ?_⟩
  unfold lastName
  split_ifs
  · decide
  · exact to83_ne_dot _

/-- **A path leads to the same directory** when the directories it goes through are found
again. -/
theorem resolve_congr {path : Path} {r : ℕ × Name}
    (hfind : ∀ d, V.DirAt d → ∀ t i e, t 0 ≠ dot → V.find d t = some (i, e) → e.IsDir →
      ∃ j f, V'.find d t = some (j, f) ∧ f.IsDir ∧ f.firstCluster = e.firstCluster)
    (h : V.resolve path = some r) : V'.resolve path = some r := by
  obtain ⟨dir, t⟩ := r
  obtain ⟨hd, rfl⟩ := resolve_eq_some.mp h
  exact resolve_eq_some.mpr ⟨descend_congr dirAt_zero (names_ne_dot path) hfind hd, rfl⟩

/-- What a path finds lies in a directory of the tree. -/
theorem Finds.live {path : Path} {dir i : ℕ} {e : DirEntry} (h : V.Finds path dir i e) :
    V.DirAt dir ∧ V.Live dir i e ∧ i < V.geo.maxEnts dir ∧ ¬ e.Masked := by
  obtain ⟨t, ht, hf⟩ := h
  obtain ⟨hd, hdot⟩ := resolve_dirAt ht.1
  obtain ⟨hl, hi, hm, -⟩ := find_live hdot hf
  exact ⟨hd, hl, hi, hm⟩

theorem New.dirAt {path : Path} {dir : ℕ} {t : Name} (h : V.New path dir t) :
    V.DirAt dir ∧ t 0 ≠ dot :=
  resolve_dirAt h.1.1

end Volume

end WarkRune.Fat12

import WarkRune.Fat12.Name
import Mathlib.Data.List.GetD
import Mathlib.Data.List.TakeWhile
import Mathlib.Tactic.Common

/-!
# Names as they are shown

`from_83` shows the two parts of a name up to their first space, so a name is read back as it was
when no space stands before another byte of its part.

## Main definitions

* `basePart`, `extPart`: the bytes of a string that `to_83` stores
* `SpacesLast l`: behind a space of `l` there are only spaces

## Main results

* `to83_from83_iff`: when a name that is shown is read back
-/

/-- **A list cut at its first value that fails** and filled up is the list when the values behind
are those it is filled with. -/
theorem List.getD_takeWhile_iff {α : Type} {p : α → Bool} {d : α} {l : List α} {n : ℕ}
    (h : l.length ≤ n) : (∀ i < n, (l.takeWhile p).getD i d = l.getD i d) ↔
      ∀ b ∈ l.dropWhile p, b = d := by
  have hsplit : ∀ i, l.getD i d = (l.takeWhile p ++ l.dropWhile p).getD i d := by
    intro i
    rw [List.takeWhile_append_dropWhile]
  have hlen : (l.takeWhile p).length + (l.dropWhile p).length = l.length := by
    rw [← List.length_append, List.takeWhile_append_dropWhile]
  constructor
  · intro hall b hb
    obtain ⟨k, hk, rfl⟩ := List.mem_iff_getElem.mp hb
    have hget := hall ((l.takeWhile p).length + k) (by omega)
    rw [hsplit, List.getD_eq_default _ _ (Nat.le_add_right _ _),
      List.getD_append_right _ _ _ _ (Nat.le_add_right _ _), Nat.add_sub_cancel_left,
      List.getD_eq_getElem _ _ hk] at hget
    exact hget.symm
  · intro hrest i _
    rw [hsplit]
    rcases Nat.lt_or_ge i (l.takeWhile p).length with hi | hi
    · rw [List.getD_append _ _ _ _ hi]
    · rw [List.getD_eq_default _ _ hi, List.getD_append_right _ _ _ _ hi]
      rcases Nat.lt_or_ge (i - (l.takeWhile p).length) (l.dropWhile p).length with hk | hk
      · rw [List.getD_eq_getElem _ _ hk]
        exact (hrest _ (List.getElem_mem hk)).symm
      · rw [List.getD_eq_default _ _ hk]

/-- Filling a list up with a value that fails does not change where it is cut. -/
theorem List.takeWhile_append_replicate {α : Type} {p : α → Bool} {d : α} (hd : p d = false)
    (l : List α) (k : ℕ) : (l ++ List.replicate k d).takeWhile p = l.takeWhile p := by
  induction l with
  | nil =>
    cases k with
    | zero => rfl
    | succ k => rw [List.nil_append, List.replicate_succ, List.takeWhile_cons_of_neg (by simp [hd]),
        List.takeWhile_nil]
  | cons x l ih => rw [List.cons_append, List.takeWhile_cons, List.takeWhile_cons, ih]

namespace WarkRune.Fat12

/-- The bytes of a string before its first dot that `to_83` stores. -/
def basePart (s : Path) : Path := ((cString s).takeWhile (· ≠ dot)).take 8

/-- The bytes of a string behind its first dot that `to_83` stores. -/
def extPart (s : Path) : Path := ((cString s).dropWhile (· ≠ dot)).tail.take 3

/-- Behind a space of the list there are only spaces. -/
def SpacesLast (l : Path) : Prop := ∀ b ∈ l.dropWhile (· ≠ space), b = space

instance (l : Path) : Decidable (SpacesLast l) := List.decidableBAll _ _

/-- A name with the given parts. -/
def padName (base ext : Path) : Name := fun i =>
  if i.val < 8 then base.getD i space else ext.getD (i - 8) space

/-- The part of a name up to its first space. -/
def shown (l : Path) : Path := l.takeWhile (· ≠ space)

variable {s base ext : Path}

theorem length_shown (l : Path) : (shown l).length ≤ l.length := (List.takeWhile_sublist _).length_le

theorem length_basePart : (basePart s).length ≤ 8 := List.length_take_le _ _

theorem length_extPart : (extPart s).length ≤ 3 := List.length_take_le _ _

/-- `to_83` accepts a string exactly when it is not empty and does not begin with a dot. -/
theorem to83_valid_iff : (to83 s).1 = true ↔
    ¬ ((cString s).headD 0 = 0 ∨ (cString s).headD 0 = dot) := by
  unfold to83
  dsimp only
  split_ifs with h
  · exact ⟨nofun, fun h' => absurd h h'⟩
  · exact ⟨fun _ => h, fun _ => rfl⟩

/-- The base of a string that is accepted is not empty. -/
theorem basePart_ne_nil (h : ¬ ((cString s).headD 0 = 0 ∨ (cString s).headD 0 = dot)) :
    basePart s ≠ [] := by
  rw [not_or] at h
  rw [basePart]
  cases hc : cString s with
  | nil => exact absurd (by rw [hc]; rfl) h.1
  | cons c cs =>
    have hdot : c ≠ dot := by simpa [hc] using h.2
    rw [List.takeWhile_cons_of_pos (by simpa using hdot)]
    exact List.cons_ne_nil _ _

theorem upper_space : upper space = space := by decide

theorem getD_map_upper (l : Path) (i : ℕ) : (l.map upper).getD i space = upper (l.getD i space) := by
  rw [List.getD_eq_getElem?_getD, List.getD_eq_getElem?_getD, List.getElem?_map]
  cases l[i]? with
  | none => exact upper_space.symm
  | some c => rfl

/-- **The name `to_83` computes** from a string that does not begin with a dot. -/
theorem to83_eq (h : ¬ ((cString s).headD 0 = 0 ∨ (cString s).headD 0 = dot)) :
    to83 s = (true, padName ((basePart s).map upper) ((extPart s).map upper)) := by
  unfold to83
  rw [if_neg h]
  refine Prod.ext rfl (funext fun i => ?_)
  simp only [padName, getD_map_upper, basePart, extPart]
  split <;> rfl

theorem ofFn_padName (hb : base.length ≤ 8) (he : ext.length ≤ 3) :
    List.ofFn (padName base ext) = (base ++ List.replicate (8 - base.length) space) ++
      (ext ++ List.replicate (3 - ext.length) space) := by
  -- filling up with spaces does not change what is read with a space as the default
  have hget : ∀ (l : Path) (k i : ℕ), i < l.length + k →
      (l ++ List.replicate k space)[i]? = some (l.getD i space) := by
    intro l k i hi
    rcases Nat.lt_or_ge i l.length with hl | hl
    · rw [List.getElem?_append_left hl, List.getD_eq_getElem _ _ hl, List.getElem?_eq_getElem hl]
    · rw [List.getElem?_append_right hl, List.getD_eq_default _ _ hl,
        List.getElem?_replicate_of_lt (by omega)]
  apply List.ext_getElem?
  intro i
  have hlen : (base ++ List.replicate (8 - base.length) space).length = 8 := by
    rw [List.length_append, List.length_replicate]
    omega
  rcases Nat.lt_or_ge i 8 with hi | hi
  · rw [List.getElem?_append_left (by omega), hget _ _ _ (by omega), List.getElem?_ofFn,
      dif_pos (by omega), padName, if_pos hi]
  · rw [List.getElem?_append_right (by omega), hlen]
    rcases Nat.lt_or_ge i 11 with hi' | hi'
    · rw [hget _ _ _ (by omega), List.getElem?_ofFn, dif_pos hi', padName,
        if_neg (Nat.not_lt.mpr hi)]
    · rw [List.getElem?_ofFn, dif_neg (by omega), List.getElem?_eq_none]
      rw [List.length_append, List.length_replicate]
      omega

theorem shown_append_replicate (l : Path) (k : ℕ) :
    shown (l ++ List.replicate k space) = shown l :=
  List.takeWhile_append_replicate (p := fun c => decide (c ≠ space)) (by decide) l k

/-- **What `from_83` shows**: the parts up to their first space, and no dot without an
extension. -/
theorem from83_padName (hb : base.length ≤ 8) (he : ext.length ≤ 3) :
    from83 (padName base ext) =
      if shown ext = [] then shown base else shown base ++ dot :: shown ext := by
  have htake : ((List.ofFn (padName base ext)).take 8).takeWhile (· ≠ space) = shown base := by
    rw [ofFn_padName hb he, List.take_left' (by simp; omega)]
    exact shown_append_replicate _ _
  have hdrop : ((List.ofFn (padName base ext)).drop 8).takeWhile (· ≠ space) = shown ext := by
    rw [ofFn_padName hb he, List.drop_left' (by simp; omega)]
    exact shown_append_replicate _ _
  -- `from_83` looks at the first byte of the extension only
  have hempty : padName base ext 8 = space ↔ shown ext = [] := by
    change ext.getD 0 space = space ↔ _
    cases ext with
    | nil => simp [shown]
    | cons c cs => by_cases hc : c = space <;> simp [shown, hc]
  simp only [from83, htake, hdrop, hempty]

/-! ## Reading a shown name -/

/-- A string of a base without dots and an extension. -/
def joinParts (base ext : Path) : Path := if ext = [] then base else base ++ dot :: ext

section Join

variable (hbase : ∀ c ∈ base, c ≠ 0 ∧ c ≠ dot) (hext : ∀ c ∈ ext, c ≠ 0)
include hbase hext

theorem cString_joinParts : cString (joinParts base ext) = joinParts base ext := by
  apply List.takeWhile_eq_self_iff.mpr
  intro c hc
  unfold joinParts at hc
  split_ifs at hc
  · simpa using (hbase c hc).1
  · rcases List.mem_append.mp hc with hc | hc
    · simpa using (hbase c hc).1
    · rcases List.mem_cons.mp hc with rfl | hc
      · decide
      · simpa using hext c hc

/-- **The parts of the string** are those it was joined of. -/
theorem parts_joinParts (h8 : base.length ≤ 8) (h3 : ext.length ≤ 3) :
    basePart (joinParts base ext) = base ∧ extPart (joinParts base ext) = ext := by
  have hall : ∀ c ∈ base, decide (c ≠ dot) = true := by
    intro c hc
    simpa using (hbase c hc).2
  rw [basePart, extPart, cString_joinParts hbase hext, joinParts]
  split_ifs with he
  · rw [List.takeWhile_eq_self_iff.mpr hall, List.dropWhile_eq_nil_iff.mpr hall, he]
    exact ⟨List.take_of_length_le h8, rfl⟩
  · rw [List.takeWhile_append_of_pos hall, List.dropWhile_append_of_pos hall,
      List.takeWhile_cons_of_neg (by decide), List.dropWhile_cons_of_neg (by decide),
      List.append_nil, List.tail_cons]
    exact ⟨List.take_of_length_le h8, List.take_of_length_le h3⟩

variable (hne : base ≠ [])
include hne

theorem joinParts_valid :
    ¬ ((cString (joinParts base ext)).headD 0 = 0 ∨ (cString (joinParts base ext)).headD 0 = dot) := by
  rw [cString_joinParts hbase hext]
  cases base with
  | nil => exact absurd rfl hne
  | cons c cs =>
    have hhead : (joinParts (c :: cs) ext).headD 0 = c := by
      unfold joinParts
      split_ifs <;> rfl
    rw [hhead, not_or]
    exact hbase c List.mem_cons_self

end Join

theorem upper_eq_space {c : UInt8} : upper c = space ↔ c = space := upper_eq_iff (by decide)

theorem spacesLast_map_upper (l : Path) : SpacesLast (l.map upper) ↔ SpacesLast l := by
  have hfun : (fun c : UInt8 => decide (c ≠ space)) ∘ upper = fun c => decide (c ≠ space) := by
    funext c
    simp [upper_eq_space]
  rw [SpacesLast, SpacesLast, List.dropWhile_map, hfun]
  simp only [List.mem_map, forall_exists_index, and_imp, forall_apply_eq_imp_iff₂, upper_eq_space]

/-- The name is the one of its shown parts exactly when nothing but spaces is left out. -/
theorem padName_shown_iff (hb : base.length ≤ 8) (he : ext.length ≤ 3) :
    padName (shown base) (shown ext) = padName base ext ↔ SpacesLast base ∧ SpacesLast ext := by
  rw [SpacesLast, SpacesLast, ← List.getD_takeWhile_iff hb, ← List.getD_takeWhile_iff he]
  constructor
  · intro h
    constructor
    · intro i hi
      have hi' := congrFun h ⟨i, by omega⟩
      simpa only [padName, if_pos hi, shown] using hi'
    · intro i hi
      have hi' := congrFun h ⟨i + 8, by omega⟩
      simpa only [padName, if_neg (Nat.not_lt.mpr (Nat.le_add_left 8 i)), Nat.add_sub_cancel,
        shown] using hi'
  · rintro ⟨h₁, h₂⟩
    funext i
    simp only [padName]
    split_ifs with hi
    · exact h₁ i hi
    · exact h₂ (i - 8) (by omega)

/-! ## The parts that are stored -/

/-- A base that is stored has no zero byte and no dot. -/
theorem mem_map_basePart {c : UInt8} (hc : c ∈ (basePart s).map upper) : c ≠ 0 ∧ c ≠ dot := by
  obtain ⟨x, hx, rfl⟩ := List.mem_map.mp hc
  have hx' := List.mem_of_mem_take hx
  have hdot : x ≠ dot := by simpa using List.mem_takeWhile_imp hx'
  have hzero : x ≠ 0 := by simpa using List.mem_takeWhile_imp (List.takeWhile_subset _ hx')
  rw [Ne, Ne, upper_eq_iff (by decide), upper_eq_iff (by decide)]
  exact ⟨hzero, hdot⟩

/-- An extension that is stored has no zero byte; it may have dots. -/
theorem mem_map_extPart {c : UInt8} (hc : c ∈ (extPart s).map upper) : c ≠ 0 := by
  obtain ⟨x, hx, rfl⟩ := List.mem_map.mp hc
  have hx' := (List.dropWhile_sublist _).subset (List.mem_of_mem_tail (List.mem_of_mem_take hx))
  have hzero : x ≠ 0 := by simpa using List.mem_takeWhile_imp hx'
  rwa [Ne, upper_eq_iff (by decide)]

theorem map_upper_shown (l : Path) : (shown (l.map upper)).map upper = shown (l.map upper) := by
  have hshown : ∀ c ∈ shown (l.map upper), upper c = c := by
    intro c hc
    obtain ⟨x, -, rfl⟩ := List.mem_map.mp (List.takeWhile_subset _ hc)
    exact upper_upper x
  exact (List.map_congr_left hshown).trans (List.map_id _)

/-- The base that is shown is empty when its first byte is a space. -/
theorem shown_basePart_eq_nil (h : ¬ ((cString s).headD 0 = 0 ∨ (cString s).headD 0 = dot)) :
    shown ((basePart s).map upper) = [] ↔ (basePart s).headD 0 = space := by
  cases hp : basePart s with
  | nil => exact absurd hp (basePart_ne_nil h)
  | cons c cs =>
    rw [List.map_cons, shown]
    by_cases hc : upper c = space
    · rw [List.takeWhile_cons_of_neg (by simpa using hc)]
      exact iff_of_true rfl (upper_eq_space.mp hc)
    · rw [List.takeWhile_cons_of_pos (by simpa using hc)]
      exact iff_of_false (List.cons_ne_nil _ _) fun h => hc (upper_eq_space.mpr h)

/-- **A name that is shown is read back** as it was exactly when its base does not begin with a
space and no space stands before another byte of the base or of the extension. -/
theorem to83_from83_iff (s : Path) (h : (to83 s).1 = true) :
    to83 (from83 (to83 s).2) = (true, (to83 s).2) ↔
      (basePart s).headD 0 ≠ space ∧ SpacesLast (basePart s) ∧ SpacesLast (extPart s) := by
  have hvalid := to83_valid_iff.mp h
  have hhead := shown_basePart_eq_nil hvalid
  have hbase := @mem_map_basePart s
  have hext := @mem_map_extPart s
  have hspaces : SpacesLast ((basePart s).map upper) ∧ SpacesLast ((extPart s).map upper) ↔
      SpacesLast (basePart s) ∧ SpacesLast (extPart s) := by
    rw [spacesLast_map_upper, spacesLast_map_upper]
  have hfold := map_upper_shown (basePart s)
  have hfold' := map_upper_shown (extPart s)
  -- the parts are no longer than their fields, so nothing is cut off
  have hb8 : ((basePart s).map upper).length ≤ 8 := by
    rw [List.length_map]
    exact length_basePart
  have he3 : ((extPart s).map upper).length ≤ 3 := by
    rw [List.length_map]
    exact length_extPart
  rw [to83_eq hvalid, from83_padName hb8 he3]
  generalize (basePart s).map upper = base at *
  generalize (extPart s).map upper = ext at *
  change to83 (joinParts (shown base) (shown ext)) = _ ↔ _
  by_cases hempty : shown base = []
  · refine iff_of_false (fun hr => ?_) fun hr => hr.1 (hhead.mp hempty)
    refine to83_valid_iff.mp (congrArg Prod.fst hr) ?_
    rw [hempty]
    unfold joinParts
    split_ifs
    · exact .inl rfl
    · exact .inr rfl
  · have hj : ∀ c ∈ shown base, c ≠ 0 ∧ c ≠ dot := fun c hc =>
      hbase (List.takeWhile_subset _ hc)
    have hj' : ∀ c ∈ shown ext, c ≠ 0 := fun c hc => hext (List.takeWhile_subset _ hc)
    obtain ⟨hp, hp'⟩ := parts_joinParts hj hj' ((length_shown base).trans hb8)
      ((length_shown ext).trans he3)
    rw [to83_eq (joinParts_valid hj hj' hempty), hp, hp', hfold, hfold', Prod.mk.injEq,
      eq_self_iff_true, true_and, padName_shown_iff hb8 he3, hspaces]
    exact (and_iff_right fun h => hempty (hhead.mpr h)).symm

/-- The theorem at a name with an extension. -/
theorem to83_from83_readme :
    to83 (from83 (to83 [114, 101, 97, 100, 46, 109, 100]).2) =
      (true, (to83 [114, 101, 97, 100, 46, 109, 100]).2) :=
  (to83_from83_iff [114, 101, 97, 100, 46, 109, 100] (by decide)).mpr (by decide)

/-- **A name with a space inside** is shown up to the space only: `A B` is shown as `A`. -/
theorem to83_from83_space : (to83 [65, 32, 66]).1 = true ∧
    to83 (from83 (to83 [65, 32, 66]).2) ≠ (true, (to83 [65, 32, 66]).2) := by
  refine ⟨by decide, fun h => ?_⟩
  exact absurd (congrFun (congrArg Prod.snd h) 2) (by decide)

end WarkRune.Fat12

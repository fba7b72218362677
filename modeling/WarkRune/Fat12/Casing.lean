import WarkRune.Fat12.Display
import WarkRune.Fat12.Components

/-!
# Paths in upper case

A name is folded when it is encoded, and a separator is no letter, so a path leads to where its
copy in upper case leads.

## Main results

* `to83_map_upper`: a name and its copy in upper case have the same 8.3 form
* `Volume.resolve_upper`: a path and its copy in upper case lead to the same directory and name
-/

namespace WarkRune.Fat12

variable {s p : Path} {d n : ℕ}

@[simp] theorem upper_eq_zero {c : UInt8} : upper c = 0 ↔ c = 0 := upper_eq_iff (by decide)

@[simp] theorem upper_eq_dot {c : UInt8} : upper c = dot ↔ c = dot := upper_eq_iff (by decide)

@[simp] theorem upper_eq_slash {c : UInt8} : upper c = slash ↔ c = slash := upper_eq_iff (by decide)

@[simp] theorem inComponent_upper (c : UInt8) : inComponent (upper c) = inComponent c := by
  simp [inComponent]

theorem map_upper_map_upper (l : Path) : (l.map upper).map upper = l.map upper := by
  rw [List.map_map]
  exact List.map_congr_left fun c _ => upper_upper c

theorem cString_map_upper (s : Path) : cString (s.map upper) = (cString s).map upper := by
  rw [cString, List.takeWhile_map, cString]
  congr 2
  funext c
  simp

theorem basePart_map_upper (s : Path) : basePart (s.map upper) = (basePart s).map upper := by
  rw [basePart, cString_map_upper, List.takeWhile_map, ← List.map_take, basePart]
  congr 3
  funext c
  simp

theorem extPart_map_upper (s : Path) : extPart (s.map upper) = (extPart s).map upper := by
  rw [extPart, cString_map_upper, List.dropWhile_map, ← List.map_tail, ← List.map_take, extPart]
  congr 4
  funext c
  simp

theorem headD_map_upper (l : Path) : (l.map upper).headD 0 = upper (l.headD 0) := by
  cases l with
  | nil => rfl
  | cons c l => rfl

/-- **A name and its copy in upper case** have the same 8.3 form, and both are accepted or
neither is. -/
theorem to83_map_upper (s : Path) : to83 (s.map upper) = to83 s := by
  have hhead : ((cString (s.map upper)).headD 0 = 0 ∨ (cString (s.map upper)).headD 0 = dot) ↔
      ((cString s).headD 0 = 0 ∨ (cString s).headD 0 = dot) := by
    rw [cString_map_upper, headD_map_upper, upper_eq_zero, upper_eq_dot]
  by_cases h : (cString s).headD 0 = 0 ∨ (cString s).headD 0 = dot
  · rw [to83, if_pos (hhead.mpr h), to83, if_pos h]
  · rw [to83_eq h, to83_eq (mt hhead.mp h), basePart_map_upper, extPart_map_upper,
      map_upper_map_upper, map_upper_map_upper]

/-! ## Components -/

open Volume (compLen compLen_lt)

theorem compLen_map_upper (p : Path) : compLen (p.map upper) = compLen p := by
  rw [compLen, List.takeWhile_map, List.length_map]
  congr 2
  funext c
  exact inComponent_upper c

theorem getD_map_upper_zero {p : Path} {n : ℕ} : (p.map upper).getD n 0 = 0 ↔ p.getD n 0 = 0 := by
  rw [List.getD_eq_getElem?_getD, List.getD_eq_getElem?_getD, List.getElem?_map]
  cases p[n]? with
  | none => rfl
  | some c => exact upper_eq_zero

/-- **The components of the copy** are the copies of the components. -/
theorem splitPath_map_upper (p : Path) : splitPath (p.map upper) =
    ((splitPath p).1.map (List.map upper), (splitPath p).2.map upper) := by
  induction p using splitPath.induct with
  | case1 p hl h =>
    rw [splitPath_end hl h, splitPath_end (by rwa [compLen_map_upper])
      (by rw [headD_map_upper, upper_eq_zero]; exact h)]
    rfl
  | case2 p hl h ih =>
    rw [splitPath_skip hl h, splitPath_skip (by rwa [compLen_map_upper])
      (by rw [headD_map_upper, Ne, upper_eq_zero]; exact h), ← List.map_tail, ih]
  | case3 p hl h =>
    rw [splitPath_last hl h, splitPath_last (by rwa [compLen_map_upper])
      (by rw [compLen_map_upper, getD_map_upper_zero]; exact h), compLen_map_upper,
      List.map_take, List.map_take]
    rfl
  | case4 p hl h ih =>
    rw [splitPath_step hl h, splitPath_step (by rwa [compLen_map_upper])
      (by rw [compLen_map_upper, Ne, getD_map_upper_zero]; exact h), compLen_map_upper,
      ← List.map_drop, ih, List.map_cons, List.map_take, List.map_take]

/-- What stands behind the NUL is in no component. -/
theorem splitPath_append {q r : Path} (hq : ∀ c ∈ q, c ≠ 0) (hr : r.headD 0 = 0) :
    splitPath (q ++ r) = splitPath q := by
  have hstop : r.takeWhile inComponent = [] := by
    cases r with
    | nil => rfl
    | cons c r =>
      obtain rfl : c = 0 := hr
      rfl
  have hlen : ∀ q : Path, compLen (q ++ r) = compLen q := by
    intro q
    rw [compLen, List.takeWhile_append, hstop, List.append_nil]
    split
    · next h => rw [compLen, h]
    · rfl
  have hget : ∀ (q : Path) (n : ℕ), n ≤ q.length → (q ++ r).getD n 0 = q.getD n 0 := by
    intro q n hn
    rcases Nat.lt_or_ge n q.length with h | h
    · exact List.getD_append _ _ _ _ h
    · obtain rfl : n = q.length := by omega
      rw [List.getD_append_right _ _ _ _ le_rfl, List.getD_eq_default _ _ le_rfl, Nat.sub_self]
      cases r with
      | nil => rfl
      | cons c r => exact hr
  have hhead : ∀ q : Path, (q ++ r).headD 0 = q.headD 0 := by
    intro q
    cases q with
    | nil => exact hr
    | cons c q => rfl
  induction q using splitPath.induct with
  | case1 q hl h => rw [splitPath_end hl h, splitPath_end (by rwa [hlen]) (by rwa [hhead])]
  | case2 q hl h ih =>
    cases q with
    | nil => exact absurd rfl h
    | cons c q =>
      rw [splitPath_skip hl h, splitPath_skip (by rwa [hlen]) (by rwa [hhead])]
      exact ih fun x hx => hq x (List.mem_cons_of_mem _ hx)
  | case3 q hl h =>
    rw [splitPath_last hl h, splitPath_last (by rwa [hlen])
      (by rwa [hlen, hget _ _ (Volume.compLen_le q)]), hlen,
      List.take_append_of_le_length (Volume.compLen_le q)]
  | case4 q hl h ih =>
    have hlt := compLen_lt h
    rw [splitPath_step hl h, splitPath_step (by rwa [hlen]) (by rwa [hlen, hget _ _ hlt.le]),
      hlen, List.take_append_of_le_length hlt.le, List.drop_append_of_le_length hlt,
      ih fun c hc => hq c (List.mem_of_mem_drop hc)]

/-- The components of a path are those of the string before its NUL. -/
theorem splitPath_cString (p : Path) : splitPath (cString p) = splitPath p := by
  have hq : ∀ c ∈ cString p, c ≠ 0 := fun c hc => by simpa using List.mem_takeWhile_imp hc
  have hr : (p.dropWhile (· ≠ 0)).headD 0 = 0 := by
    cases hd : p.dropWhile (· ≠ 0) with
    | nil => rfl
    | cons c r =>
      have hc := List.head_dropWhile_not (fun c : UInt8 => decide (c ≠ 0))
        (l := p) (by rw [hd]; exact List.cons_ne_nil _ _)
      simpa only [hd, List.head_cons, decide_eq_false_iff_not, not_not, List.headD_cons] using hc
  rw [← splitPath_append hq hr, cString, List.takeWhile_append_dropWhile]

/-! ## Resolution -/

namespace Volume

theorem name83_map_upper (s : Path) : name83 (s.map upper) = name83 s := by
  rw [name83, to83_map_upper]

/-- **A path and its copy in upper case** lead to the same directory and name. -/
theorem resolve_map_upper (V : Volume) (p : Path) : V.resolve (p.map upper) = V.resolve p := by
  have hlast : lastName ((splitPath p).2.map upper) = lastName (splitPath p).2 := by
    simp only [lastName, List.map_eq_nil_iff, name83_map_upper]
  have hdirs : ((splitPath p).1.map (List.map upper)).map name83 = (splitPath p).1.map name83 := by
    rw [List.map_map]
    exact List.map_congr_left fun s _ => name83_map_upper s
  rw [resolve_eq, splitPath_map_upper, hdirs, hlast, ← resolve_eq]

/-- Only the string before the NUL is looked at. -/
theorem resolve_cString (V : Volume) (p : Path) : V.resolve (cString p) = V.resolve p := by
  rw [resolve_eq, splitPath_cString, ← resolve_eq]

end Volume

end WarkRune.Fat12

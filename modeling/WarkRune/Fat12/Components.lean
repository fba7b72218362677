import WarkRune.Fat12.Slot
import Mathlib.Data.List.GetD
import Mathlib.Data.List.TakeWhile

/-!
# Paths as lists of components

A path is a list of directories and a last component, which is empty when the path ends in a
slash. Resolution enters the directories one after the other and never looks at the string again.

## Main definitions

* `IsComponent s`: what can stand between two slashes
* `splitPath p`: the components of a path
* `Volume.enter`, `Volume.descend`: one directory entered, and several

## Main results

* `Volume.resolve_eq`: `resolve_path` descends to the last directory
-/

namespace WarkRune.Fat12

open Volume (compLen compLen_lt)

/-- The directories of a path and its last component, each cut to 255 bytes. -/
def splitPath (p : Path) : List Path × Path :=
  if compLen p = 0 then
    if p.headD 0 = 0 then ([], []) else splitPath p.tail
  else
    if p.getD (compLen p) 0 = 0 then ([], (p.take (compLen p)).take 255)
    else
      ((p.take (compLen p)).take 255 :: (splitPath (p.drop (compLen p + 1))).1,
        (splitPath (p.drop (compLen p + 1))).2)
termination_by p.length
decreasing_by
  · cases p with
    | nil => simp_all
    | cons c p => simp
  all_goals
    have := compLen_lt ‹_›
    simp only [List.length_drop]
    omega

/-- The 8.3 form of a component. -/
abbrev name83 (s : Path) : Name := (to83 s).2

/-- The name `resolve_path` leaves for the last component. -/
def lastName (s : Path) : Name := if s = [] then rootName else name83 s

section Split

variable {p : Path}

theorem splitPath_end (hl : compLen p = 0) (h : p.headD 0 = 0) : splitPath p = ([], []) := by
  rw [splitPath, if_pos hl, if_pos h]

theorem splitPath_skip (hl : compLen p = 0) (h : p.headD 0 ≠ 0) :
    splitPath p = splitPath p.tail := by
  rw [splitPath, if_pos hl, if_neg h]

theorem splitPath_last (hl : compLen p ≠ 0) (h : p.getD (compLen p) 0 = 0) :
    splitPath p = ([], (p.take (compLen p)).take 255) := by
  rw [splitPath, if_neg hl, if_pos h]

theorem splitPath_step (hl : compLen p ≠ 0) (h : p.getD (compLen p) 0 ≠ 0) :
    splitPath p = ((p.take (compLen p)).take 255 :: (splitPath (p.drop (compLen p + 1))).1,
      (splitPath (p.drop (compLen p + 1))).2) := by
  rw [splitPath, if_neg hl, if_neg h]

/-- A component is not empty. -/
theorem component_ne_nil (hl : compLen p ≠ 0) : (p.take (compLen p)).take 255 ≠ [] := by
  have hle := Volume.compLen_le p
  rw [Ne, ← List.length_eq_zero_iff, List.length_take, List.length_take]
  omega

/-- A leading slash is skipped. -/
theorem splitPath_slash (p : Path) :
    splitPath (if p.headD 0 = slash then p.tail else p) = splitPath p := by
  split
  · next h =>
    cases p with
    | nil => rfl
    | cons c p =>
      obtain rfl : c = slash := h
      have hhead : (slash :: p).headD 0 ≠ 0 := by
        rw [List.headD_cons]
        decide
      rw [splitPath_skip (p := slash :: p) (by simp [compLen, inComponent]) hhead]
  · rfl

/-- A string that can stand between the slashes of a path. -/
def IsComponent (s : Path) : Prop := s ≠ [] ∧ s.length ≤ 255 ∧ ∀ c ∈ s, inComponent c = true

instance (s : Path) : Decidable (IsComponent s) :=
  haveI : Decidable (∀ c ∈ s, inComponent c = true) := List.decidableBAll _ s
  inferInstanceAs (Decidable (_ ∧ _ ∧ _))

/-- A component is a path of its own. -/
theorem splitPath_component {s : Path} (h : IsComponent s) : splitPath s = ([], s) := by
  obtain ⟨hne, hlen, hin⟩ := h
  have hall : compLen s = s.length := by rw [compLen, List.takeWhile_eq_self_iff.mpr hin]
  have hl : compLen s ≠ 0 := by
    rw [hall]
    exact mt List.length_eq_zero_iff.mp hne
  rw [splitPath_last hl (by rw [hall, List.getD_eq_default _ _ le_rfl]), hall, List.take_length,
    List.take_of_length_le hlen]

end Split

namespace Volume

variable {V : Volume}

/-- The directory of the given name in a directory. -/
def enter (V : Volume) (d : ℕ) (t : Name) : Option ℕ :=
  match V.find d t with
  | none => none
  | some (_, e) => if e.IsDir then some e.firstCluster else none

/-- The directory the names lead to, one after the other. -/
def descend (V : Volume) : List Name → ℕ → Option ℕ
  | [], d => some d
  | t :: ts, d => (V.enter d t).bind (descend V ts)

@[simp] theorem descend_nil (d : ℕ) : V.descend [] d = some d := rfl

theorem descend_cons {t : Name} {ts : List Name} {d : ℕ} :
    V.descend (t :: ts) d = (V.enter d t).bind (V.descend ts) := rfl

theorem descend_append {ts us : List Name} {d : ℕ} :
    V.descend (ts ++ us) d = (V.descend ts d).bind (V.descend us) := by
  induction ts generalizing d with
  | nil => rfl
  | cons t ts ih =>
    rw [List.cons_append, descend_cons, descend_cons, Option.bind_assoc]
    exact congrArg _ (funext fun d => ih)

theorem enter_eq_some {d d' : ℕ} {t : Name} :
    V.enter d t = some d' ↔ ∃ i e, V.find d t = some (i, e) ∧ e.IsDir ∧ e.firstCluster = d' := by
  unfold enter
  cases hf : V.find d t with
  | none => simp
  | some r =>
    obtain ⟨i, e⟩ := r
    dsimp only
    constructor
    · intro h
      split_ifs at h with he
      exact ⟨i, e, rfl, he, Option.some.inj h⟩
    · rintro ⟨j, f, hf', hdir, rfl⟩
      obtain ⟨rfl, rfl⟩ := Prod.mk.inj (Option.some.inj hf')
      exact if_pos hdir

/-- **`resolve_path` descends** through the directories of the path. -/
theorem resolveFrom_eq (V : Volume) (p : Path) (d : ℕ) : V.resolveFrom p d =
    (V.descend ((splitPath p).1.map name83) d).map fun d' => (d', lastName (splitPath p).2) := by
  induction p using splitPath.induct generalizing d with
  | case1 p hl h =>
    rw [splitPath_end hl h, resolveFrom, if_pos hl, if_pos h]
    rfl
  | case2 p hl h ih => rw [splitPath_skip hl h, resolveFrom, if_pos hl, if_neg h, ih]
  | case3 p hl h =>
    rw [splitPath_last hl h, resolveFrom, if_neg hl, if_pos h, lastName, if_neg (component_ne_nil hl)]
    rfl
  | case4 p hl h ih =>
    rw [splitPath_step hl h, resolveFrom, if_neg hl, if_neg h, List.map_cons, descend_cons, enter]
    cases V.find d (name83 ((p.take (compLen p)).take 255)) with
    | none => rfl
    | some r =>
      obtain ⟨i, e⟩ := r
      dsimp only
      split
      · rw [ih]
        rfl
      · rfl

/-- **`resolve_path` descends** from the root through the directories of the path. -/
theorem resolve_eq (V : Volume) (path : Path) : V.resolve path =
    (V.descend ((splitPath path).1.map name83) 0).map fun d =>
      (d, lastName (splitPath path).2) := by
  rw [resolve, resolveFrom_eq, splitPath_slash]

theorem resolve_eq_some {path : Path} {dir : ℕ} {t : Name} :
    V.resolve path = some (dir, t) ↔
      V.descend ((splitPath path).1.map name83) 0 = some dir ∧ t = lastName (splitPath path).2 := by
  rw [resolve_eq, Option.map_eq_some_iff]
  constructor
  · rintro ⟨d, hd, he⟩
    obtain ⟨rfl, rfl⟩ := Prod.mk.inj he
    exact ⟨hd, rfl⟩
  · rintro ⟨hd, rfl⟩
    exact ⟨dir, hd, rfl⟩

end Volume

end WarkRune.Fat12

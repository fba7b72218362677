import WarkRune.Fat12.Casing
import WarkRune.Fat12.Lookup

/-!
# Paths to the same name

A directory of a sound tree has one parent and one entry there. So paths lead to the same name in
the same directory only if they have the same components in 8.3 form.

## Main definitions

* `SamePath p q`: the paths have the same components in 8.3 form

## Main results

* `Volume.descend_inj`: one list of folded names leads to a directory
* `SamePath.resolve`, `samePath_of_resolve`: when two paths lead to the same name
* `splitPath_concat`: the components of a path behind a directory
-/

namespace WarkRune.Fat12

/-- The letters of the name are in upper case. -/
def Folded (t : Name) : Prop := ∀ i, upper (t i) = t i

theorem folded_name83 (s : Path) : Folded (name83 s) := by
  intro i
  rw [name83]
  unfold to83
  dsimp only
  split
  · exact upper_space
  · exact upper_upper _

/-- A path leads to a folded name. -/
theorem Volume.resolve_folded {V : Volume} {p : Path} {d : ℕ} {t : Name}
    (h : V.resolve p = some (d, t)) : Folded t := by
  obtain ⟨-, rfl⟩ := resolve_eq_some.mp h
  unfold lastName
  split_ifs
  · exact fun _ => rfl
  · exact folded_name83 _

/-- Folded names that match are equal. -/
theorem Folded.eq_of_match {t u : Name} (ht : Folded t) (hu : Folded u)
    (h : match83 t u = true) : t = u := by
  funext i
  rw [← ht i, ← hu i]
  exact match83_iff.mp h i

/-- The paths have the same components in 8.3 form. -/
def SamePath (p q : Path) : Prop :=
  (splitPath p).1.map name83 = (splitPath q).1.map name83 ∧
    lastName (splitPath p).2 = lastName (splitPath q).2

theorem SamePath.refl (p : Path) : SamePath p p := ⟨rfl, rfl⟩

/-- **They lead to the same name** on every volume. -/
theorem SamePath.resolve {p q : Path} (h : SamePath p q) (V : Volume) :
    V.resolve p = V.resolve q := by
  rw [Volume.resolve_eq, Volume.resolve_eq, h.1, h.2]

/-! ## The way to a directory -/

namespace Volume

variable {V : Volume} {P : ℕ → ℕ → Prop} {d d' x : ℕ} {t u : Name}

theorem descend_concat {ts : List Name} :
    V.descend (ts ++ [t]) d = some x ↔ ∃ y, V.descend ts d = some y ∧ V.enter y t = some x := by
  have hone : ∀ y, V.descend [t] y = V.enter y t := by
    intro y
    rw [descend_cons]
    exact Option.bind_fun_some _
  rw [descend_append, Option.bind_eq_some_iff]
  simp only [hone]

/-- A directory that is entered is the head of a live entry, which has the name. -/
theorem enter_spec (ht : t 0 ≠ dot) (h : V.enter d t = some x) :
    ∃ i e, V.Live d i e ∧ e.IsDir ∧ e.firstCluster = x ∧ match83 e.name t = true := by
  obtain ⟨i, e, hf, hdir, hx⟩ := enter_eq_some.mp h
  obtain ⟨hlive, -, -, hm⟩ := find_live ht hf
  exact ⟨i, e, hlive, hdir, hx, hm⟩

variable (h : V.Sound P)
include h

/-- The root is not entered. -/
theorem enter_ne_zero (hd : V.DirAt d) (ht : t 0 ≠ dot) (hx : V.enter d t = some x) : x ≠ 0 := by
  obtain ⟨i, e, hlive, hdir, rfl, -⟩ := enter_spec ht hx
  exact h.head_ne hd hlive hdir

/-- **A directory is entered from one directory**, by names that match. -/
theorem enter_inj (hd : V.DirAt d) (hd' : V.DirAt d') (ht : t 0 ≠ dot) (hu : u 0 ≠ dot)
    (hx : V.enter d t = some x) (hx' : V.enter d' u = some x) :
    d = d' ∧ match83 t u = true := by
  have h0 := enter_ne_zero h hd ht hx
  obtain ⟨i, e, hl, -, he, hm⟩ := enter_spec ht hx
  obtain ⟨j, f, hl', -, hf, hm'⟩ := enter_spec hu hx'
  -- the entries own the chain of the directory, so they are one entry
  have hp : V.Heads (d, i) x := ⟨hd, e, hl, he, h0⟩
  have hq : V.Heads (d', j) x := ⟨hd', f, hl', hf, h0⟩
  obtain ⟨l, hchain⟩ := h.owned.chain (i := .inl (d, i)) hp
  have hmem := hchain.head_mem
  have hone := Sum.inl.inj (h.owned.apart (i := .inl (d, i)) (j := .inl (d', j))
    ⟨x, l, hp, hchain, hmem⟩ ⟨x, l, hq, hchain, hmem⟩)
  obtain ⟨rfl, rfl⟩ := Prod.mk.inj hone
  obtain rfl := hl.det hl'
  refine ⟨rfl, match83_trans ?_ hm'⟩
  rwa [match83_comm]

/-- **One list of folded names leads to a directory.** -/
theorem descend_inj {ts us : List Name} (hts : ∀ t ∈ ts, Folded t ∧ t 0 ≠ dot)
    (hus : ∀ u ∈ us, Folded u ∧ u 0 ≠ dot) (hx : V.descend ts 0 = some x)
    (hx' : V.descend us 0 = some x) : ts = us := by
  have hroot : ∀ {t ts}, (∀ t' ∈ ts ++ [t], Folded t' ∧ t' 0 ≠ dot) →
      V.descend (ts ++ [t]) 0 ≠ some 0 := by
    intro t ts hts hx
    obtain ⟨y, hy, henter⟩ := descend_concat.mp hx
    have hdirAt := descend_dirAt dirAt_zero
      (fun t ht => (hts t (List.mem_append_left _ ht)).2) hy
    exact enter_ne_zero h hdirAt (hts t (by simp)).2 henter rfl
  -- by induction on the way from the directory to the root
  induction ts using List.reverseRecOn generalizing us x with
  | nil =>
    obtain rfl := Option.some.inj hx
    rcases List.eq_nil_or_concat' us with rfl | ⟨us, u, rfl⟩
    · rfl
    · exact absurd hx' (hroot hus)
  | append_singleton ts t ih =>
    rcases List.eq_nil_or_concat' us with rfl | ⟨us, u, rfl⟩
    · obtain rfl := Option.some.inj hx'
      exact absurd hx (hroot hts)
    obtain ⟨y, hy, henter⟩ := descend_concat.mp hx
    obtain ⟨z, hz, henter'⟩ := descend_concat.mp hx'
    have hts' : ∀ t' ∈ ts, Folded t' ∧ t' 0 ≠ dot := fun t' ht' =>
      hts t' (List.mem_append_left _ ht')
    have hus' : ∀ u' ∈ us, Folded u' ∧ u' 0 ≠ dot := fun u' hu' =>
      hus u' (List.mem_append_left _ hu')
    have ht := hts t (by simp)
    have hu := hus u (by simp)
    obtain ⟨rfl, hm⟩ := enter_inj h (descend_dirAt dirAt_zero (fun t ht => (hts' t ht).2) hy)
      (descend_dirAt dirAt_zero (fun u hu => (hus' u hu).2) hz) ht.2 hu.2 henter henter'
    rw [ih hts' hus' hy hz, ht.1.eq_of_match hu.1 hm]

omit h in
theorem folded_dirs (p : Path) : ∀ t ∈ (splitPath p).1.map name83, Folded t ∧ t 0 ≠ dot := by
  intro t ht
  refine ⟨?_, names_ne_dot p t ht⟩
  obtain ⟨s, -, rfl⟩ := List.mem_map.mp ht
  exact folded_name83 s

end Volume

/-- **Paths to the same name** in the same directory have the same components. -/
theorem samePath_of_resolve {V : Volume} {P : ℕ → ℕ → Prop} (h : V.Sound P) {p q : Path} {d : ℕ}
    {t u : Name} (hp : V.resolve p = some (d, t)) (hq : V.resolve q = some (d, u)) (htu : t = u) :
    SamePath p q := by
  obtain ⟨hd, rfl⟩ := Volume.resolve_eq_some.mp hp
  obtain ⟨hd', rfl⟩ := Volume.resolve_eq_some.mp hq
  exact ⟨Volume.descend_inj h (Volume.folded_dirs p) (Volume.folded_dirs q) hd hd', htu⟩

/-! ## Paths behind a directory -/

section Behind

open Volume (compLen compLen_lt)

/-- A text that is empty or ends with a slash. -/
def EndsSlash (u : Path) : Prop := ∀ c ∈ u.getLast?, c = slash

theorem EndsSlash.of_suffix {u v : Path} (hu : EndsSlash u) (h : v <:+ u) : EndsSlash v := by
  rintro c hc
  obtain ⟨w, rfl⟩ := h
  apply hu
  rw [List.getLast?_append, Option.mem_def.mp hc]
  rfl

/-- A byte of a string that is in no component is a slash. -/
theorem eq_slash_of_inComponent {c : UInt8} (h0 : c ≠ 0) (hin : ¬ inComponent c = true) :
    c = slash := by
  by_contra hs
  exact hin (by simp [inComponent, h0, hs])

/-- A slash at the start is skipped. -/
theorem splitPath_slash_cons (v : Path) : splitPath (slash :: v) = splitPath v :=
  splitPath_skip rfl (show slash ≠ 0 by decide)

/-- The first directory of a path. -/
theorem splitPath_dir {w : Path} (hw : w ≠ []) (hin : ∀ c ∈ w, inComponent c = true) (v : Path) :
    splitPath (w ++ slash :: v) = (w.take 255 :: (splitPath v).1, (splitPath v).2) := by
  have htake : (w ++ slash :: v).takeWhile inComponent = w := by
    rw [List.takeWhile_append_of_pos hin, List.takeWhile_cons_of_neg (by decide), List.append_nil]
  have hlen : compLen (w ++ slash :: v) = w.length := by rw [compLen, htake]
  have hne : compLen (w ++ slash :: v) ≠ 0 := by
    rw [hlen]
    exact mt List.length_eq_zero_iff.mp hw
  have hslash : (w ++ slash :: v).getD w.length 0 = slash := by
    rw [List.getD_append_right _ _ _ _ le_rfl, Nat.sub_self]
    rfl
  rw [splitPath_step hne (by rw [hlen, hslash]; decide), hlen, List.take_left,
    ← List.drop_drop, List.drop_left]
  rfl

/-- A path without a NUL that does not end in a component is empty, or begins with a slash, or with
a directory. -/
theorem EndsSlash.cases {u : Path} (hu : EndsSlash u) (h0 : 0 ∉ u) :
    u = [] ∨ (∃ v, u = slash :: v) ∨
      ∃ w v, w ≠ [] ∧ (∀ c ∈ w, inComponent c = true) ∧ u = w ++ slash :: v := by
  have hsplit := List.takeWhile_append_dropWhile (p := inComponent) (l := u)
  have hall : ∀ c ∈ u.takeWhile inComponent, inComponent c = true := fun _ =>
    List.mem_takeWhile_imp
  cases hd : u.dropWhile inComponent with
  | nil =>
    -- all of it is in a component, and the last byte is a slash
    rw [hd, List.append_nil] at hsplit
    rcases List.eq_nil_or_concat' u with rfl | ⟨w, c, rfl⟩
    · exact .inl rfl
    · have hc : inComponent c = true := hall c (by rw [hsplit]; simp)
      obtain rfl := hu c (by simp)
      exact absurd hc (by decide)
  | cons c v =>
    have hc : ¬ inComponent c = true := by
      have hhead := List.head_dropWhile_not inComponent (l := u) (by rw [hd]; simp)
      simpa only [hd, List.head_cons, Bool.not_eq_true] using hhead
    rw [hd] at hsplit
    obtain rfl := eq_slash_of_inComponent (fun hz => h0 (by rw [← hsplit, hz]; simp)) hc
    by_cases hw : u.takeWhile inComponent = []
    · rw [hw, List.nil_append] at hsplit
      exact .inr (.inl ⟨v, hsplit.symm⟩)
    · exact .inr (.inr ⟨_, v, hw, hall, hsplit.symm⟩)

/-- **Induction on such a path**, component by component. -/
theorem EndsSlash.induct {C : Path → Prop} (hnil : C []) (hslash : ∀ r, C r → C (slash :: r))
    (hdir : ∀ w r, w ≠ [] → (∀ c ∈ w, inComponent c = true) → C r → C (w ++ slash :: r)) {u : Path}
    (hu : EndsSlash u) (h0 : 0 ∉ u) : C u := by
  induction hn : u.length using Nat.strong_induction_on generalizing u with
  | _ n ih =>
    -- what is behind a slash is shorter, and does not end in a component either
    have hrest : ∀ {r}, r <:+ u → r.length < u.length → C r := fun hr hlt =>
      ih _ (hn ▸ hlt) (hu.of_suffix hr) (fun h => h0 (hr.subset h)) rfl
    rcases hu.cases h0 with rfl | ⟨r, rfl⟩ | ⟨w, r, hw, hin, rfl⟩
    · exact hnil
    · apply hslash
      exact hrest (List.suffix_cons _ _) (by simp)
    · apply hdir w r hw hin
      apply hrest ⟨w ++ [slash], by simp⟩
      rw [List.length_append, List.length_cons]
      omega

/-- **The components of a path behind a directory**: those of the directory, and those of the
path. -/
theorem splitPath_concat {u : Path} (v : Path) (hu : EndsSlash u) (h0 : 0 ∉ u) :
    splitPath (u ++ v) = ((splitPath u).1 ++ (splitPath v).1, (splitPath v).2) := by
  apply hu.induct _ _ _ h0
  · have hnil : splitPath [] = ([], []) := splitPath_end rfl rfl
    rw [hnil, List.nil_append, List.nil_append]
  · intro r ih
    rw [List.cons_append, splitPath_slash_cons, splitPath_slash_cons, ih]
  · intro w r hw hin ih
    rw [List.append_assoc, List.cons_append, splitPath_dir hw hin, splitPath_dir hw hin, ih]
    rfl

/-- **A directory without components** is one of slashes only. -/
theorem splitPath_dirs_eq_nil_iff {u : Path} (hu : EndsSlash u) (h0 : 0 ∉ u) :
    (splitPath u).1 = [] ↔ ∀ c ∈ u, c = slash := by
  apply hu.induct _ _ _ h0
  · rw [splitPath_end rfl rfl]
    exact iff_of_true rfl nofun
  · intro r ih
    rw [splitPath_slash_cons, List.forall_mem_cons, and_iff_right rfl, ih]
  · intro w r hw hin _
    rw [splitPath_dir hw hin]
    refine iff_of_false (List.cons_ne_nil _ _) fun hall => ?_
    obtain ⟨c, w, rfl⟩ := List.exists_cons_of_ne_nil hw
    have hc := hin c List.mem_cons_self
    rw [hall c (by simp)] at hc
    exact absurd hc (by decide)

/-- **A path behind a directory** leads to where the path alone does, on every volume, only if the
directory has no components. -/
theorem samePath_concat_iff {u : Path} (v : Path) (hu : EndsSlash u) (h0 : 0 ∉ u) :
    SamePath (u ++ v) v ↔ ∀ c ∈ u, c = slash := by
  rw [SamePath, splitPath_concat v hu h0, and_iff_left rfl, List.map_append, List.append_left_eq_self,
    List.map_eq_nil_iff, splitPath_dirs_eq_nil_iff hu h0]

end Behind

end WarkRune.Fat12

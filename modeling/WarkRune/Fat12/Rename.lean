import WarkRune.Fat12.Listing
import Mathlib.Data.List.Forall2

/-!
# Renaming

`fat12_rename` looks for the new name in the directory of the new path, and stores it in the entry
of the old path, in the directory where that is. A path to a directory is unique up to the case of
its letters, so the entry moves along the new path only if both paths lead to the same directory.

## Main definitions

* `Below`: a path goes through another one
* `Volume.Moved`: a rename has moved an entry from one path to another
* `Volume.Renamable`: the paths lead to one directory, where only the entry answers to the old name

## Main results

* `Volume.Sound.descend_unique`: the paths to a directory are the same up to case
* `rename_moves_iff`: a rename that returns true has moved the entry exactly when it is `Renamable`
-/

namespace WarkRune.Fat12

/-- The names of two paths match, one by one. -/
abbrev SameNames : List Name → List Name → Prop := List.Forall₂ fun t u => match83 t u = true

/-- The path `p` is the path `q`, or goes on from it. -/
def Below (q p : Path) : Prop :=
  ∃ ns rest, Volume.pathNames p = ns ++ rest ∧ SameNames (Volume.pathNames q) ns

theorem DirEntry.fileSize_setName (e : DirEntry) (t : Name) :
    (e.setName t).fileSize = e.fileSize := by
  simp [fileSize, setName]

namespace Volume

variable {V V' : Volume} {P : ℕ → ℕ → Prop} {dir newDir i d : ℕ} {e : DirEntry} {t o u : Name}

/-! ## Paths to a directory -/

theorem descend_of_match {ts us : List Name} (h : SameNames ts us) (d : ℕ) :
    V.descend ts d = V.descend us d := by
  induction h generalizing d with
  | nil => rfl
  | cons ht _ ih =>
    rw [descend_cons, descend_cons, enter, enter, find_of_match ht]
    exact congrArg _ (funext fun d => ih d)

theorem descend_snoc {ts : List Name} {d : ℕ} : V.descend (ts ++ [t]) 0 = some d ↔
    ∃ p i e, V.descend ts 0 = some p ∧ V.find p t = some (i, e) ∧ e.IsDir ∧
      e.firstCluster = d := by
  rw [descend_append, Option.bind_eq_some_iff]
  constructor
  · rintro ⟨p, hp, hd⟩
    obtain ⟨d', henter, hnil⟩ := Option.bind_eq_some_iff.mp (descend_cons ▸ hd)
    obtain rfl := Option.some.inj hnil
    obtain ⟨i, e, hf⟩ := enter_eq_some.mp henter
    exact ⟨p, i, e, hp, hf⟩
  · rintro ⟨p, i, e, hp, hf⟩
    refine ⟨p, hp, ?_⟩
    rw [descend_cons, enter_eq_some.mpr ⟨i, e, hf⟩]
    rfl

/-- **The paths to a directory of a sound volume are the same up to case.** -/
theorem Sound.descend_unique (h : V.Sound P) {ts us : List Name} (hts : ∀ t ∈ ts, t 0 ≠ dot)
    (hus : ∀ u ∈ us, u 0 ≠ dot) (h₁ : V.descend ts 0 = some d) (h₂ : V.descend us 0 = some d) :
    SameNames ts us := by
  -- no entry of a directory heads the root, so only the empty path leads there
  have hroot : ∀ {ts : List Name} {t : Name}, (∀ x ∈ ts ++ [t], x 0 ≠ dot) →
      V.descend (ts ++ [t]) 0 ≠ some 0 := by
    intro ts t hts hd
    obtain ⟨p, i, e, hp, hf, hdir, h0⟩ := descend_snoc.mp hd
    have hlive := find_live (hts t (by simp)) hf
    exact h.head_ne (descend_dirAt dirAt_zero (fun x hx => hts x (by simp [hx])) hp) hlive.1 hdir h0
  induction ts using List.reverseRecOn generalizing us d with
  | nil =>
    obtain rfl := Option.some.inj h₁
    rcases List.eq_nil_or_concat us with rfl | ⟨us, u, rfl⟩
    · exact .nil
    · rw [List.concat_eq_append] at h₂ hus
      exact absurd h₂ (hroot hus)
  | append_singleton ts t ih =>
    rcases List.eq_nil_or_concat us with rfl | ⟨us, u, rfl⟩
    · obtain rfl := Option.some.inj h₂
      exact absurd h₁ (hroot hts)
    · rw [List.concat_eq_append] at h₂ hus ⊢
      obtain ⟨p, i, e, hp, hf, hdir, rfl⟩ := descend_snoc.mp h₁
      obtain ⟨q, j, x, hq, hg, hxdir, hfc⟩ := descend_snoc.mp h₂
      have hts' : ∀ x ∈ ts, x 0 ≠ dot := fun x hx => hts x (List.mem_append_left _ hx)
      have hus' : ∀ x ∈ us, x 0 ≠ dot := fun x hx => hus x (List.mem_append_left _ hx)
      have hpd := descend_dirAt dirAt_zero hts' hp
      have hqd := descend_dirAt dirAt_zero hus' hq
      obtain ⟨hlive, -, -, hmatch⟩ := find_live (hts t (by simp)) hf
      obtain ⟨hxlive, -, -, hxmatch⟩ := find_live (hus u (by simp)) hg
      have h0 := h.head_ne hpd hlive hdir
      obtain ⟨l, hl⟩ := h.owned.chain (i := .inl (p, i)) ⟨hpd, e, hlive, rfl, h0⟩
      have hown : V.Holds P (.inl (p, i)) e.firstCluster :=
        ⟨_, l, ⟨hpd, e, hlive, rfl, h0⟩, hl, hl.head_mem⟩
      have hxown : V.Holds P (.inl (q, j)) e.firstCluster :=
        ⟨_, l, ⟨hqd, x, hxlive, hfc, h0⟩, hl, hl.head_mem⟩
      obtain ⟨rfl, rfl⟩ := Prod.mk.inj (Sum.inl.inj (h.owned.apart hown hxown))
      obtain rfl := hxlive.det hlive
      refine List.rel_append (ih hts' hus' hp hq) (.cons ?_ .nil)
      exact match83_trans (match83_comm t e.name ▸ hmatch) hxmatch

/-! ## An entry with a new name -/

/-- The live entry `e` in slot `i` of the directory `d` has got the name `t`, and nothing else has
changed. -/
structure Relabels (V V' : Volume) (d i : ℕ) (e : DirEntry) (t : Name) : Prop
    extends V.Rewrites V' d i (e.setName t) where
  geo : V'.geo = V.geo
  fat : ∀ c ≤ V.geo.totalClusters + 1, V'.fat c = V.fat c
  answers : V.Answers d e.name i e
  not_dot : t 0 ≠ dot

/-- What `fat12_rename` stores. -/
theorem Sound.relabels (h : V.Sound P) {oldPath newPath : Path} (hf : V.Finds oldPath dir i e)
    (hn : V.New newPath newDir t) :
    V.Relabels (V.setSlot dir i (e.setName t)) dir i e t := by
  obtain ⟨hd, hlive, hi, hm⟩ := hf.live
  have hend : (e.setName t).name 0 ≠ dirEnd := by
    rw [DirEntry.name_setName]
    exact hn.1.2
  exact ⟨h.rewrites_live hd hlive hend, setSlot_geo .., fun c => h.fat_setSlot hd,
    ⟨hlive, hi, hm, match83_self _⟩, hn.dirAt.2⟩

namespace Relabels

variable (r : V.Relabels V' dir i e t)
include r

theorem not_end : t 0 ≠ 0 := by
  have hend := r.end_ne
  rwa [DirEntry.name_setName] at hend

theorem named_iff : (e.setName t).Named ↔ t 0 ≠ dirFree := by
  apply DirEntry.named_of_name (DirEntry.name_setName ..) r.not_end r.not_dot
  rw [DirEntry.attr_setName]
  exact not_masked_label r.answers.2.2.1

/-- **What answers a search after the change.** -/
theorem answers_iff {j : ℕ} {x : DirEntry} (hd : V.DirAt d) : V'.Answers d u j x ↔
    if d = dir ∧ j = i then x = e.setName t ∧ t 0 ≠ dirFree ∧ match83 t u = true
    else V.Answers d u j x := by
  rw [Answers, r.live_iff hd, r.geo]
  split_ifs with hpos
  · obtain ⟨rfl, rfl⟩ := hpos
    rw [r.named_iff]
    constructor
    · rintro ⟨⟨rfl, hfree⟩, -, -, hmatch⟩
      rw [DirEntry.name_setName] at hmatch
      exact ⟨rfl, hfree, hmatch⟩
    · rintro ⟨rfl, hfree, hmatch⟩
      refine ⟨⟨rfl, hfree⟩, r.answers.2.1, ?_, ?_⟩
      · rw [DirEntry.Masked, DirEntry.attr_setName]
        exact r.answers.2.2.1
      · rwa [DirEntry.name_setName]
  · rfl

theorem answers_other {j : ℕ} {x : DirEntry} (hd : V.DirAt d) (hne : ¬ (d = dir ∧ j = i)) :
    V'.Answers d u j x ↔ V.Answers d u j x := by
  rw [r.answers_iff hd, if_neg hne]

/-- **Other names are found as before**, and all names of other directories. -/
theorem find_other (hd : V.DirAt d) (hu : u 0 ≠ dot)
    (hne : d = dir → match83 e.name u = false ∧ match83 t u = false) :
    V'.find d u = V.find d u := by
  refine find_eq_of_answers hu fun j x => ?_
  by_cases hpos : d = dir ∧ j = i
  · -- the entry answers neither under its old name nor under the new one
    obtain ⟨rfl, rfl⟩ := hpos
    obtain ⟨hold, hnew⟩ := hne rfl
    rw [r.answers_iff hd, if_pos ⟨rfl, rfl⟩, hnew]
    refine iff_of_false (fun h => nomatch h.2.2) fun h => ?_
    obtain rfl := r.answers.1.det h.1
    rw [h.2.2.2] at hold
    cases hold
  · exact r.answers_other hd hpos

/-- **The new name is found** in the directory of the entry, if no entry had it. -/
theorem find_new (hnew : V.find dir t = none) (hfree : t 0 ≠ dirFree) :
    V'.find dir t = some (i, e.setName t) := by
  rw [find_eq_some_iff_first r.not_dot]
  refine ⟨(r.answers_iff r.dir).mpr ?_, fun j hj x hx => ?_⟩
  · rw [if_pos ⟨rfl, rfl⟩]
    exact ⟨rfl, hfree, match83_self t⟩
  · rw [r.answers_other r.dir fun hpos => hj.ne hpos.2] at hx
    exact (find_eq_none_iff r.not_dot).mp hnew j x hx

/-- **The old name is not found** any more exactly when no other entry has it. -/
theorem find_old_iff (hnew : V.find dir t = none) (ho : o 0 ≠ dot)
    (hmatch : match83 e.name o = true) :
    V'.find dir o = none ↔ ∀ j x, V.Answers dir o j x → j = i := by
  have hne : match83 t o = false := by
    rw [Bool.eq_false_iff]
    intro h
    have hself : match83 e.name t = true := match83_trans hmatch (match83_comm t o ▸ h)
    exact (find_eq_none_iff r.not_dot).mp hnew i e
      ⟨r.answers.1, r.answers.2.1, r.answers.2.2.1, hself⟩
  rw [find_eq_none_iff ho]
  constructor
  · intro hno j x hx
    by_contra hji
    exact hno j x ((r.answers_other r.dir fun hpos => hji hpos.2).mpr hx)
  · intro hall j x hx
    by_cases hji : j = i
    · rw [r.answers_iff r.dir, if_pos ⟨rfl, hji⟩, hne] at hx
      exact nomatch hx.2.2
    · exact hji (hall j x ((r.answers_other r.dir fun hpos => hji hpos.2).mp hx))

/-- Renaming a file leads no search for a directory to another one. -/
theorem enter_eq (hfile : ¬ e.IsDir) (hd : V.DirAt d) (hu : u 0 ≠ dot) {d₁ d₂ : ℕ}
    (h₁ : V.enter d u = some d₁) (h₂ : V'.enter d u = some d₂) : d₁ = d₂ := by
  obtain ⟨k, y, hf, hy, rfl⟩ := enter_eq_some.mp h₁
  obtain ⟨k', y', hf', hy', rfl⟩ := enter_eq_some.mp h₂
  rw [find_eq_some_iff_first hu] at hf hf'
  -- neither of the directories found is the entry renamed
  have hk : ¬ (d = dir ∧ k = i) := by
    rintro ⟨rfl, rfl⟩
    obtain rfl := r.answers.1.det hf.1.1
    exact hfile hy
  have hk' : ¬ (d = dir ∧ k' = i) := by
    intro hpos
    rw [r.answers_iff hd, if_pos hpos] at hf'
    rw [hf'.1.1, DirEntry.IsDir, DirEntry.attr_setName] at hy'
    exact hfile hy'
  have hans := (r.answers_other hd hk).mpr hf.1
  have hans' := (r.answers_other hd hk').mp hf'.1
  -- the one that comes first would have been found both times
  rcases lt_trichotomy k k' with hlt | rfl | hlt
  · exact absurd hans (hf'.2 k hlt y)
  · rw [hf.1.1.det hans'.1]
  · exact absurd hans' (hf.2 k' hlt y')

end Relabels

/-! ## Paths after a rename -/

/-- A walk is the same where every search on the way finds the same. -/
theorem descend_eq_of_find {ts : List Name} {d : ℕ}
    (h : ∀ ts₁ u rest, ts = ts₁ ++ u :: rest → ∀ d₁, V.descend ts₁ d = some d₁ →
      V'.find d₁ u = V.find d₁ u) : V'.descend ts d = V.descend ts d := by
  induction ts generalizing d with
  | nil => rfl
  | cons t ts ih =>
    have henter : V'.enter d t = V.enter d t := by
      rw [enter, enter, h [] t ts rfl d rfl]
    rw [descend_cons, descend_cons, henter]
    cases he : V.enter d t with
    | none => rfl
    | some d' =>
      apply ih
      rintro ts₁ u rest rfl d₁ hd₁
      exact h (t :: ts₁) u rest rfl d₁ (by rw [descend_cons, he]; exact hd₁)

/-- The names of a path do not begin with a dot. -/
theorem pathNames_ne_dot (p : Path) : ∀ u ∈ pathNames p, u 0 ≠ dot := by
  intro u hu
  rcases List.mem_append.mp hu with h | h
  · exact names_ne_dot p u h
  · split_ifs at h
    · cases h
    · obtain rfl := List.mem_singleton.mp h
      exact to83_ne_dot _

/-- The names of a path with a last name. -/
theorem Names.pathNames {p : Path} (h : V.Names p dir t) :
    pathNames p = (splitPath p).1.map name83 ++ [t] := by
  obtain ⟨-, hl, rfl⟩ := names_iff.mp h
  rw [Volume.pathNames, if_neg hl]

namespace Relabels

variable (h : V.Sound P) (r : V.Relabels V' dir i e t)
include h r

theorem sound : V'.Sound P := by
  apply h.rewrites r.toRewrites r.geo r.fat
  · intro _ hdir
    rw [DirEntry.IsDir, DirEntry.attr_setName] at hdir
    exact ⟨i, e, r.answers.1, hdir, (e.firstCluster_setName t).symm⟩
  · intro _ h0
    exact ⟨r.dir, e, r.answers.1, (e.firstCluster_setName t).symm, h0⟩

/-- **The walk to the directory of the entry** does not come by the entry. -/
theorem descend_dir {ts : List Name} (hts : ∀ x ∈ ts, x 0 ≠ dot)
    (hd : V.descend ts 0 = some dir) : V'.descend ts 0 = some dir := by
  rw [descend_eq_of_find, hd]
  rintro ts₁ u rest rfl d₁ hd₁
  have hts₁ : ∀ x ∈ ts₁, x 0 ≠ dot := fun x hx => hts x (List.mem_append_left _ hx)
  refine r.find_other (descend_dirAt dirAt_zero hts₁ hd₁) (hts u (by simp)) fun heq => ?_
  -- else the walk would come to the directory twice, along paths of two lengths
  have hlen := (h.descend_unique hts₁ hts (heq ▸ hd₁) hd).length_eq
  rw [List.length_append, List.length_cons] at hlen
  omega

/-- The old path leads to the old name. -/
theorem names_old {oldPath : Path} (ho : V.Names oldPath dir o) : V'.Names oldPath dir o := by
  obtain ⟨hd, hl⟩ := names_iff.mp ho
  exact names_iff.mpr ⟨r.descend_dir h (names_ne_dot _) hd, hl⟩

variable {oldPath newPath : Path} (hnew : V.find dir t = none)

include hnew in
/-- **Along the new path the entry is found**, when both paths lead to one directory. -/
theorem finds_new (hn : V.Names newPath dir t) (hfree : t 0 ≠ dirFree) :
    V'.Finds newPath dir i (e.setName t) := by
  obtain ⟨hd, hl⟩ := names_iff.mp hn
  exact ⟨t, names_iff.mpr ⟨r.descend_dir h (names_ne_dot _) hd, hl⟩, r.find_new hnew hfree⟩

variable (ho : V.Names oldPath dir o) (hmatch : match83 e.name o = true)
include ho hmatch hnew

/-- **Along the old path nothing is found** exactly when no other entry answers to the old name. -/
theorem not_finds_old_iff : (∀ d j x, ¬ V'.Finds oldPath d j x) ↔
    ∀ j x, V.Answers dir e.name j x → j = i := by
  -- the name in the path and the name in the entry match the same names
  have hans : ∀ {j x}, V.Answers dir o j x ↔ V.Answers dir e.name j x := by
    intro j x
    refine and_congr_right fun _ => and_congr_right fun _ => and_congr_right fun _ => ?_
    exact ⟨fun hx => match83_trans hx (match83_comm e.name o ▸ hmatch),
      fun hx => match83_trans hx hmatch⟩
  have hdot : o 0 ≠ dot := (resolve_dirAt ho.1).2
  have hiff := r.find_old_iff hnew hdot hmatch
  simp only [hans] at hiff
  rw [← hiff]
  constructor
  · intro hno
    by_contra hsome
    obtain ⟨⟨j, x⟩, hj⟩ := Option.ne_none_iff_exists'.mp hsome
    exact hno dir j x ⟨o, r.names_old h ho, hj⟩
  · rintro hnone d j x ⟨u, hu, hfind⟩
    obtain ⟨rfl, rfl⟩ := (r.names_old h ho).det hu
    rw [hnone] at hfind
    cases hfind

/-- **Paths that go neither through the old path nor through the new one** lead where they led. -/
theorem others (hn : V.Names newPath dir t) {p : Path} (hpo : ¬ Below oldPath p)
    (hpn : ¬ Below newPath p) :
    V'.resolve p = V.resolve p ∧ ∀ d j x, V'.Finds p d j x ↔ V.Finds p d j x := by
  have hagree : ∀ ts₁ u rest, Volume.pathNames p = ts₁ ++ u :: rest → ∀ d₁,
      V.descend ts₁ 0 = some d₁ → V'.find d₁ u = V.find d₁ u := by
    intro ts₁ u rest hp d₁ hd₁
    have hdots : ∀ x ∈ ts₁ ++ u :: rest, x 0 ≠ dot := hp ▸ pathNames_ne_dot p
    have hts₁ : ∀ x ∈ ts₁, x 0 ≠ dot := fun x hx => hdots x (List.mem_append_left _ hx)
    refine r.find_other (descend_dirAt dirAt_zero hts₁ hd₁) (hdots u (by simp)) fun heq => ?_
    subst heq
    -- a name of the entry would put the path below the old or the new one
    have hbelow : ∀ {q : Path} {w : Name}, V.Names q d₁ w → match83 w u = true → Below q p := by
      intro q w hq hwu
      refine ⟨ts₁ ++ [u], rest, by rw [hp, List.append_assoc, List.singleton_append], ?_⟩
      rw [hq.pathNames]
      have hsame := h.descend_unique (names_ne_dot q) hts₁ (names_iff.mp hq).1 hd₁
      exact List.rel_append hsame (.cons hwu .nil)
    constructor
    · rw [Bool.eq_false_iff]
      exact fun hu => hpo (hbelow ho (match83_trans (match83_comm e.name o ▸ hmatch) hu))
    · rw [Bool.eq_false_iff]
      exact fun hu => hpn (hbelow hn hu)
  have hdesc : V'.descend ((splitPath p).1.map name83) 0 =
      V.descend ((splitPath p).1.map name83) 0 := by
    apply descend_eq_of_find
    intro ts₁ u rest hts
    apply hagree ts₁ u (rest ++ if (splitPath p).2 = [] then [] else [name83 (splitPath p).2])
    rw [Volume.pathNames, hts, List.append_assoc, List.cons_append]
  have hres : V'.resolve p = V.resolve p := by rw [resolve_eq, resolve_eq, hdesc]
  refine ⟨hres, fun d j x => ?_⟩
  have hfind : ∀ u, V.Names p d u → V'.find d u = V.find d u := by
    intro u hu
    exact hagree _ u [] hu.pathNames d (names_iff.mp hu).1
  constructor
  · rintro ⟨u, hu, hj⟩
    have hu' : V.Names p d u := ⟨hres ▸ hu.1, hu.2⟩
    exact ⟨u, hu', hfind u hu' ▸ hj⟩
  · rintro ⟨u, hu, hj⟩
    exact ⟨u, ⟨hres ▸ hu.1, hu.2⟩, (hfind u hu).trans hj⟩

end Relabels

/-! ## What a rename is to do -/

/-- The entry that was found along the old path is found along the new one, with its size, first
cluster and attributes, nothing is found along the old path, and paths that go through neither lead
where they led. -/
structure Moved (V V' : Volume) (oldPath newPath : Path) : Prop where
  found : ∃ dir i e d j x, V.Finds oldPath dir i e ∧ V'.Finds newPath d j x ∧
    x.fileSize = e.fileSize ∧ x.firstCluster = e.firstCluster ∧ x.attr = e.attr
  gone : ∀ d j x, ¬ V'.Finds oldPath d j x
  others : ∀ p, ¬ Below oldPath p → ¬ Below newPath p →
    V'.resolve p = V.resolve p ∧ ∀ d j x, V'.Finds p d j x ↔ V.Finds p d j x

/-- Both paths lead to names in one directory, only the entry that is found answers to the old name,
and the new name does not mark it deleted. -/
def Renamable (V : Volume) (oldPath newPath : Path) : Prop :=
  ∃ dir i e t, V.Finds oldPath dir i e ∧ V.Names newPath dir t ∧ t 0 ≠ dirFree ∧
    ∀ j x, V.Answers dir e.name j x → j = i

namespace Relabels

variable (h : V.Sound P) (r : V.Relabels V' dir i e t)
include h r

/-- **A directory moves only if both paths lead to the directory it is in**: its clusters have no
other owner. -/
theorem dir_eq_of_isDir (hdir : e.IsDir) (hfree : t 0 ≠ dirFree) {oldPath newPath : Path}
    (ho : V.Names oldPath dir o) (hn : V.Names newPath newDir t) {j : ℕ} {x : DirEntry}
    (hf : V'.Finds newPath d j x) (hx : x.firstCluster = e.firstCluster) : newDir = dir := by
  have hsound := r.sound h
  have hself := r.live_self (r.named_iff.mpr hfree)
  have hkeep : ∀ y, V.Live dir i y → y.IsDir → (e.setName t).Named ∧ (e.setName t).IsDir ∧
      (e.setName t).firstCluster = y.firstCluster := by
    intro y hy _
    obtain rfl := r.answers.1.det hy
    refine ⟨r.named_iff.mpr hfree, ?_, y.firstCluster_setName t⟩
    rwa [DirEntry.IsDir, DirEntry.attr_setName]
  have hd' := r.dirAt_keep hkeep r.dir
  have h0 := h.head_ne r.dir r.answers.1 hdir
  obtain ⟨hdd, hlive, -⟩ := hf.live
  have hhead : V'.Heads (dir, i) e.firstCluster :=
    ⟨hd', _, hself, e.firstCluster_setName t, h0⟩
  -- the entry that is found heads the same clusters, so it is this one
  obtain ⟨l, hl⟩ := hsound.owned.chain (i := .inl (dir, i)) hhead
  have hown : V'.Holds P (.inl (dir, i)) e.firstCluster := ⟨_, l, hhead, hl, hl.head_mem⟩
  have hxown : V'.Holds P (.inl (d, j)) e.firstCluster :=
    ⟨_, l, ⟨hdd, x, hlive, hx, h0⟩, hl, hl.head_mem⟩
  obtain ⟨rfl, rfl⟩ := Prod.mk.inj (Sum.inl.inj (hsound.owned.apart hown hxown))
  -- in the new volume the paths of the two names lead to one directory
  obtain ⟨u, hu, -⟩ := hf
  have hsame := hsound.descend_unique (names_ne_dot newPath) (names_ne_dot oldPath)
    (names_iff.mp hu).1 (names_iff.mp (r.names_old h ho)).1
  have heq := descend_of_match (V := V) hsame 0
  rw [(names_iff.mp hn).1, (names_iff.mp ho).1] at heq
  exact Option.some.inj heq

omit h in
/-- **A file moves only if both paths lead to the directory it is in**: the new path leads to the
directory it led to, where the name is not stored. -/
theorem dir_eq_of_file (hfile : ¬ e.IsDir) {newPath : Path} (hn : V.New newPath newDir t) {j : ℕ}
    {x : DirEntry} (hf : V'.Finds newPath d j x) : newDir = dir := by
  obtain ⟨u, hu, hfind⟩ := hf
  obtain ⟨hd', -, rfl⟩ := names_iff.mp hu
  obtain ⟨hd, -, ht⟩ := names_iff.mp hn.1
  -- renaming a file leads no walk to another directory
  have hwalk : ∀ {ts : List Name} {a b c : ℕ}, V.DirAt a → (∀ y ∈ ts, y 0 ≠ dot) →
      V.descend ts a = some b → V'.descend ts a = some c → b = c := by
    intro ts
    induction ts with
    | nil =>
      intro a b c _ _ hb hc
      exact Option.some.inj (hb.symm.trans hc)
    | cons y ts ih =>
      intro a b c ha hts hb hc
      obtain ⟨a₁, hy, hb⟩ := Option.bind_eq_some_iff.mp (descend_cons ▸ hb)
      obtain ⟨a₂, hy', hc⟩ := Option.bind_eq_some_iff.mp (descend_cons ▸ hc)
      obtain rfl := r.enter_eq hfile ha (hts y List.mem_cons_self) hy hy'
      have hone : V.descend [y] a = some a₁ := by
        rw [descend_cons, hy]
        rfl
      refine ih ?_ (fun z hz => hts z (List.mem_cons_of_mem _ hz)) hb hc
      exact descend_dirAt ha (by simpa using hts y List.mem_cons_self) hone
  obtain rfl := hwalk dirAt_zero (names_ne_dot newPath) hd hd'
  by_contra hne
  have hsame := r.find_other (u := t) hn.dirAt.1 hn.dirAt.2 fun heq => absurd heq hne
  rw [← ht, hsame, hn.2] at hfind
  cases hfind

end Relabels

/-- **A rename has moved the entry exactly when it is renamable.** -/
theorem Sound.moved_iff (h : V.Sound P) {oldPath newPath : Path}
    (hf : V.Finds oldPath dir i e) (hn : V.New newPath newDir t) :
    V.Moved (V.setSlot dir i (e.setName t)) oldPath newPath ↔ V.Renamable oldPath newPath := by
  have r := h.relabels hf hn
  obtain ⟨V', hV'⟩ : ∃ V', V' = V.setSlot dir i (e.setName t) := ⟨_, rfl⟩
  rw [← hV'] at r ⊢
  obtain ⟨o, ho, hfind⟩ := hf
  have hmatch := (find_live (resolve_dirAt ho.1).2 hfind).2.2.2
  constructor
  · intro hm
    obtain ⟨dir', i', e', d, j, x, ⟨o', ho', hfind'⟩, hx, -, hfc, -⟩ := hm.found
    obtain ⟨rfl, rfl⟩ := ho.det ho'
    obtain ⟨rfl, rfl⟩ := Prod.mk.inj (Option.some.inj (hfind.symm.trans hfind'))
    have hfree : t 0 ≠ dirFree := fun hfree => not_finds_of_dirFree hn.1 hfree d j x hx
    have hdir : newDir = dir' := by
      by_cases hed : e.IsDir
      · exact r.dir_eq_of_isDir h hed hfree ho hn.1 hx hfc
      · exact r.dir_eq_of_file hed hn hx
    subst hdir
    exact ⟨_, i, e, t, ⟨_, ho, hfind⟩, hn.1, hfree,
      (r.not_finds_old_iff h hn.2 ho hmatch).mp hm.gone⟩
  · rintro ⟨dir', i', e', t', ⟨o', ho', hfind'⟩, hn', hfree, honly⟩
    obtain ⟨rfl, rfl⟩ := ho.det ho'
    obtain ⟨rfl, rfl⟩ := Prod.mk.inj (Option.some.inj (hfind.symm.trans hfind'))
    obtain ⟨rfl, rfl⟩ := hn.1.det hn'
    refine ⟨⟨_, i, e, _, i, e.setName _, ⟨_, ho, hfind⟩, r.finds_new h hn.2 hn' hfree,
      e.fileSize_setName _, e.firstCluster_setName _, e.attr_setName _⟩,
      (r.not_finds_old_iff h hn.2 ho hmatch).mpr honly, fun p hpo hpn => ?_⟩
    exact r.others h hn.2 ho hmatch hn' hpo hpn

end Volume

/-- **A rename that returns true has moved the entry** exactly when both paths lead to names in one
directory, no second entry answers to the old name, and the new name does not begin with the
deletion mark. One that returns false has changed nothing. -/
theorem rename_moves_iff {s s' : Driver} {oldPath newPath : Path} {r : Bool} (hw : s.Working)
    (hwf : s.vol.WellFormed) (hr : (fat12Rename oldPath newPath).Returns s r s') :
    (r = false → s'.vol = s.vol) ∧
      (r = true → (s.vol.Moved s'.vol oldPath newPath ↔ s.vol.Renamable oldPath newPath)) := by
  obtain ⟨hren, -⟩ := renames_of_returns hr hw
  generalize s'.vol = W at hren ⊢
  cases hren with
  | missing | taken => exact ⟨fun _ => rfl, nofun⟩
  | done hf hn => exact ⟨nofun, fun _ => hwf.sound.moved_iff hf hn⟩

/-- The theorem at the renaming of `F` to `G` in the root directory. -/
theorem rename_moves_root : ∃ s', (fat12Rename [70] [71]).Returns
    (rootVolume [letterEntry 70 attrArch 0]).driver true s' ∧
      (rootVolume [letterEntry 70 attrArch 0]).Moved s'.vol [70] [71] := by
  have hrun : ((fat12Rename [70] [71]).run 30
      (rootVolume [letterEntry 70 attrArch 0]).driver).map (fun p => p.1) = some true := by
    decide +kernel
  obtain ⟨⟨r, s'⟩, hr, rfl⟩ := Option.map_eq_some_iff.mp hrun
  have hes : ∀ e ∈ [letterEntry 70 attrArch 0], e.Named → ¬ e.IsDir ∧ e.firstCluster = 0 := by
    intro e he _
    obtain rfl := List.mem_singleton.mp he
    exact ⟨by decide, by decide⟩
  have hfind : (rootVolume [letterEntry 70 attrArch 0]).find 0 (name83 [70]) =
      some (0, letterEntry 70 attrArch 0) := by
    apply (acts_findInDir (rootVolume [letterEntry 70 attrArch 0]) 0 (name83 [70])).eq_of_run
      (n := 20)
    decide +kernel
  refine ⟨s', ⟨30, hr⟩, ((rename_moves_iff (Volume.driver_working _) (rootVolume_wellFormed hes)
    ⟨30, hr⟩).2 rfl).mpr ?_⟩
  refine ⟨0, 0, _, name83 [71], ⟨name83 [70], Volume.names_component (by decide), hfind⟩,
    Volume.names_component (by decide), by decide, fun j x hx => ?_⟩
  obtain ⟨hj, -⟩ := rootVolume_live hx.1
  have hlt := (List.getElem?_eq_some_iff.mp hj).1
  simpa using hlt

/-- **A file renamed into another directory is lost**: `D/F` is renamed to `G`, the call returns
true, and nothing is found along the new path. -/
theorem rename_acrossDirectories : (nestedVolume attrArch).WellFormed ∧
    ∃ s', (fat12Rename [68, 47, 70] [71]).Returns (nestedVolume attrArch).driver true s' ∧
      ∀ d j x, ¬ s'.vol.Finds [71] d j x := by
  have hrun : ((do
      let b ← fat12Rename [68, 47, 70] [71]
      let r ← findInDir 0 (name83 [71])
      return (b, r.isNone) : Fat (Bool × Bool)).run 30 (nestedVolume attrArch).driver).map
        (fun p => p.1) = some (true, true) := by decide +kernel
  obtain ⟨⟨y, s₂⟩, hr, rfl⟩ := Option.map_eq_some_iff.mp hrun
  obtain ⟨b, s', hren, hrest⟩ := Exec.returns_bind.mp ⟨30, hr⟩
  obtain ⟨r, s'', hfind, hpure⟩ := Exec.returns_bind.mp hrest
  obtain ⟨heq, rfl⟩ := Exec.returns_pure.mp hpure
  obtain ⟨rfl, hnone⟩ := Prod.mk.inj heq
  obtain rfl := Option.isNone_iff_eq_none.mp hnone.symm
  refine ⟨nestedVolume_wellFormed (by decide), s', hren, ?_⟩
  obtain ⟨-, hw⟩ := renames_of_returns hren (Volume.driver_working _)
  obtain ⟨hempty, -⟩ := (acts_findInDir s'.vol 0 (name83 [71])).eq_of_returns hw rfl hfind
  exact Volume.New.not_finds ⟨Volume.names_component (by decide), hempty.symm⟩

end WarkRune.Fat12

import WarkRune.Fat12.Casing
import WarkRune.Fat12.Invalid
import WarkRune.Fat12.Subdir

/-!
# Listing a directory

`fat12_ls` looks up the directory a path names, and calls back for its entries. It takes the slot
number of the last name for a truth value: a directory in slot 0 counts as missing, and a missing
one counts as found, with an entry nobody has stored anything in. Entries with one of the four low
attribute bits set are passed over in the lookup and in the listing.

## Main definitions

* `Volume.Denotes`, `Volume.PathDir`: what a name stands for, and the directory a path names
* `Volume.Listing`: the calls of the callback for the live entries of a directory
* `Volume.LsExact`: what `fat12_ls` is to return for a path
* `Volume.Searched`: the lookup finds the directory behind slot 0, and skips none of its entries

## Main results

* `exists_seen`: the entries that the loop of `fat12_ls` calls back for
* `fat12Ls_exact_iff`: `fat12_ls` lists the live entries of the directory exactly under `Searched`
-/

namespace WarkRune.Fat12

/-- What the callback is called with for an entry. -/
def DirEntry.listed (e : DirEntry) : Listed := (from83 e.name, e.fileSize, decide e.IsDir)

namespace Volume

variable {V : Volume} {d i n : ℕ} {t : Name} {e : DirEntry} {path : Path}

/-! ## The directory a path names -/

/-- The name stands for the live entry `e`: the one that a search finds or, where it finds none, one
that it passes over. -/
def Denotes (V : Volume) (d : ℕ) (t : Name) (e : DirEntry) : Prop :=
  (∃ i, V.find d t = some (i, e)) ∨
    V.find d t = none ∧ ∃ i, V.Live d i e ∧ match83 e.name t = true

/-- The names lead from the directory `d` to the directory `d'`, one after the other. -/
def Leads (V : Volume) : List Name → ℕ → ℕ → Prop
  | [], d, d' => d' = d
  | t :: ts, d, d' => ∃ e, V.Denotes d t e ∧ e.IsDir ∧ Leads V ts e.firstCluster d'

/-- The names of a path. -/
def pathNames (path : Path) : List Name :=
  (splitPath path).1.map name83 ++
    if (splitPath path).2 = [] then [] else [name83 (splitPath path).2]

/-- The path names the directory `d`. A path without names is one of the root. -/
def PathDir (V : Volume) (path : Path) (d : ℕ) : Prop := V.Leads (pathNames path) 0 d

theorem denotes_iff_of_find (h : V.find d t = some (i, e)) {x : DirEntry} :
    V.Denotes d t x ↔ x = e := by
  constructor
  · rintro (⟨j, hj⟩ | ⟨hnone, -⟩)
    · rw [h] at hj
      exact (Prod.mk.inj (Option.some.inj hj)).2.symm
    · rw [h] at hnone
      cases hnone
  · rintro rfl
    exact .inl ⟨i, h⟩

/-- Where the directories of a path are found, they are the ones that are named. -/
theorem leads_of_descend {ts us : List Name} {d' : ℕ} (h : V.descend ts d = some d') {x : ℕ} :
    V.Leads (ts ++ us) d x ↔ V.Leads us d' x := by
  induction ts generalizing d with
  | nil =>
    obtain rfl := Option.some.inj h
    rfl
  | cons t ts ih =>
    obtain ⟨d₁, henter, hrest⟩ := Option.bind_eq_some_iff.mp (descend_cons ▸ h)
    obtain ⟨j, e, hfind, hdir, rfl⟩ := enter_eq_some.mp henter
    change (∃ e', V.Denotes d t e' ∧ e'.IsDir ∧ V.Leads (ts ++ us) e'.firstCluster x) ↔ _
    simp only [denotes_iff_of_find hfind, exists_eq_left, hdir, true_and]
    exact ih hrest

section Found

variable {dc : ℕ} (hr : V.descend ((splitPath path).1.map name83) 0 = some dc)
include hr

/-- A path that ends in a slash names the directory it leads to. -/
theorem pathDir_iff_of_slash (hl : (splitPath path).2 = []) : V.PathDir path d ↔ d = dc := by
  rw [PathDir, pathNames, if_pos hl, leads_of_descend hr]
  rfl

/-- A path whose last name is found names the entry, if it is that of a directory. -/
theorem pathDir_iff_of_find (hl : (splitPath path).2 ≠ [])
    (hf : V.find dc (name83 (splitPath path).2) = some (i, e)) :
    V.PathDir path d ↔ e.IsDir ∧ d = e.firstCluster := by
  rw [PathDir, pathNames, if_neg hl, leads_of_descend hr]
  change (∃ x, V.Denotes dc _ x ∧ x.IsDir ∧ d = x.firstCluster) ↔ _
  simp only [denotes_iff_of_find hf, exists_eq_left]

end Found

/-! ## The entries of a directory -/

/-- The calls of the callback for a directory: one for each live entry, in the order of the
slots. -/
def Listing (V : Volume) (d : ℕ) (L : List Listed) : Prop :=
  ∃ es : List (ℕ × DirEntry), es.Pairwise (·.1 < ·.1) ∧ (∀ j x, (j, x) ∈ es ↔ V.Live d j x) ∧
    L = es.map fun p => p.2.listed

/-- Every live entry of the directory is one the loop of `fat12_ls` gets to and does not skip. -/
def Listable (V : Volume) (d : ℕ) : Prop :=
  ∀ j x, V.Live d j x → ¬ x.Masked ∧ j < V.geo.maxEnts d

/-- **What the loop of `fat12_ls` calls back for**: the live entries of its slots that are not
masked. -/
theorem exists_seen (V : Volume) (d n : ℕ) {i : ℕ} (hi : V.Shown d i) :
    ∃ es : List (ℕ × DirEntry), V.listFrom d i n = (es.map fun p => p.2.listed) ∧
      es.Pairwise (·.1 < ·.1) ∧
      ∀ j x, (j, x) ∈ es ↔ (i ≤ j ∧ j < i + n) ∧ V.Live d j x ∧ ¬ x.Masked := by
  induction n generalizing i with
  | zero =>
    refine ⟨[], rfl, .nil, fun j x => iff_of_false List.not_mem_nil ?_⟩
    rintro ⟨hj, -⟩
    omega
  | succ n ih =>
    cases hs : V.slot d i with
    | none =>
      -- behind a slot that cannot be read there is none that can
      refine ⟨[], by rw [listFrom, hs]; rfl, .nil, fun j x => iff_of_false List.not_mem_nil ?_⟩
      rintro ⟨⟨hij, -⟩, hx, -⟩
      obtain ⟨y, hy⟩ := exists_slot_of_le hij (Option.isSome_of_mem hx.1)
      rw [hs] at hy
      cases hy
    | some e =>
      by_cases hend : e.name 0 = dirEnd
      · refine ⟨[], by rw [listFrom, hs]; simp only [hend, ↓reduceIte, List.map_nil], .nil,
          fun j x => iff_of_false List.not_mem_nil ?_⟩
        rintro ⟨⟨hij, -⟩, hx, -⟩
        -- an end marker is no live entry, and hides those behind it
        rcases hij.eq_or_lt with rfl | hlt
        · obtain rfl := Option.some.inj (hs.symm.trans hx.1)
          exact hx.2.1.1 hend
        · exact hx.2.2 i hlt e hs hend
      have hnext : V.Shown d (i + 1) := by
        intro j hj x hx
        rcases (Nat.lt_succ_iff.mp hj).lt_or_eq with hlt | rfl
        · exact hi j hlt x hx
        · exact Option.some.inj (hs.symm.trans hx) ▸ hend
      obtain ⟨es, hes, hsorted, hmem⟩ := ih hnext
      by_cases hskip : e.name 0 = dirFree ∨ e.Masked ∨ e.IsDot
      · -- what is skipped is masked or no live entry
        refine ⟨es, ?_, hsorted, fun j x => ?_⟩
        · rw [listFrom, hs]
          simp only [hend, hskip, ↓reduceIte, hes]
        · rw [hmem]
          refine and_congr_left fun hlast => ?_
          obtain ⟨hx, hm⟩ := hlast
          have hne : j ≠ i := by
            rintro rfl
            obtain rfl := Option.some.inj (hs.symm.trans hx.1)
            exact hskip.elim hx.2.1.2.1 fun h => h.elim hm hx.2.1.2.2.2
          omega
      · push Not at hskip
        obtain ⟨hfree, hmask, hdot⟩ := hskip
        have hlive : V.Live d i e := ⟨hs, ⟨hend, hfree, not_masked_label hmask, hdot⟩, hi⟩
        refine ⟨(i, e) :: es, ?_, List.pairwise_cons.mpr ⟨fun p hp => ?_, hsorted⟩, fun j x => ?_⟩
        · rw [listFrom, hs]
          simp only [hend, hfree, hmask, hdot, or_self, ↓reduceIte, hes, List.map_cons]
          rfl
        · exact Nat.lt_of_succ_le ((hmem p.1 p.2).mp hp).1.1
        · rw [List.mem_cons, hmem]
          constructor
          · rintro (heq | ⟨hj, hx⟩)
            · obtain ⟨rfl, rfl⟩ := Prod.mk.inj heq
              exact ⟨⟨le_rfl, by omega⟩, hlive, hmask⟩
            · exact ⟨⟨by omega, by omega⟩, hx⟩
          · rintro ⟨⟨hij, hj⟩, hx, hm⟩
            rcases hij.eq_or_lt with rfl | hlt
            · exact .inl (Prod.ext rfl (hlive.det hx))
            · exact .inr ⟨⟨hlt, by omega⟩, hx, hm⟩

/-- **The loop lists the live entries of the directory** exactly when it skips none of them. -/
theorem listing_iff : V.Listing d (V.listFrom d 0 (V.geo.maxEnts d)) ↔ V.Listable d := by
  obtain ⟨es, hes, hsorted, hmem⟩ := exists_seen V d (V.geo.maxEnts d)
    (i := 0) fun j hj => absurd hj (Nat.not_lt_zero j)
  constructor
  · rintro ⟨es', hsorted', hmem', heq⟩ j x hx
    have hnodup : es.Nodup := hsorted.imp fun hlt heq => hlt.ne (congrArg Prod.fst heq)
    have hsub : es ⊆ es' := fun p hp => (hmem' p.1 p.2).mpr ((hmem p.1 p.2).mp hp).2.1
    have hlen : es'.length ≤ es.length := by
      have := congrArg List.length (hes.symm.trans heq)
      rw [List.length_map, List.length_map] at this
      exact this.ge
    have hperm := (hnodup.subperm hsub).perm_of_length_le hlen
    have hin := (hmem j x).mp (hperm.mem_iff.mpr ((hmem' j x).mpr hx))
    exact ⟨hin.2.2, by omega⟩
  · intro hall
    refine ⟨es, hsorted, fun j x => ?_, hes⟩
    rw [hmem]
    constructor
    · rintro ⟨-, hx, -⟩
      exact hx
    · intro hx
      obtain ⟨hm, hj⟩ := hall j x hx
      exact ⟨⟨Nat.zero_le j, by omega⟩, hx, hm⟩

/-! ## What `fat12_ls` returns -/

/-- What `fat12_ls` is to return for the path: false if it names no directory, and otherwise true,
with the calls for the directory it names. -/
def LsExact (V : Volume) (path : Path) : Option (List Listed) → Prop
  | none => ∀ d, ¬ V.PathDir path d
  | some L => ∃ d, V.PathDir path d ∧ V.Listing d L

/-- The search for the directory that a path names comes to its end with the right answer: it fails
on the way only if no directory is named, finds the last name, and not a directory in slot 0, and
every entry of the directory is listed. -/
structure Searched (V : Volume) (path : Path) : Prop where
  way : V.resolve path = none → ∀ d, ¬ V.PathDir path d
  found : ∀ dir t, ¬ V.New path dir t
  slot : ∀ dir i e, V.Finds path dir i e → e.IsDir → i ≠ 0
  entries : ∀ d, V.PathDir path d → V.Listable d

/-- The result of `fat12_ls`. -/
def lsResult (V : Volume) (stack : DirEntry) (path : Path) : Option (List Listed) :=
  (V.lsDir stack path).map fun dir => V.listFrom dir 0 (V.geo.maxEnts dir)

/-- Empty paths and single slashes need no case of their own. -/
theorem lsDir_eq (V : Volume) (stack : DirEntry) (path : Path) : V.lsDir stack path =
    match V.resolve path with
    | none => none
    | some (dc, fn) =>
      if fn 0 = 0 then some dc
      else
        match V.find dc fn with
        | some (0, _) => none
        | some (_ + 1, e) => if e.IsDir then some e.firstCluster else none
        | none => if stack.IsDir then some stack.firstCluster else none := by
  by_cases hroot : cString path = [] ∨ cString path = [slash]
  · have hnil : splitPath [] = ([], []) := splitPath_end rfl rfl
    have hsplit : splitPath path = ([], []) := by
      rw [← splitPath_cString]
      rcases hroot with h | h
      · rw [h, hnil]
      · rw [h, splitPath_skip rfl (by decide), List.tail_cons, hnil]
    have hr : V.resolve path = some (0, rootName) := by
      rw [resolve_eq, hsplit]
      rfl
    rw [lsDir, if_pos hroot, hr]
    exact (if_pos rfl).symm
  · unfold lsDir
    exact if_neg hroot

section Dir

variable {stack : DirEntry} {dir : ℕ}

theorem lsDir_of_resolve (h : V.resolve path = none) : V.lsDir stack path = none := by
  rw [lsDir_eq, h]

theorem lsDir_of_slash (h : V.resolve path = some (dir, t)) (h0 : t 0 = 0) :
    V.lsDir stack path = some dir := by
  rw [lsDir_eq, h]
  exact if_pos h0

/-- For a name that is not found the entry on the stack is taken. -/
theorem lsDir_of_new (h : V.New path dir t) :
    V.lsDir stack path = if stack.IsDir then some stack.firstCluster else none := by
  rw [lsDir_eq, h.1.1]
  dsimp only
  rw [if_neg h.1.2, h.2]

/-- A directory in slot 0 is taken for a missing one. -/
theorem lsDir_of_finds (h : V.Finds path dir i e) :
    V.lsDir stack path = if i ≠ 0 ∧ e.IsDir then some e.firstCluster else none := by
  obtain ⟨t, hn, hf⟩ := h
  rw [lsDir_eq, hn.1]
  dsimp only
  rw [if_neg hn.2, hf]
  cases i with
  | zero => exact (if_neg fun h => h.1 rfl).symm
  | succ i => simp only [ne_eq, Nat.add_one_ne_zero, not_false_eq_true, true_and]

end Dir

/-- **Where a path leads**: to a directory, to a name that is not found, to an entry, or nowhere. -/
theorem resolve_cases (V : Volume) (path : Path) :
    V.resolve path = none ∨ (∃ dir t, V.resolve path = some (dir, t) ∧ t 0 = 0) ∨
      (∃ dir t, V.New path dir t) ∨ ∃ dir i e, V.Finds path dir i e := by
  cases hr : V.resolve path with
  | none => exact .inl rfl
  | some r =>
    obtain ⟨dir, t⟩ := r
    by_cases h0 : t 0 = 0
    · exact .inr (.inl ⟨dir, t, rfl, h0⟩)
    · cases hf : V.find dir t with
      | none => exact .inr (.inr (.inl ⟨dir, t, ⟨hr, h0⟩, hf⟩))
      | some r => exact .inr (.inr (.inr ⟨dir, r.1, r.2, t, ⟨hr, h0⟩, hf⟩))

/-- **`fat12_ls` lists exactly the live entries** of the directory a path names, whatever was left
on the stack, if and only if the search comes to its end with the right answer. -/
theorem lsExact_iff (V : Volume) (path : Path) :
    (∀ stack, V.LsExact path (V.lsResult stack path)) ↔ V.Searched path := by
  rcases V.resolve_cases path with hr | ⟨dir, t, hr, h0⟩ | ⟨dir, t, hn⟩ | ⟨dir, i, e, hf⟩
  · simp only [lsResult, lsDir_of_resolve hr, Option.map_none, LsExact, forall_const]
    constructor
    · intro hno
      refine ⟨fun _ => hno, fun dir t hn => ?_, fun dir j x hx => ?_, fun x hx => absurd hx (hno x)⟩
      · cases hr.symm.trans hn.1.1
      · obtain ⟨t, hn, -⟩ := hx
        cases hr.symm.trans hn.1
    · exact fun h => h.way hr
  · have hnot : ∀ d u, ¬ V.Names path d u := by
      intro d u hn
      obtain ⟨-, rfl⟩ := Prod.mk.inj (Option.some.inj (hr.symm.trans hn.1))
      exact hn.2 h0
    obtain ⟨hdesc, rfl⟩ := resolve_eq_some.mp hr
    have hl : (splitPath path).2 = [] := by
      by_contra hl
      rw [lastName, if_neg hl] at h0
      exact name83_ne_zero _ h0
    simp only [lsResult, lsDir_of_slash hr h0, Option.map_some, LsExact, forall_const,
      pathDir_iff_of_slash hdesc hl, exists_eq_left, listing_iff]
    constructor
    · intro hall
      refine ⟨fun hnone => ?_, fun d u hn => hnot d u hn.1, fun d j x hx => ?_, fun x hx => ?_⟩
      · cases hr.symm.trans hnone
      · obtain ⟨u, hn, -⟩ := hx
        exact absurd hn (hnot d u)
      obtain rfl := (pathDir_iff_of_slash hdesc hl).mp hx
      exact hall
    · exact fun h => h.entries dir ((pathDir_iff_of_slash hdesc hl).mpr rfl)
  · -- what is on the stack decides
    refine iff_of_false (fun h => ?_) fun h => h.found dir t hn
    have hfile := h DirEntry.zero
    have hroot := h (DirEntry.zero.setAttr attrDir)
    rw [lsResult, lsDir_of_new hn, if_neg (by decide)] at hfile
    rw [lsResult, lsDir_of_new hn, if_pos (by decide)] at hroot
    obtain ⟨x, hx, -⟩ := hroot
    exact hfile x hx
  · have hfinds := hf
    obtain ⟨t, hn, hfind⟩ := hf
    obtain ⟨hdesc, hl, rfl⟩ := names_iff.mp hn
    have hpath : ∀ {x}, V.PathDir path x ↔ e.IsDir ∧ x = e.firstCluster :=
      pathDir_iff_of_find hdesc hl hfind
    have hway : V.resolve path ≠ none := fun hnone => by cases hn.1.symm.trans hnone
    have hnew : ∀ d u, ¬ V.New path d u := fun d u hnew => hnew.not_finds dir i e hfinds
    simp only [lsResult, lsDir_of_finds hfinds]
    split_ifs with hc
    · obtain ⟨hi, hd⟩ := hc
      simp only [Option.map_some, LsExact, forall_const, hpath, hd, true_and, exists_eq_left,
        listing_iff]
      constructor
      · intro hall
        refine ⟨fun hnone => absurd hnone hway, hnew, fun d j x hx _ => ?_, fun x hx => ?_⟩
        · obtain ⟨-, rfl, -⟩ := hfinds.det hx
          exact hi
        · obtain ⟨-, rfl⟩ := hpath.mp hx
          exact hall
      · exact fun h => h.entries _ (hpath.mpr ⟨hd, rfl⟩)
    · simp only [Option.map_none, LsExact, forall_const, hpath]
      constructor
      · intro hno
        have hfile : ¬ e.IsDir := fun hd => hno e.firstCluster ⟨hd, rfl⟩
        refine ⟨fun hnone => absurd hnone hway, hnew, fun d j x hx hd => ?_,
          fun x hx => absurd (hpath.mp hx).1 hfile⟩
        obtain ⟨-, -, rfl⟩ := hfinds.det hx
        exact absurd hd hfile
      · rintro h x ⟨hd, -⟩
        exact hc ⟨h.slot dir i e hfinds hd, hd⟩

end Volume

/-- **`fat12_ls` is exact** if and only if it finds the directory of the path by searches that skip
nothing on the way, behind slot 0, and skips none of its entries: it returns true for the paths that
name a directory and calls back once for each live entry of it, in the order of the slots. -/
theorem fat12Ls_exact_iff {s : Driver} {path : Path} (hw : s.Working) :
    (∀ stack, ∃ r s', (fat12Ls stack path).Returns s r s' ∧ s'.vol = s.vol ∧
      s.vol.LsExact path r) ↔ s.vol.Searched path := by
  rw [← Volume.lsExact_iff]
  apply forall_congr'
  intro stack
  constructor
  · rintro ⟨r, s', hr, -, hex⟩
    obtain ⟨rfl, -⟩ := (acts_fat12Ls s.vol stack path).eq_of_returns hw rfl hr
    exact hex
  · intro hex
    obtain ⟨s', hr, hv, -⟩ := acts_fat12Ls s.vol stack path s hw rfl
    exact ⟨_, s', hr, hv, hex⟩

/-- The theorem at the root directory with one file. -/
theorem fat12Ls_exact_root : (rootVolume [letterEntry 70 attrArch 0]).Searched [slash] ∧
    ∀ stack, ∃ r s',
      (fat12Ls stack [slash]).Returns (rootVolume [letterEntry 70 attrArch 0]).driver r s' ∧
        s'.vol = (rootVolume [letterEntry 70 attrArch 0]).driver.vol ∧
          (rootVolume [letterEntry 70 attrArch 0]).LsExact [slash] r := by
  suffices hsearched : (rootVolume [letterEntry 70 attrArch 0]).Searched [slash] from
    ⟨hsearched, (fat12Ls_exact_iff (Volume.driver_working _)).mpr hsearched⟩
  have hsplit : splitPath [slash] = ([], []) := by
    rw [splitPath_skip rfl (by decide), List.tail_cons, splitPath_end rfl rfl]
  have hl : (splitPath [slash]).2 = [] := by rw [hsplit]
  have hnot : ∀ d u, ¬ (rootVolume [letterEntry 70 attrArch 0]).Names [slash] d u :=
    fun d u hn => (Volume.names_iff.mp hn).2.1 hl
  refine ⟨fun hno => ?_, fun dir t hn => hnot dir t hn.1,
    fun dir i e ⟨t, hn, _⟩ => absurd hn (hnot dir t), fun d hd j x hx => ?_⟩
  · rw [Volume.resolve_eq, hsplit] at hno
    cases hno
  · obtain rfl := (Volume.pathDir_iff_of_slash (by rw [hsplit]; rfl) hl).mp hd
    have hj : (rootVolume [letterEntry 70 attrArch 0]).slot 0 j = some x := hx.1
    rw [rootVolume_slot] at hj
    split_ifs at hj with hlt
    obtain ⟨hmem, -⟩ := rootVolume_live hx
    obtain rfl := List.mem_singleton.mp (List.mem_of_getElem? hmem)
    exact ⟨by decide, hlt⟩

/-- **A directory in slot 0 of the root directory cannot be listed**: the path names it, and
`fat12_ls` returns false. -/
theorem ls_slotZero : (subdirVolume 0).WellFormed ∧ (subdirVolume 0).PathDir [68] 2 ∧
    ∀ stack, ∃ s', (fat12Ls stack [68]).Returns (subdirVolume 0).driver none s' := by
  have hfind : (subdirVolume 0).find 0 (name83 [68]) = some (0, letterEntry 68 attrDir 2) := by
    apply (acts_findInDir (subdirVolume 0) 0 (name83 [68])).eq_of_run (n := 20)
    decide +kernel
  have hsplit : splitPath [68] = ([], [68]) := splitPath_component (by decide)
  refine ⟨subdirVolume_wellFormed (by decide), ?_, fun stack => ?_⟩
  · have hroot : (subdirVolume 0).descend ((splitPath [68]).1.map name83) 0 = some 0 := by
      rw [hsplit]
      rfl
    have hlast : (subdirVolume 0).find 0 (name83 (splitPath [68]).2) =
        some (0, letterEntry 68 attrDir 2) := by
      rw [hsplit]
      exact hfind
    have hne : (splitPath [68]).2 ≠ [] := by
      rw [hsplit]
      exact List.cons_ne_nil _ _
    exact (Volume.pathDir_iff_of_find hroot hne hlast).mpr ⟨by decide, by decide⟩
  · have hf : (subdirVolume 0).Finds [68] 0 0 (letterEntry 68 attrDir 2) :=
      ⟨name83 [68], Volume.names_component (by decide), hfind⟩
    obtain ⟨s', hr, -⟩ := acts_fat12Ls (subdirVolume 0) stack [68] (subdirVolume 0).driver
      (Volume.driver_working _) rfl
    rw [Volume.lsDir_of_finds hf] at hr
    exact ⟨s', hr⟩

end WarkRune.Fat12

import WarkRune.Fat12.Chains
import WarkRune.Fat12.Init
import WarkRune.Fat12.Outcome
import WarkRune.Links.Reach

/-!
# The directory tree

Live entries are those in front of the end marker that are neither deleted, nor labels or parts
of long names, nor dot entries. A volume is sound when the live entries of the directories that
the root leads to own chains that do not meet.

## Main definitions

* `DirEntry.Named`, `Volume.Live`: the entries that name a file or directory
* `Volume.DirAt`: the directories the root leads to
* `Volume.Heads`, `Volume.Sound`: what the live entries own
* `Volume.ZeroTail`: the slots behind an end marker are zero

## Main results

* `Sound.dirChain`, `Sound.apart`: the directories have chains, and these do not meet
* `Volume.resolve_dirAt`, `Volume.find_live`: what path resolution and search find
* `Volume.slot_setSlot`, `Volume.slot_linkAfter`: what storing a slot and extending a directory
  change
-/

namespace WarkRune.Fat12

/-! ## Live entries -/

/-- The entry names a file or directory: it is no end marker, not deleted, neither a volume label
nor a part of a long name (these carry the bit 0x08), and no dot entry. -/
def DirEntry.Named (e : DirEntry) : Prop :=
  e.name 0 ≠ dirEnd ∧ e.name 0 ≠ dirFree ∧ e.attr &&& 0x08 = 0 ∧ ¬ e.IsDot

instance (e : DirEntry) : Decidable e.Named := inferInstanceAs (Decidable (_ ∧ _))

theorem DirEntry.zero_not_named : ¬ DirEntry.zero.Named := fun h => h.1 rfl

namespace Volume

variable (V : Volume)

/-- No slot before `i` of the directory is an end marker. -/
def Shown (dir i : ℕ) : Prop := ∀ j < i, ∀ e, V.slot dir j = some e → e.name 0 ≠ dirEnd

/-- The live entry `e` lies in slot `i` of the directory. -/
def Live (dir i : ℕ) (e : DirEntry) : Prop := V.slot dir i = some e ∧ e.Named ∧ V.Shown dir i

/-- The directory `d` has a live entry for the directory `x`. -/
def Child (d x : ℕ) : Prop := ∃ i e, V.Live d i e ∧ e.IsDir ∧ e.firstCluster = x

/-- The root leads to the directory `d`. -/
def DirAt (d : ℕ) : Prop := Relation.ReflTransGen V.Child 0 d

/-- The live entry in a slot of a directory that the root leads to starts a chain at `c`. -/
def Heads (p : ℕ × ℕ) (c : ℕ) : Prop :=
  V.DirAt p.1 ∧ ∃ e, V.Live p.1 p.2 e ∧ e.firstCluster = c ∧ c ≠ 0

/-- The owners of chains: the live entries, and what `P` adds to them. -/
def Owners (P : ℕ → ℕ → Prop) : (ℕ × ℕ) ⊕ ℕ → ℕ → Prop
  | .inl p => V.Heads p
  | .inr k => P k

/-- The owners have chains that do not meet, and every directory has one. -/
structure Sound (P : ℕ → ℕ → Prop) : Prop where
  laid : V.geo.Laid
  owned : Links.Owned V.fat (· ≥ fat12Eoc) V.geo.InData (V.Owners P)
  head_ne : ∀ {d i e}, V.DirAt d → V.Live d i e → e.IsDir → e.firstCluster ≠ 0

/-- A well-formed volume: `fat12_init` accepts it, it has one or two FAT copies large enough for
every cluster, and its live entries own chains in range that do not meet. -/
structure WellFormed : Prop where
  accepted : V.geo.Accepted
  copies : V.geo.numFats = 1 ∨ V.geo.numFats = 2
  fatFits : V.geo.FatFits
  owned : Links.Owned V.fat (· ≥ fat12Eoc) V.geo.InData V.Heads
  head_ne : ∀ {d i e}, V.DirAt d → V.Live d i e → e.IsDir → e.firstCluster ≠ 0

/-- The slots behind an end marker are zero. -/
def ZeroTail : Prop :=
  ∀ d, V.DirAt d → ∀ i e, V.slot d i = some e → e.name 0 = dirEnd →
    ∀ j > i, ∀ x, V.slot d j = some x → x = .zero

/-- Every cluster that is not free lies on the chain of an owner. -/
def AllOwned (P : ℕ → ℕ → Prop) : Prop :=
  Links.Covered V.fat (· ≥ fat12Eoc) V.geo.InData (· = fat12Free) (V.Owners P)

/-- The clusters of the directory `d` are `l`; the root has none. -/
def DirChain (d : ℕ) (l : List ℕ) : Prop := d = 0 ∧ l = [] ∨ V.Chain d l

variable {V} {V' : Volume}

/-- There are no owners beside the live entries. -/
def noOthers : ℕ → ℕ → Prop := fun _ _ => False

theorem WellFormed.laid (h : V.WellFormed) : V.geo.Laid :=
  h.accepted.laid (by have := h.copies; omega) h.fatFits

/-- A well-formed volume is sound. -/
theorem WellFormed.sound (h : V.WellFormed) : V.Sound noOthers where
  laid := h.laid
  owned := by
    refine h.owned.transport (fun o => o.elim id fun _ => (0, 0)) ?_ ?_
    · rintro (p | k) c hc
      · exact hc
      · exact absurd hc id
    · rintro (p | j) (q | k) c d hc hd he
      · exact congrArg Sum.inl he
      · exact absurd hd id
      · exact absurd hc id
      · exact absurd hc id
  head_ne := h.head_ne

theorem dirAt_zero : V.DirAt 0 := .refl

theorem Live.dirAt {d i : ℕ} {e : DirEntry} (h : V.Live d i e) (hd : V.DirAt d) (he : e.IsDir) :
    V.DirAt e.firstCluster :=
  hd.tail ⟨i, e, h, he, rfl⟩

theorem Live.det {d i : ℕ} {e f : DirEntry} (h : V.Live d i e) (h' : V.Live d i f) : f = e :=
  Option.some.inj (h'.1.symm.trans h.1)

/-- A directory other than the root is the head of a live entry. -/
theorem exists_parent {d : ℕ} (hd : V.DirAt d) (h0 : d ≠ 0) :
    ∃ p e, V.Heads p d ∧ V.Live p.1 p.2 e ∧ e.IsDir ∧ e.firstCluster = d := by
  obtain ⟨q, hq, i, e, he, hdir, rfl⟩ := Links.exists_edge hd h0
  exact ⟨(q, i), e, ⟨hq, e, he, rfl, h0⟩, he, hdir, rfl⟩

namespace Sound

variable {P : ℕ → ℕ → Prop} (h : V.Sound P)
include h

/-- **A directory has a chain.** -/
theorem dirChain {d : ℕ} (hd : V.DirAt d) : ∃ l, V.DirChain d l := by
  by_cases h0 : d = 0
  · exact ⟨[], .inl ⟨h0, rfl⟩⟩
  · obtain ⟨p, e, hp, -⟩ := exists_parent hd h0
    obtain ⟨l, hl⟩ := h.owned.chain (i := .inl p) hp
    exact ⟨l, .inr hl⟩

/-- **The chains of different directories do not meet.** -/
theorem apart {d d' x : ℕ} {l l' : List ℕ} (hd : V.DirAt d) (hd' : V.DirAt d')
    (hl : V.DirChain d l) (hl' : V.DirChain d' l') (hx : x ∈ l) (hx' : x ∈ l') : d = d' := by
  rcases hl with ⟨-, rfl⟩ | hl
  · cases hx
  rcases hl' with ⟨-, rfl⟩ | hl'
  · cases hx'
  have h0 : d ≠ 0 := (hl.ok_of_mem hl.head_mem).ne_zero
  have h0' : d' ≠ 0 := (hl'.ok_of_mem hl'.head_mem).ne_zero
  obtain ⟨p, e, hp, he, -, rfl⟩ := exists_parent hd h0
  obtain ⟨q, f, hq, hf, -, rfl⟩ := exists_parent hd' h0'
  obtain rfl : p = q := Sum.inl.inj
    (h.owned.apart (i := .inl p) (j := .inl q) ⟨_, l, hp, hl, hx⟩ ⟨_, l', hq, hl', hx'⟩)
  rw [he.det hf]

/-- The chain of an owner that is no directory does not meet the chain of a directory. -/
theorem dir_apart {o : (ℕ × ℕ) ⊕ ℕ} {x d : ℕ} {l : List ℕ}
    (ho : Links.OwnedBy V.fat (· ≥ fat12Eoc) V.geo.InData (V.Owners P) o x)
    (hf : ∀ p, o = .inl p → ∀ e, V.Live p.1 p.2 e → ¬ e.IsDir) (hd : V.DirAt d)
    (hl : V.DirChain d l) : x ∉ l := by
  intro hx
  rcases hl with ⟨-, rfl⟩ | hl
  · cases hx
  obtain ⟨q, f, hq, hlf, hdf, rfl⟩ :=
    exists_parent hd (hl.ok_of_mem hl.head_mem).ne_zero
  have hoq : o = .inl q := h.owned.apart ho ⟨_, l, hq, hl, hx⟩
  exact hf q hoq f hlf hdf

end Sound

theorem DirChain.not_free {d x : ℕ} {l : List ℕ} (h : V.DirChain d l) (hx : x ∈ l) :
    V.fat x ≠ fat12Free := by
  rcases h with ⟨-, rfl⟩ | h
  · cases hx
  · exact h.not_free hx

theorem DirChain.inData {d x : ℕ} {l : List ℕ} (h : V.DirChain d l) (hx : x ∈ l) :
    V.geo.InData x := by
  rcases h with ⟨-, rfl⟩ | h
  · cases hx
  · exact h.ok_of_mem hx

/-! ## Slots of a directory with a chain -/

section Slots

variable {d i : ℕ} {l : List ℕ}

/-- The place of a slot of a subdirectory. -/
theorem Chain.place (h : V.Chain d l) :
    V.place d i = (l[i / V.geo.perCluster]?).map fun c => .cluster c (i % V.geo.perCluster) := by
  have h0 : d ≠ 0 := (h.ok_of_mem h.head_mem).ne_zero
  rw [Volume.place, if_neg h0, h.walk]

theorem DirChain.hasPlace (hg : V.geo.Laid) (h : V.DirChain d l) {p : Place}
    (hp : V.place d i = some p) : V.geo.HasPlace p := by
  rcases h with ⟨rfl, rfl⟩ | h
  · rw [Volume.place, if_pos rfl] at hp
    split_ifs at hp with hi
    obtain rfl := Option.some.inj hp
    exact hi
  · rw [h.place] at hp
    obtain ⟨c, hc, rfl⟩ := Option.map_eq_some_iff.mp hp
    exact ⟨h.ok_of_mem (List.mem_of_getElem? hc), Nat.mod_lt _ (Geometry.perCluster_pos hg)⟩

/-- A slot of a directory lies in a cluster of the directory, or in the root directory. -/
theorem DirChain.inClusters (h : V.DirChain d l) {p : Place} (hp : V.place d i = some p)
    {S : Set ℕ} (hS : p.InClusters S) : ∃ x ∈ l, x ∈ S := by
  rcases h with ⟨rfl, rfl⟩ | h
  · rw [Volume.place, if_pos rfl] at hp
    split_ifs at hp
    obtain rfl := Option.some.inj hp
    cases hS
  · rw [h.place] at hp
    obtain ⟨c, hc, rfl⟩ := Option.map_eq_some_iff.mp hp
    exact ⟨c, List.mem_of_getElem? hc, hS⟩

/-- Different slots of directories whose chains do not meet lie in different places. -/
theorem DirChain.place_injective {d' j : ℕ} {l' : List ℕ} (h : V.DirChain d l)
    (h' : V.DirChain d' l') (hdis : ∀ x ∈ l, x ∈ l' → d = d') {p : Place}
    (hp : V.place d i = some p) (hp' : V.place d' j = some p) : d = d' ∧ i = j := by
  rcases h with ⟨rfl, rfl⟩ | h <;> rcases h' with ⟨rfl, rfl⟩ | h'
  · rw [Volume.place, if_pos rfl] at hp hp'
    split_ifs at hp hp'
    have := hp.trans hp'.symm
    exact ⟨rfl, by simpa using this⟩
  · rw [h'.place] at hp'
    obtain ⟨c, -, rfl⟩ := Option.map_eq_some_iff.mp hp'
    rw [Volume.place, if_pos rfl] at hp
    split_ifs at hp
    cases Option.some.inj hp
  · rw [h.place] at hp
    obtain ⟨c, -, rfl⟩ := Option.map_eq_some_iff.mp hp
    rw [Volume.place, if_pos rfl] at hp'
    split_ifs at hp'
    cases Option.some.inj hp'
  · rw [h.place] at hp
    rw [h'.place] at hp'
    obtain ⟨c, hc, rfl⟩ := Option.map_eq_some_iff.mp hp
    obtain ⟨c', hc', he⟩ := Option.map_eq_some_iff.mp hp'
    obtain ⟨rfl, hmod⟩ := Place.cluster.inj he
    obtain rfl := hdis c' (List.mem_of_getElem? hc) (List.mem_of_getElem? hc')
    obtain rfl := h.unique h'
    -- a chain is acyclic, so the cluster occurs in it once
    have hq : i / V.geo.perCluster = j / V.geo.perCluster := by
      obtain ⟨hi, hci⟩ := List.getElem?_eq_some_iff.mp hc
      obtain ⟨hj, hcj⟩ := List.getElem?_eq_some_iff.mp hc'
      exact (h.nodup.getElem_inj_iff).mp (hci.trans hcj.symm)
    exact ⟨rfl, by rw [← Nat.div_add_mod i V.geo.perCluster, hq, ← hmod, Nat.div_add_mod]⟩

end Slots

section Changes

variable (hg : V.geo.Laid) {d : ℕ} {l : List ℕ}
include hg

/-- Chains, places and slots of a directory outside the frame are the same in both volumes. -/
theorem Frame.dirChain {F D : Set ℕ} (h : V.Frame V' F D) (hl : V.DirChain d l)
    (hF : ∀ x ∈ l, x ∉ F) (hD : ∀ x ∈ l, x ∉ D) :
    V'.DirChain d l ∧ ∀ i, V'.place d i = V.place d i ∧ V'.slot d i = V.slot d i := by
  have hl' : V'.DirChain d l := hl.imp_right fun hc => h.chain hc hF
  have hplace : ∀ i, V'.place d i = V.place d i := by
    intro i
    rcases hl with ⟨rfl, rfl⟩ | hc
    · rw [Volume.place, Volume.place, h.geo, if_pos rfl, if_pos rfl]
    · rw [hc.place, (h.chain hc hF).place, h.geo]
  refine ⟨hl', fun i => ⟨hplace i, ?_⟩⟩
  rw [slot_eq, slot_eq, hplace i]
  cases hp : V.place d i with
  | none => rfl
  | some p =>
    have hout : ¬ p.InClusters D := by
      intro hS
      obtain ⟨x, hx, hxD⟩ := hl.inClusters hp hS
      exact hD x hx hxD
    rw [Option.map_some, Option.map_some, h.entryAt (hl.hasPlace hg hp) hout]

/-- **Storing a slot of a directory changes that slot** and no other slot of a directory. -/
theorem slot_setSlot {d' i : ℕ} {l' : List ℕ} {e : DirEntry} (hl : V.DirChain d l)
    (hi : (V.slot d i).isSome = true) (hl' : V.DirChain d' l')
    (hdis : ∀ x ∈ l, x ∈ l' → d = d') (j : ℕ) :
    (V.setSlot d i e).slot d' j = if d' = d ∧ j = i then some e else V.slot d' j := by
  obtain ⟨p, hp⟩ : ∃ p, V.place d i = some p := by
    rwa [slot_eq, Option.isSome_map, Option.isSome_iff_exists] at hi
  have hpp := hl.hasPlace hg hp
  have hplace : (V.setSlot d i e).place d' j = V.place d' j := by
    rcases hl' with ⟨rfl, rfl⟩ | hc
    · rw [Volume.place, Volume.place, setSlot_geo, if_pos rfl, if_pos rfl]
    · have hc' : (V.setSlot d i e).Chain d' l' :=
        Links.Chain.congr hc (fun x hx => fat_setSlot hg hp hpp (hc.ok_of_mem hx).2)
          fun x _ hx => by rwa [setSlot_geo]
      rw [hc'.place, hc.place, setSlot_geo]
  rw [slot_eq, slot_eq, hplace]
  cases hq : V.place d' j with
  | none =>
    rw [if_neg]
    · rfl
    · rintro ⟨rfl, rfl⟩
      rw [hp] at hq
      cases hq
  | some q =>
    rw [Option.map_some, Option.map_some, entryAt_setSlot hg hp hpp (hl'.hasPlace hg hq)]
    -- two slots at one place are the same slot
    by_cases hqp : q = p
    · subst hqp
      obtain ⟨rfl, rfl⟩ := hl.place_injective hl' hdis hp hq
      rw [if_pos rfl, if_pos ⟨rfl, rfl⟩]
    · rw [if_neg hqp, if_neg]
      rintro ⟨rfl, rfl⟩
      rw [hp] at hq
      exact hqp (Option.some.inj hq).symm

/-- A directory with a chain has the slots of its clusters. -/
theorem Chain.slot_isSome {i : ℕ} (hl : V.Chain d l) :
    (V.slot d i).isSome = true ↔ i < l.length * V.geo.perCluster := by
  rw [slot_eq, Option.isSome_map, hl.place, Option.isSome_map,
    ← Nat.div_lt_iff_lt_mul (Geometry.perCluster_pos hg)]
  simp

/-- Linking a free cluster after the last one of a chain extends the chain by it. -/
theorem Chain.linkAfter {c : ℕ} (hl : V.Chain d l) (hc : V.geo.InData c)
    (hfree : V.fat c = fat12Free) : (V.linkAfter (l.getLast hl.ne_nil) c).Chain d (l ++ [c]) := by
  have hcl : c ∉ l := fun hx => hl.not_free hx hfree
  have hlast := List.getLast_mem hl.ne_nil
  have hne : l.getLast hl.ne_nil ≠ c := fun h => hcl (h ▸ hlast)
  have hfr := frame_linkAfter hg (hl.ok_of_mem hlast).2 hc
  obtain ⟨hend, hlink⟩ := fat_linkAfter hg (hl.ok_of_mem hlast).2 hc hne
  -- the old links stay, as they are neither the last cluster nor the new one
  have happ : Links.Chain (V.linkAfter (l.getLast hl.ne_nil) c).fat (· ≥ fat12Eoc) V.geo.InData
      d (l ++ [c]) := by
    refine Links.Chain.append hl hcl hc hlink (Nat.not_le.mpr (hc.lt_eoc hg)) hend.ge ?_
    intro x hx hxl
    refine hfr.fat x (hl.ok_of_mem hx).2 ?_
    simp only [Set.mem_insert_iff, Set.mem_singleton_iff, not_or]
    exact ⟨hxl, fun h => hcl (h ▸ hx)⟩
  exact happ.congr (fun _ _ => rfl) fun x _ hx => by rwa [linkAfter_geo]

/-- **Extending a directory** adds the zeroed slots of the new cluster. -/
theorem slot_linkAfter {c : ℕ} (hl : V.Chain d l) (hc : V.geo.InData c)
    (hfree : V.fat c = fat12Free) (i : ℕ) :
    (V.linkAfter (l.getLast hl.ne_nil) c).slot d i =
      if i < l.length * V.geo.perCluster then V.slot d i
      else if i < (l.length + 1) * V.geo.perCluster then some .zero else none := by
  have hpos := Geometry.perCluster_pos hg
  have hcl : c ∉ l := fun hx => hl.not_free hx hfree
  have hlast := (hl.ok_of_mem (List.getLast_mem hl.ne_nil)).2
  have hfr := frame_linkAfter hg hlast hc
  have hl' := hl.linkAfter hg hc hfree
  have hgeo : (V.linkAfter (l.getLast hl.ne_nil) c).geo = V.geo := linkAfter_geo ..
  rw [slot_eq, hl'.place, hgeo]
  -- a slot of the old clusters, of the new one, or behind it
  by_cases hi : i / V.geo.perCluster < l.length
  · have hi' : i < l.length * V.geo.perCluster := (Nat.div_lt_iff_lt_mul hpos).mp hi
    rw [if_pos hi', List.getElem?_append_left hi, slot_eq, hl.place,
      List.getElem?_eq_getElem hi, Option.map_some, Option.map_some, Option.map_some]
    have hx := List.getElem_mem hi
    rw [hfr.entryAt (p := .cluster _ _) ⟨hl.ok_of_mem hx, Nat.mod_lt _ hpos⟩]
    exact fun hS => hcl (Set.mem_singleton_iff.mp hS ▸ hx)
  · have hi' : ¬ i < l.length * V.geo.perCluster := fun h => hi ((Nat.div_lt_iff_lt_mul hpos).mpr h)
    rw [if_neg hi', List.getElem?_append_right (Nat.le_of_not_lt hi)]
    by_cases hi₁ : i / V.geo.perCluster < l.length + 1
    · rw [if_pos ((Nat.div_lt_iff_lt_mul hpos).mp hi₁),
        show i / V.geo.perCluster - l.length = 0 by omega, List.getElem?_cons_zero,
        Option.map_some, Option.map_some]
      have hz := entryAt_zeroCluster
        (V := (V.fatSet c fat12Eoc).fatSet (l.getLast hl.ne_nil) c) (by simpa using hg)
        (c := c) (k := i % V.geo.perCluster) (by simpa using hc)
        (by simpa using Nat.mod_lt _ hpos)
      exact congrArg some hz
    · rw [if_neg fun h => hi₁ ((Nat.div_lt_iff_lt_mul hpos).mpr h), List.getElem?_eq_none]
      · rfl
      · simp only [List.length_cons, List.length_nil]
        omega

end Changes

end Volume

end WarkRune.Fat12

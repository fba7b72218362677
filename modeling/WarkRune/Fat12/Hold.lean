import WarkRune.Fat12.Update

/-!
# Gaining and losing clusters

An owner gains free clusters when its chain is extended, loses them when the chain is freed, and
hands them over when a directory slot records them.

## Main definitions

* `Volume.Holds V P o x`: the cluster `x` lies on the chain of the owner `o`

## Main results

* `Sound.replace`, `AllOwned.replace`: an owner's chain is replaced
* `Sound.hand`, `AllOwned.hand`: a chain is handed over to a directory slot
* `TakesSlot.keeps`: `alloc_dir_entry` extends a directory by free clusters
* `takeDir_keeps`: a free cluster becomes an empty directory
* `Frees.frame`: `fat_free_chain` frees the clusters of a chain and nothing else
-/

namespace WarkRune.Fat12

open Links (OwnedBy)

namespace Volume

variable {V V' : Volume} {P Q : ℕ → ℕ → Prop}

/-- The cluster `x` lies on the chain of the owner `o`. -/
abbrev Holds (V : Volume) (P : ℕ → ℕ → Prop) (o : (ℕ × ℕ) ⊕ ℕ) (x : ℕ) : Prop :=
  OwnedBy V.fat (· ≥ fat12Eoc) V.geo.InData (V.Owners P) o x

theorem Holds.not_free {o : (ℕ × ℕ) ⊕ ℕ} {x : ℕ} (h : V.Holds P o x) : V.fat x ≠ fat12Free :=
  OwnedBy.not_free (free_not_link V.geo) h

theorem Heads.det {p : ℕ × ℕ} {c c' : ℕ} (h : V.Heads p c) (h' : V.Heads p c') : c' = c := by
  obtain ⟨-, e, he, rfl, -⟩ := h
  obtain ⟨-, f, hf, rfl, -⟩ := h'
  rw [he.det hf]

/-- What the owner of one chain holds is that chain. -/
theorem holds_iff {o : (ℕ × ℕ) ⊕ ℕ} {c : ℕ} {l : List ℕ} (hc : V.Owners P o c)
    (hdet : ∀ c', V.Owners P o c' → c' = c) (hl : V.Chain c l) {x : ℕ} :
    V.Holds P o x ↔ x ∈ l := by
  constructor
  · rintro ⟨c', l', hc', hl', hx⟩
    obtain rfl := hdet c' hc'
    rwa [hl.unique hl']
  · exact fun hx => ⟨c, l, hc, hl, hx⟩

/-! ## Replacing a chain -/

section Replace

variable {o : (ℕ × ℕ) ⊕ ℕ} {old new : List ℕ}

/-- **An owner's chain is replaced** by clusters of it and free clusters. -/
theorem Sound.replace (h : V.Sound P) (hgeo : V'.geo = V.geo) (hlive : V.SameLive V')
    (hold : ∀ x ∈ old, V.Holds P o x) (hnew : ∀ x ∈ new, x ∈ old ∨ V.fat x = fat12Free)
    (hfat : ∀ x, V.geo.InData x → x ∉ old → x ∉ new → V'.fat x = V.fat x)
    (hother : ∀ k, .inr k ≠ o → ∀ c, Q k c → P k c)
    (hself : ∀ c, V'.Owners Q o c → V'.Chain c new) : V'.Sound Q where
  laid := by rw [hgeo]; exact h.laid
  owned := by
    rw [hgeo]
    refine h.owned.replace hold (fun x hx => (hnew x hx).imp_right fun hf i hi => ?_) hfat ?_ ?_
    · exact Holds.not_free hi hf
    · intro i hi c hc
      cases i with
      | inl p => exact hlive.heads.mp hc
      | inr k => exact hother k hi c hc
    · intro c hc
      rw [← hgeo]
      exact hself c hc
  head_ne hd he := h.head_ne (hlive.dirAt.mp hd) ((hlive _ (hlive.dirAt.mp hd) _ _).mp he)

theorem AllOwned.replace (hC : V.AllOwned P) (h : V.Sound P) (hgeo : V'.geo = V.geo)
    (hlive : V.SameLive V') (hold : ∀ x, V.Holds P o x ↔ x ∈ old)
    (hnew : ∀ x ∈ new, x ∈ old ∨ V.fat x = fat12Free)
    (hgone : ∀ x ∈ old, x ∈ new ∨ V'.fat x = fat12Free)
    (hfat : ∀ x, V.geo.InData x → x ∉ old → x ∉ new → V'.fat x = V.fat x)
    (hother : ∀ k, .inr k ≠ o → ∀ c, P k c → Q k c)
    (hself : new ≠ [] → ∃ c, V'.Owners Q o c ∧ V'.Chain c new) : V'.AllOwned Q := by
  unfold AllOwned
  rw [hgeo]
  refine Links.Covered.replace hC h.owned hold
    (fun x hx => (hnew x hx).imp_right fun hf i hi => ?_) hgone hfat ?_ ?_
  · exact Holds.not_free hi hf
  · intro i hi c hc
    cases i with
    | inl p => exact hlive.heads.mpr hc
    | inr k => exact hother k hi c hc
  · intro hne
    rw [← hgeo]
    exact hself hne

end Replace

/-! ## Handing a chain over -/

section Hand

variable {d i k c : ℕ} {e : DirEntry}

/-- **A chain is handed over** to a slot of the tree that records its first cluster. -/
theorem Sound.hand (h : V.Sound P) (r : V.Rewrites V' d i e) (hgeo : V'.geo = V.geo)
    (hfat : ∀ x ≤ V.geo.totalClusters + 1, V'.fat x = V.fat x) (hk : P k e.firstCluster)
    (hQ : ∀ j x, Q j x → P j x ∧ j ≠ k)
    (hsub : ∀ d', V'.DirAt d' → V.DirAt d' ∨ ∀ j x, ¬ V'.Live d' j x) : V'.Sound Q where
  laid := by rw [hgeo]; exact h.laid
  owned := by
    rw [hgeo]
    have hheads : ∀ p x, V'.Heads p x →
        p = (d, i) ∧ x = e.firstCluster ∨ p ≠ (d, i) ∧ V.Heads p x := by
      intro p x hx
      rcases hsub p.1 hx.1 with hd | hleaf
      · exact (r.heads_of hd hx).imp (fun ⟨hp, _, he, _⟩ => ⟨hp, he.symm⟩) id
      · obtain ⟨-, y, hy, -⟩ := hx
        exact absurd hy (hleaf p.2 y)
    -- what the slot owns now, `k` owned before
    refine (h.owned.transport (fun o => if o = .inl (d, i) then .inr k else o) ?_ ?_).congr
      fun o x hx => hfat x hx.proper.2
    · rintro (p | j) x hx
      · rcases hheads p x hx with ⟨rfl, rfl⟩ | ⟨hp, hx⟩
        · rw [if_pos rfl]
          exact hk
        · rw [if_neg fun he => hp (Sum.inl.inj he)]
          exact hx
      · rw [if_neg nofun]
        exact (hQ j x hx).1
    · rintro (p | j) (q | j') x y hx hy he
      · by_cases hp : p = (d, i) <;> by_cases hq : q = (d, i) <;> simp [hp, hq] at he ⊢
        exact he
      · by_cases hp : p = (d, i)
        · simp only [hp, ↓reduceIte, reduceCtorEq, Sum.inr.injEq] at he
          exact absurd he.symm (hQ j' y hy).2
        · simp [hp] at he
      · by_cases hq : q = (d, i)
        · simp only [hq, ↓reduceIte, reduceCtorEq, Sum.inr.injEq] at he
          exact absurd he (hQ j x hx).2
        · simp [hq] at he
      · simpa using he
  head_ne {d' j y} hd' hy hyd := by
    rcases hsub d' hd' with hd | hleaf
    · rw [r.live_iff hd] at hy
      split_ifs at hy
      · obtain ⟨rfl, -⟩ := hy
        obtain ⟨l, hl⟩ := h.owned.chain (i := .inr k) hk
        exact (hl.ok_of_mem hl.head_mem).ne_zero
      · exact h.head_ne hd hy hyd
    · exact absurd hy (hleaf j y)

theorem AllOwned.hand (hC : V.AllOwned P) (h : V.Sound P) (r : V.Rewrites V' d i e)
    (hgeo : V'.geo = V.geo) (hfat : ∀ x ≤ V.geo.totalClusters + 1, V'.fat x = V.fat x)
    (hk : ∀ x, P k x → x = e.firstCluster) (hQ : ∀ j x, P j x → j ≠ k → Q j x)
    (hn : e.Named) (h0 : e.firstCluster ≠ 0) (hdead : ∀ x, ¬ V.Heads (d, i) x)
    (hsup : ∀ d', V.DirAt d' → V'.DirAt d') : V'.AllOwned Q := by
  unfold AllOwned
  rw [hgeo]
  have hC' : Links.Covered V'.fat (· ≥ fat12Eoc) V.geo.InData (· = fat12Free) (V.Owners P) :=
    Links.Covered.congr (fun o x hx => hfat x hx.proper.2) hC h.owned
      fun x hx hf => by rwa [hfat x hx.2]
  refine hC'.transport fun o x hx => ?_
  cases o with
  | inl p =>
    refine ⟨.inl p, r.heads_other ?_ (hsup _ hx.1) hx⟩
    rintro rfl
    exact hdead x hx
  | inr j =>
    by_cases hj : j = k
    · subst hj
      refine ⟨.inl (d, i), ?_⟩
      rw [hk x hx]
      exact r.heads_self (hsup d r.dir) hn h0
    · exact ⟨.inr j, hQ j x hx hj⟩

/-- A change that keeps what the slot records keeps every cluster owned. -/
theorem AllOwned.rewrites (hC : V.AllOwned P) (h : V.Sound P) (r : V.Rewrites V' d i e)
    (hgeo : V'.geo = V.geo) (hfat : ∀ x ≤ V.geo.totalClusters + 1, V'.fat x = V.fat x)
    (hhead : ∀ x, V.Heads (d, i) x → e.Named ∧ e.firstCluster = x)
    (hsup : ∀ d', V.DirAt d' → V'.DirAt d') : V'.AllOwned P := by
  unfold AllOwned
  rw [hgeo]
  have hC' : Links.Covered V'.fat (· ≥ fat12Eoc) V.geo.InData (· = fat12Free) (V.Owners P) :=
    Links.Covered.congr (fun o x hx => hfat x hx.proper.2) hC h.owned
      fun x hx hf => by rwa [hfat x hx.2]
  refine hC'.transport fun o x hx => ⟨o, ?_⟩
  cases o with
  | inr j => exact hx
  | inl p =>
    by_cases hp : p = (d, i)
    · subst hp
      obtain ⟨hn, rfl⟩ := hhead x hx
      obtain ⟨-, -, -, -, h0⟩ := hx
      exact r.heads_self (hsup d r.dir) hn h0
    · exact r.heads_other hp (hsup _ hx.1) hx

end Hand

/-! ## Frames outside the directories -/

/-- A change of clusters that belong to no directory leaves the slots of the tree alone. -/
theorem Sound.slot_frame (h : V.Sound P) {F D : Set ℕ} (hf : V.Frame V' F D)
    (hout : ∀ d l, V.DirAt d → V.DirChain d l → ∀ x ∈ l, x ∉ F ∧ x ∉ D) {d : ℕ}
    (hd : V.DirAt d) (i : ℕ) : V'.slot d i = V.slot d i := by
  obtain ⟨l, hl⟩ := h.dirChain hd
  exact ((hf.dirChain h.laid hl (fun x hx => (hout d l hd hl x hx).1)
    fun x hx => (hout d l hd hl x hx).2).2 i).2

theorem ZeroTail.congr (hz : V.ZeroTail) (hlive : V.SameLive V')
    (hslot : ∀ d, V.DirAt d → ∀ i, V'.slot d i = V.slot d i) : V'.ZeroTail := by
  intro d hd i e he hend j hj x hx
  have hd' := hlive.dirAt.mp hd
  rw [hslot d hd'] at he hx
  exact hz d hd' i e he hend j hj x hx

end Volume

variable {V V' : Volume} {P Q : ℕ → ℕ → Prop}

/-! ## Taking a cluster for a new directory -/

/-- What `fat12_mkdir` has done once it has zeroed the new cluster. -/
theorem takeDir_frame (hg : V.geo.Laid) {c : ℕ} (hc : V.geo.InData c) :
    V.Frame (V.takeDir c) {c} {c} ∧ (V.takeDir c).Chain c [c] ∧
      ∀ i x, (V.takeDir c).slot c i = some x → x = .zero := by
  have hgeo : (V.fatSet c fat12Eoc).geo = V.geo := V.fatSet_geo c _
  have hg' : (V.fatSet c fat12Eoc).geo.Laid := by rwa [hgeo]
  have hc' : (V.fatSet c fat12Eoc).geo.InData c := by rwa [hgeo]
  have h₁ := Volume.frame_fatSet hg fat12Eoc hc.2
  have h₂ := Volume.frame_zeroCluster hg' hc'
  have hend : (V.takeDir c).fat c = fat12Eoc := by
    rw [Volume.takeDir, h₂.fat c hc'.2 (Set.notMem_empty c), Volume.fat_fatSet hg hc.2 hc.2,
      if_pos rfl]
    rfl
  have hchain : (V.takeDir c).Chain c [c] := .last (by simpa using hc) hend.ge
  refine ⟨(h₁.trans h₂).mono (by simp) (by simp), hchain, fun i x hx => ?_⟩
  rw [Volume.slot_eq, hchain.place, Volume.takeDir_geo, Option.map_map] at hx
  obtain ⟨y, hy, rfl⟩ := Option.map_eq_some_iff.mp hx
  obtain rfl : y = c := List.mem_singleton.mp (List.mem_of_getElem? hy)
  have hz := Volume.entryAt_zeroCluster hg' hc' (k := i % V.geo.perCluster)
    (by rw [hgeo]; exact Nat.mod_lt _ (Geometry.perCluster_pos hg))
  exact hz

/-- **A free cluster becomes an empty directory** that the owner `k` holds. -/
theorem takeDir_keeps (h : V.Sound P) {c k : ℕ} (hc : V.freeCluster = some c)
    (hP : ∀ x, ¬ P k x) :
    (∀ d, V.DirAt d → ∀ i, (V.takeDir c).slot d i = V.slot d i) ∧
      (V.takeDir c).Sound (Function.update P k (· = c)) ∧
      (V.AllOwned P → (V.takeDir c).AllOwned (Function.update P k (· = c))) := by
  obtain ⟨hcd, hfree⟩ := Volume.freeCluster_spec hc
  obtain ⟨hf, hchain, -⟩ := takeDir_frame h.laid hcd
  -- no directory has the cluster in its chain, as it was free
  have hslot : ∀ d, V.DirAt d → ∀ i, (V.takeDir c).slot d i = V.slot d i := by
    intro d hd i
    refine h.slot_frame hf (fun d l _ hl x hx => ?_) hd i
    have hxc : x ≠ c := fun he => hl.not_free hx (he ▸ hfree)
    exact ⟨hxc, hxc⟩
  have hlive := Volume.SameLive.of_slot hslot
  have hnew : ∀ x ∈ [c], x ∈ ([] : List ℕ) ∨ V.fat x = fat12Free := by
    intro x hx
    exact .inr (List.mem_singleton.mp hx ▸ hfree)
  have hfat : ∀ x, V.geo.InData x → x ∉ ([] : List ℕ) → x ∉ [c] →
      (V.takeDir c).fat x = V.fat x :=
    fun x hx _ hxc => hf.fat x hx.2 fun he => hxc (List.mem_singleton.mpr he)
  have hother : ∀ j, (.inr j : (ℕ × ℕ) ⊕ ℕ) ≠ .inr k → ∀ x,
      Function.update P k (· = c) j x ↔ P j x := by
    intro j hj x
    rw [Function.update_of_ne fun he => hj (congrArg _ he)]
  refine ⟨hslot, ?_, fun hC => ?_⟩
  · refine h.replace (o := .inr k) (V.takeDir_geo c) hlive (by simp) hnew hfat
      (fun j hj x => (hother j hj x).mp) fun x hx => ?_
    obtain rfl : x = c := by simpa [Volume.Owners] using hx
    exact hchain
  · refine hC.replace h (o := .inr k) (V.takeDir_geo c) hlive (fun x => ?_) hnew (by simp) hfat
      (fun j hj x => (hother j hj x).mpr) fun _ => ⟨c, ?_, hchain⟩
    · simp only [List.not_mem_nil, iff_false]
      rintro ⟨x, -, hx, -⟩
      exact hP x hx
    · simp [Volume.Owners]

/-! ## Extending a directory -/

/-- What extending a directory that is full leaves. -/
structure Extends (V V' : Volume) (dir c : ℕ) (l : List ℕ) : Prop where
  chain : V.Chain dir l
  free : V.geo.InData c ∧ V.fat c = fat12Free
  frame : V.Frame V' {l.getLast chain.ne_nil, c} {c}
  chain' : V'.Chain dir (l ++ [c])
  slot : ∀ i, V'.slot dir i = if i < l.length * V.geo.perCluster then V.slot dir i
    else if i < (l.length + 1) * V.geo.perCluster then some .zero else none
  full : V.freeSlot dir = none
  fds : V'.fds = V.fds

/-- `alloc_dir_entry` finds a slot, finds none and changes nothing, or extends the directory. -/
theorem TakesSlot.cases (h : V.Sound P) {dir : ℕ} {r : Option ℕ} (hd : V.DirAt dir)
    (ht : TakesSlot V dir r V') :
    (V' = V ∧ r = V.freeSlot dir) ∨
      ∃ c l, r = some subdirMaxEnts ∧ V.freeCluster = some c ∧ Extends V V' dir c l := by
  cases ht with
  | slot hs => exact .inl ⟨rfl, hs.symm⟩
  | rootFull hs | diskFull hs => exact .inl ⟨rfl, hs.symm⟩
  | @extend last c hs h0 hlast hc =>
    obtain ⟨l, hl⟩ := h.dirChain hd
    replace hl := hl.resolve_left fun hl => h0 hl.1
    obtain rfl := (hl.lastLink h.laid).det hlast
    obtain ⟨hcd, hfree⟩ := Volume.freeCluster_spec hc
    have hlt := (hl.ok_of_mem (List.getLast_mem hl.ne_nil)).2
    exact .inr ⟨c, l, rfl, hc, hl, ⟨hcd, hfree⟩, Volume.frame_linkAfter h.laid hlt hcd,
      hl.linkAfter h.laid hcd hfree, Volume.slot_linkAfter h.laid hl hcd hfree, hs,
      Volume.linkAfter_fds ..⟩

namespace Extends

variable {dir c : ℕ} {l : List ℕ} (hx : Extends V V' dir c l)
include hx

theorem slot_other (h : V.Sound P) (hd : V.DirAt dir) {d : ℕ} (hdd : V.DirAt d) (hne : d ≠ dir)
    (i : ℕ) : V'.slot d i = V.slot d i := by
  obtain ⟨m, hm⟩ := h.dirChain hdd
  have hlast : l.getLast hx.chain.ne_nil ∉ m := fun he =>
    hne (h.apart hdd hd hm (.inr hx.chain) he (List.getLast_mem _))
  have hc : c ∉ m := fun he => hm.not_free he hx.free.2
  refine ((hx.frame.dirChain h.laid hm (fun x hxm => ?_) fun x hxm => ?_).2 i).2
  · rintro (rfl | rfl)
    · exact hlast hxm
    · exact hc hxm
  · rintro rfl
    exact hc hxm

theorem sameLive (h : V.Sound P) (hd : V.DirAt dir) : V.SameLive V' := by
  intro d hdd i e
  by_cases hne : d = dir
  swap
  · simp only [Volume.Live, Volume.Shown, hx.slot_other h hd hdd hne]
  subst hne
  have hlt : ∀ {W : Volume}, (W = V ∨ W = V') → W.Live d i e → i < l.length * V.geo.perCluster := by
    rintro W (rfl | rfl) he
    · exact (hx.chain.slot_isSome h.laid).mp (by rw [he.1]; rfl)
    · by_contra hge
      have hs := he.1
      rw [hx.slot, if_neg hge] at hs
      split_ifs at hs
      exact DirEntry.zero_not_named (Option.some.inj hs ▸ he.2.1)
  have hslot : i < l.length * V.geo.perCluster → ∀ j ≤ i, V'.slot d j = V.slot d j :=
    fun hi j hj => by rw [hx.slot, if_pos (by omega)]
  constructor
  · intro he
    have hs := hslot (hlt (.inr rfl) he)
    exact ⟨by rw [← hs i le_rfl]; exact he.1, he.2.1,
      fun j hj => by rw [← hs j (by omega)]; exact he.2.2 j hj⟩
  · intro he
    have hs := hslot (hlt (.inl rfl) he)
    exact ⟨by rw [hs i le_rfl]; exact he.1, he.2.1,
      fun j hj => by rw [hs j (by omega)]; exact he.2.2 j hj⟩

theorem zeroTail (h : V.Sound P) (hd : V.DirAt dir) (hz : V.ZeroTail) : V'.ZeroTail := by
  intro d hdd i e he hend j hj x hjx
  have hdd := (hx.sameLive h hd).dirAt.mp hdd
  by_cases hne : d = dir
  swap
  · rw [hx.slot_other h hd hdd hne] at he hjx
    exact hz d hdd i e he hend j hj x hjx
  subst hne
  rw [hx.slot] at he hjx
  split_ifs at hjx with h₁
  · rw [if_pos (by omega)] at he
    exact hz d hdd i e he hend j hj x hjx
  · exact (Option.some.inj hjx).symm

theorem grow (h : V.Sound P) (hd : V.DirAt dir) :
    V'.Sound P ∧ (V.AllOwned P → V'.AllOwned P) := by
  have h0 := (hx.chain.ok_of_mem hx.chain.head_mem).ne_zero
  obtain ⟨p, e, hp, -⟩ := Volume.exists_parent hd h0
  have hlive := hx.sameLive h hd
  have hold : ∀ x, V.Holds P (.inl p) x ↔ x ∈ l := fun x =>
    Volume.holds_iff (o := .inl p) hp (fun c' => hp.det) hx.chain
  have hnew : ∀ x ∈ l ++ [c], x ∈ l ∨ V.fat x = fat12Free := by
    intro x hxl
    rcases List.mem_append.mp hxl with hxl | hxc
    · exact .inl hxl
    · exact .inr (List.mem_singleton.mp hxc ▸ hx.free.2)
  have hfat : ∀ x, V.geo.InData x → x ∉ l → x ∉ l ++ [c] → V'.fat x = V.fat x := by
    intro x hxd hxl hxc
    refine hx.frame.fat x hxd.2 ?_
    rintro (rfl | rfl)
    · exact hxl (List.getLast_mem _)
    · exact hxc (by simp)
  constructor
  · refine h.replace (o := .inl p) hx.frame.geo hlive (fun x => (hold x).mpr) hnew hfat
      (fun _ _ _ hk => hk) fun x hxo => ?_
    rw [hp.det (hlive.heads.mp hxo)]
    exact hx.chain'
  · intro hC
    exact hC.replace h (o := .inl p) hx.frame.geo hlive hold hnew
      (fun x hxl => .inl (List.mem_append_left _ hxl)) hfat (fun _ _ _ hk => hk)
      fun _ => ⟨dir, hlive.heads.mpr hp, hx.chain'⟩

end Extends

/-! ## Freeing a chain -/

/-- **`fat_free_chain` frees the clusters of a chain** and changes no other entry. -/
theorem Frees.frame (hg : V.geo.Laid) {c : ℕ} {l : List ℕ} (hl : V.Chain c l)
    (hf : Frees V c V') :
    V.Frame V' {x | x ∈ l} ∅ ∧ (∀ x ∈ l, V'.fat x = fat12Free) ∧ V'.fds = V.fds := by
  -- by induction on the chain, each link read before its cluster is freed
  induction l generalizing V c with
  | nil => exact absurd rfl hl.ne_nil
  | cons x l ih =>
    obtain rfl : c = x := by simpa using hl.head?_eq.symm
    have hc := hl.ok_of_mem hl.head_mem
    have hlt := hc.lt_bad hg
    have hset := Volume.frame_fatSet hg fat12Free hc.2
    have hgeo := hset.geo
    have hzero : (V.fatSet c fat12Free).fat c = fat12Free := by
      rw [Volume.fat_fatSet hg hc.2 hc.2, if_pos rfl]
      rfl
    cases hf with
    | stop hs => exact absurd ⟨hc.1, hlt⟩ hs
    | last _ he =>
      obtain ⟨-, rfl⟩ := List.cons.inj (hl.eq_singleton he)
      exact ⟨hset.mono (by simp) le_rfl, by simpa using hzero, V.fatSet_fds c _⟩
    | next _ he hr =>
      cases hl with
      | last _ hs => exact absurd hs (Nat.not_le.mpr he)
      | link hok hs hl' =>
        -- a chain has no cluster twice, so what is freed is not read again
        have hnd := (Links.Chain.link hok hs hl').nodup
        rw [List.nodup_cons] at hnd
        have hout : ∀ y ∈ l, y ∉ ({c} : Set ℕ) := fun y hy he => hnd.1 (he ▸ hy)
        obtain ⟨hfr, hz, hfds⟩ := ih (by rwa [hgeo]) (hset.chain hl' hout) hr
        refine ⟨(hset.trans hfr).mono ?_ (by simp), ?_, hfds.trans (V.fatSet_fds c _)⟩
        · rintro y (rfl | hy)
          · exact List.mem_cons_self
          · exact List.mem_cons_of_mem _ hy
        · intro y hy
          rcases List.mem_cons.mp hy with rfl | hy
          · rw [hfr.fat y (by rw [hgeo]; exact hc.2) fun hm => hnd.1 hm, hzero]
          · exact hz y hy

end WarkRune.Fat12

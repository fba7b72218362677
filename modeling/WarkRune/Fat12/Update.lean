import WarkRune.Fat12.Lookup

/-!
# Changes of the tree

An operation changes at most one entry of the tree: the rest of the live entries, the directories
they lead to and what they own stay as they are.

## Main definitions

* `Volume.SameLive V V'`: the directories of the tree have the same live entries
* `Volume.Rewrites V V' d i e`: slot `i` of the directory `d` holds `e`, the other slots of the
  tree are as they were

## Main results

* `SameLive.dirAt`, `SameLive.heads`: the tree is the same
* `Rewrites.live_iff`, `Rewrites.zeroTail`: the live entries after a change
* `Sound.rewrites`: a change that adds no head keeps the volume sound
-/

namespace WarkRune.Fat12

namespace Volume

variable {V V' V'' : Volume} {P Q : ℕ → ℕ → Prop}

/-! ## The same tree -/

/-- The directories of the tree have the same live entries. -/
def SameLive (V V' : Volume) : Prop := ∀ d, V.DirAt d → ∀ i e, V'.Live d i e ↔ V.Live d i e

theorem Child.of_live {d x : ℕ} (h : V.Child d x) (hl : ∀ i e, V.Live d i e → V'.Live d i e) :
    V'.Child d x := by
  obtain ⟨i, e, he, hd, hx⟩ := h
  exact ⟨i, e, hl i e he, hd, hx⟩

namespace SameLive

theorem dirAt (h : V.SameLive V') {d : ℕ} : V'.DirAt d ↔ V.DirAt d := by
  constructor
  · exact Links.reach_of_sub fun d hd x hx => hx.of_live fun i e => (h d hd i e).mp
  · exact Links.reach_of_sup fun d hd x hx => hx.of_live fun i e => (h d hd i e).mpr

theorem heads (h : V.SameLive V') {p : ℕ × ℕ} {c : ℕ} : V'.Heads p c ↔ V.Heads p c := by
  constructor
  · rintro ⟨hd, e, he, hc⟩
    have hd' := h.dirAt.mp hd
    exact ⟨hd', e, (h p.1 hd' p.2 e).mp he, hc⟩
  · rintro ⟨hd, e, he, hc⟩
    exact ⟨h.dirAt.mpr hd, e, (h p.1 hd p.2 e).mpr he, hc⟩

theorem owners (h : V.SameLive V') {o : (ℕ × ℕ) ⊕ ℕ} {c : ℕ} :
    V'.Owners P o c ↔ V.Owners P o c := by
  cases o with
  | inl p => exact h.heads
  | inr k => exact Iff.rfl

theorem trans (h : V.SameLive V') (h' : V'.SameLive V'') : V.SameLive V'' :=
  fun d hd i e => (h' d (h.dirAt.mpr hd) i e).trans (h d hd i e)

end SameLive

theorem SameLive.of_slot (h : ∀ d, V.DirAt d → ∀ i, V'.slot d i = V.slot d i) :
    V.SameLive V' := by
  intro d hd i e
  simp only [Live, Shown, h d hd]

/-- Where the FAT and the live entries are the same, soundness is. -/
theorem Sound.congr (h : V.Sound P) (hgeo : V'.geo = V.geo)
    (hfat : ∀ c ≤ V.geo.totalClusters + 1, V'.fat c = V.fat c) (hlive : V.SameLive V') :
    V'.Sound P where
  laid := by rw [hgeo]; exact h.laid
  owned := by
    rw [hgeo]
    refine (h.owned.transport id (fun o c hc => hlive.owners.mp hc) fun _ _ _ _ _ _ he => he).congr
      fun o x hx => hfat x hx.proper.2
  head_ne hd he := h.head_ne (hlive.dirAt.mp hd) ((hlive _ (hlive.dirAt.mp hd) _ _).mp he)

/-! ## One entry changed -/

/-- Slot `i` of the directory `d` holds `e`, and the other slots of the tree are as they were.
The slot was not behind an end marker, and no live entry appears behind it. -/
structure Rewrites (V V' : Volume) (d i : ℕ) (e : DirEntry) : Prop where
  dir : V.DirAt d
  slot : ∀ d', V.DirAt d' → ∀ j, V'.slot d' j = if d' = d ∧ j = i then some e else V.slot d' j
  end_ne : e.name 0 ≠ dirEnd
  shown : V.Shown d i
  tail : ∀ x, V.slot d i = some x → x.name 0 = dirEnd →
    ∀ j > i, ∀ y, V.slot d j = some y → ¬ y.Named

namespace Rewrites

variable {d i : ℕ} {e : DirEntry}

/-- **The live entries after a change.** -/
theorem live_iff (r : V.Rewrites V' d i e) {d' j : ℕ} {x : DirEntry} (hd' : V.DirAt d') :
    V'.Live d' j x ↔ if d' = d ∧ j = i then x = e ∧ e.Named else V.Live d' j x := by
  by_cases hdd : d' = d
  swap
  · rw [if_neg fun h => hdd h.1]
    simp only [Live, Shown, r.slot d' hd', hdd, false_and, ↓reduceIte]
  subst hdd
  have hother : ∀ k, k ≠ i → V'.slot d' k = V.slot d' k := fun k hk => by
    rw [r.slot d' hd', if_neg fun h => hk h.2]
  have hself : V'.slot d' i = some e := by rw [r.slot d' hd', if_pos ⟨rfl, rfl⟩]
  rcases Nat.lt_trichotomy j i with hj | rfl | hj
  · rw [if_neg fun h => by omega]
    have hsh : V'.Shown d' j ↔ V.Shown d' j :=
      ⟨fun h k hk => by rw [← hother k (by omega)]; exact h k hk,
        fun h k hk => by rw [hother k (by omega)]; exact h k hk⟩
    rw [Live, Live, hsh, hother j (by omega)]
  · rw [if_pos ⟨rfl, rfl⟩]
    have hsh : V'.Shown d' j := fun k hk => by rw [hother k (by omega)]; exact r.shown k hk
    rw [Live, hself]
    exact ⟨fun ⟨h, hn, _⟩ => ⟨(Option.some.inj h).symm, Option.some.inj h ▸ hn⟩,
      fun ⟨h, hn⟩ => ⟨h ▸ rfl, h ▸ hn, hsh⟩⟩
  · rw [if_neg fun h => by omega]
    constructor
    · rintro ⟨hx, hn, hsh⟩
      rw [hother j (by omega)] at hx
      refine ⟨hx, hn, fun k hk y hy => ?_⟩
      by_cases hki : k = i
      · subst hki
        exact fun hend => r.tail y hy hend j hj x hx hn
      · exact hsh k hk y (by rwa [hother k hki])
    · rintro ⟨hx, hn, hsh⟩
      refine ⟨by rwa [hother j (by omega)], hn, fun k hk y hy => ?_⟩
      by_cases hki : k = i
      · subst hki
        rw [hself] at hy
        exact Option.some.inj hy ▸ r.end_ne
      · exact hsh k hk y (by rwa [hother k hki] at hy)

theorem live_self (r : V.Rewrites V' d i e) (hn : e.Named) : V'.Live d i e :=
  (r.live_iff r.dir).mpr (by rw [if_pos ⟨rfl, rfl⟩]; exact ⟨rfl, hn⟩)

theorem live_other (r : V.Rewrites V' d i e) {d' j : ℕ} {x : DirEntry} (hd' : V.DirAt d')
    (hne : (d', j) ≠ (d, i)) : V'.Live d' j x ↔ V.Live d' j x := by
  rw [r.live_iff hd', if_neg fun h => hne (Prod.ext h.1 h.2)]

/-- Without a new directory, the tree has no new directories. -/
theorem dirAt_of (r : V.Rewrites V' d i e)
    (hdir : e.Named → e.IsDir → V.Child d e.firstCluster) {d' : ℕ} (hd' : V'.DirAt d') :
    V.DirAt d' := by
  refine Links.reach_of_sub (fun p hp x hx => ?_) hd'
  obtain ⟨j, y, hy, hyd, rfl⟩ := hx
  rw [r.live_iff hp] at hy
  split_ifs at hy with hpos
  · obtain ⟨rfl, rfl⟩ := hpos
    obtain ⟨rfl, hn⟩ := hy
    exact hdir hn hyd
  · exact ⟨j, y, hy, hyd, rfl⟩

/-- While the slot leads where it led, the tree keeps its directories. -/
theorem dirAt_keep (r : V.Rewrites V' d i e)
    (hkeep : ∀ x, V.Live d i x → x.IsDir →
      e.Named ∧ e.IsDir ∧ e.firstCluster = x.firstCluster) {d' : ℕ} (hd' : V.DirAt d') :
    V'.DirAt d' := by
  refine Links.reach_of_sup (fun p hp x hx => ?_) hd'
  obtain ⟨j, y, hy, hyd, rfl⟩ := hx
  by_cases hpos : (p, j) = (d, i)
  · obtain ⟨rfl, rfl⟩ := Prod.mk.inj hpos
    obtain ⟨hn, hed, he⟩ := hkeep y hy hyd
    exact ⟨j, e, r.live_self hn, hed, he⟩
  · exact ⟨j, y, (r.live_other hp hpos).mpr hy, hyd, rfl⟩

/-- A new directory without live entries is the only new directory of the tree. -/
theorem dirAt_add (r : V.Rewrites V' d i e) {c : ℕ}
    (hdir : e.Named → e.IsDir → e.firstCluster = c) (hleaf : ∀ j x, ¬ V'.Live c j x) {d' : ℕ}
    (hd' : V'.DirAt d') : V.DirAt d' ∨ d' = c := by
  refine Links.reach_of_add (fun p hp x hx => ?_) ?_ hd'
  · obtain ⟨j, y, hy, hyd, rfl⟩ := hx
    rw [r.live_iff hp] at hy
    split_ifs at hy with hpos
    · obtain ⟨rfl, hn⟩ := hy
      exact .inr (hdir hn hyd)
    · exact .inl ⟨j, y, hy, hyd, rfl⟩
  · rintro x ⟨j, y, hy, -⟩
    exact hleaf j y hy

/-- What a slot of the tree owns after the change. -/
theorem heads_of (r : V.Rewrites V' d i e) {p : ℕ × ℕ} {c : ℕ} (hd : V.DirAt p.1)
    (h : V'.Heads p c) :
    p = (d, i) ∧ e.Named ∧ e.firstCluster = c ∧ c ≠ 0 ∨ p ≠ (d, i) ∧ V.Heads p c := by
  obtain ⟨-, y, hy, rfl, h0⟩ := h
  rw [r.live_iff hd] at hy
  split_ifs at hy with hpos
  · obtain ⟨rfl, hn⟩ := hy
    exact .inl ⟨Prod.ext hpos.1 hpos.2, hn, rfl, h0⟩
  · refine .inr ⟨fun he => hpos ?_, hd, y, hy, rfl, h0⟩
    exact ⟨congrArg Prod.fst he, congrArg Prod.snd he⟩

theorem heads_other (r : V.Rewrites V' d i e) {p : ℕ × ℕ} {c : ℕ} (hp : p ≠ (d, i))
    (hd : V'.DirAt p.1) (h : V.Heads p c) : V'.Heads p c := by
  obtain ⟨hdp, y, hy, hc⟩ := h
  exact ⟨hd, y, (r.live_other hdp hp).mpr hy, hc⟩

theorem heads_self (r : V.Rewrites V' d i e) (hd : V'.DirAt d) (hn : e.Named)
    (h0 : e.firstCluster ≠ 0) : V'.Heads (d, i) e.firstCluster :=
  ⟨hd, e, r.live_self hn, rfl, h0⟩

/-- The slots behind end markers stay zero. -/
theorem zeroTail (r : V.Rewrites V' d i e) (hz : V.ZeroTail)
    (hsub : ∀ d', V'.DirAt d' → V.DirAt d' ∨ ∀ j x, V'.slot d' j = some x → x = .zero) :
    V'.ZeroTail := by
  intro d' hd' j y hy hend k hk x hx
  rcases hsub d' hd' with hd | hzero
  swap
  · exact hzero k x hx
  rw [r.slot d' hd] at hy hx
  split_ifs at hy with hj
  · exact absurd hend (Option.some.inj hy ▸ r.end_ne)
  split_ifs at hx with hki
  · obtain ⟨rfl, rfl⟩ := hki
    exact absurd hend (r.shown j hk y hy)
  · exact hz d' hd j y hy hend k hk x hx

end Rewrites

section SetSlot

variable {d i : ℕ} {e : DirEntry} (h : V.Sound P) (hd : V.DirAt d)
include h hd

theorem Sound.fat_setSlot {c : ℕ} (hc : c ≤ V.geo.totalClusters + 1) :
    (V.setSlot d i e).fat c = V.fat c := by
  obtain ⟨l, hl⟩ := h.dirChain hd
  cases hp : V.place d i with
  | none => rw [setSlot_of_none (V.slotLoc_eq_none.mpr hp)]
  | some p => exact Volume.fat_setSlot h.laid hp (hl.hasPlace h.laid hp) hc

/-- Storing an entry in a slot of a directory changes no other slot of the tree. -/
theorem Sound.slot_stored (hs : (V.slot d i).isSome = true) {d' : ℕ} (hd' : V.DirAt d') (j : ℕ) :
    (V.setSlot d i e).slot d' j = if d' = d ∧ j = i then some e else V.slot d' j := by
  obtain ⟨l, hl⟩ := h.dirChain hd
  obtain ⟨l', hl'⟩ := h.dirChain hd'
  exact slot_setSlot h.laid hl hs hl' (fun x hx hx' => h.apart hd hd' hl hl' hx hx') j

/-- **Storing an entry in a slot of the tree** changes that entry of the tree. -/
theorem Sound.rewrites_setSlot (hs : (V.slot d i).isSome = true) (hend : e.name 0 ≠ dirEnd)
    (hshown : V.Shown d i)
    (htail : ∀ x, V.slot d i = some x → x.name 0 = dirEnd →
      ∀ j > i, ∀ y, V.slot d j = some y → ¬ y.Named) :
    V.Rewrites (V.setSlot d i e) d i e where
  dir := hd
  slot _ hd' j := h.slot_stored hd hs hd' j
  end_ne := hend
  shown := hshown
  tail := htail

/-- Storing an entry in the slot of a live entry. -/
theorem Sound.rewrites_live {x : DirEntry} (hx : V.Live d i x) (hend : e.name 0 ≠ dirEnd) :
    V.Rewrites (V.setSlot d i e) d i e :=
  h.rewrites_setSlot hd (by rw [hx.1]; rfl) hend hx.2.2 fun y hy hyend => by
    rw [hx.1] at hy
    exact absurd hyend (Option.some.inj hy ▸ hx.2.1.1)

/-- Storing an entry in the slot that `alloc_dir_entry` finds. -/
theorem Sound.rewrites_freeSlot (hz : V.ZeroTail) (hf : V.freeSlot d = some i)
    (hend : e.name 0 ≠ dirEnd) : V.Rewrites (V.setSlot d i e) d i e := by
  obtain ⟨-, ⟨x, hx, -⟩, hpre⟩ := freeSlot_spec hf
  refine h.rewrites_setSlot hd (by rw [hx]; rfl) hend (fun j hj y hy => ?_) ?_
  · obtain ⟨z, hz, hzend, -⟩ := hpre j hj
    rw [hz] at hy
    exact Option.some.inj hy ▸ hzend
  · intro y hy hyend j hj z hz'
    rw [hz d hd i y hy hyend j hj z hz']
    exact DirEntry.zero_not_named

end SetSlot

/-- **A change that adds no head keeps the volume sound.** -/
theorem Sound.rewrites {d i : ℕ} {e : DirEntry} (h : V.Sound P) (r : V.Rewrites V' d i e)
    (hgeo : V'.geo = V.geo) (hfat : ∀ c ≤ V.geo.totalClusters + 1, V'.fat c = V.fat c)
    (hdir : e.Named → e.IsDir → V.Child d e.firstCluster)
    (hhead : e.Named → e.firstCluster ≠ 0 → V.Heads (d, i) e.firstCluster) : V'.Sound P where
  laid := by rw [hgeo]; exact h.laid
  owned := by
    rw [hgeo]
    refine (h.owned.transport id (fun o c hc => ?_) fun _ _ _ _ _ _ he => he).congr
      fun o x hx => hfat x hx.proper.2
    cases o with
    | inr k => exact hc
    | inl p =>
      rcases r.heads_of (r.dirAt_of hdir hc.1) hc with ⟨rfl, hn, rfl, h0⟩ | ⟨-, hp⟩
      · exact hhead hn h0
      · exact hp
  head_ne {d' j y} hd' hy hyd := by
    have hd := r.dirAt_of hdir hd'
    rw [r.live_iff hd] at hy
    split_ifs at hy with hpos
    · obtain ⟨rfl, hn⟩ := hy
      obtain ⟨k, z, hz, hzd, he⟩ := hdir hn hyd
      rw [← he]
      exact h.head_ne r.dir hz hzd
    · exact h.head_ne hd hy hyd

end Volume

end WarkRune.Fat12

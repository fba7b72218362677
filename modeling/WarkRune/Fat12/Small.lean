import WarkRune.Fat12.Build
import WarkRune.Fat12.Lookup

/-!
# Small volumes

A volume of twenty free clusters whose root directory holds given entries.

## Main definitions

* `rootVolume es`: the volume with the entries `es` in its root directory

## Main results

* `rootVolume_wellFormed`, `rootVolume_zeroTail`: with empty files only, the volume is well formed
-/

namespace WarkRune.Fat12

/-- The small volume with the entries `es` in its root directory and all clusters free. -/
def rootVolume (es : List DirEntry) : Volume :=
  .build smallGeometry (fun c => if c < 2 then 0xFFF else 0) (fun i => es.getD i .zero)
    fun _ _ _ => 0

variable {es : List DirEntry}

theorem rootVolume_slot (i : ℕ) :
    (rootVolume es).slot 0 i = if i < 16 then some (es.getD i .zero) else none := by
  by_cases hi : i < 16
  · rw [if_pos hi, Volume.slot_eq_some_iff]
    exact ⟨.root i, if_pos hi, build_rootEntry smallGeometry_plain _ _ _ hi⟩
  · rw [if_neg hi, Volume.slot_eq, Volume.place, if_pos rfl, if_neg]
    · rfl
    · exact hi

theorem rootVolume_live {i : ℕ} {e : DirEntry} (h : (rootVolume es).Live 0 i e) :
    es[i]? = some e ∧ e.Named := by
  obtain ⟨hs, hn, -⟩ := h
  rw [rootVolume_slot] at hs
  split_ifs at hs
  obtain rfl := Option.some.inj hs
  rw [List.getD_eq_getElem?_getD] at hn ⊢
  cases he : es[i]? with
  | none =>
    rw [he] at hn
    exact absurd hn DirEntry.zero_not_named
  | some x => exact ⟨by simp, by simpa [he] using hn⟩

section Files

variable (h : ∀ e ∈ es, e.Named → ¬ e.IsDir ∧ e.firstCluster = 0)
include h

theorem rootVolume_dirAt {d : ℕ} (hd : (rootVolume es).DirAt d) : d = 0 := by
  induction hd with
  | refl => rfl
  | tail _ hx ih =>
    subst ih
    obtain ⟨i, e, he, hdir, -⟩ := hx
    obtain ⟨he, hn⟩ := rootVolume_live he
    exact absurd hdir (h e (List.mem_of_getElem? he) hn).1

theorem rootVolume_heads {p : ℕ × ℕ} {c : ℕ} : ¬ (rootVolume es).Heads p c := by
  rintro ⟨hd, e, he, rfl, h0⟩
  rw [rootVolume_dirAt h hd] at he
  obtain ⟨he, hn⟩ := rootVolume_live he
  exact h0 (h e (List.mem_of_getElem? he) hn).2

/-- **With empty files only, the volume is well formed.** -/
theorem rootVolume_wellFormed : (rootVolume es).WellFormed where
  accepted := smallGeometry_accepted
  copies := .inr rfl
  fatFits := smallGeometry_plain.fatFits
  owned := ⟨fun hc => absurd hc (rootVolume_heads h),
    fun ⟨_, _, hc, _⟩ _ => absurd hc (rootVolume_heads h)⟩
  head_ne {d i e} hd he hdir := by
    rw [rootVolume_dirAt h hd] at he
    obtain ⟨he, hn⟩ := rootVolume_live he
    exact absurd hdir (h e (List.mem_of_getElem? he) hn).1

theorem rootVolume_zeroTail (hend : ∀ e ∈ es, e.name 0 ≠ dirEnd) :
    (rootVolume es).ZeroTail := by
  intro d hd i e he hee j hj x hx
  rw [rootVolume_dirAt h hd, rootVolume_slot] at he hx
  split_ifs at he hx
  obtain rfl := Option.some.inj he
  obtain rfl := Option.some.inj hx
  rw [List.getD_eq_getElem?_getD] at hee ⊢
  cases hi : es[i]? with
  | some y =>
    rw [hi] at hee
    exact absurd hee (hend y (List.mem_of_getElem? hi))
  | none =>
    rw [List.getElem?_eq_none_iff] at hi
    rw [List.getElem?_eq_none (by omega)]
    rfl

end Files

/-- A path of one letter leads to that name in the root directory. -/
theorem resolve_letter (V : Volume) {c : UInt8} (h0 : c ≠ 0) (hs : c ≠ slash) :
    V.resolve [c] = some (0, (to83 [c]).2) := by
  simp [Volume.resolve, Volume.resolveFrom, Volume.compLen, inComponent, h0, hs]

end WarkRune.Fat12

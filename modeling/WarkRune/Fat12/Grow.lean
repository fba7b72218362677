import WarkRune.Fat12.Hold
import WarkRune.Fat12.Read

/-!
# Growing a file

`fat12_write` stores bytes in the clusters of a file and links free clusters behind them as it
goes; a cluster linked is zeroed first. Nothing but the clusters of the file changes.

## Main definitions

* `Volume.Grown V V' l l'`: free clusters are linked behind those of a file, and only its own
  clusters change

## Main results

* `grown_first`, `grown_append`: the first cluster of a file, and one linked behind the last
* `grown_store`: bytes stored in one cluster
-/

namespace WarkRune.Fat12

namespace Volume

variable {V V' V'' : Volume} {c i n o x : ℕ} {l l' l'' : List ℕ}

/-- Free clusters are linked behind the clusters `l`, and only clusters of the file change. -/
structure Grown (V V' : Volume) (l l' : List ℕ) : Prop where
  sub : l <+: l'
  fresh : ∀ x ∈ l', x ∈ l ∨ V.fat x = fat12Free
  ok : ∀ x ∈ l', V.geo.InData x
  frame : V.Frame V' {x | x ∈ l'} {x | x ∈ l'}

theorem Grown.refl (h : ∀ x ∈ l, V.geo.InData x) : V.Grown V l l :=
  ⟨List.prefix_refl l, fun _ => .inl, h, .refl V _ _⟩

theorem Grown.trans (h : V.Grown V' l l') (h' : V'.Grown V'' l' l'') : V.Grown V'' l l'' where
  sub := h.sub.trans h'.sub
  fresh x hx := by
    by_cases hxl : x ∈ l'
    · exact h.fresh x hxl
    · have hok := h'.ok x hx
      rw [h.frame.geo] at hok
      rw [← h.frame.fat x hok.2 hxl]
      exact .inr ((h'.fresh x hx).resolve_left hxl)
  ok x hx := by
    rw [← h.frame.geo]
    exact h'.ok x hx
  frame := by
    have hsub : {x | x ∈ l'} ⊆ {x | x ∈ l''} := fun x hx => h'.sub.subset hx
    exact (h.frame.trans h'.frame).mono (Set.union_subset hsub le_rfl)
      (Set.union_subset hsub le_rfl)

theorem Grown.setFd (h : V.Grown V' l l') (fd : ℕ) (f : FD) : V.Grown (V'.setFd fd f) l l' :=
  ⟨h.sub, h.fresh, h.ok, h.frame.setFd fd f⟩

theorem Frame.clusterByte {F D : Set ℕ} (h : V.Frame V' F D) (hx : V.geo.InData x)
    (hD : x ∉ D) (ho : o < V.geo.clusterSize) : V'.clusterByte x o = V.clusterByte x o := by
  have hs : o / 512 < V.geo.secPerClus := Nat.div_lt_of_lt_mul (Nat.mul_comm .. ▸ ho)
  rw [clusterByte_eq, clusterByte_eq, h.data x hx hD _ hs]

/-- The clusters of a zeroed cluster hold zeros. -/
theorem clusterByte_zeroCluster (hg : V.geo.Laid) (hc : V.geo.InData c)
    (ho : o < V.geo.clusterSize) : (V.zeroCluster c).clusterByte c o = 0 := by
  have hs : o / 512 < V.geo.secPerClus := Nat.div_lt_of_lt_mul (Nat.mul_comm .. ▸ ho)
  have h := (frame_zeroSectors hg hc _ le_rfl).2 _ hs
  rw [if_pos hs] at h
  rw [clusterByte_eq, zeroCluster, h]

/-! ## Linking a cluster, and storing bytes in one -/

section Steps

variable (hg : V.geo.Laid)
include hg

/-- **The first cluster of a file** is zeroed. -/
theorem grown_first (hn : V.freeCluster = some n) :
    V.Grown (V.takeDir n) [] [n] ∧ (V.takeDir n).Chain n [n] ∧
      (V.takeDir n).padded [n] = V.padded [] := by
  obtain ⟨hnd, hfree⟩ := freeCluster_spec hn
  obtain ⟨hframe, hchain, -⟩ := takeDir_frame hg hnd
  refine ⟨⟨List.nil_prefix, fun x hx => .inr (List.mem_singleton.mp hx ▸ hfree),
    fun x hx => List.mem_singleton.mp hx ▸ hnd, hframe.mono ?_ ?_⟩, hchain, ?_⟩
  · rintro x rfl
    simp
  · rintro x rfl
    simp
  funext k
  rw [padded_of_ge (l := []) (by simp)]
  rcases Nat.lt_or_ge k ([n].length * (V.takeDir n).geo.clusterSize) with hk | hk
  · obtain ⟨i, x, o, hx, ho, rfl⟩ :=
      exists_offset (Geometry.clusterSize_pos (by simpa using hg.secPerClus_pos)) hk
    obtain rfl := List.mem_singleton.mp (List.mem_of_getElem? hx)
    rw [padded_add hx ho]
    rw [takeDir_geo] at ho
    exact clusterByte_zeroCluster (by simpa using hg) (by simpa using hnd) (by simpa using ho)
  · exact padded_of_ge hk

/-- **A free cluster linked** behind the last one lengthens the file by zeros. -/
theorem grown_append (hl : V.Chain c l) (hn : V.freeCluster = some n) :
    V.Grown (V.linkAfter (l.getLast hl.ne_nil) n) l (l ++ [n]) ∧
      (V.linkAfter (l.getLast hl.ne_nil) n).Chain c (l ++ [n]) ∧
      (V.linkAfter (l.getLast hl.ne_nil) n).padded (l ++ [n]) = V.padded l := by
  obtain ⟨hnd, hfree⟩ := freeCluster_spec hn
  have hnl : n ∉ l := fun hx => hl.not_free hx hfree
  -- the cluster linked was free, so it is on no chain, and of the old ones only the last changes
  have hlast := List.getLast_mem hl.ne_nil
  have hframe := frame_linkAfter hg (hl.ok_of_mem hlast).2 hnd
  refine ⟨⟨List.prefix_append l [n], ?_, ?_, hframe.mono ?_ ?_⟩, hl.linkAfter hg hnd hfree, ?_⟩
  · intro x hx
    rcases List.mem_append.mp hx with hx | hx
    · exact .inl hx
    · exact .inr (List.mem_singleton.mp hx ▸ hfree)
  · intro x hx
    rcases List.mem_append.mp hx with hx | hx
    · exact hl.ok_of_mem hx
    · exact List.mem_singleton.mp hx ▸ hnd
  · rintro x (rfl | rfl)
    · exact List.mem_append_left _ hlast
    · simp
  · rintro x rfl
    simp
  generalize hU : V.linkAfter (l.getLast hl.ne_nil) n = U at *
  have hgeo : U.geo = V.geo := hframe.geo
  have hgU : U.geo.Laid := by rwa [hgeo]
  funext k
  rcases Nat.lt_or_ge k (l.length * V.geo.clusterSize) with hk | hk
  · obtain ⟨i, x, o, hx, ho, rfl⟩ := exists_offset hg.bounded.clusterSize_pos hk
    have hxl := List.mem_of_getElem? hx
    have hx' : (l ++ [n])[i]? = some x := by
      rw [List.getElem?_append_left (List.getElem?_eq_some_iff.mp hx).1, hx]
    rw [padded_add hx ho, ← hgeo, padded_add hx' (by rwa [hgeo]),
      hframe.clusterByte (hl.ok_of_mem hxl) (fun h => hnl (h ▸ hxl)) ho]
  · rw [padded_of_ge hk]
    rcases Nat.lt_or_ge k ((l ++ [n]).length * U.geo.clusterSize) with hk' | hk'
    · obtain ⟨o, rfl⟩ := Nat.exists_eq_add_of_le hk
      rw [hgeo, List.length_append, List.length_singleton, Nat.add_mul, Nat.one_mul] at hk'
      have hx' : (l ++ [n])[l.length]? = some n := by simp
      rw [← hgeo, padded_add hx' (by rw [hgeo]; omega), ← hU]
      exact clusterByte_zeroCluster (by simpa using hg) (by simpa using hnd)
        (by simp only [fatSet_geo]; omega)
    · exact padded_of_ge hk'

/-- **Bytes stored in a cluster** of a file. -/
theorem grown_store (hl : V.Chain c l) (hx : l[i]? = some x) (xs : List UInt8)
    (ho : o + xs.length ≤ V.geo.clusterSize) :
    V.Grown (V.store (V.geo.clusterLba x) o xs) l l ∧
      (V.store (V.geo.clusterLba x) o xs).Chain c l ∧
      (V.store (V.geo.clusterLba x) o xs).padded l =
        overlay (V.padded l) (i * V.geo.clusterSize + o) xs := by
  have hxl := List.mem_of_getElem? hx
  obtain ⟨hframe, hbytes⟩ := frame_store hg (hl.ok_of_mem hxl) xs ho
  refine ⟨⟨List.prefix_refl l, fun _ => .inl, fun _ => hl.ok_of_mem, hframe.mono
    (Set.empty_subset _) (Set.singleton_subset_iff.mpr hxl)⟩,
    hframe.chain hl fun _ _ => Set.notMem_empty _, ?_⟩
  generalize V.store (V.geo.clusterLba x) o xs = U at *
  have hgeo : U.geo = V.geo := hframe.geo
  have hgU : U.geo.Laid := by rwa [hgeo]
  have hle := Nat.mul_le_mul_right V.geo.clusterSize (List.getElem?_eq_some_iff.mp hx).1
  rw [Nat.succ_mul] at hle
  funext k
  rcases Nat.lt_or_ge k (l.length * V.geo.clusterSize) with hk | hk
  swap
  · rw [overlay_of_ge (by omega), padded_of_ge hk, padded_of_ge (by rwa [hgeo])]
  -- a position inside the file is an offset of one of its clusters
  obtain ⟨j, y, r, hy, hr, rfl⟩ := exists_offset hg.bounded.clusterSize_pos hk
  rw [← hgeo, padded_add hy (by rwa [hgeo]), hgeo]
  by_cases hj : j = i
  · subst hj
    obtain rfl := Option.some.inj (hx.symm.trans hy)
    rw [hbytes r hr, overlay, padded_add hx hr]
    by_cases hor : o ≤ r
    · rw [if_pos hor, if_pos (by omega), Nat.add_sub_add_left]
    · rw [if_neg hor, if_neg (by omega)]
  · have hyx : y ≠ x := by
      rintro rfl
      obtain ⟨hi, hi'⟩ := List.getElem?_eq_some_iff.mp hx
      obtain ⟨hj', hj''⟩ := List.getElem?_eq_some_iff.mp hy
      exact hj ((hl.nodup.getElem_inj_iff).mp (hj''.trans hi'.symm))
    rw [hframe.clusterByte (hl.ok_of_mem (List.mem_of_getElem? hy)) hyx hr,
      ← padded_add hy hr]
    rcases Nat.lt_or_gt_of_ne hj with hlt | hgt
    · have := Nat.mul_le_mul_right V.geo.clusterSize hlt
      rw [Nat.succ_mul] at this
      rw [overlay_of_lt (by omega)]
    · have := Nat.mul_le_mul_right V.geo.clusterSize hgt
      rw [Nat.succ_mul] at this
      rw [overlay_of_ge (by omega)]

end Steps

end Volume

end WarkRune.Fat12

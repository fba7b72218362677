import WarkRune.Fat12.Install
import WarkRune.Fat12.Write

/-!
# One entry and its clusters beside a volume

While a file is created, written and closed, the volume differs from the one before in one slot of
a directory and in clusters that were free. The directories of the volume before keep their chains
and all their other slots, whatever is behind the end markers.

## Main definitions

* `Volume.Placed V V' dir i e l`: beside what `V` holds, `V'` has the entry `e` in slot `i` of `dir`
  and the clusters `l`

## Main results

* `Placed.grow`, `Placed.store`, `Placed.free`: writing the file, storing its entry, freeing it
* `Placed.store_padded`: storing the entry leaves the bytes of the file alone
-/

namespace WarkRune.Fat12

namespace Volume

/-- Slot `i` of the directory `dir` holds `e`, the clusters `l` were free, and the directories of
`V` are as they were but for the slot. -/
structure Placed (V V' : Volume) (dir i : ℕ) (e : DirEntry) (l : List ℕ) : Prop where
  geo : V'.geo = V.geo
  fresh : ∀ x ∈ l, V.geo.InData x ∧ V.fat x = fat12Free
  fat : ∀ x, V.geo.InData x → x ∉ l → V'.fat x = V.fat x
  slot : ∀ d, V.DirAt d → ∀ j, V'.slot d j = if d = dir ∧ j = i then some e else V.slot d j

variable {V U W : Volume} {P : ℕ → ℕ → Prop} {dir i c : ℕ} {e : DirEntry} {l l' : List ℕ}

namespace Placed

theorem refl (hs : V.slot dir i = some e) : V.Placed V dir i e [] where
  geo := rfl
  fresh := nofun
  fat _ _ _ := rfl
  slot d _ j := by
    split_ifs with hij
    · rw [hij.1, hij.2, hs]
    · rfl

theorem self (p : V.Placed U dir i e l) (hd : V.DirAt dir) : U.slot dir i = some e := by
  rw [p.slot dir hd, if_pos ⟨rfl, rfl⟩]

theorem laid (p : V.Placed U dir i e l) (h : V.Sound P) : U.geo.Laid := p.geo ▸ h.laid

/-- The directories keep their chains, which do not meet the clusters of the file. -/
theorem dirChain (p : V.Placed U dir i e l) {d : ℕ} {m : List ℕ} (hm : V.DirChain d m) :
    U.DirChain d m ∧ ∀ x ∈ m, x ∉ l := by
  have hout : ∀ x ∈ m, x ∉ l := fun x hx hxl => hm.not_free hx (p.fresh x hxl).2
  refine ⟨hm.imp_right fun hc => ?_, hout⟩
  refine Links.Chain.congr hc (fun x hx => p.fat x (hm.inData hx) (hout x hx)) fun x _ hx => ?_
  rwa [p.geo]

theorem setFd (p : V.Placed U dir i e l) (fd : ℕ) (f : FD) :
    V.Placed (U.setFd fd f) dir i e l where
  geo := p.geo
  fresh := p.fresh
  fat := p.fat
  slot d hd j := by rw [setFd_slot, p.slot d hd]

section Steps

variable (h : V.Sound P) (p : V.Placed U dir i e l)
include h p

/-- A change outside the directories of `V`. -/
theorem slot_frame {F D : Set ℕ} (hf : U.Frame W F D)
    (hout : ∀ d m, V.DirAt d → V.DirChain d m → ∀ x ∈ m, x ∉ F ∧ x ∉ D) {d : ℕ} (hd : V.DirAt d)
    (j : ℕ) : W.slot d j = U.slot d j := by
  obtain ⟨m, hm⟩ := h.dirChain hd
  have hchain := (p.dirChain hm).1
  exact ((hf.dirChain (p.laid h) hchain (fun x hx => (hout d m hd hm x hx).1)
    fun x hx => (hout d m hd hm x hx).2).2 j).2

/-- **The file takes more clusters.** -/
theorem grow (hg : U.Grown W l l') : V.Placed W dir i e l' := by
  have hfresh : ∀ x ∈ l', V.geo.InData x ∧ V.fat x = fat12Free := by
    intro x hx
    have hdata : V.geo.InData x := p.geo ▸ hg.ok x hx
    refine ⟨hdata, ?_⟩
    by_cases hxl : x ∈ l
    · exact (p.fresh x hxl).2
    · rw [← p.fat x hdata hxl]
      exact (hg.fresh x hx).resolve_left hxl
  refine ⟨hg.frame.geo.trans p.geo, hfresh, fun x hx hxl => ?_, fun d hd j => ?_⟩
  · rw [hg.frame.fat x (by rw [p.geo]; exact hx.2) hxl]
    exact p.fat x hx fun hxl' => hxl (hg.sub.subset hxl')
  · rw [p.slot_frame h hg.frame (fun d m _ hm x hx => ?_) hd j, p.slot d hd]
    have hxl : x ∉ l' := fun hxl => hm.not_free hx (hfresh x hxl).2
    exact ⟨hxl, hxl⟩

/-- **Freeing the clusters of the file** leaves none of them. -/
theorem free (hc : U.Clusters c l) (hf : Frees U c W) : V.Placed W dir i e [] ∧ W.fds = U.fds := by
  have hframe : U.Frame W {x | x ∈ l} ∅ ∧ (∀ x ∈ l, W.fat x = fat12Free) ∧ W.fds = U.fds := by
    rcases hc with ⟨rfl, rfl⟩ | hc
    · obtain rfl := hf.eq_of_lt (by decide)
      exact ⟨.refl _ _ _, nofun, rfl⟩
    · exact hf.frame (p.laid h) hc
  obtain ⟨hfr, hz, hfds⟩ := hframe
  refine ⟨⟨hfr.geo.trans p.geo, nofun, fun x hx _ => ?_, fun d hd j => ?_⟩, hfds⟩
  · by_cases hxl : x ∈ l
    · rw [hz x hxl, (p.fresh x hxl).2]
    · rw [hfr.fat x (by rw [p.geo]; exact hx.2) hxl, p.fat x hx hxl]
  · rw [p.slot_frame h hfr (fun d m _ hm x hx => ⟨(p.dirChain hm).2 x hx, nofun⟩) hd j, p.slot d hd]

variable (hd : V.DirAt dir) (e' : DirEntry)
include hd

/-- The slot of the entry lies at a place outside the clusters of the file. -/
theorem exists_place : ∃ q, U.place dir i = some q ∧ U.geo.HasPlace q ∧
    ∀ x ∈ l, ¬ q.InClusters {x} := by
  obtain ⟨m, hm⟩ := h.dirChain hd
  obtain ⟨hchain, hout⟩ := p.dirChain hm
  have hsome : (U.slot dir i).isSome = true := by rw [p.self hd]; rfl
  rw [slot_eq, Option.isSome_map, Option.isSome_iff_exists] at hsome
  obtain ⟨q, hq⟩ := hsome
  refine ⟨q, hq, hchain.hasPlace (p.laid h) hq, fun x hx hqx => ?_⟩
  obtain ⟨y, hy, hyx⟩ := hchain.inClusters hq hqx
  exact hout y hy (hyx ▸ hx)

/-- **The entry of the file is stored.** -/
theorem store : V.Placed (U.setSlot dir i e') dir i e' l := by
  obtain ⟨q, hq, hqp, -⟩ := p.exists_place h hd
  refine ⟨by rw [setSlot_geo, p.geo], p.fresh, fun x hx hxl => ?_, fun d hdd j => ?_⟩
  · rw [Volume.fat_setSlot (p.laid h) hq hqp (by rw [p.geo]; exact hx.2), p.fat x hx hxl]
  · obtain ⟨m, hm⟩ := h.dirChain hd
    obtain ⟨m', hm'⟩ := h.dirChain hdd
    rw [slot_setSlot (p.laid h) (p.dirChain hm).1 (by rw [p.self hd]; rfl) (p.dirChain hm').1
      (fun x hx hx' => h.apart hd hdd hm hm' hx hx'), p.slot d hdd]
    split_ifs <;> rfl

theorem store_clusters (hc : U.Clusters c l) : (U.setSlot dir i e').Clusters c l := by
  obtain ⟨q, hq, hqp, -⟩ := p.exists_place h hd
  refine hc.imp_right fun hc => Links.Chain.congr hc (fun x hx => ?_) fun x _ hx => ?_
  · exact Volume.fat_setSlot (p.laid h) hq hqp (hc.ok_of_mem hx).2
  · rwa [setSlot_geo]

/-- **Storing the entry leaves the bytes of the file alone.** -/
theorem store_padded : (U.setSlot dir i e').padded l = U.padded l := by
  obtain ⟨q, hq, hqp, hout⟩ := p.exists_place h hd
  have hg := p.laid h
  refine padded_congr (setSlot_geo ..) hg.secPerClus_pos fun x hx s hs => ?_
  exact clusterSector_setSlot hg hq hqp (p.geo ▸ (p.fresh x hx).1) (hout x hx) hs

end Steps

end Placed

end Volume

end WarkRune.Fat12

import WarkRune.Fat12.Grow

/-!
# Writing is writing an array

`fat12_write` walks to the cluster of the position, which may have to be linked first, and stores
sector by sector, cluster by cluster. While the clusters of the file hold the bytes the descriptor
promises, this is writing an array, as far as there are free clusters.

## Main results

* `walkExtend_spec`, `writeLoop_spec`: the two loops of `fat12_write`
* `fat12Write_refines`: `fat12_write` refines writing an array
-/

namespace WarkRune.Fat12

open Exec (Computes)

variable {V : Volume} {c i x off : ℕ} {l : List ℕ}

/-! ## What a write leaves -/

/-- Zeroing a cluster leaves the descriptors alone. -/
theorem zeroCluster_setFd (V : Volume) (fd : ℕ) (f : FD) (c : ℕ) :
    (V.setFd fd f).zeroCluster c = (V.zeroCluster c).setFd fd f := by
  have hzero : ∀ lba n, (V.setFd fd f).zeroSectors lba n = (V.zeroSectors lba n).setFd fd f := by
    intro lba n
    induction n with
    | zero => rfl
    | succ n ih =>
      rw [Volume.zeroSectors, ih]
      rfl
  exact hzero _ _

/-- What storing the first `n` bytes of `src` at the position of the descriptor `f` leaves: the
volume, but for the descriptor, and the clusters of the file. -/
structure Stores (V V' : Volume) (f : FD) (l l' : List ℕ) (src : List UInt8) (n : ℕ) : Prop where
  le : n ≤ src.length
  grown : V.Grown V' l l'
  clusters : V'.Clusters f.firstCluster l'
  padded : V'.padded l' = overlay (V.padded l) f.pos (src.take n)
  room : f.pos + n ≤ l'.length * V.geo.clusterSize
  full : n < src.length → V'.freeCluster = none
  filled : n < src.length → f.pos + n = l'.length * V.geo.clusterSize

/-- What storing the first `n` bytes of `src` from byte `p` of the clusters `l` on leaves, with the
clusters `l'` in the end. -/
structure Volume.Storing (V V' : Volume) (c : ℕ) (l l' : List ℕ) (p : ℕ) (src : List UInt8)
    (n : ℕ) : Prop where
  le : n ≤ src.length
  grown : V.Grown V' l l'
  chain : V'.Chain c l'
  padded : V'.padded l' = overlay (V.padded l) p (src.take n)
  room : p + n ≤ l'.length * V.geo.clusterSize
  fds : V'.fds = V.fds

section Storing

variable {U V' : Volume} {l₁ l' : List ℕ} {p m n : ℕ} {src : List UInt8}

theorem Volume.Storing.refl (hl : V.Chain c l) (hp : p ≤ l.length * V.geo.clusterSize)
    (src : List UInt8) : V.Storing V c l l p src 0 :=
  ⟨Nat.zero_le _, .refl fun _ => hl.ok_of_mem, hl, by rw [List.take_zero, overlay_nil], hp, rfl⟩

/-- **Bytes stored behind those stored before** are stored with them. -/
theorem Volume.Storing.trans (h : V.Storing U c l l₁ p src m)
    (h' : U.Storing V' c l₁ l' (p + m) (src.drop m) n) : V.Storing V' c l l' p src (m + n) := by
  have hgeo : U.geo = V.geo := h.grown.frame.geo
  have hle := h.le
  have hle' := h'.le
  have hroom := h'.room
  rw [List.length_drop] at hle'
  rw [hgeo] at hroom
  refine ⟨by omega, h.grown.trans h'.grown, h'.chain, ?_, by omega, h'.fds.trans h.fds⟩
  rw [h'.padded, h.padded, List.take_add, overlay_append, List.length_take_of_le hle]

/-- A cluster linked behind the last one holds none of the bytes. -/
theorem Volume.Storing.append (hg : V.geo.Laid) (h : V.Storing U c l l₁ p src m) {y : ℕ}
    (hy : U.freeCluster = some y) :
    V.Storing (U.linkAfter (l₁.getLast h.chain.ne_nil) y) c l (l₁ ++ [y]) p src m := by
  have hgU : U.geo.Laid := by rwa [h.grown.frame.geo]
  obtain ⟨hgrow, hchain, hpad⟩ := Volume.grown_append hgU h.chain hy
  have hroom := h.room
  refine ⟨h.le, h.grown.trans hgrow, hchain, hpad.trans h.padded, ?_,
    (U.linkAfter_fds _ y).trans h.fds⟩
  rw [List.length_append, List.length_singleton, Nat.succ_mul]
  omega

end Storing

/-- The descriptor after `n` bytes were written. -/
def FD.wrote (f : FD) (n : ℕ) : FD := { f with pos := f.pos + n, size := max f.size (f.pos + n) }

theorem FD.wrote_zero {f : FD} (h : f.pos ≤ f.size) : f.wrote 0 = f := by
  rw [wrote, Nat.add_zero, Nat.max_eq_left h]

/-! ## The loops -/

section Loops

variable (hg : V.geo.Laid)
include hg

/-- **The walk of `fat12_write`** reaches the cluster it looks for, linking clusters behind the
last one, unless the disk is full. -/
theorem walkExtend_spec (hl : V.Chain c l) (hx : l[i]? = some x) (skip : ℕ) :
    ∃ r V' l', Acts (walkExtend skip x) V r V' ∧ V.Grown V' l l' ∧ V'.Chain c l' ∧
      V'.padded l' = V.padded l ∧ V'.fds = V.fds ∧ r = l'[i + skip]? ∧
      (r = none → V'.freeCluster = none) := by
  induction skip generalizing V i x l with
  | zero => exact ⟨some x, V, l, .pure _ _, .refl fun _ => hl.ok_of_mem, hl, rfl, rfl, hx.symm, nofun⟩
  | succ skip ih =>
    rcases hl.link_at hx with ⟨he, hlen⟩ | ⟨hgo, hnext⟩
    · -- the chain ends here
      obtain rfl : x = l.getLast hl.ne_nil := hl.eq_getLast (List.mem_of_getElem? hx) he
      have happend := acts_appendCluster V (l.getLast hl.ne_nil)
      cases hn : V.freeCluster with
      | none =>
        rw [Volume.append_of_none hn] at happend
        refine ⟨none, V, l, (acts_fatGet V _).bind ?_, .refl fun _ => hl.ok_of_mem, hl, rfl, rfl,
          ?_, fun _ => hn⟩
        · rw [if_pos he]
          exact happend.bind (.pure _ _)
        · rw [List.getElem?_eq_none (by omega)]
      | some n =>
        rw [Volume.append_of_some hn] at happend
        obtain ⟨hgrow, hchain, hpad⟩ := Volume.grown_append hg hl hn
        obtain ⟨hnd, -⟩ := Volume.freeCluster_spec hn
        -- the walk goes on in the cluster linked, the last of the longer chain
        have hat : (l ++ [n])[i + 1]? = some n := by simp [← hlen]
        obtain ⟨r, V', l', hw, hgrow', hchain', hpad', hfds, hr, hfull⟩ :=
          ih (V := V.linkAfter (l.getLast hl.ne_nil) n) (by simpa using hg) hchain hat
        refine ⟨r, V', l', (acts_fatGet V _).bind ?_, hgrow.trans hgrow', hchain',
          hpad'.trans hpad, hfds.trans (V.linkAfter_fds _ n), ?_, hfull⟩
        · rw [if_pos he]
          refine happend.bind ?_
          dsimp only
          rw [if_neg (by simp [hnd.ne_zero, hnd.lt_eoc hg])]
          exact hw
        · rw [hr, Nat.add_assoc, Nat.add_comm 1]
    · have hmem := hl.ok_of_mem (List.mem_of_getElem? hnext)
      obtain ⟨r, V', l', hw, hgrow, hchain, hpad, hfds, hr, hfull⟩ := ih hg hl hnext
      refine ⟨r, V', l', (acts_fatGet V x).bind ?_, hgrow, hchain, hpad, hfds, ?_, hfull⟩
      · rw [if_neg hgo]
        refine (Computes.pure _ _).bind ?_
        dsimp only
        rw [if_neg (by simp [hmem.ne_zero, hmem.lt_eoc hg])]
        exact hw
      · rw [hr, Nat.add_assoc, Nat.add_comm 1]

/-- **A round of `fat12_write`** stores bytes up to the end of the cluster, and is the last one when
these are all, or when the disk is full. -/
theorem writeRound_spec (hl : V.Chain c l) (hx : l[i]? = some x) (hoff : off < V.geo.clusterSize)
    {src : List UInt8} (hsrc : src ≠ []) :
    ∃ m U l₁, V.Storing U c l l₁ (i * V.geo.clusterSize + off) src m ∧
      ((m = src.length ∧ ∃ y o, Acts (writeRound (x, off, src)) V (.inl (y, o, [])) U) ∨
        (U.freeCluster = none ∧ i * V.geo.clusterSize + off + m = l₁.length * V.geo.clusterSize ∧
          Acts (writeRound (x, off, src)) V (.inr (src.drop m)) U) ∨
        (0 < m ∧ i * V.geo.clusterSize + off + m = (i + 1) * V.geo.clusterSize ∧
          ∃ y, l₁[i + 1]? = some y ∧
            Acts (writeRound (x, off, src)) V (.inl (y, 0, src.drop m)) U)) := by
  have hi := (List.getElem?_eq_some_iff.mp hx).1
  have hroom := Nat.mul_le_mul_right V.geo.clusterSize hi
  rw [Nat.succ_mul] at hroom
  have hxd := hl.ok_of_mem (List.mem_of_getElem? hx)
  have hgo : src ≠ [] ∧ ¬ (x < 2 ∨ x ≥ fat12Eoc) := by
    have h₁ := hxd.1
    have h₂ := hxd.lt_eoc hg
    exact ⟨hsrc, by omega⟩
  obtain ⟨V₁, src₁, hV₁, hsrc₁, hlast, hnext, happend⟩ := acts_writeRound V hgo hoff
  obtain ⟨m, hm⟩ : ∃ m, m = V.geo.clusterSize - off := ⟨_, rfl⟩
  rw [← hm] at hV₁ hsrc₁
  obtain ⟨hgrow, hchain, hpad⟩ := Volume.grown_store hg hl hx (src.take m) (o := off)
    (by rw [List.length_take]; omega)
  rw [← hV₁] at hgrow hchain hpad
  have hfds : V₁.fds = V.fds := by rw [hV₁, Volume.store_fds]
  have hlen : src₁.length = src.length - m := by rw [hsrc₁, List.length_drop]
  by_cases hrest : src₁ = []
  · obtain ⟨off', hround⟩ := hlast hrest
    rw [hrest, List.length_nil] at hlen
    rw [hrest] at hround
    rw [List.take_of_length_le (by omega)] at hpad
    exact ⟨src.length, V₁, l, ⟨le_rfl, hgrow, hchain, by rw [hpad, List.take_length], by omega, hfds⟩,
      .inl ⟨rfl, _, _, hround⟩⟩
  have hpos := List.length_pos_of_ne_nil hrest
  have hstored : V.Storing V₁ c l l (i * V.geo.clusterSize + off) src m :=
    ⟨by omega, hgrow, hchain, hpad, by omega, hfds⟩
  have hend : i * V.geo.clusterSize + off + m = (i + 1) * V.geo.clusterSize := by
    rw [Nat.succ_mul]
    omega
  rcases hchain.link_at hx with ⟨he, hli⟩ | ⟨hnot, hy⟩
  · -- the chain ends here
    have hround := happend hrest he
    obtain rfl : x = l.getLast hchain.ne_nil := hchain.eq_getLast (List.mem_of_getElem? hx) he
    cases hn : V₁.freeCluster with
    | none =>
      rw [Volume.append_of_none hn, if_pos rfl, hsrc₁] at hround
      exact ⟨m, V₁, l, hstored, .inr (.inl ⟨hn, by rw [hend, hli], hround⟩)⟩
    | some y =>
      rw [Volume.append_of_some hn, if_neg (Volume.freeCluster_spec hn).1.ne_zero, hsrc₁] at hround
      exact ⟨m, _, l ++ [y], hstored.append hg hn,
        .inr (.inr ⟨by omega, hend, y, by simp [← hli], hround⟩)⟩
  · have hround := hnext hrest (Nat.not_le.mp hnot)
    rw [hsrc₁] at hround
    exact ⟨m, V₁, l, hstored, .inr (.inr ⟨by omega, hend, _, hy, hround⟩)⟩

/-- **The loop of `fat12_write`** stores bytes from an offset of a cluster on, linking clusters
behind the last one, until they are stored or the disk is full. -/
theorem writeLoop_spec (hl : V.Chain c l) (hx : l[i]? = some x) (hoff : off < V.geo.clusterSize)
    (src : List UInt8) :
    ∃ k V' l', Acts (writeLoop x off src) V (src.drop k) V' ∧
      V.Storing V' c l l' (i * V.geo.clusterSize + off) src k ∧
      (k < src.length → V'.freeCluster = none ∧
        i * V.geo.clusterSize + off + k = l'.length * V.geo.clusterSize) := by
  unfold writeLoop
  -- by induction on the bytes that are left: a round that goes on has stored one
  induction hn : src.length using Nat.strong_induction_on generalizing V i x l off src with
  | _ n ih =>
    subst hn
    have hroom := Nat.mul_le_mul_right V.geo.clusterSize (List.getElem?_eq_some_iff.mp hx).1
    rw [Nat.succ_mul] at hroom
    by_cases hsrc : src = []
    · subst hsrc
      exact ⟨0, V, l, acts_writeLoop_nil V x off, .refl hl (by omega) [], nofun⟩
    obtain ⟨m, U, l₁, hstored, hall | ⟨hfull, hend, hround⟩ | ⟨hm, hend, y, hy, hround⟩⟩ :=
      writeRound_spec hg hl hx hoff hsrc
    · obtain ⟨rfl, y, o, hround⟩ := hall
      refine ⟨src.length, U, l₁, ?_, hstored, fun h => absurd h (Nat.lt_irrefl _)⟩
      rw [List.drop_length]
      exact .loop_next _ _ hround (acts_writeLoop_nil U _ _)
    · exact ⟨m, U, l₁, .loop_done hround, hstored, fun _ => ⟨hfull, hend⟩⟩
    · have hgeo : U.geo = V.geo := hstored.grown.frame.geo
      have hle := hstored.le
      have hpos := List.length_pos_of_ne_nil hsrc
      obtain ⟨k, V', l', hw, hrest, hfull⟩ :=
        ih (src.drop m).length (by rw [List.length_drop]; omega) (by rwa [hgeo]) hstored.chain hy
          (by rw [hgeo]; exact Nat.zero_lt_of_lt hoff) (src.drop m) rfl
      rw [hgeo, Nat.add_zero, ← hend] at hrest hfull
      rw [List.length_drop] at hfull
      refine ⟨m + k, V', l', ?_, hstored.trans hrest, fun h => ?_⟩
      · rw [← List.drop_drop]
        exact .loop_next _ _ hround hw
      · obtain ⟨hfree, hfilled⟩ := hfull (by omega)
        exact ⟨hfree, by omega⟩

/-- **`fat12_write` from the first cluster on.** -/
theorem writeFrom_spec {f : FD} (hl : V.Chain f.firstCluster l) (hpos : f.pos ≤ f.size)
    (hsize : f.size ≤ l.length * V.geo.clusterSize) {fd : ℕ} (hf : V.fds fd = f)
    (src : List UInt8) :
    ∃ (n : ℕ) (V' : Volume) (l' : List ℕ),
      Acts (writeFrom V.geo.clusterSize fd f src) V n (V'.setFd fd (f.wrote n)) ∧
        Stores V V' f l l' src n ∧ V'.fds = V.fds := by
  have hcsz := hg.bounded.clusterSize_pos
  obtain ⟨r, U, m, hwalk, hgrow, hchain, hpad, hfds, hr, hfull⟩ := walkExtend_spec hg hl
    (i := 0) (by rw [← List.head?_eq_getElem?, hl.head?_eq]) (f.pos / V.geo.clusterSize)
  rw [Nat.zero_add] at hr
  have hgeo : U.geo = V.geo := hgrow.frame.geo
  cases r with
  | none =>
    -- the position lies behind all clusters, so it is where the last one ends
    have hlen := Nat.mul_le_mul_right V.geo.clusterSize hgrow.sub.length_le
    have hfilled : f.pos + 0 = m.length * V.geo.clusterSize := by
      have hge := List.getElem?_eq_none_iff.mp hr.symm
      have := (Nat.le_div_iff_mul_le hcsz).mp hge
      omega
    refine ⟨0, U, m, hwalk.bind ?_, ⟨Nat.zero_le _, hgrow, .inr hchain, ?_, hfilled.le,
      fun _ => hfull rfl, fun _ => hfilled⟩, hfds⟩
    · have hself : U.setFd fd (f.wrote 0) = U := by
        rw [FD.wrote_zero hpos, ← hf, ← hfds, Volume.setFd_self]
      rw [hself]
      exact .pure _ _
    · rw [hpad, List.take_zero, overlay_nil]
  | some x =>
    obtain ⟨k, V', l', hloop, ⟨hk, hgrow', hchain', hpad', hroom, hfds'⟩, hfull'⟩ :=
      writeLoop_spec (by rwa [hgeo]) hchain hr.symm (by rw [hgeo]; exact Nat.mod_lt f.pos hcsz) src
    rw [hgeo, Nat.mul_comm, Nat.div_add_mod] at hpad' hroom hfull'
    have hbytes := hchain'.bytes_lt (by rw [hgrow'.frame.geo, hgeo]; exact hg.bounded)
    rw [hgrow'.frame.geo, hgeo] at hbytes
    refine ⟨k, V', l', hwalk.bind (hloop.bind ?_), ⟨hk, hgrow.trans hgrow', .inr hchain', ?_, hroom,
      fun h => (hfull' h).1, fun h => (hfull' h).2⟩, hfds'.trans hfds⟩
    · have hdone : src.length - (src.drop k).length = k := by
        rw [List.length_drop]
        omega
      have hset := acts_setFd V' fd (f.wrote k)
      have hfd : FD.wrote f k = { f with
          pos := (f.pos + k) % 2 ^ 32
          size := if (f.pos + k) % 2 ^ 32 > f.size then (f.pos + k) % 2 ^ 32 else f.size } := by
        rw [Nat.mod_eq_of_lt (by omega), FD.wrote]
        split
        · rw [Nat.max_eq_right (by omega)]
        · rw [Nat.max_eq_left (by omega)]
      dsimp only
      rw [hdone, ← hfd, Volume.asInt_of_lt (by omega)]
      exact hset.bind (.pure _ _)
    · rw [hpad', hpad]

/-- **`fat12_write` through a descriptor whose clusters hold its bytes** stores some of the bytes,
all of them unless the disk is full, or fails on a full disk. -/
theorem acts_fat12Write {fd : ℤ} (hv : V.FdValid fd) (hl : V.HoldsFile (V.fds fd.toNat) l)
    (hpos : (V.fds fd.toNat).pos ≤ (V.fds fd.toNat).size) (src : List UInt8) :
    (Acts (fat12Write fd src) V (-1) V ∧ src ≠ [] ∧ V.freeCluster = none ∧ l = []) ∨
      ∃ (n : ℕ) (U : Volume) (l' : List ℕ) (f : FD),
        Acts (fat12Write fd src) V n (U.setFd fd.toNat (f.wrote n)) ∧
          Stores V U f l l' src n ∧ (∀ k ≠ fd.toNat, U.fds k = V.fds k) ∧
          ∃ c, f = { V.fds fd.toNat with firstCluster := c } ∧
            ((V.fds fd.toNat).firstCluster ≠ 0 → c = (V.fds fd.toNat).firstCluster) := by
  obtain ⟨f, hf⟩ : ∃ f, f = V.fds fd.toNat := ⟨_, rfl⟩
  rw [← hf] at hl hpos ⊢
  have hcsz := hg.bounded.clusterSize_pos
  by_cases hsrc : src = []
  · subst hsrc
    refine .inr ⟨0, V, l, f, ?_, ⟨le_rfl, .refl ?_, hl.1, ?_, ?_, nofun, nofun⟩, fun _ _ => rfl,
      f.firstCluster, rfl, fun _ => rfl⟩
    · rw [FD.wrote_zero hpos, hf, Volume.setFd_self]
      refine (acts_volume V).bind ?_
      rw [if_pos hv, if_pos rfl]
      exact .pure _ _
    · rcases hl.1 with ⟨-, rfl⟩ | hl
      · exact nofun
      · exact fun _ => hl.ok_of_mem
    · rw [List.take_nil, overlay_nil]
    · have := hl.2
      omega
  by_cases h0 : f.firstCluster = 0
  · obtain ⟨⟨-, rfl⟩ | hl, hsize⟩ := hl
    swap
    · exact absurd h0 (Volume.Clusters.ne_zero hl)
    rw [List.length_nil, Nat.zero_mul] at hsize
    -- the first cluster is taken before the loop, and a full disk fails here
    cases hc : V.freeCluster with
    | none =>
      refine .inl ⟨(acts_volume V).bind ?_, hsrc, rfl, rfl⟩
      simp only [if_pos hv, if_neg hsrc, ← hf, if_pos h0]
      refine (acts_fatAlloc V).bind ?_
      simp only [hc, Volume.takeFree_of_none hc, Option.getD_none, ↓reduceIte]
      exact .pure _ _
    | some c =>
      right
      have hc0 := (Volume.freeCluster_spec hc).1.ne_zero
      obtain ⟨hgrow, hchain, hpad⟩ := Volume.grown_first hg hc
      obtain ⟨f₁, hf₁⟩ : ∃ f₁ : FD, f₁ = { f with firstCluster := c } := ⟨_, rfl⟩
      have hgeo : ((V.takeDir c).setFd fd.toNat f₁).geo = V.geo := hgrow.frame.geo
      obtain ⟨n, U, l', hw, hst, hfds⟩ := writeFrom_spec (V := (V.takeDir c).setFd fd.toNat f₁)
        (by rwa [hgeo]) (l := [c]) (f := f₁) (by rw [hf₁]; exact hchain) (by rw [hf₁]; exact hpos)
        (by rw [hf₁]; exact Nat.le_trans hsize (Nat.zero_le _))
        (by rw [Volume.setFd_fds, Function.update_self]) src
      rw [hgeo] at hw
      refine ⟨n, U, l', f₁, (acts_volume V).bind ?_, ⟨hst.le,
        (hgrow.setFd fd.toNat f₁).trans hst.grown, hst.clusters, ?_, ?_, hst.full, ?_⟩, ?_, c, ?_,
        fun h => absurd h0 h⟩
      · simp only [if_pos hv, if_neg hsrc, ← hf, if_pos h0]
        refine (acts_fatAlloc V).bind ?_
        simp only [hc, Volume.takeFree_of_some hc, Option.getD_some, if_neg hc0]
        refine (acts_setFd _ _ _).bind ((acts_zeroCluster _ _).bind ?_)
        rw [zeroCluster_setFd, ← hf₁]
        exact hw
      · rw [hst.padded, ← hpad]
        rfl
      · rw [← hgeo]
        exact hst.room
      · rw [← hgeo]
        exact hst.filled
      · intro k hk
        rw [hfds, Volume.setFd_fds, Function.update_of_ne hk, Volume.takeDir_fds]
      · rw [hf₁]
  · -- the file has clusters, and the loop starts at the first of them
    right
    have hchain := hl.1.resolve_left fun h => h0 h.1
    obtain ⟨n, U, l', hw, hst, hfds⟩ := writeFrom_spec hg hchain hpos hl.2 hf.symm src
    refine ⟨n, U, l', f, (acts_volume V).bind ?_, hst, fun k _ => by rw [hfds], f.firstCluster,
      rfl, fun _ => rfl⟩
    simp only [if_pos hv, if_neg hsrc, ← hf, if_neg h0]
    exact hw

end Loops

/-- What `fat12_write` may change beside its own file: nothing on any other chain, not the root
directory, and no other descriptor. -/
structure OthersKept (V V' : Volume) (fd : ℕ) (l : List ℕ) : Prop where
  chain : ∀ c m, V.Chain c m → (∀ x ∈ m, x ∉ l) → V'.Chain c m ∧ ∀ x ∈ m, V'.fat x = V.fat x ∧
    ∀ s < V.geo.secPerClus, V'.clusterSector x s = V.clusterSector x s
  root : ∀ k < V.geo.rootSectors, V'.rootSector k = V.rootSector k
  fds : ∀ k ≠ fd, V'.fds k = V.fds k

/-- Growing a file keeps the chains it does not meet. -/
theorem Volume.Grown.othersKept {V' : Volume} {l' : List ℕ} {fd : ℕ} (h : V.Grown V' l l')
    (hfds : ∀ k ≠ fd, V'.fds k = V.fds k) : OthersKept V V' fd l where
  chain c m hm hdis := by
    -- a cluster linked was free, so it lies on no chain
    have hout : ∀ x ∈ m, x ∉ {x | x ∈ l'} := fun x hx hxl =>
      (h.fresh x hxl).elim (hdis x hx) (hm.not_free hx)
    refine ⟨h.frame.chain hm hout, fun x hx => ?_⟩
    have hxd := hm.ok_of_mem hx
    exact ⟨h.frame.fat x hxd.2 (hout x hx), h.frame.data x hxd (hout x hx)⟩
  root := h.frame.root
  fds := hfds

/-- **`fat12_write` refines writing an array**: through an open descriptor whose clusters hold its
bytes, a write stores the first `n` of the bytes given at the position, which may lie at the end of
the file, and moves the position behind them. It stores fewer than given, or fails, only when no
cluster is free any more. The clusters of the file, linked behind those it had, are a chain, and
nothing else changes. -/
theorem fat12Write_refines (hacc : V.geo.Accepted)
    (hcopies : V.geo.numFats = 1 ∨ V.geo.numFats = 2) (hfits : V.geo.FatFits) {fd : ℤ}
    (hv : V.FdValid fd) (hl : V.HoldsFile (V.fds fd.toNat) l)
    (hpos : (V.fds fd.toNat).pos ≤ (V.fds fd.toNat).size) (src : List UInt8) :
    ∃ (r : ℤ) (V' : Volume) (l' : List ℕ), Acts (fat12Write fd src) V r V' ∧
      let n := r.toNat
      let f := V.fds fd.toNat
      let f' := V'.fds fd.toNat
      (r = n ∨ r = -1) ∧ n ≤ src.length ∧
      V'.arrayFile fd l' = (V.arrayFile fd l).write (src.take n) ∧
      f'.pos = f.pos + n ∧ f'.size = max f.size (f.pos + n) ∧
      (n < src.length ∨ r = -1 → ∀ x, V.geo.InData x → V'.fat x ≠ fat12Free) ∧
      V'.HoldsFile f' l' ∧ l <+: l' ∧ l'.Nodup ∧ OthersKept V V' fd.toNat l := by
  have hg := hacc.laid (by omega) hfits
  have hnodup : ∀ {U : Volume} {c : ℕ} {m : List ℕ}, U.Clusters c m → m.Nodup := by
    rintro U c m (⟨-, rfl⟩ | hm)
    · exact List.nodup_nil
    · exact hm.nodup
  rcases acts_fat12Write hg hv hl hpos src with
    ⟨hw, hsrc, hfull, -⟩ | ⟨n, U, l', f, hw, hst, hfds, c, hf, hc⟩
  · refine ⟨-1, V, l, hw, .inr rfl, Nat.zero_le _, ?_, rfl, ?_, fun _ => ?_, hl, List.prefix_rfl,
      hnodup hl.1, ⟨fun c m hm _ => ⟨hm, fun _ _ => ⟨rfl, fun _ _ => rfl⟩⟩, fun _ _ => rfl,
      fun _ _ => rfl⟩⟩
    · rw [show (-1 : ℤ).toNat = 0 from rfl, List.take_zero, ArrayFile.write_nil]
    · exact (Nat.max_eq_left hpos).symm
    · exact Volume.freeCluster_eq_none.mp hfull
  · have hgeo : U.geo = V.geo := hst.grown.frame.geo
    have hlen : (src.take n).length = n := by
      rw [List.length_take]
      have := hst.le
      omega
    have hself : (U.setFd fd.toNat (f.wrote n)).fds fd.toNat = f.wrote n := by simp
    have hfull : n < src.length → ∀ x, V.geo.InData x → U.fat x ≠ fat12Free := by
      intro h x hx
      exact Volume.freeCluster_eq_none.mp (hst.full h) x (by rwa [hgeo])
    have hroom := hst.room
    have hsize := Nat.mul_le_mul_right V.geo.clusterSize hst.grown.sub.length_le
    have hle := hl.2
    refine ⟨n, _, l', hw, .inl rfl, hst.le, ?_, ?_, ?_, ?_, ⟨?_, ?_⟩, hst.grown.sub,
      hnodup hst.clusters, (hst.grown.setFd fd.toNat (f.wrote n)).othersKept fun k hk => ?_⟩
    · have hdata : _ = splice _ _ (src.take n) := map_range_overlay (f := V.padded l) hpos
      rw [hlen, ← show f.pos = (V.fds fd.toNat).pos by rw [hf], ← hst.padded] at hdata
      simp only [Volume.arrayFile, hself, ArrayFile.write, Int.toNat_natCast, hlen]
      rw [FD.wrote, ← show f.pos = (V.fds fd.toNat).pos by rw [hf], ← hdata, hf]
      rfl
    · rw [hself, hf]
      rfl
    · rw [hself, hf]
      rfl
    · rintro (h | h)
      · exact hfull h
      · omega
    · rw [hself]
      exact hst.clusters
    · rw [hself]
      change max f.size (f.pos + n) ≤ l'.length * U.geo.clusterSize
      rw [hgeo]
      have : f.size = (V.fds fd.toNat).size := by rw [hf]
      omega
    · rw [Volume.setFd_fds, Function.update_of_ne hk, hfds k hk]

/-- The theorem at a write in the middle of a file of three bytes. -/
theorem fat12Write_abc : ∃ (r : ℤ) (V' : Volume) (l' : List ℕ),
    Acts (fat12Write 0 [120, 121, 122]) abcFile r V' ∧
      V'.arrayFile 0 l' = (abcFile.arrayFile 0 [2]).write ([120, 121, 122].take r.toNat) := by
  obtain ⟨r, V', l', hw, -, -, hfile, -⟩ := fat12Write_refines (V := abcFile)
    smallGeometry_accepted (.inr rfl) (by decide) (show abcFile.FdValid 0 by decide)
    abcFile_holds (by decide) [120, 121, 122]
  exact ⟨r, V', l', hw, hfile⟩

end WarkRune.Fat12

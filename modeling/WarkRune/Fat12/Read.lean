import WarkRune.Fat12.Build
import WarkRune.Fat12.Content

/-!
# Reading is reading an array

`fat12_read` walks to the cluster of the position and reads clusters and sectors from there. While
the clusters of the file hold the bytes the descriptor promises, this is reading an array.

## Main results

* `readLoop_spec`: the loop of `fat12_read` reads consecutive bytes of the file
* `fat12Read_refines`: reads one after the other return what reads of an array return
-/

namespace WarkRune.Fat12

open Exec (Computes)

variable {V : Volume} {c i x off : ℕ} {l : List ℕ}

/-- The numbers an accepted geometry computes with. -/
structure Geometry.Bounded (g : Geometry) : Prop where
  secPerClus_pos : 0 < g.secPerClus
  secPerClus_le : g.secPerClus ≤ 255
  totalClusters_le : g.totalClusters ≤ 4085

theorem Geometry.Accepted.bounded {g : Geometry} (h : g.Accepted) : g.Bounded := by
  obtain ⟨b, lba, g₀, -, hg, -, -, hle, rfl⟩ := h.boot
  obtain ⟨hpos, hspc, -⟩ := boot_bounds hg
  exact ⟨hpos, hspc, hle⟩

theorem Geometry.Laid.bounded {g : Geometry} (h : g.Laid) : g.Bounded :=
  ⟨h.secPerClus_pos, h.secPerClus_le, h.totalClusters_le⟩

section Bounded

variable (hg : V.geo.Bounded)
include hg

theorem Geometry.Bounded.clusterSize_pos : 0 < V.geo.clusterSize :=
  Nat.mul_pos hg.secPerClus_pos (by decide)

/-- A data cluster is neither an end of chain nor reserved. -/
theorem Geometry.Bounded.isCluster (hx : V.geo.InData x) : 2 ≤ x ∧ x < fat12Eoc := by
  have := hg.totalClusters_le
  have h₂ := hx.2
  exact ⟨hx.1, by unfold fat12Eoc; omega⟩

/-- A chain has no more clusters than the volume, so its bytes are counted in 31 bits. -/
theorem Volume.Chain.bytes_lt (hl : V.Chain c l) : l.length * V.geo.clusterSize < 2 ^ 31 := by
  have hlen : l.length ≤ V.geo.totalClusters := by
    have hsub : l ⊆ List.range' 2 V.geo.totalClusters := fun y hy => by
      have hy := hl.ok_of_mem hy
      exact List.mem_range'_1.mpr ⟨hy.1, by have := hy.2; omega⟩
    simpa using (hl.nodup.subperm hsub).length_le
  have h₁ := hg.totalClusters_le
  have h₂ := hg.secPerClus_le
  calc l.length * V.geo.clusterSize
    _ ≤ 4085 * (255 * 512) := Nat.mul_le_mul (by omega) (Nat.mul_le_mul_right 512 h₂)
    _ < 2 ^ 31 := by decide

/-- **The loop of `fat12_read` reads consecutive bytes of the file** from an offset of a
cluster. -/
theorem readLoop_spec (hl : V.Chain c l) {m : ℕ} (hx : l[i]? = some x)
    (hoff : off < V.geo.clusterSize) (hm : i * V.geo.clusterSize + off + m ≤
      l.length * V.geo.clusterSize) (out : List UInt8) :
    Acts (Exec.loop (readRound (out.length + m)) (x, off, out)) V
      (out ++ (List.range m).map fun k => V.padded l (i * V.geo.clusterSize + off + k)) V := by
  induction m using Nat.strong_induction_on generalizing i x off out with
  | _ m ih =>
    by_cases h0 : m = 0
    · subst h0
      rw [List.range_zero, List.map_nil, List.append_nil]
      exact acts_readLoop_full V _ _ (by omega)
    -- something is left to read, so the round reads from the cluster `x`
    have hgo : out.length < out.length + m ∧ 2 ≤ x ∧ x < fat12Eoc :=
      ⟨by omega, hg.isCluster (hl.ok_of_mem (List.mem_of_getElem? hx))⟩
    obtain ⟨out₁, hout₁, hfull, hnext⟩ := acts_readRound V hgo hoff
    rw [Nat.add_sub_cancel_left] at hout₁
    rcases Nat.lt_or_ge (V.geo.clusterSize - off) m with hlt | hle
    · -- the cluster is read to its end, and the chain goes on
      rw [Nat.min_eq_right hlt.le, Volume.bytesFrom_eq_padded hx (by omega)] at hout₁
      have hlen : out₁.length = out.length + (V.geo.clusterSize - off) := by simp [hout₁]
      obtain ⟨m', rfl⟩ := Nat.exists_eq_add_of_lt hlt
      rcases hl.link_at hx with ⟨-, hlast⟩ | ⟨hgo', hx'⟩
      · rw [hlast, Nat.add_mul, Nat.one_mul] at hm
        omega
      have hround := hnext (by omega)
      rw [if_neg hgo'] at hround
      have hrest := ih (m' + 1) (by omega) hx' (Nat.zero_lt_of_lt hoff)
        (by rw [Nat.add_mul]; omega) out₁
      rw [hlen, Nat.add_assoc] at hrest
      rw [Nat.add_assoc, map_range_add, ← List.append_assoc, ← hout₁]
      refine .loop_next _ _ hround ?_
      convert hrest using 5
      rw [Nat.add_mul]
      omega
    · rw [Nat.min_eq_left hle, Volume.bytesFrom_eq_padded hx (by omega)] at hout₁
      have hlen : ¬ out₁.length < out.length + m := by simp [hout₁]
      obtain ⟨off', hround⟩ := hfull hlen
      rw [← hout₁]
      exact .loop_next _ _ hround (acts_readLoop_full V _ _ hlen)

end Bounded

namespace Volume

@[simp] theorem setFd_self (V : Volume) (fd : ℕ) : V.setFd fd (V.fds fd) = V := by
  simp [setFd]

theorem asInt_of_lt {n : ℕ} (h : n < 2 ^ 31) : asInt n = n := if_pos h

/-- A file with bytes has a chain. -/
theorem HoldsFile.chain {f : FD} (h : V.HoldsFile f l) (hs : 0 < f.size) :
    V.Chain f.firstCluster l := by
  obtain ⟨⟨-, rfl⟩ | hl, hle⟩ := h
  · rw [List.length_nil, Nat.zero_mul] at hle
    omega
  · exact hl

theorem Clusters.ne_zero (h : V.Chain c l) : c ≠ 0 := (h.ok_of_mem h.head_mem).ne_zero

end Volume

/-- **`fat12_read` through a descriptor whose clusters hold its bytes** reads an array. -/
theorem acts_fat12Read (hg : V.geo.Bounded) {fd : ℤ} (hv : V.FdValid fd)
    (hl : V.HoldsFile (V.fds fd.toNat) l) (n : ℕ) :
    let r := (V.arrayFile fd l).read n
    Acts (fat12Read fd n) V (r.1.length, r.1)
      (V.setFd fd.toNat { V.fds fd.toNat with pos := r.2.pos }) := by
  intro r
  obtain ⟨f, hf⟩ : ∃ f, f = V.fds fd.toNat := ⟨_, rfl⟩
  have hout : r.1 = (List.range (min n (f.size - f.pos))).map fun k => V.padded l (f.pos + k) := by
    rw [hf]
    exact take_drop_map_range ..
  have hpos : r.2.pos = f.pos + r.1.length := by
    rw [hf]
    rfl
  rw [hpos, ← hf]
  rw [← hf] at hl
  generalize r.1 = out at hout
  have hlen : out.length = min n (f.size - f.pos) := by simp [hout]
  -- nothing is read at the end of the file, nor by an empty request
  have hnone : min n (f.size - f.pos) = 0 →
      Acts (pure (0, []) : Fat (ℤ × List UInt8)) V (out.length, out)
        (V.setFd fd.toNat { f with pos := f.pos + out.length }) := by
    intro h0
    rw [h0] at hlen
    obtain rfl := List.length_eq_zero_iff.mp hlen
    rw [List.length_nil, Nat.add_zero, hf, Volume.setFd_self]
    exact .pure _ _
  refine (acts_volume V).bind ?_
  simp only [hv, ↓reduceIte, ← hf]
  by_cases hend : f.pos ≥ f.size
  · rw [if_pos hend]
    exact hnone (by omega)
  rw [if_neg hend]
  have hchain := hl.chain (by omega)
  by_cases hz : min n (f.size - f.pos) = 0
  · rw [if_pos (.inl hz)]
    exact hnone hz
  rw [if_neg (by simp [hz, Volume.Clusters.ne_zero hchain])]
  have hbytes := hchain.bytes_lt hg
  have hsize := hl.2
  obtain ⟨i, x, o, hx, ho, hio⟩ := Volume.exists_offset hg.clusterSize_pos (V := V)
    (n := f.pos) (l := l) (by omega)
  have hdiv : f.pos / V.geo.clusterSize = i := by
    rw [hio, Nat.add_comm, Nat.add_mul_div_right _ _ hg.clusterSize_pos, Nat.div_eq_of_lt ho,
      Nat.zero_add]
  have hmod : f.pos % V.geo.clusterSize = o := by
    rw [hio, Nat.add_comm, Nat.add_mul_mod_self_right, Nat.mod_eq_of_lt ho]
  have hloop := readLoop_spec hg hchain hx ho (m := min n (f.size - f.pos)) (by omega) []
  rw [List.nil_append, List.length_nil, Nat.zero_add, ← hio, ← hout] at hloop
  have hset := acts_setFd V fd.toNat { f with pos := (f.pos + out.length) % 2 ^ 32 }
  rw [Nat.mod_eq_of_lt (by omega)] at hset
  refine (acts_walkChain V _ _).bind ?_
  rw [hdiv, hmod, hchain.walk, hx]
  refine hloop.bind ?_
  rw [Nat.mod_eq_of_lt (by omega), ← Volume.asInt_of_lt (n := out.length) (by omega)]
  exact hset.bind (.pure _ _)

/-- Moving the position of a descriptor moves the position of the file it sees. -/
theorem arrayFile_setPos (V : Volume) (fd : ℤ) (l : List ℕ) (p : ℕ) :
    (V.setFd fd.toNat { V.fds fd.toNat with pos := p }).arrayFile fd l =
      { V.arrayFile fd l with pos := p } := by
  simp only [Volume.arrayFile, Volume.setFd_fds, Function.update_self]
  rfl

/-- Reads one after the other; each answers how many bytes it read. -/
theorem acts_readAll {fd : ℤ} (ns : List ℕ) {V : Volume} (hg : V.geo.Bounded)
    (hv : V.FdValid fd) (hl : V.HoldsFile (V.fds fd.toNat) l) :
    ∃ rs V', Acts (ns.mapM (fat12Read fd)) V rs V' ∧
      (rs.map Prod.snd).flatten = ((V.arrayFile fd l).readAll ns).1 ∧
      rs.length = ns.length ∧ ∀ r ∈ rs, r.1 = r.2.length := by
  -- by induction on the reads: a read moves the position and leaves the bytes
  induction ns generalizing V with
  | nil =>
    refine ⟨[], V, ?_, rfl, rfl, nofun⟩
    rw [List.mapM_nil]
    exact .pure _ _
  | cons n ns ih =>
    obtain ⟨r, hr⟩ : ∃ r, r = (V.arrayFile fd l).read n := ⟨_, rfl⟩
    obtain ⟨U, hU⟩ :
      ∃ U, U = V.setFd fd.toNat { V.fds fd.toNat with pos := r.2.pos } := ⟨_, rfl⟩
    have hread : Acts (fat12Read fd n) V (r.1.length, r.1) U := by
      rw [hU, hr]
      exact acts_fat12Read hg hv hl n
    have hself : U.fds fd.toNat = { V.fds fd.toNat with pos := r.2.pos } := by
      rw [hU, Volume.setFd_fds, Function.update_self]
    have hfile : U.arrayFile fd l = r.2 := by
      rw [hU, arrayFile_setPos, hr]
      rfl
    obtain ⟨rs, V', hrest, hflat, hlen, hrs⟩ := ih (V := U) (by rw [hU]; exact hg)
      ⟨hv.1, hv.2.1, by rw [hself]; exact hv.2.2⟩ (by rw [hself, hU]; exact hl)
    refine ⟨(r.1.length, r.1) :: rs, V', ?_, ?_, congrArg Nat.succ hlen,
      List.forall_mem_cons.mpr ⟨rfl, hrs⟩⟩
    · rw [List.mapM_cons]
      exact hread.bind (hrest.bind (.pure _ _))
    · rw [List.map_cons, List.flatten_cons, hflat, hfile, hr]
      rfl

/-- **`fat12_read` refines reading an array**: through an open descriptor whose clusters hold its
bytes, a read returns the bytes from the position on, as many as are asked for and left, moves the
position behind them and changes no sector. Reads one after the other return what one read of
their total length returns. -/
theorem fat12Read_refines (hacc : V.geo.Accepted) {fd : ℤ} (hv : V.FdValid fd)
    (hl : V.HoldsFile (V.fds fd.toNat) l) (n : ℕ) (ns : List ℕ) :
    let f := V.fds fd.toNat
    let data := (V.arrayFile fd l).data
    (∃ V', Acts (fat12Read fd n) V
        ((min n (f.size - f.pos) : ℕ), (data.drop f.pos).take n) V' ∧
      V'.geo = V.geo ∧ V'.disk = V.disk ∧ V'.fds = Function.update V.fds fd.toNat
        { f with pos := f.pos + min n (f.size - f.pos) }) ∧
      ∃ rs V', Acts (ns.mapM (fat12Read fd)) V rs V' ∧
        (rs.map Prod.snd).flatten = (data.drop f.pos).take ns.sum := by
  intro f data
  have hlen : ((data.drop f.pos).take n).length = min n (f.size - f.pos) := by
    simp [data, f, Volume.arrayFile]
  constructor
  · have hread : Acts (fat12Read fd n) V
        ((((data.drop f.pos).take n).length : ℕ), (data.drop f.pos).take n)
        (V.setFd fd.toNat { f with pos := f.pos + ((data.drop f.pos).take n).length }) :=
      acts_fat12Read hacc.bounded hv hl n
    rw [hlen] at hread
    exact ⟨_, hread, rfl, rfl, rfl⟩
  · obtain ⟨rs, V', hrs, hflat, -⟩ := acts_readAll ns hacc.bounded hv hl
    rw [ArrayFile.readAll_eq] at hflat
    exact ⟨rs, V', hrs, hflat⟩

/-- The small volume with the bytes `abc` in cluster 2, and descriptor 0 open on them at the
second byte. -/
def abcFile : Volume :=
  (Volume.build smallGeometry (fun c => if c < 3 then 0xFFF else 0) (fun _ => .zero)
    fun _ _ o => UInt8.ofNat (97 + o)).setFd 0 ⟨true, 2, 3, 1, 0, 0⟩

theorem abcFile_holds : abcFile.HoldsFile (abcFile.fds 0) [2] := by
  have hfat : abcFile.fat 2 = 0xFFF := by
    rw [abcFile, Volume.setFd_fat]
    exact build_fat smallGeometry_plain _ _ _ (fun c => by split <;> decide) (by decide)
  refine ⟨.inr (.last (by decide) ?_), by decide⟩
  change abcFile.fat 2 ≥ fat12Eoc
  rw [hfat]
  decide

/-- The theorem at a read that asks for more than is left. -/
theorem fat12Read_abc : ∃ V', Acts (fat12Read 0 10) abcFile (2, [98, 99]) V' := by
  obtain ⟨⟨V', hread, -⟩, -⟩ := fat12Read_refines (V := abcFile) smallGeometry_accepted
    (show abcFile.FdValid 0 by decide) abcFile_holds 10 []
  have hdata : (abcFile.arrayFile 0 [2]).data = [97, 98, 99] := by decide +kernel
  rw [hdata] at hread
  exact ⟨V', hread⟩

end WarkRune.Fat12

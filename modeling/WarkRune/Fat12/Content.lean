import WarkRune.Bytes.File
import WarkRune.Fat12.Chains

/-!
# The bytes of a file

The bytes of a file lie in the clusters of its chain, one cluster after the other. A descriptor
sees the first of them, as many as the size it caches, from the position it caches.

## Main definitions

* `Volume.Clusters V c l`: the clusters of a file with the first cluster `c`
* `Volume.padded V l`: the bytes of the file with the clusters `l`, followed by zeros
* `Volume.arrayFile V fd l`: the file a descriptor sees

## Main results

* `padded_add`, `exists_offset`: the position of a byte in its cluster
-/

namespace WarkRune.Fat12

namespace Volume

variable {V : Volume} {i n o x : ℕ} {l : List ℕ}

/-- The clusters of a file with the first cluster `c`; an empty file has none. -/
def Clusters (V : Volume) (c : ℕ) (l : List ℕ) : Prop := c = 0 ∧ l = [] ∨ V.Chain c l

/-- The bytes of the file with the clusters `l`, followed by zeros. -/
def padded (V : Volume) (l : List ℕ) (k : ℕ) : UInt8 :=
  if k < l.length * V.geo.clusterSize then
    V.clusterByte (l.getD (k / V.geo.clusterSize) 0) (k % V.geo.clusterSize)
  else 0

/-- The file the descriptor sees when its clusters are `l`. -/
def arrayFile (V : Volume) (fd : ℤ) (l : List ℕ) : ArrayFile UInt8 where
  data := (List.range (V.fds fd.toNat).size).map (V.padded l)
  pos := (V.fds fd.toNat).pos

/-- The clusters of the file hold all its bytes. -/
def HoldsFile (V : Volume) (f : FD) (l : List ℕ) : Prop :=
  V.Clusters f.firstCluster l ∧ f.size ≤ l.length * V.geo.clusterSize

theorem padded_of_ge (h : l.length * V.geo.clusterSize ≤ n) : V.padded l n = 0 :=
  if_neg (Nat.not_lt.mpr h)

/-- The byte of a file at an offset of one of its clusters. -/
theorem padded_add (hx : l[i]? = some x) (ho : o < V.geo.clusterSize) :
    V.padded l (i * V.geo.clusterSize + o) = V.clusterByte x o := by
  obtain ⟨hi, rfl⟩ := List.getElem?_eq_some_iff.mp hx
  have hpos : 0 < V.geo.clusterSize := by omega
  have hle := Nat.mul_le_mul_right V.geo.clusterSize hi
  rw [Nat.succ_mul] at hle
  have hdiv : (i * V.geo.clusterSize + o) / V.geo.clusterSize = i := by
    rw [Nat.add_comm, Nat.add_mul_div_right _ _ hpos, Nat.div_eq_of_lt ho, Nat.zero_add]
  have hmod : (i * V.geo.clusterSize + o) % V.geo.clusterSize = o := by
    rw [Nat.add_comm, Nat.add_mul_mod_self_right, Nat.mod_eq_of_lt ho]
  rw [padded, if_pos (by omega), hdiv, hmod, List.getD_eq_getElem _ _ hi]

/-- A position of a file lies at an offset of one of its clusters. -/
theorem exists_offset (hpos : 0 < V.geo.clusterSize) (h : n < l.length * V.geo.clusterSize) :
    ∃ i x o, l[i]? = some x ∧ o < V.geo.clusterSize ∧ n = i * V.geo.clusterSize + o := by
  have hi : n / V.geo.clusterSize < l.length := (Nat.div_lt_iff_lt_mul hpos).mpr h
  refine ⟨_, _, _, List.getElem?_eq_getElem hi, Nat.mod_lt n hpos, ?_⟩
  rw [Nat.mul_comm, Nat.div_add_mod]

/-- The bytes of a file are those of the sectors of its clusters. -/
theorem padded_congr {V' : Volume} (hgeo : V'.geo = V.geo) (hspc : 0 < V.geo.secPerClus)
    (h : ∀ x ∈ l, ∀ s < V.geo.secPerClus, V'.clusterSector x s = V.clusterSector x s) :
    V'.padded l = V.padded l := by
  funext k
  unfold padded
  rw [hgeo]
  split_ifs with hk
  · have hcsz : 0 < V.geo.clusterSize := Nat.mul_pos hspc (by decide)
    have hidx : k / V.geo.clusterSize < l.length := Nat.div_lt_of_lt_mul (by rwa [Nat.mul_comm])
    have hmod : k % V.geo.clusterSize < V.geo.secPerClus * 512 := Nat.mod_lt _ hcsz
    rw [clusterByte_eq, clusterByte_eq, List.getD_eq_getElem _ _ hidx,
      h _ (List.getElem_mem hidx) _ (by omega)]
  · rfl

/-- The bytes of a cluster from an offset on are bytes of the file. -/
theorem bytesFrom_eq_padded {t : ℕ} (hx : l[i]? = some x) (ho : o + t ≤ V.geo.clusterSize) :
    V.bytesFrom (V.geo.clusterLba x) o t =
      (List.range t).map fun k => V.padded l (i * V.geo.clusterSize + o + k) := by
  refine List.map_congr_left fun k hk => ?_
  have hk := List.mem_range.mp hk
  rw [Nat.add_assoc, padded_add hx (by omega), clusterByte]

end Volume

end WarkRune.Fat12

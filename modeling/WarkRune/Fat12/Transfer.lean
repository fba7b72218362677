import WarkRune.Fat12.Outcome

/-!
# Reading and writing file data

The inner loops of `fat12_read` and `fat12_write` move the bytes of one cluster, sector by
sector. On a working disk they read and store consecutive bytes; the outer loops end because
every round moves at least one byte.

## Main definitions

* `Volume.bytesFrom`, `Volume.store`: consecutive bytes of consecutive sectors
* `Volume.append`: a chain extended by a free cluster, if there is one

## Main results

* `acts_readCluster`, `acts_writeCluster`: the inner loops move consecutive bytes
* `fat12Read_total`, `fat12Write_total`: reading and writing return, whatever the FAT contains
-/

namespace WarkRune.Fat12

open Exec (Computes)

/-! ## Consecutive bytes -/

namespace Volume

variable (V : Volume)

/-- The `n` bytes from byte `o` on of the sectors from `base` on. -/
def bytesFrom (base o n : ℕ) : List UInt8 := (List.range n).map fun k => V.byteAt base (o + k)

/-- The volume with `bytes` stored from byte `o` on of the sectors from `base` on. -/
def store (V : Volume) (base o : ℕ) : List UInt8 → Volume
  | [] => V
  | x :: xs => (V.setByte base o x).store base (o + 1) xs

@[simp] theorem length_bytesFrom (base o n : ℕ) : (V.bytesFrom base o n).length = n := by
  simp [bytesFrom]

theorem bytesFrom_append (base o n m : ℕ) :
    V.bytesFrom base o (n + m) = V.bytesFrom base o n ++ V.bytesFrom base (o + n) m := by
  simp [bytesFrom, List.range_add, Nat.add_assoc]

@[simp] theorem store_geo (base o : ℕ) (xs : List UInt8) : (V.store base o xs).geo = V.geo := by
  induction xs generalizing V o with
  | nil => rfl
  | cons x xs ih => exact ih _ _

@[simp] theorem store_fds (base o : ℕ) (xs : List UInt8) : (V.store base o xs).fds = V.fds := by
  induction xs generalizing V o with
  | nil => rfl
  | cons x xs ih => exact ih _ _

theorem store_append (base o : ℕ) (xs ys : List UInt8) :
    V.store base o (xs ++ ys) = (V.store base o xs).store base (o + xs.length) ys := by
  induction xs generalizing V o with
  | nil => rfl
  | cons x xs ih =>
    simp only [List.cons_append, store, List.length_cons]
    rw [ih, Nat.add_assoc, Nat.add_comm 1]

theorem patch_nil (b : Sector) (start : ℕ) : patch b start [] = b := by
  funext j
  simp [patch]

theorem patch_cons (b : Sector) (start : ℕ) (x : UInt8) (xs : List UInt8) :
    patch b start (x :: xs) = patch (Function.update b start x) (start + 1) xs := by
  funext j
  simp only [patch]
  by_cases hj : j = start
  · simp [hj]
  · rw [Function.update_of_ne hj]
    by_cases hs : start ≤ j
    · obtain ⟨k, rfl⟩ : ∃ k, j = start + 1 + k := ⟨j - (start + 1), by omega⟩
      simp [show start + 1 + k - start = k + 1 by omega, show start ≤ start + 1 + k by omega]
    · rw [if_neg hs, if_neg (by omega)]

/-- Bytes that stay in one sector are stored by one write of it. -/
theorem store_eq_put (base o : ℕ) (xs : List UInt8) (h : o % 512 + xs.length ≤ 512) :
    V.store base o xs =
      V.put (base + o / 512) (patch (V.sector (base + o / 512)) (o % 512) xs) := by
  induction xs generalizing V o with
  | nil => rw [patch_nil, put_sector, store]
  | cons x xs ih =>
    rw [store, patch_cons]
    cases xs with
    | nil => rw [patch_nil, store, setByte]
    | cons y xs =>
      simp only [List.length_cons] at h
      have hd : (o + 1) / 512 = o / 512 := by omega
      have hm : (o + 1) % 512 = o % 512 + 1 := by omega
      rw [ih _ _ (by simp only [List.length_cons]; omega), hd, hm, setByte, put_put,
        sector_put_self]

end Volume

/-! ## The inner loops -/

section Inner

variable (V : Volume) (clba : ℕ)

/-- The inner loop of `fat12_read` reads consecutive bytes. -/
theorem acts_readCluster (size : ℕ) : ∀ n s off out, ∃ off',
    Acts (readCluster clba size s n off out) V
      (off', out ++ V.bytesFrom clba (s * 512 + off) (min (size - out.length) (n * 512 - off))) V ∧
      (out.length + min (size - out.length) (n * 512 - off) < size → off' = off - n * 512)
  | 0, s, off, out => by
    refine ⟨off, ?_, fun _ => by omega⟩
    simp only [readCluster, Nat.zero_mul, Nat.zero_sub, Nat.min_zero, Volume.bytesFrom,
      List.range_zero, List.map_nil, List.append_nil]
    exact .pure _ _
  | n + 1, s, off, out => by
    by_cases hlt : out.length < size
    · -- sectors in front of the offset are passed over, and the offset is counted down
      by_cases hoff : off ≥ 512
      · obtain ⟨off', h, ho⟩ := acts_readCluster size n (s + 1) (off - 512) out
        have hm : (n + 1) * 512 - off = n * 512 - (off - 512) := by omega
        refine ⟨off', ?_, fun hs => ?_⟩
        · simp only [readCluster, hlt, hoff, ↓reduceIte, hm]
          rwa [show (s + 1) * 512 + (off - 512) = s * 512 + off by omega] at h
        · rw [hm] at hs
          have := ho hs
          omega
      · -- this sector is read from the offset on, the next ones from their start
        obtain ⟨take, htake⟩ : ∃ take, take = min (size - out.length) (512 - off) := ⟨_, rfl⟩
        have hb : ((List.range take).map fun i => V.sector (clba + s) (off + i)) =
            V.bytesFrom clba (s * 512 + off) take := by
          refine List.map_congr_left fun i hi => ?_
          have hi' := List.mem_range.mp hi
          simp only [Volume.byteAt, show (s * 512 + off + i) / 512 = s by omega,
            show (s * 512 + off + i) % 512 = off + i by omega]
        obtain ⟨off', h, ho⟩ :=
          acts_readCluster size n (s + 1) 0 (out ++ V.bytesFrom clba (s * 512 + off) take)
        simp only [List.length_append, Volume.length_bytesFrom, Nat.sub_zero, Nat.add_zero] at h ho
        refine ⟨off', ?_, fun hs => ?_⟩
        · simp only [readCluster, hlt, hoff, ↓reduceIte, ← htake]
          rw [← hb] at h
          have hstep := (acts_readBuf V (clba + s)).bind (f := fun b =>
            readCluster clba size (s + 1) n 0 (out ++ (List.range take).map fun i => b (off + i))) h
          simp only [hb, List.append_assoc] at hstep
          convert hstep using 4
          rcases Nat.le_total (size - out.length) (512 - off) with hle | hle
          · have h₁ : take = size - out.length := by omega
            have h₂ : min (size - out.length) ((n + 1) * 512 - off) = take := by omega
            have h₃ : min (size - (out.length + take)) (n * 512) = 0 := by omega
            rw [h₂, h₃]
            simp [Volume.bytesFrom]
          · have h₁ : take = 512 - off := by omega
            have h₂ : min (size - out.length) ((n + 1) * 512 - off) =
                take + min (size - (out.length + take)) (n * 512) := by omega
            rw [h₂, Volume.bytesFrom_append, show s * 512 + off + take = (s + 1) * 512 by omega]
        · have := ho (by omega)
          omega
    · refine ⟨off, ?_, fun hs => by omega⟩
      simp only [readCluster, hlt, ↓reduceIte, show size - out.length = 0 by omega, Nat.zero_min,
        Volume.bytesFrom, List.range_zero, List.map_nil, List.append_nil]
      exact .pure _ _

/-- The inner loop of `fat12_write` stores consecutive bytes. -/
theorem acts_writeCluster : ∀ (V : Volume) n s off src, ∃ off',
    Acts (writeCluster clba s n off src) V (off', src.drop (n * 512 - off))
      (V.store clba (s * 512 + off) (src.take (n * 512 - off))) ∧
      (n * 512 - off < src.length → off' = off - n * 512)
  | V, 0, s, off, src => by
    refine ⟨off, ?_, fun _ => by omega⟩
    simp only [writeCluster, Nat.zero_mul, Nat.zero_sub, List.drop_zero, List.take_zero,
      Volume.store]
    exact .pure _ _
  | V, n + 1, s, off, src => by
    by_cases hsrc : src = []
    · refine ⟨off, ?_, fun h => by simp [hsrc] at h⟩
      simp only [writeCluster, hsrc, ↓reduceIte, List.drop_nil, List.take_nil, Volume.store]
      exact .pure _ _
    -- sectors in front of the offset are passed over, and the offset is counted down
    by_cases hoff : off ≥ 512
    · obtain ⟨off', h, ho⟩ := acts_writeCluster V n (s + 1) (off - 512) src
      have hm : (n + 1) * 512 - off = n * 512 - (off - 512) := by omega
      refine ⟨off', ?_, fun hs => ?_⟩
      · simp only [writeCluster, hsrc, hoff, ↓reduceIte, hm]
        rwa [show (s + 1) * 512 + (off - 512) = s * 512 + off by omega] at h
      · rw [hm] at hs
        have := ho hs
        omega
    · -- this sector is stored from the offset on, the next ones from their start
      obtain ⟨take, htake⟩ : ∃ take, take = min src.length (512 - off) := ⟨_, rfl⟩
      obtain ⟨V₁, hV₁⟩ : ∃ V₁, V₁ = V.store clba (s * 512 + off) (src.take take) := ⟨_, rfl⟩
      have hput : V₁ = V.put (clba + s) (patch (V.sector (clba + s)) off (src.take take)) := by
        rw [hV₁, V.store_eq_put _ _ _ (by simp only [List.length_take]; omega),
          show (s * 512 + off) / 512 = s by omega, show (s * 512 + off) % 512 = off by omega]
      obtain ⟨off', h, ho⟩ := acts_writeCluster V₁ n (s + 1) 0 (src.drop take)
      simp only [Nat.sub_zero, Nat.add_zero, List.length_drop] at h ho
      have hstep : Acts (modifySector (clba + s) fun b => patch b off (src.take take)) V () V₁ := by
        rw [hput]
        exact acts_modifySector V _ _
      refine ⟨off', ?_, fun hs => ?_⟩
      · simp only [writeCluster, hsrc, hoff, ↓reduceIte, ← htake]
        have hrun := hstep.bind (f := fun _ => writeCluster clba (s + 1) n 0 (src.drop take)) h
        rcases Nat.le_total src.length (512 - off) with hle | hle
        · have h₁ : take = src.length := by omega
          have h₂ : src.length ≤ (n + 1) * 512 - off := by omega
          rw [List.drop_eq_nil_of_le h₂, List.take_of_length_le h₂]
          rw [h₁, List.drop_length, List.take_nil, List.drop_nil, Volume.store, hV₁, h₁] at hrun
          simp only [List.take_length] at hrun
          rwa [h₁, List.drop_length, List.take_length]
        · have h₁ : take = 512 - off := by omega
          have h₂ : (n + 1) * 512 - off = take + (n * 512) := by omega
          have hlen : (src.take take).length = take := by
            rw [List.length_take]
            omega
          rw [h₂, List.take_add, Volume.store_append, hlen, ← List.drop_drop,
            show s * 512 + off + take = (s + 1) * 512 by omega, ← hV₁]
          exact hrun
      · have := ho (by omega)
        omega

end Inner

/-! ## The outer loops -/

/-- What `fat12_write` does at the end of a chain: the cluster it links after `last`, 0 when the
disk is full, and the volume with it linked. -/
def Volume.append (V : Volume) (last : ℕ) : ℕ × Volume :=
  match V.freeCluster with
  | none => (0, V)
  | some c => (c, V.linkAfter last c)

@[simp] theorem Volume.append_geo (V : Volume) (last : ℕ) : (V.append last).2.geo = V.geo := by
  unfold append
  split <;> simp

@[simp] theorem Volume.append_fds (V : Volume) (last : ℕ) : (V.append last).2.fds = V.fds := by
  unfold append
  split <;> simp

theorem Volume.append_of_none {V : Volume} (h : V.freeCluster = none) (last : ℕ) :
    V.append last = (0, V) := by
  rw [append, h]

theorem Volume.append_of_some {V : Volume} {c : ℕ} (h : V.freeCluster = some c) (last : ℕ) :
    V.append last = (c, V.linkAfter last c) := by
  rw [append, h]

theorem acts_appendCluster (V : Volume) (last : ℕ) :
    Acts (appendCluster last) V (V.append last).1 (V.append last).2 := by
  refine (acts_fatAlloc V).bind ?_
  cases hc : V.freeCluster with
  | none =>
    simp only [V.append_of_none hc, Volume.takeFree_of_none hc, Option.getD_none, ↓reduceIte]
    exact .pure _ _
  | some c =>
    have hc0 := (Volume.freeCluster_spec hc).1.ne_zero
    simp only [V.append_of_some hc, Volume.takeFree_of_some hc, Option.getD_some, hc0, ↓reduceIte]
    exact (acts_fatSet _ _ _).bind ((acts_zeroCluster _ _).bind (.pure _ _))

/-- **A round of the outer loop of `fat12_read`** reads what is left of the cluster, or of the
request, and goes on with the cluster linked behind it. -/
theorem acts_readRound (V : Volume) {size clus off : ℕ} {out : List UInt8}
    (hgo : out.length < size ∧ 2 ≤ clus ∧ clus < fat12Eoc) (hoff : off < V.geo.clusterSize) :
    ∃ out₁, out₁ = out ++ V.bytesFrom (V.geo.clusterLba clus) off
        (min (size - out.length) (V.geo.clusterSize - off)) ∧
      (¬ out₁.length < size →
        ∃ off', Acts (readRound size (clus, off, out)) V (.inl (clus, off', out₁)) V) ∧
      (out₁.length < size → Acts (readRound size (clus, off, out)) V
        (if V.fat clus ≥ fat12Eoc then .inr out₁ else .inl (V.fat clus, 0, out₁)) V) := by
  obtain ⟨off', hread, ho⟩ :=
    acts_readCluster V (V.geo.clusterLba clus) size V.geo.secPerClus 0 off out
  rw [Nat.zero_mul, Nat.zero_add] at hread
  obtain ⟨out₁, hout₁⟩ : ∃ out₁, out₁ = out ++ V.bytesFrom (V.geo.clusterLba clus) off
    (min (size - out.length) (V.geo.clusterSize - off)) := ⟨_, rfl⟩
  change Acts _ V (off', out ++ V.bytesFrom _ off
    (min (size - out.length) (V.geo.clusterSize - off))) V at hread
  rw [← hout₁] at hread
  refine ⟨out₁, hout₁, fun hrest => ⟨off', ?_⟩, fun hrest => ?_⟩
  · simp only [readRound, if_pos hgo]
    refine (acts_geometry V).bind (hread.bind ?_)
    rw [if_neg hrest]
    exact .pure _ _
  · have hlen := hrest
    rw [hout₁, List.length_append, Volume.length_bytesFrom] at hlen
    -- bytes are asked for behind the cluster, so the offset has been used up
    obtain rfl : off' = 0 := by
      have := ho hlen
      unfold Geometry.clusterSize at hoff
      omega
    simp only [readRound, if_pos hgo]
    refine (acts_geometry V).bind (hread.bind ?_)
    rw [if_pos hrest]
    refine (acts_fatGet V clus).bind ?_
    split <;> exact .pure _ _

/-- The loop of `fat12_read` ends once the request is met. -/
theorem acts_readLoop_full (V : Volume) {size : ℕ} (clus off : ℕ) {out : List UInt8}
    (h : ¬ out.length < size) : Acts (Exec.loop (readRound size) (clus, off, out)) V out V := by
  refine .loop_done ?_
  simp only [readRound, h, false_and, ↓reduceIte]
  exact .pure _ _

/-- The outer loop of `fat12_read` returns: a round that goes on has read a byte. -/
theorem readLoop_total {V : Volume} (hspc : 0 < V.geo.secPerClus) (size clus off : ℕ)
    (out : List UInt8) (hoff : off < V.geo.clusterSize) :
    ∃ out', Acts (Exec.loop (readRound size) (clus, off, out)) V out' V := by
  induction hn : size - out.length using Nat.strong_induction_on generalizing clus off out with
  | _ n ih =>
    by_cases hgo : out.length < size ∧ 2 ≤ clus ∧ clus < fat12Eoc
    swap
    · refine ⟨out, .loop_done ?_⟩
      simp only [readRound, if_neg hgo]
      exact .pure _ _
    obtain ⟨out₁, hout₁, hfull, hnext⟩ := acts_readRound V hgo hoff
    have hlen : out₁.length =
        out.length + min (size - out.length) (V.geo.clusterSize - off) := by
      rw [hout₁, List.length_append, Volume.length_bytesFrom]
    have hcsz : 0 < V.geo.clusterSize := Nat.mul_pos hspc (by decide)
    by_cases hrest : out₁.length < size
    · have hround := hnext hrest
      split at hround
      · exact ⟨out₁, .loop_done hround⟩
      · obtain ⟨out', h⟩ := ih (size - out₁.length) (by omega) (V.fat clus) 0 out₁ hcsz rfl
        exact ⟨out', .loop_next _ _ hround h⟩
    · obtain ⟨off', hround⟩ := hfull hrest
      exact ⟨out₁, .loop_next _ _ hround (acts_readLoop_full V _ _ hrest)⟩

/-- **A round of the outer loop of `fat12_write`** stores what fits in the cluster, and goes on
with the cluster linked behind it, which is a new one at the end of the chain. -/
theorem acts_writeRound (V : Volume) {clus off : ℕ} {src : List UInt8}
    (hgo : src ≠ [] ∧ ¬ (clus < 2 ∨ clus ≥ fat12Eoc)) (hoff : off < V.geo.clusterSize) :
    ∃ V₁ src₁, V₁ = V.store (V.geo.clusterLba clus) off (src.take (V.geo.clusterSize - off)) ∧
      src₁ = src.drop (V.geo.clusterSize - off) ∧
      (src₁ = [] → ∃ off', Acts (writeRound (clus, off, src)) V (.inl (clus, off', src₁)) V₁) ∧
      (src₁ ≠ [] → V₁.fat clus < fat12Eoc →
        Acts (writeRound (clus, off, src)) V (.inl (V₁.fat clus, 0, src₁)) V₁) ∧
      (src₁ ≠ [] → V₁.fat clus ≥ fat12Eoc → Acts (writeRound (clus, off, src)) V
        (if (V₁.append clus).1 = 0 then .inr src₁ else .inl ((V₁.append clus).1, 0, src₁))
        (V₁.append clus).2) := by
  obtain ⟨off', hwrite, ho⟩ :=
    acts_writeCluster (V.geo.clusterLba clus) V V.geo.secPerClus 0 off src
  rw [Nat.zero_mul, Nat.zero_add] at hwrite
  change Acts _ _ (off', src.drop (V.geo.clusterSize - off)) (V.store _ _
    (src.take (V.geo.clusterSize - off))) at hwrite
  refine ⟨_, _, rfl, rfl, fun hrest => ⟨off', ?_⟩, fun hrest he => ?_, fun hrest he => ?_⟩
  · simp only [writeRound, if_pos hgo]
    refine (acts_geometry V).bind (hwrite.bind ?_)
    rw [if_neg (not_not_intro hrest)]
    exact .pure _ _
  all_goals
    have hlen := List.length_pos_of_ne_nil hrest
    rw [List.length_drop] at hlen
    -- bytes are left, so the offset has been used up
    obtain rfl : off' = 0 := by
      have := ho (by unfold Geometry.clusterSize at hlen; omega)
      unfold Geometry.clusterSize at hoff
      omega
    simp only [writeRound, if_pos hgo]
    refine (acts_geometry V).bind (hwrite.bind ?_)
    rw [if_pos hrest]
    refine (acts_fatGet _ clus).bind ?_
  · rw [if_neg (Nat.not_le.mpr he)]
    exact .pure _ _
  · rw [if_pos he]
    refine (acts_appendCluster _ clus).bind ?_
    split <;> exact .pure _ _

/-- The loop of `fat12_write` ends once there is nothing left to write. -/
theorem acts_writeLoop_nil (V : Volume) (clus off : ℕ) :
    Acts (Exec.loop writeRound (clus, off, [])) V [] V := by
  refine .loop_done ?_
  simp only [writeRound, ne_eq, not_true_eq_false, false_and, ↓reduceIte]
  exact .pure _ _

/-- The outer loop of `fat12_write` returns: a round that goes on has written a byte. -/
theorem writeLoop_total {V : Volume} (hspc : 0 < V.geo.secPerClus) (clus off : ℕ)
    (src : List UInt8) (hoff : off < V.geo.clusterSize) :
    ∃ rest V', Acts (writeLoop clus off src) V rest V' := by
  unfold writeLoop
  -- every round that goes on has stored a byte, so the bytes left decrease
  induction hn : src.length using Nat.strong_induction_on generalizing V clus off src with
  | _ n ih =>
    by_cases hgo : src ≠ [] ∧ ¬ (clus < 2 ∨ clus ≥ fat12Eoc)
    swap
    · refine ⟨src, V, .loop_done ?_⟩
      simp only [writeRound, if_neg hgo]
      exact .pure _ _
    obtain ⟨V₁, src₁, hV₁, hsrc₁, hlast, hnext, happend⟩ := acts_writeRound V hgo hoff
    have hgeo : V₁.geo = V.geo := by rw [hV₁, Volume.store_geo]
    have hpos : 0 < src.length := List.length_pos_of_ne_nil hgo.1
    have hlen : src₁.length < n := by
      rw [hsrc₁, List.length_drop]
      omega
    have hcsz : 0 < V.geo.clusterSize := Nat.mul_pos hspc (by decide)
    by_cases hrest : src₁ = []
    · obtain ⟨off', hround⟩ := hlast hrest
      subst hrest
      exact ⟨_, _, .loop_next _ _ hround (acts_writeLoop_nil _ _ _)⟩
    by_cases he : V₁.fat clus ≥ fat12Eoc
    · have hround := happend hrest he
      split at hround
      · exact ⟨_, _, .loop_done hround⟩
      · obtain ⟨rest, V', h⟩ := ih src₁.length hlen (V := (V₁.append clus).2)
          (by rwa [Volume.append_geo, hgeo]) _ 0 src₁ (by rwa [Volume.append_geo, hgeo]) rfl
        exact ⟨rest, V', .loop_next _ _ hround h⟩
    · obtain ⟨rest, V', h⟩ := ih src₁.length hlen (V := V₁) (by rwa [hgeo]) (V₁.fat clus) 0 src₁
        (by rwa [hgeo]) rfl
      exact ⟨rest, V', .loop_next _ _ (hnext hrest (Nat.not_le.mp he)) h⟩

theorem walkExtend_total (V : Volume) : ∀ skip clus, ∃ r V',
    Acts (walkExtend skip clus) V r V' ∧ V'.geo = V.geo
  | 0, clus => ⟨some clus, V, .pure _ _, rfl⟩
  | skip + 1, clus => by
    have hgo : ∀ (U : Volume) (next : ℕ), ∃ r V', Acts (if next = 0 ∨ next ≥ fat12Eoc then
        return none else walkExtend skip next) U r V' ∧ V'.geo = U.geo := by
      intro U next
      by_cases hstop : next = 0 ∨ next ≥ fat12Eoc
      · refine ⟨none, U, ?_, rfl⟩
        rw [if_pos hstop]
        exact .pure _ _
      · rw [if_neg hstop]
        exact walkExtend_total U skip next
    by_cases he : V.fat clus ≥ fat12Eoc
    · obtain ⟨r, V', h, hgeo⟩ := hgo (V.append clus).2 (V.append clus).1
      refine ⟨r, V', (acts_fatGet V clus).bind ?_, hgeo.trans (V.append_geo clus)⟩
      rw [if_pos he]
      exact (acts_appendCluster V clus).bind h
    · obtain ⟨r, V', h, hgeo⟩ := hgo V (V.fat clus)
      refine ⟨r, V', (acts_fatGet V clus).bind ?_, hgeo⟩
      rw [if_neg he]
      exact (Computes.pure _ _).bind h

/-! ## Totality -/

theorem Geometry.clusterSize_pos {g : Geometry} (h : 0 < g.secPerClus) : 0 < g.clusterSize :=
  Nat.mul_pos h (by decide)

/-- **`fat12_read` returns**, whatever the FAT contains, and changes at most the position of its
descriptor. -/
theorem fat12Read_total {V : Volume} (hspc : 0 < V.geo.secPerClus) (fd : ℤ) (n : ℕ) :
    ∃ r V', Acts (fat12Read fd n) V r V' ∧ (V' = V ∨ V.FdValid fd ∧
      ∃ p, V' = V.setFd fd.toNat { V.fds fd.toNat with pos := p }) := by
  by_cases hv : V.FdValid fd
  swap
  · refine ⟨(-1, []), V, (acts_volume V).bind ?_, .inl rfl⟩
    simp only [hv, ↓reduceIte]
    exact .pure _ _
  -- each early return of the source, and then the loop
  set f := V.fds fd.toNat with hf
  by_cases hend : f.pos ≥ f.size
  · refine ⟨(0, []), V, (acts_volume V).bind ?_, .inl rfl⟩
    simp only [hv, ← hf, hend, ↓reduceIte]
    exact .pure _ _
  by_cases hz : min n (f.size - f.pos) = 0 ∨ f.firstCluster = 0
  · refine ⟨(0, []), V, (acts_volume V).bind ?_, .inl rfl⟩
    simp only [hv, ← hf, hend, hz, ↓reduceIte]
    exact .pure _ _
  cases hw : V.walk (f.pos / V.geo.clusterSize) f.firstCluster with
  | none =>
    refine ⟨(0, []), V, (acts_volume V).bind ?_, .inl rfl⟩
    simp only [hv, ← hf, hend, hz, ↓reduceIte]
    refine (acts_walkChain V _ _).bind ?_
    simp only [hw]
    exact .pure _ _
  | some clus =>
    obtain ⟨out, hloop⟩ := readLoop_total hspc (min n (f.size - f.pos)) clus
      (f.pos % V.geo.clusterSize) [] (Nat.mod_lt _ (Geometry.clusterSize_pos hspc))
    refine ⟨(asInt out.length, out), _, (acts_volume V).bind ?_,
      .inr ⟨hv, (f.pos + out.length) % 2 ^ 32, rfl⟩⟩
    simp only [hv, ← hf, hend, hz, ↓reduceIte]
    refine (acts_walkChain V _ _).bind ?_
    simp only [hw]
    exact hloop.bind ((acts_setFd V _ _).bind (.pure _ _))

theorem writeFrom_total {V : Volume} (hspc : 0 < V.geo.secPerClus) (fd : ℕ) (f : FD)
    (src : List UInt8) : ∃ r V', Acts (writeFrom V.geo.clusterSize fd f src) V r V' := by
  obtain ⟨x, U, hwalk, hgeo⟩ := walkExtend_total V (f.pos / V.geo.clusterSize) f.firstCluster
  cases x with
  | none => exact ⟨0, U, hwalk.bind (.pure _ _)⟩
  | some clus =>
    obtain ⟨rest, U', hloop⟩ := writeLoop_total (V := U) (by rwa [hgeo]) clus
      (f.pos % V.geo.clusterSize) src
      (by rw [hgeo]; exact Nat.mod_lt _ (Geometry.clusterSize_pos hspc))
    exact ⟨_, _, hwalk.bind (hloop.bind ((acts_setFd _ _ _).bind (.pure _ _)))⟩

/-- **`fat12_write` returns**, whatever the FAT contains. -/
theorem fat12Write_total {V : Volume} (hspc : 0 < V.geo.secPerClus) (fd : ℤ)
    (src : List UInt8) : ∃ r V', Acts (fat12Write fd src) V r V' := by
  by_cases hv : V.FdValid fd
  swap
  · refine ⟨-1, V, (acts_volume V).bind ?_⟩
    rw [if_neg hv]
    exact .pure _ _
  by_cases hsrc : src = []
  · refine ⟨0, V, (acts_volume V).bind ?_⟩
    rw [if_pos hv, if_pos hsrc]
    exact .pure _ _
  by_cases hfirst : (V.fds fd.toNat).firstCluster = 0
  · cases hc : V.freeCluster with
    | none =>
      refine ⟨-1, V, (acts_volume V).bind ?_⟩
      simp only [if_pos hv, if_neg hsrc, if_pos hfirst]
      refine (acts_fatAlloc V).bind ?_
      simp only [hc, Volume.takeFree_of_none hc, Option.getD_none, ↓reduceIte]
      exact .pure _ _
    | some c =>
      have hc0 := (Volume.freeCluster_spec hc).1.ne_zero
      set f := { V.fds fd.toNat with firstCluster := c } with hf
      set U := ((V.fatSet c fat12Eoc).setFd fd.toNat f).zeroCluster c with hU
      have hgeo : U.geo = V.geo := by simp [hU]
      obtain ⟨r, V', h⟩ := writeFrom_total (V := U) (by rwa [hgeo]) fd.toNat f src
      rw [hgeo] at h
      refine ⟨r, V', (acts_volume V).bind ?_⟩
      simp only [if_pos hv, if_neg hsrc, if_pos hfirst]
      refine (acts_fatAlloc V).bind ?_
      simp only [hc, Volume.takeFree_of_some hc, Option.getD_some, if_neg hc0]
      exact (acts_setFd _ _ _).bind ((acts_zeroCluster _ _).bind h)
  · obtain ⟨r, V', h⟩ := writeFrom_total hspc fd.toNat (V.fds fd.toNat) src
    refine ⟨r, V', (acts_volume V).bind ?_⟩
    simp only [if_pos hv, if_neg hsrc, if_neg hfirst]
    exact h

end WarkRune.Fat12

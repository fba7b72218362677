import WarkRune.Fat12.Files

/-!
# Reading one file while another is written

A descriptor that was opened reads its file to the end, whatever is written through the descriptor
of a new file in between: the new file takes free clusters only, so it meets none of those read.

## Main definitions

* `Volume.Reading`: a descriptor reads a file
* `Volume.freeClusters`: the clusters that are free

## Main results

* `reading_open`, `acts_read`: a file is opened and read
* `filing_write_all`: what fits the free clusters is written
* `Reading.grown`, `Reading.close`: the two files leave each other alone
-/

namespace WarkRune.Fat12

namespace Volume

/-- The descriptor `fd` was opened for the file with the entry `x` in slot `k` of `d`, and is at
position `p`. -/
structure Reading (U : Volume) (fd : ℤ) (d k : ℕ) (x : DirEntry) (m : List ℕ)
    (data : List UInt8) (p : ℕ) : Prop extends U.Records x m data where
  valid : U.FdValid fd
  fd : U.fds fd.toNat = ⟨true, x.firstCluster, x.fileSize, p, d, k⟩

/-- The clusters that are free. -/
def freeClusters (V : Volume) : Finset ℕ :=
  (Finset.Icc 2 (V.geo.totalClusters + 1)).filter fun c => V.fat c = fat12Free

theorem mem_freeClusters {V : Volume} {c : ℕ} :
    c ∈ V.freeClusters ↔ V.geo.InData c ∧ V.fat c = fat12Free := by
  rw [freeClusters, Finset.mem_filter, Finset.mem_Icc, Geometry.InData]

end Volume

open Volume (Filing Reading)

variable {V U W : Volume} {P : ℕ → ℕ → Prop} {path : Path} {dir i d k p : ℕ} {e x : DirEntry}
  {l l' m : List ℕ} {data out : List UInt8} {fd gd : ℤ}

/-! ## The file that is read -/

/-- **A file is opened** through a descriptor that was not in use. -/
theorem reading_open (hf : U.HasFile path d k x m data) (hfree : U.freeFd ≠ none) :
    ∃ (n : ℕ) (W : Volume), Acts (fat12Open path) U n W ∧ W.Reading n d k x m data 0 ∧
      (U.fds n).used = false ∧ W = U.setFd n ⟨true, x.firstCluster, x.fileSize, 0, d, k⟩ := by
  obtain ⟨n, hn⟩ := Option.ne_none_iff_exists'.mp hfree
  have hopen := acts_fat12Open (.file hf.finds hf.plain)
  rw [Volume.openFd_eq hn] at hopen
  have hunused : (U.fds n).used = false := by
    have := List.find?_some hn
    simpa using this
  refine ⟨n, _, hopen, ⟨hf.toRecords.setFd _ _, ⟨Int.natCast_nonneg n, ?_, ?_⟩, ?_⟩, hunused, rfl⟩
  · exact Int.ofNat_lt.mpr (Volume.freeFd_lt hn)
  · simp
  · simp

/-- **A read gives the bytes from the position on**, and only moves the position. -/
theorem acts_read (hg : U.geo.Laid) (hr : U.Reading fd d k x m data p) (n : ℕ) :
    ∃ W, Acts (fat12Read fd n) U
        (((data.drop p).take n).length, (data.drop p).take n) W ∧
      W.Reading fd d k x m data (p + ((data.drop p).take n).length) ∧
      ∃ f, W = U.setFd fd.toNat f := by
  have hholds : U.HoldsFile (U.fds fd.toNat) m := by
    rw [hr.fd]
    exact ⟨hr.clusters, hr.size ▸ hr.room⟩
  have hfile : U.arrayFile fd m = ⟨data, p⟩ := by
    rw [Volume.arrayFile, hr.fd, hr.size]
    exact congrArg (ArrayFile.mk · p) hr.bytes
  have hread := acts_fat12Read hg.bounded hr.valid hholds n
  rw [hfile] at hread
  refine ⟨_, hread, ⟨hr.toRecords.setFd _ _, ⟨hr.valid.1, hr.valid.2.1, ?_⟩, ?_⟩, _, rfl⟩
  · simp only [Volume.setFd_fds, Function.update_self]
    exact hr.valid.2.2
  · simp only [Volume.setFd_fds, Function.update_self, hr.fd]
    rfl

/-- **A file that grows leaves the one that is read alone.** -/
theorem Volume.Reading.grown (hr : U.Reading fd d k x m data p) (hg : U.geo.Laid)
    (hgr : U.Grown W l l') (hout : ∀ c ∈ m, c ∉ l) (hfd : W.fds fd.toNat = U.fds fd.toNat) :
    W.Reading fd d k x m data p ∧ ∀ c ∈ m, c ∉ l' := by
  obtain ⟨hrec, hout'⟩ := hr.toRecords.grown hg hgr hout
  exact ⟨⟨hrec, ⟨hr.valid.1, hr.valid.2.1, hfd ▸ hr.valid.2.2⟩, hfd.trans hr.fd⟩, hout'⟩

/-! ## The file that is written -/

/-- Another descriptor changes. -/
theorem Volume.Filing.setFd_other (hF : V.Filing U dir i e gd l out) {n : ℕ} (hn : n ≠ gd.toNat)
    (f : FD) : V.Filing (U.setFd n f) dir i e gd l out := by
  have hfd : (U.setFd n f).fds gd.toNat = U.fds gd.toNat := by
    rw [Volume.setFd_fds, Function.update_of_ne hn.symm]
  refine ⟨hF.toPlaced.setFd n f, ⟨hF.valid.1, hF.valid.2.1, ?_⟩, ?_, ?_, ?_, ?_, ?_, hF.room,
    hF.bytes⟩
  · rw [hfd]
    exact hF.valid.2.2
  · rw [hfd, hF.size]
  · rw [hfd, hF.pos]
  · rw [hfd, hF.parent]
  · rw [hfd, hF.idx]
  · rw [hfd]
    exact hF.clusters

/-- Once no cluster is free, the file has all that were. -/
theorem Volume.Filing.card_le (hF : V.Filing U dir i e gd l out) (hfull : U.freeCluster = none) :
    V.freeClusters.card ≤ l.length := by
  -- a cluster that was free and is not in the file would be free still
  have hsub : V.freeClusters ⊆ l.toFinset := by
    intro c hc
    obtain ⟨hdata, hfree⟩ := Volume.mem_freeClusters.mp hc
    by_contra hcl
    rw [List.mem_toFinset] at hcl
    have hstill : U.fat c = fat12Free := (hF.fat c hdata hcl).trans hfree
    exact Volume.freeCluster_eq_none.mp hfull c (by rwa [hF.geo]) hstill
  exact (Finset.card_le_card hsub).trans (List.toFinset_card_le l)

/-- **What fits the clusters that were free is written.** -/
theorem filing_write_all (h : V.Sound P) (hF : V.Filing U dir i e gd l out) (src : List UInt8)
    (hroom : out.length + src.length ≤ V.freeClusters.card * V.geo.clusterSize) :
    ∃ (r : ℤ) (W : Volume) (l' : List ℕ), Acts (fat12Write gd src) U r W ∧
      V.Filing W dir i e gd l' (out ++ src) ∧ U.Grown W l l' ∧
      ∀ k ≠ gd.toNat, W.fds k = U.fds k := by
  obtain ⟨r, W, l', hw, hF', hgr, hfds, hshort⟩ := filing_grows h hF src
  have hall : src.length ≤ r.toNat := by
    -- a write that stops early has filled all clusters
    by_contra hlt
    rw [Nat.not_le] at hlt
    obtain ⟨hfull, hlen⟩ := hshort hlt
    have hcard := Nat.mul_le_mul_right V.geo.clusterSize (hF'.card_le hfull)
    rw [hF'.geo, List.length_append, List.length_take, Nat.min_eq_left hlt.le] at hlen
    omega
  rw [List.take_of_length_le hall] at hF'
  exact ⟨r, W, l', hw, hF', hgr, hfds⟩

/-- **Closing the file that was read changes nothing else**: its entry records what it did. -/
theorem Volume.Reading.close (hr : U.Reading fd d k x m data p)
    (hF : V.Filing U dir i e gd l out) (hd : V.DirAt d) (hx : V.slot d k = some x)
    (hne : (d, k) ≠ (dir, i)) (hfd : fd.toNat ≠ gd.toNat) :
    V.Filing (U.close fd) dir i e gd l out := by
  have hslot : U.slot d k = some x := by
    rw [hF.slot d hd, if_neg fun he => hne (Prod.ext he.1 he.2), hx]
  have hself : x.setRecord x.fileSize x.firstCluster = x :=
    (x.setRecord_eq_self_iff x.fileSize_lt x.firstCluster_lt).mpr ⟨rfl, rfl⟩
  have hflush : U.flush fd = U := by
    rw [Volume.flush, if_pos hr.valid]
    simp only [hr.fd, hslot]
    rw [hself, Volume.setSlot_self hslot]
  have hin : ¬ (fd < 0 ∨ fd ≥ maxFds) := by
    rintro (hlt | hge)
    · exact absurd hr.valid.1 (not_le.mpr hlt)
    · exact absurd hr.valid.2.1 (not_lt.mpr hge)
  rw [Volume.close, if_neg hin, hflush]
  exact hF.setFd_other hfd _

end WarkRune.Fat12

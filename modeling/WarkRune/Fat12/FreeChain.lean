import WarkRune.Links.Follow
import WarkRune.Fat12.Bits
import WarkRune.Fat12.Total

/-!
# Freeing on any FAT

`fat_free_chain` frees what it walks over. The FAT may hold anything: chains that run into a
cycle or into each other, or end in a free entry, in a reserved one or in the mark of a bad
cluster. On a cycle the walk comes back to an entry it has freed, and ends there, unless the disk
refuses to write: then nothing is freed, and the walk goes round for ever.

## Main definitions

* `Volume.Reached V c d`: following the links of `V` from `c` on leads to `d`

## Main results

* `fatFreeChain_exact`: the entries reached are freed and no others
* `fatFreeChain_refused`: on a disk that refuses to write, the walk of a cycle does not return
-/

namespace WarkRune.Fat12

open Exec (Always)

/-- Following links from `c` on, through numbers that a link may lead to, leads to `d`. -/
def Volume.Reached (V : Volume) (c : ℕ) : ℕ → Prop :=
  Links.Followed V.fat (fun d => 2 ≤ d ∧ d < fat12Bad) c

variable {V V' : Volume} {c d : ℕ}

theorem Frees.geo (h : Frees V c V') : V'.geo = V.geo ∧ V'.fds = V.fds := by
  induction h with
  | stop _ => exact ⟨rfl, rfl⟩
  | last _ _ => exact ⟨Volume.fatSet_geo .., Volume.fatSet_fds ..⟩
  | next _ _ _ ih =>
    exact ⟨ih.1.trans (Volume.fatSet_geo ..), ih.2.trans (Volume.fatSet_fds ..)⟩

section Exact

variable (hs : V.geo.fatSize < 2 ^ 16)
include hs

/-- What is reached once the first entry is freed. -/
theorem reached_iff (hc : 2 ≤ c ∧ c < fat12Bad) (hin : ∀ x, V.Reached c x → V.geo.InFat x) :
    V.Reached c d ↔ d = c ∨ (V.fatSet c fat12Free).Reached (V.fat c) d := by
  have hfirst := hin c (.start hc)
  refine Links.followed_iff_of_cut hc ?_ fun x hx hxc => ?_
  · rw [fat_fatSet_free]
    decide
  · rw [Volume.fat_fatSet_of_inFat hs hfirst (by decide) (hin x hx), if_neg hxc]

end Exact

/-- **The entries reached are freed and no others**, in the first copy and in the second one. -/
theorem Frees.exact (h : Frees V c V') (hs : V.geo.fatSize < 2 ^ 16)
    (hin : ∀ x, V.Reached c x → V.geo.InFat x) {k n : ℕ} (hk : k = 0 ∨ k = 1 ∧ 1 < V.geo.numFats)
    (hb : n < V.geo.fatSize * 512 * 8) :
    (V.Reached c (n / 12) → V'.fatBit k n = false) ∧
      (¬ V.Reached c (n / 12) → V'.fatBit k n = V.fatBit k n) := by
  induction h with
  | stop hc => exact ⟨fun hr => absurd hr.ok_start hc, fun _ => rfl⟩
  | @last V c hc hf =>
    have hiff := reached_iff (d := n / 12) hs hc hin
    -- the link ends the walk, so what is reached is the first entry
    have hstop : ¬ (V.fatSet c fat12Free).Reached (V.fat c) (n / 12) := fun hr => by
      have hlt := hr.ok_start.2
      simp only [fat12Bad, fat12Eoc] at hlt hf
      omega
    rw [Volume.fatBit_fatSet hs (hin c (.start hc)) hk hb, hiff, or_iff_left hstop]
    constructor
    · intro hr
      rw [if_pos hr]
      exact Nat.zero_testBit _
    · intro hr
      rw [if_neg hr]
  | @next V V' c hc hf hr ih =>
    have hfirst := hin c (.start hc)
    have hiff := reached_iff (d := n / 12) hs hc hin
    -- the rest of the walk runs on the FAT with the first entry freed
    have hin' : ∀ x, (V.fatSet c fat12Free).Reached (V.fat c) x →
        (V.fatSet c fat12Free).geo.InFat x := by
      intro x hx
      rw [Volume.fatSet_geo]
      exact hin x ((reached_iff hs hc hin).mpr (.inr hx))
    rw [Volume.fatSet_geo] at ih
    obtain ⟨hfree, hkeep⟩ := ih hs (by simpa using hin') hk hb
    have hset := Volume.fatBit_fatSet (v := fat12Free) hs hfirst hk hb
    constructor
    · intro hd
      by_cases hr' : (V.fatSet c fat12Free).Reached (V.fat c) (n / 12)
      · exact hfree hr'
      · have hdc := (hiff.mp hd).resolve_right hr'
        rw [hkeep hr', hset, if_pos hdc]
        exact Nat.zero_testBit _
    · intro hd
      rw [hiff, not_or] at hd
      rw [hkeep hd.2, hset, if_neg hd.1]

/-- An entry is its twelve bits in the first copy. -/
theorem Frees.fat (h : Frees V c V') (hs : V.geo.fatSize < 2 ^ 16)
    (hin : ∀ x, V.Reached c x → V.geo.InFat x) (hd : V.geo.InFat d) :
    (V.Reached c d → V'.fat d = fat12Free) ∧ (¬ V.Reached c d → V'.fat d = V.fat d) := by
  have hbit : ∀ j < 12, (V.Reached c d → V'.fatBit 0 (12 * d + j) = false) ∧
      (¬ V.Reached c d → V'.fatBit 0 (12 * d + j) = V.fatBit 0 (12 * d + j)) := by
    intro j hj
    unfold Geometry.InFat at hd
    have hn := h.exact hs hin (k := 0) (n := 12 * d + j) (.inl rfl) (by omega)
    rwa [show (12 * d + j) / 12 = d by omega] at hn
  constructor
  · intro hr
    apply Nat.eq_of_testBit_eq
    intro j
    rw [Volume.testBit_fat, fat12Free, Nat.zero_testBit, Bool.and_eq_false_imp, decide_eq_true_eq]
    exact fun hj => (hbit j hj).1 hr
  · intro hr
    apply Nat.eq_of_testBit_eq
    intro j
    rw [Volume.testBit_fat, Volume.testBit_fat]
    by_cases hj : j < 12
    · rw [(hbit j hj).2 hr]
    · simp [hj]

/-- **`fat_free_chain` on any FAT**: whatever the FAT holds, the walk ends, it frees the entries
reached from its start on, and it leaves every other entry as it was, in the first copy and in the
second one. -/
theorem fatFreeChain_exact (hs : V.geo.fatSize < 2 ^ 16)
    (hin : ∀ x, V.Reached c x → V.geo.InFat x) :
    ∃ V', Acts (fatFreeChain c) V () V' ∧ V'.geo = V.geo ∧ V'.fds = V.fds ∧
      (∀ d, V.Reached c d → V'.fat d = fat12Free) ∧
      (∀ d, V.geo.InFat d → ¬ V.Reached c d → V'.fat d = V.fat d) ∧
      ∀ k, k = 0 ∨ k = 1 ∧ 1 < V.geo.numFats → ∀ n < V.geo.fatSize * 512 * 8,
        (V.Reached c (n / 12) → V'.fatBit k n = false) ∧
        (¬ V.Reached c (n / 12) → V'.fatBit k n = V.fatBit k n) := by
  obtain ⟨V', h⟩ := frees_total V c
  exact ⟨V', acts_fatFreeChain h, h.geo.1, h.geo.2, fun d hr => (h.fat hs hin (hin d hr)).1 hr,
    fun d hd => (h.fat hs hin hd).2, fun k hk n hn => h.exact hs hin hk hn⟩

/-- The small volume with a cycle of two clusters and a third one linked into it. -/
def cyclicFat : Volume :=
  .build smallGeometry (fun c => [0xFFF, 0xFFF, 3, 2, 3].getD c 0) (fun _ => .zero) fun _ _ _ => 0

theorem cyclicFat_fat {c : ℕ} (hc : c ≤ 4) : cyclicFat.fat c = [0xFFF, 0xFFF, 3, 2, 3].getD c 0 := by
  refine build_fat smallGeometry_plain _ _ _ (fun d => ?_) (hc.trans (by decide))
  match d with
  | 0 | 1 | 2 | 3 | 4 => decide
  | d + 5 =>
    change 0 < 4096
    decide

theorem cyclicFat_reached (h : cyclicFat.Reached 2 d) : d = 2 ∨ d = 3 := by
  induction h with
  | start _ => exact .inl rfl
  | link _ _ ih =>
    obtain rfl | rfl := ih
    · exact .inr (cyclicFat_fat (by decide))
    · exact .inl (cyclicFat_fat (by decide))

/-- The theorem on the cycle: both clusters are freed, and the one linked into it is not. -/
theorem fatFreeChain_exact_cycle : ∃ V', Acts (fatFreeChain 2) cyclicFat () V' ∧
    V'.fat 2 = fat12Free ∧ V'.fat 3 = fat12Free ∧ V'.fat 4 = 3 := by
  have hstart : cyclicFat.Reached 2 2 := .start (by decide)
  have hlink : cyclicFat.fat 2 = 3 := cyclicFat_fat (by decide)
  have hnext : cyclicFat.Reached 2 3 := by
    rw [← hlink]
    exact .link hstart (by rw [hlink]; decide)
  obtain ⟨V', h, -, -, hfree, hkeep, -⟩ := fatFreeChain_exact (V := cyclicFat) (c := 2) (by decide)
    fun x hx => by obtain rfl | rfl := cyclicFat_reached hx <;> decide
  refine ⟨V', h, hfree 2 hstart, hfree 3 hnext, ?_⟩
  rw [hkeep 4 (by decide) fun h4 => by simpa using cyclicFat_reached h4]
  exact cyclicFat_fat (by decide)

/-! ## Writes that are refused -/

theorem returns_ataWait {s s' : Driver} {ok : Bool} :
    ataWait.Returns s ok s' ↔ ok = s.wait s.waits ∧ s' = { s with waits := s.waits + 1 } := by
  simp [ataWait, -bind_pure_comp, and_comm]

theorem readBuf_waits {s s' : Driver} {lba : ℕ} {b : Sector} (hr : (readBuf lba).Returns s b s') :
    s.waits < s'.waits := by
  obtain ⟨ok, s₁, hread, hr⟩ := Exec.returns_bind.mp hr
  obtain ⟨ok', s₂, hwait, hread⟩ := Exec.returns_bind.mp hread
  obtain ⟨-, rfl⟩ := returns_ataWait.mp hwait
  have hle : (s.waits + 1) ≤ s₁.waits := by
    split_ifs at hread
    · simp only [record, Exec.returns_bind, Exec.returns_modify, Exec.returns_pure] at hread
      obtain ⟨_, _, rfl, _, _, rfl, -, rfl⟩ := hread
      exact le_rfl
    · simp only [record, Exec.returns_bind, Exec.returns_modify, Exec.returns_pure] at hread
      obtain ⟨_, _, rfl, -, rfl⟩ := hread
      exact le_rfl
  simp only [gBuf, record, Exec.returns_bind, Exec.returns_modify, Exec.returns_get,
    Exec.returns_pure] at hr
  obtain ⟨_, _, rfl, _, _, ⟨rfl, rfl⟩, -, rfl⟩ := hr
  exact hle

/-- A sector that is read. -/
theorem readBuf_of_ok {s s' : Driver} {lba : ℕ} {b : Sector} (h : s.wait s.waits = true)
    (hr : (readBuf lba).Returns s b s') :
    b = s.vol.sector (lba % 2 ^ 32) ∧ s'.vol = s.vol ∧ s'.wait = s.wait ∧
      s'.waits = s.waits + 1 := by
  simp only [readBuf, readSector, ataRead, gBuf, record, Exec.returns_bind, returns_ataWait,
    Exec.returns_modify, Exec.returns_get, Exec.returns_pure] at hr
  obtain ⟨_, s₁, ⟨_, s₂, ⟨rfl, rfl⟩, hr⟩, _, _, rfl, _, _, ⟨rfl, rfl⟩, rfl, rfl⟩ := hr
  rw [if_pos h] at hr
  simp only [Exec.returns_bind, Exec.returns_modify, Exec.returns_pure] at hr
  obtain ⟨_, _, rfl, _, _, rfl, rfl, rfl⟩ := hr
  exact ⟨rfl, rfl, rfl, rfl⟩

/-- A sector that is read, and that the disk refuses to write back. -/
theorem modifySector_of_refused {s s' : Driver} {lba : ℕ} {f : Sector → Sector}
    (h : s.wait s.waits = true) (h' : s.wait (s.waits + 1) = false)
    (hr : (modifySector lba f).Returns s () s') :
    s'.vol = s.vol ∧ s'.wait = s.wait ∧ s'.waits = s.waits + 2 := by
  obtain ⟨_, s₁, h₁, hr⟩ := Exec.returns_bind.mp hr
  obtain rfl := Exec.returns_modify.mp h₁
  obtain ⟨b, s₂, h₂, hr⟩ := Exec.returns_bind.mp hr
  obtain ⟨-, hv, hw, hn⟩ := readBuf_of_ok (by exact h) h₂
  obtain ⟨_, s₃, h₃, hr⟩ := Exec.returns_bind.mp hr
  obtain rfl := Exec.returns_modify.mp h₃
  simp only [writeSector, ataWrite, record, Exec.returns_bind, returns_ataWait,
    Exec.returns_modify, Exec.returns_pure] at hr
  obtain ⟨_, s₄, ⟨_, _, rfl, _, s₅, ⟨rfl, rfl⟩, hr⟩, -, rfl⟩ := hr
  have hno : s₂.wait s₂.waits = false := by
    rw [hw, hn]
    exact h'
  rw [if_neg (by simpa using hno)] at hr
  obtain ⟨-, rfl⟩ := Exec.returns_pure.mp hr
  exact ⟨hv, hw, congrArg (· + 1) hn⟩

/-- The small volume with the file `F` in slot 0 of the root directory, whose only cluster is linked
to itself. -/
def selfLinked : Volume :=
  .build smallGeometry (fun c => if c = 2 then 2 else if c < 2 then 0xFFF else 0)
    (fun i => if i = 0 then letterEntry 70 attrArch 2 else .zero) fun _ _ _ => 0

/-- After a first read, every fifth transfer and the second one behind it are refused. These are the
writes of the rounds of `fat_free_chain`, each of which reads three times. -/
def refusesWrites (n : ℕ) : Bool := n = 0 ∨ n % 5 ≠ 3 ∧ n % 5 ≠ 0

/-- Of a round of `fat_free_chain` on the disk, `j` transfers have been made, and nothing is freed. -/
def Refused (j : ℕ) (s : Driver) : Prop :=
  s.vol = selfLinked ∧ s.wait = refusesWrites ∧ s.waits ≠ 0 ∧ s.waits % 5 = (j + 1) % 5

theorem Refused.readBuf {j : ℕ} {s s' : Driver} {lba : ℕ} {b : Sector} (h : Refused j s)
    (hj : j % 5 ≠ 2 ∧ j % 5 ≠ 4) (hr : (readBuf lba).Returns s b s') :
    b = selfLinked.sector (lba % 2 ^ 32) ∧ Refused (j + 1) s' := by
  obtain ⟨hvol, hwait, h0, hn⟩ := h
  have hok : s.wait s.waits = true := by
    rw [hwait, refusesWrites, decide_eq_true_eq]
    omega
  obtain ⟨rfl, hv, hw, hk⟩ := readBuf_of_ok hok hr
  exact ⟨by rw [hvol], hv.trans hvol, hw.trans hwait, by omega, by omega⟩

theorem Refused.modifySector {j : ℕ} {s s' : Driver} {lba : ℕ} {f : Sector → Sector}
    (h : Refused j s) (hj : j = 1 ∨ j = 3) (hr : (modifySector lba f).Returns s () s') :
    Refused (j + 2) s' := by
  obtain ⟨hvol, hwait, h0, hn⟩ := h
  have hok : s.wait s.waits = true := by
    rw [hwait, refusesWrites, decide_eq_true_eq]
    omega
  have hno : s.wait (s.waits + 1) = false := by
    rw [hwait, refusesWrites, decide_eq_false_iff_not]
    omega
  obtain ⟨hv, hw, hk⟩ := modifySector_of_refused hok hno hr
  exact ⟨hv.trans hvol, hw.trans hwait, by omega, by omega⟩

/-- A round that goes on has made a transfer. -/
theorem freeRound_waits {c c' : ℕ} {s s' : Driver} (h : (freeRound c).Returns s (.inl c') s') :
    s'.wait = s.wait ∧ s.waits < s'.waits := by
  have hio := (keptIoOnly.freeRound c _ _ _ h).2.2.1
  refine ⟨hio, ?_⟩
  rw [freeRound] at h
  split_ifs at h
  · obtain ⟨next, s₁, hget, h⟩ := Exec.returns_bind.mp h
    have hlt : s.waits < s₁.waits := by
      obtain ⟨g, t, hg, hlook⟩ := Exec.returns_bind.mp hget
      obtain ⟨b, t₁, hread, hlook⟩ := Exec.returns_bind.mp hlook
      have hstart := (Kept.geometry (R := IoOnly) _ _ _ hg).2.2.2
      refine hstart.trans_lt ((readBuf_waits hread).trans_le ?_)
      split_ifs at hlook
      · exact (Always.bind (keptIoOnly.readBuf _) (fun _ => .pure _) _ _ _ hlook).2.2.2
      · exact (Always.pure (R := IoOnly) _ _ _ _ hlook).2.2.2
    obtain ⟨_, s₂, hset, h⟩ := Exec.returns_bind.mp h
    have hle := (keptIoOnly.fatSet _ _ _ _ _ hset).2.2.2
    split_ifs at h
    · simp at h
    · obtain ⟨-, rfl⟩ := Exec.returns_pure.mp h
      exact hlt.trans_le hle
  · simp at h

/-- A round frees nothing, and comes back to the cluster it started from. -/
theorem Refused.freeRound {s s' : Driver} {x : ℕ ⊕ Unit} (h : Refused 0 s)
    (hr : (freeRound 2).Returns s x s') : x = .inl 2 ∧ Refused 0 s' := by
  rw [Fat12.freeRound, if_pos (by decide)] at hr
  have hgeo := congrArg Volume.geo h.1
  obtain ⟨next, s₁, hget, hr⟩ := Exec.returns_bind.mp hr
  obtain ⟨g, t, hg, hget⟩ := Exec.returns_bind.mp hget
  obtain ⟨rfl, rfl⟩ := geometry_returns hg
  obtain ⟨b, t₁, hread, hget⟩ := Exec.returns_bind.mp hget
  rw [hgeo] at hread
  obtain ⟨rfl, h₁⟩ := h.readBuf (by decide) hread
  obtain ⟨rfl, rfl⟩ := Exec.returns_pure.mp hget
  obtain ⟨_, s₂, hset, hend⟩ := Exec.returns_bind.mp hr
  obtain ⟨g, t₂, hg, hset⟩ := Exec.returns_bind.mp hset
  obtain ⟨rfl, rfl⟩ := geometry_returns hg
  rw [congrArg Volume.geo h₁.1] at hset
  obtain ⟨_, t₃, hfst, hset⟩ := Exec.returns_bind.mp hset
  have h₂ := h₁.modifySector (.inl rfl) hfst
  have h₃ := h₂.modifySector (.inr rfl) hset
  rw [if_neg (by decide +kernel)] at hend
  obtain ⟨rfl, rfl⟩ := Exec.returns_pure.mp hend
  exact ⟨congrArg Sum.inl (by decide +kernel), h₃⟩

theorem selfLinked_fat : selfLinked.fat 2 = 2 := by decide +kernel

theorem not_halts_fatFreeChain {s : Driver} (h : Refused 0 s) : ¬ (fatFreeChain 2).Halts s := by
  refine Exec.not_halts_loop (I := fun c s => c = 2 ∧ Refused 0 s) ?_ ⟨rfl, h⟩
  rintro _ s ⟨rfl, h⟩
  obtain ⟨x, s', hr⟩ := total_freeRound 2 s
  obtain ⟨rfl, h'⟩ := h.freeRound hr
  exact ⟨2, s', hr, rfl, h'⟩

/-- **A cycle on a disk that refuses to write**: every entry visited lies inside the FAT, and
`fat_free_chain` does not return. -/
theorem fatFreeChain_refused :
    (∀ d, selfLinked.Reached 2 d → selfLinked.geo.InFat d) ∧
      ¬ (fatFreeChain 2).Halts { selfLinked.driver with wait := refusesWrites, waits := 1 } := by
  constructor
  · intro d hd
    obtain rfl : d = 2 := by
      induction hd with
      | start _ => rfl
      | link _ _ ih => rw [ih, selfLinked_fat]
    decide
  · exact not_halts_fatFreeChain ⟨rfl, rfl, by decide, rfl⟩

end WarkRune.Fat12

import WarkRune.Syscall.Writes

/-!
# What the listing call leaves in the buffer

`SYS_FS` hands every entry of a directory to `ls_cb`, which appends a line to the buffer of the
caller as far as there is room. The listing is the text of all lines. Whatever entries have been
delivered, the position and the buffer are determined by the text of their lines: it is cut off two
bytes before the end of the buffer, so what follows the cut, be it short, finds no room either.

## Main definitions

* `listing`: the text of the entries
* `lsFill`: the call behind `fat12_ls`

## Main results

* `returns_lsCb`: an entry appends its line
* `lsFill_returns`: the entries leave the listing cut off
* `syscallHandler_ls_fills`: the buffer holds the listing as far as it has room, and a NUL
-/

namespace WarkRune.Syscall

open Bytes (Memory)
open Fat12 (Listed cString fat12Ls)
open Traced (Within)

/-- The line of an entry: `/` in front of a directory, the name and a newline. -/
def line (e : Listed) : List UInt8 := (if e.2.2 then [47] else []) ++ cString e.1 ++ [10]

/-- The full listing. -/
def listing (entries : List Listed) : List UInt8 := entries.flatMap line

/-- `SYS_FS` with the operation `a = 0`, behind `fat12_ls`. -/
def lsFill (c d : BitVec 32) (entries : List Listed) : Sys (BitVec 32) := do
  let pos ← entries.foldlM (lsCb c.toNat d.toInt) 0
  (if pos < d.toInt then putByte (c.toNat + pos) 0 else pure ())
  return .ofNat 32 pos

section Fill

variable {b c d : BitVec 32} {t : List UInt8} {s : Kernel}

/-- The position behind a text. -/
def lsPos (d : BitVec 32) (t : List UInt8) : ℕ := min t.length (d.toNat - 2)

/-- The kernel with a text in the buffer, as far as there is room. -/
def listed (c d : BitVec 32) (s : Kernel) (t : List UInt8) : Kernel :=
  s.setMem (s.mem.storeBytes c.toNat ((t.take (d.toNat - 2)).map UInt8.toBitVec))

/-- A text without room for more is not changed by what follows. -/
theorem lsPos_full (h : d.toNat - 2 ≤ t.length) (u : List UInt8) : lsPos d (t ++ u) = lsPos d t := by
  rw [lsPos, lsPos, List.length_append]
  omega

theorem listed_full (h : d.toNat - 2 ≤ t.length) (u : List UInt8) :
    listed c d s (t ++ u) = listed c d s t := by
  rw [listed, listed, List.take_append_of_le_length h]

/-- **A byte** is appended to the text. -/
theorem returns_lsPut (hint : d.toInt = d.toNat) (x : UInt8) :
    (lsPut c.toNat d.toInt (lsPos d t) x).erase.Returns (listed c d s t) (lsPos d (t ++ [x]))
      (listed c d s (t ++ [x])) := by
  rw [lsPut, Traced.erase_ite]
  by_cases hroom : t.length < d.toNat - 2
  · have hpos : lsPos d t = t.length := by
      rw [lsPos]
      omega
    have hpos' : lsPos d (t ++ [x]) = t.length + 1 := by
      rw [lsPos, List.length_append, List.length_singleton]
      omega
    rw [if_pos (by omega), hpos, hpos']
    -- the whole text is in the buffer before the byte and after it
    have htake : (t ++ [x]).take (d.toNat - 2) = t ++ [x] := by
      apply List.take_of_length_le
      rw [List.length_append, List.length_singleton]
      omega
    have hmem : (listed c d s t).setMem ((listed c d s t).mem.store8 (c.toNat + t.length) x.toNat) =
        listed c d s (t ++ [x]) := by
      unfold listed
      rw [htake, List.take_of_length_le (by omega), List.map_append, Memory.storeBytes_append,
        List.length_map]
      rfl
    rw [Traced.erase_bind]
    refine Exec.returns_bind.mpr ⟨(), _, ?_, Exec.returns_pure.mpr ⟨rfl, rfl⟩⟩
    rw [← hmem, putByte]
    simp
  · rw [if_neg (by rw [lsPos]; omega), lsPos_full (by omega), listed_full (by omega)]
    exact Exec.returns_pure.mpr ⟨rfl, rfl⟩

/-- The bytes of a name are appended one after the other. -/
theorem returns_lsPuts (hint : d.toInt = d.toNat) (u : List UInt8) :
    (u.foldlM (lsPut c.toNat d.toInt) (lsPos d t)).erase.Returns (listed c d s t)
      (lsPos d (t ++ u)) (listed c d s (t ++ u)) := by
  induction u generalizing t with
  | nil =>
    rw [List.append_nil]
    exact Exec.returns_pure.mpr ⟨rfl, rfl⟩
  | cons x u ih =>
    rw [List.append_cons, List.foldlM_cons, Traced.erase_bind]
    exact Exec.returns_bind.mpr ⟨_, _, returns_lsPut hint x, ih⟩

/-- **An entry** appends its line: without room for a byte of it nothing is stored, as if every byte
of the line had been tried. -/
theorem returns_lsCb (hint : d.toInt = d.toNat) (e : Listed) :
    (lsCb c.toNat d.toInt (lsPos d t) e).erase.Returns (listed c d s t) (lsPos d (t ++ line e))
      (listed c d s (t ++ line e)) := by
  rw [lsCb, Traced.erase_ite]
  by_cases hroom : t.length < d.toNat - 2
  · rw [if_neg (by rw [lsPos]; omega), line, ← List.append_assoc, ← List.append_assoc]
    simp only [Traced.erase_bind]
    refine Exec.returns_bind.mpr ⟨_, _, ?_, Exec.returns_bind.mpr
      ⟨_, _, returns_lsPuts hint (cString e.1), returns_lsPut hint 10⟩⟩
    rw [Traced.erase_ite]
    cases e.2.2 with
    | true => exact returns_lsPut hint 47
    | false =>
      rw [if_neg Bool.false_ne_true, if_neg Bool.false_ne_true, List.append_nil]
      exact Exec.returns_pure.mpr ⟨rfl, rfl⟩
  · rw [if_pos (by rw [lsPos]; omega), lsPos_full (by omega), listed_full (by omega)]
    exact Exec.returns_pure.mpr ⟨rfl, rfl⟩

theorem returns_lsCbs (hint : d.toInt = d.toNat) (entries : List Listed) :
    (entries.foldlM (lsCb c.toNat d.toInt) (lsPos d t)).erase.Returns (listed c d s t)
      (lsPos d (t ++ listing entries)) (listed c d s (t ++ listing entries)) := by
  induction entries generalizing t with
  | nil =>
    rw [listing, List.flatMap_nil, List.append_nil]
    exact Exec.returns_pure.mpr ⟨rfl, rfl⟩
  | cons e entries ih =>
    rw [listing, List.flatMap_cons, ← List.append_assoc, List.foldlM_cons, Traced.erase_bind]
    exact Exec.returns_bind.mpr ⟨_, _, returns_lsCb hint e, ih⟩

/-- **The entries** leave the listing cut off in the buffer, and a NUL behind it where the buffer is
not empty. -/
theorem lsFill_returns (hint : d.toInt = d.toNat) (entries : List Listed) :
    (lsFill c d entries).erase.Returns s (.ofNat 32 (lsPos d (listing entries)))
      (if 0 < d.toNat then (listed c d s (listing entries)).setMem
          ((listed c d s (listing entries)).mem.store8
            (c.toNat + lsPos d (listing entries)) 0)
        else listed c d s (listing entries)) := by
  have hfold := returns_lsCbs (t := []) (c := c) (s := s) hint entries
  have hstart : listed c d s [] = s := by
    rw [listed, List.take_nil]
    rfl
  rw [List.nil_append, hstart] at hfold
  rw [lsFill, Traced.erase_bind]
  refine Exec.returns_bind.mpr ⟨_, _, hfold, ?_⟩
  rw [Traced.erase_bind, Traced.erase_ite]
  refine Exec.returns_bind.mpr ⟨(), _, ?_, Exec.returns_pure.mpr ⟨rfl, rfl⟩⟩
  by_cases hd : 0 < d.toNat
  · rw [if_pos (by rw [lsPos]; omega), if_pos hd, putByte]
    simp
  · rw [if_neg (by rw [lsPos]; omega), if_neg hd]
    exact Exec.returns_pure.mpr ⟨rfl, rfl⟩

theorem within_lsFill (h : Inside c d.toNat) (entries : List Listed) :
    (lsFill c d entries).Within s (At c d.toNat) := by
  have hint := h.toInt
  refine .bind ?_ fun pos _ _ => .bind ?_ fun _ _ _ => .pure _
  · rw [hint]
    exact .foldlM (fun _ _ _ => within_lsCb h fun _ hx => hx) _ _
  · refine .ite (fun hpos => within_putByte (h.mod ?_)) fun _ => .pure _
    omega

/-- The buffer holds the text it was given. -/
theorem bytesAt_listed (h : Inside c d.toNat) (t : List UInt8) :
    bytesAt (listed c d s t).mem c.toNat (lsPos d t) = t.take (lsPos d t) := by
  obtain ⟨-, hend⟩ := h
  have hspace : userSpaceEnd ≤ 2 ^ 32 := by decide
  have hlen : (t.take (d.toNat - 2)).length = lsPos d t := by
    rw [List.length_take, lsPos, Nat.min_comm]
  refine List.ext_getElem (by simp [bytesAt, lsPos]) fun i hi hi' => ?_
  have hi₁ : i < lsPos d t := by simpa [bytesAt] using hi
  have hpos : lsPos d t ≤ d.toNat := by
    rw [lsPos]
    omega
  have hi₂ : i < ((t.take (d.toNat - 2)).map UInt8.toBitVec).length := by
    rwa [List.length_map, hlen]
  have hbound : c.toNat + ((t.take (d.toNat - 2)).map UInt8.toBitVec).length ≤ 2 ^ 32 := by
    rw [List.length_map, hlen]
    omega
  simp only [bytesAt, List.getElem_map, List.getElem_range, List.getElem_take]
  change UInt8.ofNat ((s.mem.storeBytes c.toNat _).load8 (c.toNat + i)) = _
  rw [Memory.load8_storeBytes hbound hi₂, List.getElem_map, List.getElem_take]
  exact UInt8.ofNat_toNat

/-- The memory elsewhere stays. -/
theorem listed_apply (h : Inside c d.toNat) {x : ℕ} (hx : ¬ At c d.toNat x) (t : List UInt8) :
    (listed c d s t).mem x = s.mem x := by
  obtain ⟨-, hend⟩ := h
  have hspace : userSpaceEnd ≤ 2 ^ 32 := by decide
  have hlen : ((t.take (d.toNat - 2)).map UInt8.toBitVec).length ≤ d.toNat := by
    rw [List.length_map, List.length_take]
    omega
  rw [At, not_and_or] at hx
  exact Memory.sameOn_storeBytes (n := 1) (by omega) (by omega) x (Nat.le_refl x)
    (Nat.lt_succ_self x)

end Fill

/-- **The listing call fills its buffer safely.** With pointers that pass the check the call hands
the entries of the directory to `lsFill`. Whatever the entries are, this stores in the buffer only
and returns a position in it; where the buffer has two bytes or more, there is a NUL at the
position, and the bytes before are as much of the listing as fits in front of two bytes. -/
theorem syscallHandler_ls_fills (sv : Services) {b c d : BitVec 32} (hb : validUserPtr b 0 = true)
    (hc : validUserPtr c d = true) :
    (syscallHandler sv ⟨14, 0, b, c, d⟩ = do
      let path ← copyKpath b
      let s ← get
      let l ← (fat12Ls s.lsEntry path).on Kernel.fatPart
      lsFill c d (l.getD [])) ∧
    ∀ (entries : List Listed) (s : Kernel),
      (lsFill c d entries).Within s (At c d.toNat) ∧
      ∃ (k : BitVec 32) (m : Memory), (lsFill c d entries).erase.Returns s k (s.setMem m) ∧
        (∀ x, ¬ At c d.toNat x → m x = s.mem x) ∧ k.toNat ≤ d.toNat ∧
        (2 ≤ d.toNat → m.load8 (c.toNat + k.toNat) = 0 ∧
          k.toNat = min (d.toNat - 2) (listing entries).length ∧
          bytesAt m c.toNat k.toNat = (listing entries).take k.toNat) := by
  have hin : Inside c d.toNat := validUserPtr_iff.mp hc
  refine ⟨?_, fun entries s => ⟨within_lsFill hin entries, ?_⟩⟩
  · change sysLs b c d = _
    unfold sysLs
    rw [if_neg (by rw [hb, hc]; decide)]
    rfl
  · have hspace : c.toNat + d.toNat ≤ 2 ^ 31 := hin.2
    have hpos : lsPos d (listing entries) ≤ d.toNat - 2 := Nat.min_le_right _ _
    have hk : (BitVec.ofNat 32 (lsPos d (listing entries))).toNat = lsPos d (listing entries) := by
      rw [BitVec.toNat_ofNat]
      exact Nat.mod_eq_of_lt (by omega)
    have hret := lsFill_returns (c := c) (s := s) hin.toInt entries
    by_cases hd : 0 < d.toNat
    · rw [if_pos hd] at hret
      have hnul {x : ℕ} (hx : x ≠ c.toNat + lsPos d (listing entries)) :
          (listed c d s (listing entries)).mem.store8 (c.toNat + lsPos d (listing entries)) 0 x =
            (listed c d s (listing entries)).mem x :=
        Memory.sameOn_store8 (n := 1) (by omega) (by omega) x (Nat.le_refl x) (Nat.lt_succ_self x)
      refine ⟨_, _, hret, fun x hx => ?_, by omega, fun htwo => ⟨?_, ?_, ?_⟩⟩
      · rw [hnul (by rintro rfl; exact hx ⟨by omega, by omega⟩), listed_apply hin hx]
      · rw [hk]
        exact Memory.load8_store8
      · rw [hk, lsPos, Nat.min_comm]
      · rw [hk, ← bytesAt_listed (s := s) hin]
        refine List.map_congr_left fun i hi => ?_
        rw [List.mem_range] at hi
        rw [Memory.load8_store8_of_ne (by omega) (by omega) (by omega)]
    · rw [if_neg hd] at hret
      exact ⟨_, _, hret, fun x hx => listed_apply hin hx _, by omega, fun htwo => by omega⟩

/-- A directory and a file in a buffer of seven bytes: the last newline has no room. -/
theorem syscallHandler_ls_fills_seven : validUserPtr 0x1000 0 = true ∧
    validUserPtr 0x2000 7 = true ∧
    ∃ m : Memory, (lsFill 0x2000 7 [([97, 98], 0, true), ([99, 0], 5, false)]).erase.Returns
        bootKernel 5 (bootKernel.setMem m) ∧
      bytesAt m 0x2000 5 = [47, 97, 98, 10, 99] ∧ m.load8 0x2005 = 0 := by
  obtain ⟨-, hfill⟩ := syscallHandler_ls_fills (b := 0x1000) (c := 0x2000) (d := 7) idle (by decide)
    (by decide)
  obtain ⟨-, k, m, hret, -, -, htwo⟩ := hfill [([97, 98], 0, true), ([99, 0], 5, false)] bootKernel
  obtain ⟨hnul, hk, hbytes⟩ := htwo (by decide)
  obtain rfl : k = 5 := BitVec.eq_of_toNat_eq (hk.trans (by decide))
  exact ⟨by decide, by decide, m, hret, hbytes.trans (by decide), hnul⟩

end WarkRune.Syscall

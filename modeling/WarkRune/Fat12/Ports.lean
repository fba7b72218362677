import WarkRune.Exec.Yields
import WarkRune.Fat12.Disk
import WarkRune.Io.Ata

/-!
# The transfers at the ports

The model of the FAT12 driver takes the outcomes of `ata_wait` as given. A controller that behaves
as the standard has it decides them: the data of a sector is asked for, so the first wait of a
transfer succeeds; a write waits once more, when nothing is asked for any longer, and that wait
fails. With these outcomes a transfer of the model does what the driver does at the ports.

## Main definitions

* `bytesOf`: the bytes of a sector of words
* `Wired`: the disk and the buffer of the model are those at the ports

## Main results

* `ataRead_ports`, `ataWrite_ports`: the transfers agree
-/

namespace WarkRune.Fat12

/-- The bytes of a sector, the low byte of each word first. -/
def bytesOf (w : ℕ → UInt16) (k : ℕ) : UInt8 :=
  if k % 2 = 0 then (w (k / 2)).toUInt8 else (w (k / 2) >>> 8).toUInt8

/-- The model has the disk and the sector buffer that are at the ports. -/
structure Wired (m : Io.AtaMachine) (s : Driver) : Prop where
  disk : ∀ a < 2 ^ 28, ∀ k < 512, s.vol.disk a k = bytesOf (m.dev.sectors a) k
  buf : ∀ k < 512, s.buf k = bytesOf m.buf k

variable {m : Io.AtaMachine} {s : Driver}

theorem bytesOf_congr {w w' : ℕ → UInt16} (h : ∀ j < 256, w j = w' j) {k : ℕ} (hk : k < 512) :
    bytesOf w k = bytesOf w' k := by
  rw [bytesOf, bytesOf, h (k / 2) (by omega)]

/-- The controller is ready, and never busy for longer than the driver polls. -/
structure Responds (m : Io.AtaMachine) : Prop where
  ready : m.dev.phase = .ready 0
  delay : ∀ n, m.dev.delay n < 100000

/-! ## One transfer -/

/-- **A read at the ports** is one of the model, whose wait succeeds. -/
theorem ataRead_ports (hm : Responds m) (h : Wired m s) (hwait : s.wait s.waits = true)
    (lba : UInt32) : (Io.ataRead lba 1).Yields m fun ok m' => ok = true ∧ Responds m' ∧
      (ataRead lba.toNat).Yields s fun ok' s' => ok' = true ∧ Wired m' s' ∧ s'.wait = s.wait ∧
        s'.waits = s.waits + 1 := by
  refine (Io.ataRead_reads hm.ready hm.delay (by decide) lba).mono ?_
  rintro ok m' ⟨rfl, hread, -, hsectors, hdelay, hphase⟩
  have hlba : lba.toNat % 2 ^ 28 < 2 ^ 28 := Nat.mod_lt _ (by decide)
  refine ⟨rfl, ⟨hphase, hdelay ▸ hm.delay⟩, ?_⟩
  simp only [ataRead, ataWait, Exec.yields_bind, Exec.yields_get, Exec.yields_set,
    Exec.yields_pure, hwait, if_pos, record, Exec.yields_modify]
  refine ⟨trivial, ⟨fun a ha k hk => ?_, fun k hk => ?_⟩, trivial, trivial⟩
  · rw [hsectors]
    exact h.disk a ha k hk
  · refine (h.disk _ hlba k hk).trans (bytesOf_congr (fun j hj => ?_) hk)
    have hword := hread j hj
    rw [Nat.div_eq_of_lt hj, Nat.add_zero, Nat.mod_eq_of_lt hj] at hword
    exact hword.symm

/-- **A write at the ports** is one of the model, whose second wait fails. -/
theorem ataWrite_ports (hm : Responds m) (h : Wired m s) (hfirst : s.wait s.waits = true)
    (hsecond : s.wait (s.waits + 1) = false) (lba : UInt32) :
    (Io.ataWrite lba 1).Yields m fun ok m' => ok = false ∧ Responds m' ∧
      (ataWrite lba.toNat).Yields s fun ok' s' => ok' = false ∧ Wired m' s' ∧ s'.wait = s.wait ∧
        s'.waits = s.waits + 2 := by
  refine (Io.ataWrite_stores hm.ready hm.delay (by decide) lba).mono ?_
  rintro ok m' ⟨rfl, hstored, hphase⟩
  refine ⟨rfl, ⟨hphase, hstored.delay ▸ hm.delay⟩, ?_⟩
  simp only [ataWrite, ataWait, Exec.yields_bind, Exec.yields_get, Exec.yields_set,
    Exec.yields_pure, hfirst, hsecond, if_pos, Bool.false_eq_true, if_false, record,
    Exec.yields_modify]
  refine ⟨trivial, ⟨fun a ha k hk => ?_, fun k hk => ?_⟩, trivial, trivial⟩
  · change Function.update s.vol.disk (lba.toNat % 2 ^ 28) s.buf a k = _
    by_cases hlba : a = lba.toNat % 2 ^ 28
    · rw [hlba, Function.update_self, h.buf k hk]
      refine bytesOf_congr (fun j hj => ?_) hk
      have hword := hstored.words 0 (by decide) j hj
      rw [Nat.add_zero, Nat.zero_mul, Nat.zero_add] at hword
      exact hword.symm
    · have hone : (1 : UInt8).toNat = 1 := rfl
      rw [Function.update_of_ne hlba, h.disk a ha k hk, hstored.others a (by omega)]
  · rw [hstored.buf]
    exact h.buf k hk

/-! ## Runs of transfers -/

/-- What the FAT12 driver does with the disk: it fills its buffer, and transfers sectors. -/
inductive Transfer
  | fill (w : ℕ → UInt16)
  | read (lba : UInt32)
  | write (lba : UInt32)

/-- At the ports. -/
def Transfer.atPorts : Transfer → Io.Ata Bool
  | .fill w => do
    modify fun m => { m with buf := w }
    return true
  | .read lba => Io.ataRead lba 1
  | .write lba => Io.ataWrite lba 1

/-- In the model. -/
def Transfer.inModel : Transfer → Fat Bool
  | .fill w => do
    setBuf (bytesOf w)
    return true
  | .read lba => ataRead lba.toNat
  | .write lba => ataWrite lba.toNat

/-- The transfers one after the other, and what each of them reports. -/
def runTransfers {σ : Type} (f : Transfer → Exec σ Bool) : List Transfer → Exec σ (List Bool)
  | [] => pure []
  | op :: ops => do
    let ok ← f op
    let oks ← runTransfers f ops
    return ok :: oks

/-- What a transfer reports: a write is taken for a failure. -/
def Transfer.report : Transfer → Bool
  | .write _ => false
  | _ => true

/-- The outcomes of `ata_wait` in a transfer. -/
def Transfer.waits : Transfer → List Bool
  | .fill _ => []
  | .read _ => [true]
  | .write _ => [true, false]

/-- The outcomes of the next calls of `ata_wait`. -/
def Awaits (s : Driver) (bs : List Bool) : Prop := ∀ i, ∀ b ∈ bs[i]?, s.wait (s.waits + i) = b

theorem transfer_ports (hm : Responds m) (h : Wired m s) {op : Transfer} (hop : Awaits s op.waits) :
    op.atPorts.Yields m fun ok m' => ok = op.report ∧ Responds m' ∧
      op.inModel.Yields s fun ok' s' => ok' = op.report ∧ Wired m' s' ∧ s'.wait = s.wait ∧
        s'.waits = s.waits + op.waits.length := by
  cases op with
  | fill w =>
    simp only [Transfer.atPorts, Transfer.inModel, setBuf, Exec.yields_bind, Exec.yields_modify,
      Exec.yields_pure]
    exact ⟨rfl, ⟨hm.ready, hm.delay⟩, rfl, ⟨h.disk, fun _ _ => rfl⟩, trivial, rfl⟩
  | read lba => exact ataRead_ports hm h (hop 0 true rfl) lba
  | write lba => exact ataWrite_ports hm h (hop 0 true rfl) (hop 1 false rfl) lba

/-- **The model has the transfers that happen at the ports**: over every sequence of them both have
the same disk, the same buffer and the same reports, and every write is reported to have failed. -/
theorem transfers_ports (hm : Responds m) (h : Wired m s) {ops : List Transfer}
    (hops : Awaits s (ops.flatMap Transfer.waits)) :
    (runTransfers Transfer.atPorts ops).Yields m fun oks m' => oks = ops.map Transfer.report ∧
      Responds m' ∧ (runTransfers Transfer.inModel ops).Yields s fun oks' s' =>
        oks' = oks ∧ Wired m' s' := by
  induction ops generalizing m s with
  | nil => exact Exec.yields_pure.mpr ⟨rfl, hm, Exec.yields_pure.mpr ⟨rfl, h⟩⟩
  | cons op ops ih =>
    rw [List.flatMap_cons] at hops
    have hop : Awaits s op.waits := fun i b hb => hops i b (by
      rw [List.getElem?_append_left (List.getElem?_eq_some_iff.mp hb).1]
      exact hb)
    rw [runTransfers, Exec.yields_bind]
    refine (transfer_ports hm h hop).mono ?_
    rintro ok m₁ ⟨rfl, hm₁, hmodel⟩
    obtain ⟨ok', s₁, hr, rfl, hwired, hwait, hwaits⟩ := hmodel
    have hops₁ : Awaits s₁ (ops.flatMap Transfer.waits) := fun i b hb => by
      rw [hwait, hwaits, Nat.add_assoc]
      refine hops _ b ?_
      rw [List.getElem?_append_right (Nat.le_add_right ..), Nat.add_sub_cancel_left]
      exact hb
    rw [Exec.yields_bind]
    refine (ih hm₁ hwired hops₁).mono ?_
    rintro oks m₂ ⟨rfl, hm₂, hrest⟩
    refine Exec.yields_pure.mpr ⟨rfl, hm₂, ?_⟩
    rw [runTransfers, Exec.yields_bind]
    refine ⟨_, s₁, hr, Exec.yields_bind.mpr (hrest.mono ?_)⟩
    rintro oks' s₂ ⟨rfl, hwired₂⟩
    exact Exec.yields_pure.mpr ⟨rfl, hwired₂⟩

/-- An empty disk behind a controller that is sometimes busy. -/
def emptyPorts : Io.AtaMachine :=
  ⟨⟨fun _ _ => 0, 0, 0, 0, 0, 0, .ready 0, fun n => n % 3, 0⟩, fun _ => 0⟩

/-- The model of it, in which the second wait is the one that fails. -/
def emptyDriver : Driver :=
  ⟨⟨⟨0, 0, 0, 0, 0, 0, 0, 0, 0, 0⟩, fun _ _ => 0, fun _ => ⟨false, 0, 0, 0, 0, 0⟩⟩, fun _ => 0,
    fun n => n != 1, 0, []⟩

/-- The theorem for a sector that is written and read back. -/
theorem transfers_ports_readBack :
    (runTransfers Transfer.atPorts [.fill fun k => k.toUInt16, .write 300, .read 300]).Yields
      emptyPorts fun oks m' => oks = [true, false, true] ∧ Responds m' ∧
        (runTransfers Transfer.inModel [.fill fun k => k.toUInt16, .write 300, .read 300]).Yields
          emptyDriver fun oks' s' => oks' = oks ∧ Wired m' s' := by
  have hzero : ∀ k, bytesOf (fun _ => 0) k = 0 := fun k => by
    unfold bytesOf
    split
    · rfl
    · change ((0 : UInt16) >>> 8).toUInt8 = 0
      decide
  refine transfers_ports ⟨rfl, fun n => ?_⟩
    ⟨fun a _ k _ => (hzero k).symm, fun k _ => (hzero k).symm⟩ fun i b hb => ?_
  · exact (Nat.mod_lt n (by decide)).trans (by decide)
  · change [true, false, true][i]? = some b at hb
    obtain _ | _ | _ | i := i
    · exact Option.some.inj hb
    · exact Option.some.inj hb
    · exact Option.some.inj hb
    · cases hb

end WarkRune.Fat12

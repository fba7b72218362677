import WarkRune.Exec.Yields

/-!
# The ATA driver and the controller

`ata_read` and `ata_write` talk to the disk controller through its ports: they set the registers,
give a command, and move each sector word by word once the status says that the controller is ready
for its data.

The controller is the other party, and is modelled as the standard has it. It is busy for a while
with each step of a command. It asks for data only while there is some to move: a command that has
moved its last sector ends with the request cleared. How long it is busy is a sequence the state
carries, counted in reads of the status.

## Main definitions

* `AtaDevice`: the controller and its sectors
* `AtaDevice.inb`, `AtaDevice.outb`, `AtaDevice.inw`, `AtaDevice.outw`: what a port does
* `ataWait`, `ataRead`, `ataWrite`: the driver

## Main results

* `ataWait_data`, `ataWait_done`: waiting succeeds when there is data to move, and only then
* `ataRead_reads`: sectors are read
* `ataWrite_stores`: sectors are stored, and the call reports failure
-/

namespace WarkRune.Io

/-- What the controller does: it is ready for a command, or moves the sectors of one. The first
argument is the number of reads of the status for which it is still busy. -/
inductive AtaPhase
  | ready (busy : ℕ)
  /-- The next word to hand out, `left` sectors from `lba` on being still to read. -/
  | read (busy lba left word : ℕ)
  /-- The words of a sector that have come, `left` sectors from `lba` on being still to write. -/
  | write (busy lba left : ℕ) (block : List UInt16)
  deriving DecidableEq

/-- The controller: its registers, and the words of its sectors. -/
structure AtaDevice where
  sectors : ℕ → ℕ → UInt16
  drive : UInt8
  sectorCnt : UInt8
  lbaLo : UInt8
  lbaMid : UInt8
  lbaHi : UInt8
  phase : AtaPhase
  /-- For how many reads of the status the `n`-th step takes. -/
  delay : ℕ → ℕ
  steps : ℕ

namespace AtaDevice

/-- The 28 bits of the address in the registers. -/
def lba (d : AtaDevice) : ℕ :=
  d.drive.toNat % 16 * 2 ^ 24 + d.lbaHi.toNat * 2 ^ 16 + d.lbaMid.toNat * 2 ^ 8 + d.lbaLo.toNat

/-- The number of sectors in the register. -/
def count (d : AtaDevice) : ℕ := if d.sectorCnt = 0 then 256 else d.sectorCnt.toNat

/-- The next step begins. -/
def enter (d : AtaDevice) (f : ℕ → AtaPhase) : AtaDevice :=
  { d with phase := f (d.delay d.steps), steps := d.steps + 1 }

/-- A command, which is taken when the controller is ready. -/
def command (d : AtaDevice) (v : UInt8) : AtaDevice :=
  if d.phase = .ready 0 then
    if v = 0x20 then d.enter fun busy => .read busy d.lba d.count 0
    else if v = 0x30 then d.enter fun busy => .write busy d.lba d.count []
    else if v = 0xE7 then d.enter .ready
    else d
  else d

def outb (d : AtaDevice) (port : ℕ) (v : UInt8) : AtaDevice :=
  if port = 0x1F6 then { d with drive := v }
  else if port = 0x1F2 then { d with sectorCnt := v }
  else if port = 0x1F3 then { d with lbaLo := v }
  else if port = 0x1F4 then { d with lbaMid := v }
  else if port = 0x1F5 then { d with lbaHi := v }
  else if port = 0x1F7 then d.command v
  else d

/-- The status: busy, ready, or ready with data to move. -/
def status (d : AtaDevice) : UInt8 :=
  match d.phase with
  | .ready 0 => 0x50
  | .read 0 _ _ _ => 0x58
  | .write 0 _ _ _ => 0x58
  | _ => 0x80

/-- Time passes. -/
def wait (d : AtaDevice) : AtaDevice :=
  match d.phase with
  | .ready busy => { d with phase := .ready (busy - 1) }
  | .read busy lba left word => { d with phase := .read (busy - 1) lba left word }
  | .write busy lba left block => { d with phase := .write (busy - 1) lba left block }

def inb (d : AtaDevice) (port : ℕ) : UInt8 × AtaDevice :=
  if port = 0x1F7 then (d.status, d.wait) else (0, d)

/-- A word is handed out. With the last one of a sector the next sector follows, if there is one. -/
def inw (d : AtaDevice) (port : ℕ) : UInt16 × AtaDevice :=
  match d.phase with
  | .read 0 lba left word =>
    if port = 0x1F0 then
      (d.sectors lba word,
        if word + 1 < 256 then { d with phase := .read 0 lba left (word + 1) }
        else if 1 < left then d.enter fun busy => .read busy (lba + 1) (left - 1) 0
        else { d with phase := .ready 0 })
    else (0, d)
  | _ => (0, d)

/-- A word comes in. With the last one of a sector it is stored. -/
def outw (d : AtaDevice) (port : ℕ) (v : UInt16) : AtaDevice :=
  match d.phase with
  | .write 0 lba left block =>
    if port = 0x1F0 then
      if block.length + 1 < 256 then { d with phase := .write 0 lba left (block ++ [v]) }
      else
        let d := { d with
          sectors := Function.update d.sectors lba fun k => (block ++ [v]).getD k 0 }
        if 1 < left then d.enter fun busy => .write busy (lba + 1) (left - 1) []
        else d.enter .ready
    else d
  | _ => d

end AtaDevice

/-- The controller, and the caller's buffer. -/
structure AtaMachine where
  dev : AtaDevice
  buf : ℕ → UInt16

/-- A program of the driver. -/
abbrev Ata (α : Type) := Exec AtaMachine α

def inb (port : ℕ) : Ata UInt8 := do
  let s ← get
  set { s with dev := (s.dev.inb port).2 }
  return (s.dev.inb port).1

def outb (port : ℕ) (v : UInt8) : Ata Unit := modify fun s => { s with dev := s.dev.outb port v }

def inw (port : ℕ) : Ata UInt16 := do
  let s ← get
  set { s with dev := (s.dev.inw port).2 }
  return (s.dev.inw port).1

def outw (port : ℕ) (v : UInt16) : Ata Unit := modify fun s => { s with dev := s.dev.outw port v }

/-- A round of `ata_wait`. -/
def ataWaitRound (_ : ℕ) : Ata (Option Bool) := do
  let s ← inb 0x1F7
  if s &&& 0x01 ≠ 0 then return some false
  else if s &&& 0x80 = 0 ∧ s &&& 0x08 ≠ 0 then return some true
  else return none

/-- `ata_wait`. -/
def ataWait : Ata Bool := do
  let r ← Exec.forUntil ataWaitRound 0 100000
  return r.getD false

/-- The registers and the command. -/
def ataCommand (lba : UInt32) (count cmd : UInt8) : Ata Unit := do
  outb 0x1F6 ((0xE0 : UInt32) ||| ((lba >>> 24) &&& 0x0F)).toUInt8
  outb 0x1F2 count
  outb 0x1F3 lba.toUInt8
  outb 0x1F4 (lba >>> 8).toUInt8
  outb 0x1F5 (lba >>> 16).toUInt8
  outb 0x1F7 cmd

/-- `buf[s * 256 + i] = inw(ATA_DATA)`. -/
def readWord (s i : ℕ) : Ata Unit := do
  let w ← inw 0x1F0
  modify fun m => { m with buf := Function.update m.buf (s * 256 + i) w }

/-- A round of the loop of `ata_read`. -/
def readRound (s : ℕ) : Ata (Option Bool) := do
  if ← ataWait then
    Exec.forRange (readWord s) 0 256
    return none
  else return some false

/-- `ata_read`. -/
def ataRead (lba : UInt32) (count : UInt8) : Ata Bool := do
  ataCommand lba count 0x20
  let r ← Exec.forUntil readRound 0 count.toNat
  return r.getD true

/-- `outw(ATA_DATA, buf[s * 256 + i])`. -/
def writeWord (s i : ℕ) : Ata Unit := do
  let m ← get
  outw 0x1F0 (m.buf (s * 256 + i))

/-- A round of the loop of `ata_write`. -/
def writeRound (s : ℕ) : Ata (Option Bool) := do
  if ← ataWait then
    Exec.forRange (writeWord s) 0 256
    return none
  else return some false

/-- `ata_write`. -/
def ataWrite (lba : UInt32) (count : UInt8) : Ata Bool := do
  ataCommand lba count 0x30
  let r ← Exec.forUntil writeRound 0 count.toNat
  if r.isSome then return false
  else if ← ataWait then
    outb 0x1F7 0xE7
    ataWait
  else return false

/-- The rule of a loop whose rounds all go on. -/
theorem yields_forUntil {σ α : Type} {body : ℕ → Exec σ (Option α)} (I : ℕ → σ → Prop) {n : ℕ} :
    ∀ {i : ℕ} {s : σ}, I i s →
      (∀ k s, i ≤ k → k < i + n → I k s →
        (body k).Yields s fun r s' => r = none ∧ I (k + 1) s') →
        (Exec.forUntil body i n).Yields s fun r s' => r = none ∧ I (i + n) s' := by
  induction n with
  | zero =>
    intro i s hI _
    exact Exec.yields_pure.mpr ⟨rfl, hI⟩
  | succ n ih =>
    intro i s hI hbody
    refine Exec.yields_bind.mpr ((hbody i s (Nat.le_refl i) (by omega) hI).mono ?_)
    rintro r s' ⟨rfl, hI'⟩
    have hrest := ih hI' fun k s hk hlt => hbody k s (by omega) (by omega)
    rwa [Nat.add_right_comm] at hrest

/-! ## The ports -/

variable {s : AtaMachine}

theorem yields_inb {port : ℕ} {P : UInt8 → AtaMachine → Prop} : (inb port).Yields s P ↔
    P (s.dev.inb port).1 { s with dev := (s.dev.inb port).2 } := by
  rw [inb, Exec.yields_bind, Exec.yields_get, Exec.yields_bind, Exec.yields_set, Exec.yields_pure]

theorem yields_outb {port : ℕ} {v : UInt8} {P : Unit → AtaMachine → Prop} :
    (outb port v).Yields s P ↔ P () { s with dev := s.dev.outb port v } := Exec.yields_modify

theorem yields_inw {port : ℕ} {P : UInt16 → AtaMachine → Prop} : (inw port).Yields s P ↔
    P (s.dev.inw port).1 { s with dev := (s.dev.inw port).2 } := by
  rw [inw, Exec.yields_bind, Exec.yields_get, Exec.yields_bind, Exec.yields_set, Exec.yields_pure]

theorem yields_outw {port : ℕ} {v : UInt16} {P : Unit → AtaMachine → Prop} :
    (outw port v).Yields s P ↔ P () { s with dev := s.dev.outw port v } := Exec.yields_modify

/-! ## Waiting -/

/-- What a status makes of a round of `ata_wait`. -/
def answer (st : UInt8) : Option Bool :=
  if st &&& 0x01 ≠ 0 then some false
  else if st &&& 0x80 = 0 ∧ st &&& 0x08 ≠ 0 then some true
  else none

theorem yields_waitRound {i : ℕ} {P : Option Bool → AtaMachine → Prop} :
    (ataWaitRound i).Yields s P ↔ P (answer s.dev.status) { s with dev := s.dev.wait } := by
  have hport : s.dev.inb 0x1F7 = (s.dev.status, s.dev.wait) := if_pos rfl
  rw [ataWaitRound, Exec.yields_bind, yields_inb, hport, answer]
  split_ifs
  · exact Exec.yields_pure
  · exact Exec.yields_pure
  · exact Exec.yields_pure

/-- The phase has data to move, once it is no longer busy. -/
def Moves (f : ℕ → AtaPhase) : Prop :=
  (∃ lba left word, f = fun busy => .read busy lba left word) ∨
    ∃ lba left block, f = fun busy => .write busy lba left block

theorem Moves.status {f : ℕ → AtaPhase} (h : Moves f) {d : AtaDevice} {b : ℕ} (hd : d.phase = f b) :
    d.status = (if b = 0 then 0x58 else 0x80) ∧ d.wait = { d with phase := f (b - 1) } := by
  unfold AtaDevice.status AtaDevice.wait
  obtain ⟨lba, left, word, rfl⟩ | ⟨lba, left, block, rfl⟩ := h
  · rw [hd]
    cases b with
    | zero => exact ⟨rfl, rfl⟩
    | succ b => exact ⟨rfl, rfl⟩
  · rw [hd]
    cases b with
    | zero => exact ⟨rfl, rfl⟩
    | succ b => exact ⟨rfl, rfl⟩

/-- **Waiting for data succeeds** when the controller is not busy for longer than the loop polls. -/
theorem poll_data {f : ℕ → AtaPhase} (hf : Moves f) {n b i : ℕ} (hb : b < n)
    (hs : s.dev.phase = f b) : (Exec.forUntil ataWaitRound i n).Yields s fun r s' =>
      r = some true ∧ s' = { s with dev := { s.dev with phase := f 0 } } := by
  induction n generalizing s b i with
  | zero => exact absurd hb (Nat.not_lt_zero b)
  | succ n ih =>
    obtain ⟨hstatus, hwait⟩ := hf.status hs
    rw [Exec.forUntil, Exec.yields_bind, yields_waitRound, hstatus, hwait]
    cases b with
    | zero => exact Exec.yields_pure.mpr ⟨rfl, rfl⟩
    | succ b =>
      rw [if_neg (Nat.succ_ne_zero b), show answer 0x80 = none by decide]
      exact ih (s := { s with dev := { s.dev with phase := f b } }) (Nat.lt_of_succ_lt_succ hb) rfl

/-- **Waiting for nothing fails**: a controller that is done with its command asks for no data. -/
theorem poll_done {n b i : ℕ} (hs : s.dev.phase = .ready b) :
    (Exec.forUntil ataWaitRound i n).Yields s fun r s' =>
      r = none ∧ s' = { s with dev := { s.dev with phase := .ready (b - n) } } := by
  induction n generalizing s b i with
  | zero =>
    refine Exec.yields_pure.mpr ⟨rfl, ?_⟩
    rw [Nat.sub_zero, ← hs]
  | succ n ih =>
    have hanswer : answer s.dev.status = none := by
      unfold AtaDevice.status
      rw [hs]
      cases b with
      | zero => decide
      | succ b =>
        change answer 0x80 = none
        decide
    have hwait : s.dev.wait = { s.dev with phase := .ready (b - 1) } := by
      unfold AtaDevice.wait
      rw [hs]
    rw [Exec.forUntil, Exec.yields_bind, yields_waitRound, hanswer, hwait]
    refine (ih rfl).mono fun r s' h => ?_
    rwa [Nat.sub_sub, Nat.add_comm 1 n] at h

theorem ataWait_data {f : ℕ → AtaPhase} (hf : Moves f) {b : ℕ} (hb : b < 100000)
    (hs : s.dev.phase = f b) : ataWait.Yields s fun r s' =>
      r = true ∧ s' = { s with dev := { s.dev with phase := f 0 } } := by
  rw [ataWait, Exec.yields_bind]
  refine (poll_data hf hb hs).mono ?_
  rintro r s' ⟨rfl, rfl⟩
  exact Exec.yields_pure.mpr ⟨rfl, rfl⟩

theorem ataWait_done {b : ℕ} (hs : s.dev.phase = .ready b) : ataWait.Yields s fun r s' =>
    r = false ∧ s' = { s with dev := { s.dev with phase := .ready (b - 100000) } } := by
  rw [ataWait, Exec.yields_bind]
  refine (poll_done hs).mono ?_
  rintro r s' ⟨rfl, rfl⟩
  exact Exec.yields_pure.mpr ⟨rfl, rfl⟩

/-! ## Sectors -/

/-- The controller when the last word of a sector has been read. -/
def AtaDevice.nextRead (d : AtaDevice) (lba left : ℕ) : AtaDevice :=
  if 1 < left then d.enter fun busy => .read busy (lba + 1) (left - 1) 0
  else { d with phase := .ready 0 }

/-- The controller when the last word of a sector has come. -/
def AtaDevice.nextWrite (d : AtaDevice) (lba left : ℕ) (w : ℕ → UInt16) : AtaDevice :=
  let d := { d with sectors := Function.update d.sectors lba w }
  if 1 < left then d.enter fun busy => .write busy (lba + 1) (left - 1) []
  else d.enter .ready

theorem inw_read {d : AtaDevice} {lba left i : ℕ} (hd : d.phase = .read 0 lba left i) :
    d.inw 0x1F0 = (d.sectors lba i,
      if i + 1 < 256 then { d with phase := .read 0 lba left (i + 1) } else d.nextRead lba left) := by
  unfold AtaDevice.inw
  rw [hd]
  exact if_pos rfl

theorem yields_readWord {p i : ℕ} {P : Unit → AtaMachine → Prop} : (readWord p i).Yields s P ↔
    P () ⟨(s.dev.inw 0x1F0).2, Function.update s.buf (p * 256 + i) (s.dev.inw 0x1F0).1⟩ := by
  rw [readWord, Exec.yields_bind, yields_inw, Exec.yields_modify]

/-- **The words of a sector are read** one after the other. -/
theorem readWords {lba left p : ℕ} (hs : s.dev.phase = .read 0 lba left 0) :
    (Exec.forRange (readWord p) 0 256).Yields s fun _ s' =>
      (∀ j < 256, s'.buf (p * 256 + j) = s.dev.sectors lba j) ∧
        (∀ k, k < p * 256 ∨ p * 256 + 256 ≤ k → s'.buf k = s.buf k) ∧
        s'.dev = s.dev.nextRead lba left := by
  refine (Exec.yields_forRange (fun i m => (∀ j < i, m.buf (p * 256 + j) = s.dev.sectors lba j) ∧
    (∀ k, k < p * 256 ∨ p * 256 + i ≤ k → m.buf k = s.buf k) ∧
      m.dev = if i < 256 then { s.dev with phase := .read 0 lba left i }
        else s.dev.nextRead lba left) ?_ fun i m _ hi hm => ?_).mono fun _ s' h => ?_
  · refine ⟨fun j hj => absurd hj (Nat.not_lt_zero j), fun _ _ => rfl, ?_⟩
    rw [if_pos (by decide), ← hs]
  · obtain ⟨hread, hrest, hdev⟩ := hm
    rw [if_pos (by omega)] at hdev
    have hphase : m.dev.phase = .read 0 lba left i := by rw [hdev]
    rw [yields_readWord, inw_read hphase, hdev]
    dsimp only
    refine ⟨fun j hj => ?_, fun k hk => ?_, rfl⟩
    · rcases Nat.lt_or_eq_of_le (Nat.le_of_lt_succ hj) with hlt | rfl
      · rw [Function.update_of_ne (by omega), hread j hlt]
      · rw [Function.update_self]
    · rw [Function.update_of_ne (by omega), hrest k (by omega)]
  · exact h

theorem outw_write {d : AtaDevice} {lba left : ℕ} {block : List UInt16} {v : UInt16}
    (hd : d.phase = .write 0 lba left block) : d.outw 0x1F0 v =
      if block.length + 1 < 256 then { d with phase := .write 0 lba left (block ++ [v]) }
      else d.nextWrite lba left fun k => (block ++ [v]).getD k 0 := by
  unfold AtaDevice.outw
  rw [hd]
  exact if_pos rfl

theorem yields_writeWord {p i : ℕ} {P : Unit → AtaMachine → Prop} : (writeWord p i).Yields s P ↔
    P () { s with dev := s.dev.outw 0x1F0 (s.buf (p * 256 + i)) } := by
  rw [writeWord, Exec.yields_bind, Exec.yields_get, yields_outw]

/-- **The words of a sector are stored** when the last one has come. -/
theorem writeWords {lba left p : ℕ} (hs : s.dev.phase = .write 0 lba left []) :
    (Exec.forRange (writeWord p) 0 256).Yields s fun _ s' =>
      s' = { s with dev := s.dev.nextWrite lba left fun k =>
        ((List.range 256).map fun j => s.buf (p * 256 + j)).getD k 0 } := by
  refine (Exec.yields_forRange (fun i m => m = {
    dev := if i < 256 then
        { s.dev with phase := .write 0 lba left ((List.range i).map fun j => s.buf (p * 256 + j)) }
      else s.dev.nextWrite lba left fun k =>
        ((List.range 256).map fun j => s.buf (p * 256 + j)).getD k 0
    buf := s.buf }) ?_ fun i m _ hi hm => ?_).mono fun _ s' h => ?_
  · rw [if_pos (by decide), List.range_zero, List.map_nil, ← hs]
  · rw [if_pos (by omega)] at hm
    have hphase : m.dev.phase =
        .write 0 lba left ((List.range i).map fun j => s.buf (p * 256 + j)) := by rw [hm]
    have hblock : (List.range i).map (fun j => s.buf (p * 256 + j)) ++ [s.buf (p * 256 + i)] =
        (List.range (i + 1)).map fun j => s.buf (p * 256 + j) := by
      rw [List.range_succ, List.map_append, List.map_singleton]
    rw [yields_writeWord, outw_write hphase, hm, List.length_map, List.length_range, hblock]
    dsimp only
    split
    · rfl
    · obtain rfl : i = 255 := by omega
      rfl
  · rw [h, if_neg (by decide)]

/-! ## Commands -/

/-- The registers for sectors from `lba` on. -/
def AtaDevice.select (d : AtaDevice) (lba : UInt32) (count : UInt8) : AtaDevice :=
  { d with
    drive := ((0xE0 : UInt32) ||| ((lba >>> 24) &&& 0x0F)).toUInt8
    sectorCnt := count
    lbaLo := lba.toUInt8
    lbaMid := (lba >>> 8).toUInt8
    lbaHi := (lba >>> 16).toUInt8 }

/-- The controller takes the low 28 bits of the address. -/
theorem lba_select (d : AtaDevice) (lba : UInt32) (count : UInt8) :
    (d.select lba count).lba = lba.toNat % 2 ^ 28 := by
  have hlow : ∀ y < 16, (0xE0 ||| y) % 256 % 16 = y := by decide
  have hdrive : (d.select lba count).drive.toNat % 16 = lba.toNat / 2 ^ 24 % 16 := by
    have hand : lba.toNat / 2 ^ 24 &&& 0x0F = lba.toNat / 2 ^ 24 % 16 :=
      Nat.and_two_pow_sub_one_eq_mod _ 4
    change ((0xE0 : UInt32) ||| ((lba >>> 24) &&& 0x0F)).toUInt8.toNat % 16 = _
    rw [UInt32.toNat_toUInt8, UInt32.toNat_or, UInt32.toNat_and, UInt32.toNat_shiftRight,
      show (24 : UInt32).toNat % 32 = 24 from rfl, Nat.shiftRight_eq_div_pow,
      show (0x0F : UInt32).toNat = 0x0F from rfl, hand, show (0xE0 : UInt32).toNat = 0xE0 from rfl]
    exact hlow _ (Nat.mod_lt _ (by decide))
  have hhi : (d.select lba count).lbaHi.toNat = lba.toNat / 2 ^ 16 % 256 := by
    change (lba >>> 16).toUInt8.toNat = _
    rw [UInt32.toNat_toUInt8, UInt32.toNat_shiftRight, show (16 : UInt32).toNat % 32 = 16 from rfl,
      Nat.shiftRight_eq_div_pow]
  have hmid : (d.select lba count).lbaMid.toNat = lba.toNat / 2 ^ 8 % 256 := by
    change (lba >>> 8).toUInt8.toNat = _
    rw [UInt32.toNat_toUInt8, UInt32.toNat_shiftRight, show (8 : UInt32).toNat % 32 = 8 from rfl,
      Nat.shiftRight_eq_div_pow]
  have hlo : (d.select lba count).lbaLo.toNat = lba.toNat % 256 := UInt32.toNat_toUInt8 lba
  rw [AtaDevice.lba, hdrive, hhi, hmid, hlo]
  omega

theorem yields_command {lba : UInt32} {count cmd : UInt8} {P : Unit → AtaMachine → Prop} :
    (ataCommand lba count cmd).Yields s P ↔
      P () { s with dev := (s.dev.select lba count).command cmd } := by
  simp only [ataCommand, Exec.yields_bind, yields_outb]
  exact Iff.rfl

/-! ## The transfers -/

/-- A sector is read. -/
theorem readRound_reads {b lba left p : ℕ} (hb : b < 100000)
    (hs : s.dev.phase = .read b lba left 0) : (readRound p).Yields s fun r s' => r = none ∧
      (∀ j < 256, s'.buf (p * 256 + j) = s.dev.sectors lba j) ∧
        (∀ k, k < p * 256 ∨ p * 256 + 256 ≤ k → s'.buf k = s.buf k) ∧
        s'.dev = s.dev.nextRead lba left := by
  rw [readRound, Exec.yields_bind]
  refine (ataWait_data (.inl ⟨lba, left, 0, rfl⟩) hb hs).mono ?_
  rintro r s₁ ⟨rfl, rfl⟩
  rw [if_pos rfl, Exec.yields_bind]
  refine (readWords rfl).mono fun _ s' h => ?_
  exact Exec.yields_pure.mpr ⟨rfl, h⟩

/-- **`ata_read` reads**: a controller that is ready, and never busy for longer than the driver
polls, hands out the sectors, and is ready again. -/
theorem ataRead_reads {count : UInt8} (hready : s.dev.phase = .ready 0)
    (hdelay : ∀ n, s.dev.delay n < 100000) (hcount : count ≠ 0) (lba : UInt32) :
    (ataRead lba count).Yields s fun ok s' => ok = true ∧
      (∀ k < count.toNat * 256,
        s'.buf k = s.dev.sectors (lba.toNat % 2 ^ 28 + k / 256) (k % 256)) ∧
      (∀ k, count.toNat * 256 ≤ k → s'.buf k = s.buf k) ∧
      s'.dev.sectors = s.dev.sectors ∧ s'.dev.delay = s.dev.delay ∧ s'.dev.phase = .ready 0 := by
  have hpos : 0 < count.toNat := Nat.pos_of_ne_zero fun h => hcount (UInt8.toNat_inj.mp h)
  have hcommand : (s.dev.select lba count).command 0x20 = (s.dev.select lba count).enter fun busy =>
      .read busy (lba.toNat % 2 ^ 28) count.toNat 0 := by
    have hcnt : (s.dev.select lba count).count = count.toNat := if_neg hcount
    rw [AtaDevice.command, if_pos (show (s.dev.select lba count).phase = _ from hready),
      if_pos rfl, lba_select, hcnt]
  rw [ataRead, Exec.yields_bind, yields_command, hcommand, Exec.yields_bind]
  refine (yields_forUntil (fun p m => m.dev.sectors = s.dev.sectors ∧ m.dev.delay = s.dev.delay ∧
    (if p < count.toNat then
        ∃ b < 100000, m.dev.phase = .read b (lba.toNat % 2 ^ 28 + p) (count.toNat - p) 0
      else m.dev.phase = .ready 0) ∧
    (∀ k < p * 256, m.buf k = s.dev.sectors (lba.toNat % 2 ^ 28 + k / 256) (k % 256)) ∧
    ∀ k, p * 256 ≤ k → m.buf k = s.buf k) ?_ fun p m _ hp hm => ?_).mono ?_
  · refine ⟨rfl, rfl, ?_, fun k hk => ?_, fun _ _ => rfl⟩
    · rw [if_pos hpos]
      exact ⟨_, hdelay _, rfl⟩
    · rw [Nat.zero_mul] at hk
      exact absurd hk (Nat.not_lt_zero k)
  · obtain ⟨hsectors, hdelays, hphase, hread, hrest⟩ := hm
    rw [if_pos (by omega)] at hphase
    obtain ⟨b, hb, hphase⟩ := hphase
    refine (readRound_reads hb hphase).mono ?_
    rintro r s' ⟨rfl, hwords, hother, hdev⟩
    refine ⟨rfl, ?_, ?_, ?_, fun k hk => ?_, fun k hk => ?_⟩
    · rw [hdev, ← hsectors]
      unfold AtaDevice.nextRead
      split <;> rfl
    · rw [hdev, ← hdelays]
      unfold AtaDevice.nextRead
      split <;> rfl
    · rw [hdev]
      unfold AtaDevice.nextRead
      by_cases hlast : 1 < count.toNat - p
      · rw [if_pos hlast, if_pos (by omega)]
        refine ⟨m.dev.delay m.dev.steps, ?_, ?_⟩
        · rw [hdelays]
          exact hdelay _
        · rw [← Nat.add_assoc, ← Nat.sub_sub]
          rfl
      · rw [if_neg hlast, if_neg (by omega)]
    · by_cases hk' : k < p * 256
      · rw [hother k (.inl hk'), hread k hk']
      · obtain ⟨j, rfl⟩ := Nat.exists_eq_add_of_le (Nat.le_of_not_lt hk')
        rw [hwords j (by omega), hsectors]
        congr 1
        · omega
        · omega
    · rw [Nat.add_mul, Nat.one_mul] at hk
      rw [hother k (.inr hk), hrest k (Nat.le_of_add_right_le hk)]
  · rintro r s' ⟨rfl, hsectors, hdelays, hphase, hread, hrest⟩
    rw [Nat.zero_add] at hphase hread hrest
    rw [if_neg (Nat.lt_irrefl _)] at hphase
    exact Exec.yields_pure.mpr ⟨rfl, hread, hrest, hsectors, hdelays, hphase⟩

/-- A sector is stored. -/
theorem writeRound_stores {b lba left p : ℕ} (hb : b < 100000)
    (hs : s.dev.phase = .write b lba left []) : (writeRound p).Yields s fun r s' => r = none ∧
      s' = { s with dev := s.dev.nextWrite lba left fun k =>
        ((List.range 256).map fun j => s.buf (p * 256 + j)).getD k 0 } := by
  rw [writeRound, Exec.yields_bind]
  refine (ataWait_data (.inr ⟨lba, left, [], rfl⟩) hb hs).mono ?_
  rintro r s₁ ⟨rfl, rfl⟩
  rw [if_pos rfl, Exec.yields_bind]
  refine (writeWords rfl).mono fun _ s' h => ?_
  exact Exec.yields_pure.mpr ⟨rfl, h⟩

/-- What is stored when `p` sectors have been written. -/
structure Stored (s : AtaMachine) (lba p : ℕ) (m : AtaMachine) : Prop where
  words : ∀ i < p, ∀ w < 256, m.dev.sectors (lba + i) w = s.buf (i * 256 + w)
  others : ∀ a, a < lba ∨ lba + p ≤ a → m.dev.sectors a = s.dev.sectors a
  buf : m.buf = s.buf
  delay : m.dev.delay = s.dev.delay

theorem Stored.next {m : AtaMachine} {lba p left : ℕ} (h : Stored s lba p m) :
    Stored s lba (p + 1) { m with dev := m.dev.nextWrite (lba + p) left fun k =>
      ((List.range 256).map fun j => m.buf (p * 256 + j)).getD k 0 } := by
  have hsectors : ∀ w, (m.dev.nextWrite (lba + p) left w).sectors =
      Function.update m.dev.sectors (lba + p) w := fun w => by
    unfold AtaDevice.nextWrite
    dsimp only
    split <;> rfl
  have hdelay : ∀ w, (m.dev.nextWrite (lba + p) left w).delay = m.dev.delay := fun w => by
    unfold AtaDevice.nextWrite
    dsimp only
    split <;> rfl
  refine ⟨fun i hi w hw => ?_, fun a ha => ?_, h.buf, (hdelay _).trans h.delay⟩
  · rw [hsectors]
    rcases Nat.lt_or_eq_of_le (Nat.le_of_lt_succ hi) with hlt | rfl
    · rw [Function.update_of_ne (by omega), h.words i hlt w hw]
    · rw [Function.update_self, List.getD_eq_getElem?_getD, List.getElem?_map,
        List.getElem?_range hw, h.buf]
      rfl
  · rw [hsectors, Function.update_of_ne (by omega), h.others a (by omega)]

/-- **`ata_write` stores and reports failure**: a controller that is ready, and never busy for
longer than the driver polls, stores the sectors; the driver then waits for one more request for
data, which does not come. -/
theorem ataWrite_stores {count : UInt8} (hready : s.dev.phase = .ready 0)
    (hdelay : ∀ n, s.dev.delay n < 100000) (hcount : count ≠ 0) (lba : UInt32) :
    (ataWrite lba count).Yields s fun ok s' => ok = false ∧
      Stored s (lba.toNat % 2 ^ 28) count.toNat s' ∧ s'.dev.phase = .ready 0 := by
  have hpos : 0 < count.toNat := Nat.pos_of_ne_zero fun h => hcount (UInt8.toNat_inj.mp h)
  have hcommand : (s.dev.select lba count).command 0x30 = (s.dev.select lba count).enter fun busy =>
      .write busy (lba.toNat % 2 ^ 28) count.toNat [] := by
    have hcnt : (s.dev.select lba count).count = count.toNat := if_neg hcount
    rw [AtaDevice.command, if_pos (show (s.dev.select lba count).phase = _ from hready),
      if_neg (by decide), if_pos rfl, lba_select, hcnt]
  rw [ataWrite, Exec.yields_bind, yields_command, hcommand, Exec.yields_bind]
  refine (yields_forUntil (fun p m => Stored s (lba.toNat % 2 ^ 28) p m ∧
    if p < count.toNat then
      ∃ b < 100000, m.dev.phase = .write b (lba.toNat % 2 ^ 28 + p) (count.toNat - p) []
    else ∃ b < 100000, m.dev.phase = .ready b) ?_ fun p m _ hp hm => ?_).mono ?_
  · refine ⟨⟨fun i hi => absurd hi (Nat.not_lt_zero i), fun _ _ => rfl, rfl, rfl⟩, ?_⟩
    rw [if_pos hpos]
    exact ⟨_, hdelay _, rfl⟩
  · obtain ⟨hstored, hphase⟩ := hm
    rw [if_pos (by omega)] at hphase
    obtain ⟨b, hb, hphase⟩ := hphase
    refine (writeRound_stores hb hphase).mono ?_
    rintro r s' ⟨rfl, rfl⟩
    refine ⟨rfl, hstored.next, ?_⟩
    have hbusy : m.dev.delay m.dev.steps < 100000 := by
      rw [hstored.delay]
      exact hdelay _
    unfold AtaDevice.nextWrite
    dsimp only
    by_cases hlast : 1 < count.toNat - p
    · rw [if_pos (by omega), if_pos hlast, ← Nat.add_assoc, ← Nat.sub_sub]
      exact ⟨_, hbusy, rfl⟩
    · rw [if_neg (by omega), if_neg hlast]
      exact ⟨_, hbusy, rfl⟩
  · rintro r m ⟨rfl, hstored, hphase⟩
    rw [Nat.zero_add] at hstored hphase
    rw [if_neg (Nat.lt_irrefl _)] at hphase
    obtain ⟨b, hb, hphase⟩ := hphase
    rw [if_neg (by decide), Exec.yields_bind]
    refine (ataWait_done hphase).mono ?_
    rintro r s' ⟨rfl, rfl⟩
    rw [if_neg (by decide), Exec.yields_pure]
    refine ⟨rfl, ⟨hstored.words, hstored.others, hstored.buf, hstored.delay⟩, ?_⟩
    exact congrArg AtaPhase.ready (Nat.sub_eq_zero_of_le hb.le)

end WarkRune.Io

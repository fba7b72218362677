import WarkRune.Bytes.Memory
import WarkRune.Exec.Runs
import Mathlib.Algebra.GroupWithZero.Nat

/-!
# Finding the sleep state

`acpi_init` follows the firmware's tables from the RSDP to the DSDT, and scans the DSDT for the name
`_S5_` with a package behind it. The first two elements of the package are the values that
`acpi_shutdown` writes. The tables are only read; each byte of the DSDT that the scan looks at is an
event.

The package begins with its length, whose first byte says in its two high bits how many bytes
follow. `acpi_init` skips as many bytes as the four low bits say.

## Main definitions

* `State`, `acpiInit`, `acpiShutdown`: the driver's variables, and its two functions
* `FindsDsdt`: the tables lead to a DSDT
* `SleepPackage`: the name, and a package whose first two elements are bytes
* `AlwaysFound`: the values are found in every table with a certain first byte of the length

## Main results

* `scanDsdt_spec`: what the scan stores
* `sleep_found_iff`: for which first bytes of the length the values of the package are always found,
  and that the scan stays in the table
-/

namespace WarkRune.Acpi

open Bytes (Memory)

/-- The variables of the driver. -/
structure State where
  found : Bool
  /-- 0 for a null pointer. -/
  fadt : ℕ
  pm1aControlBlock : ℕ
  pm1bControlBlock : ℕ
  slpTypa : ℕ
  slpTypb : ℕ
  deriving DecidableEq

/-- The variables as they are loaded. -/
def acpiLoaded : State := ⟨false, 0, 0, 0, 0, 0⟩

/-- A program that looks at bytes of the DSDT, by their offsets. -/
abbrev Scan (α : Type) := Traced State ℕ α

/-! ## The tables -/

/-- The bytes from an address on are those of a text. -/
def spells (m : Memory) : ℕ → List ℕ → Bool
  | _, [] => true
  | a, c :: cs => decide (m.load8 a = c) && spells m (a + 1) cs

/-- `checksum_valid`. -/
def checksumValid (m : Memory) (ptr len : ℕ) : Bool :=
  ((List.range len).map fun i => m.load8 (ptr + i)).sum % 2 ^ 8 = 0

/-- `find_rsdp`: the first paragraph of the BIOS area with the signature `RSD PTR ` and a valid
checksum. -/
def findRsdp (m : Memory) : Option ℕ :=
  (List.range' 0xE0000 0x2000 16).find? fun addr =>
    spells m addr [0x52, 0x53, 0x44, 0x20, 0x50, 0x54, 0x52, 0x20] && checksumValid m addr 20

/-- `sizeof(ACPISDTHeader)`. -/
def headerSize : ℕ := 36

/-- The field `length` of a table. -/
def tableLength (m : Memory) (table : ℕ) : ℕ := m.load32 (table + 4)

/-- `find_table`: the first table that the RSDT lists with the signature. -/
def findTable (m : Memory) (rsdt : ℕ) (signature : List ℕ) : Option ℕ :=
  if tableLength m rsdt < headerSize + 4 then none
  else
    ((List.range' (rsdt + headerSize) ((tableLength m rsdt - headerSize) / 4) 4).map m.load32).find?
      fun h => spells m h signature

/-! ## The scan -/

section

variable (m : Memory) (dsdt : ℕ)

/-- Byte `i` of the DSDT. -/
def dsdtByte (i : ℕ) : Scan ℕ := do
  Traced.emit i
  return m.load8 (dsdt + i)

/-- The bytes from offset `i` on are compared with a text, up to the first that differs. -/
def compareAt : ℕ → List ℕ → Scan Bool
  | _, [] => pure true
  | i, c :: cs => do
    if (← dsdtByte m dsdt i) = c then compareAt (i + 1) cs else return false

/-- `offset + 1 < dsdt_len && dsdt[offset] == 0x0A`, and then the byte behind is stored. -/
def element (offset : ℕ) (store : ℕ → State → State) : Scan Unit := do
  if offset + 1 < tableLength m dsdt then
    if (← dsdtByte m dsdt offset) = 0x0A then
      let v ← dsdtByte m dsdt (offset + 1)
      modify (store v)

def storeTypa (v : ℕ) (s : State) : State := { s with slpTypa := v }

def storeTypb (v : ℕ) (s : State) : State := { s with slpTypb := v }

/-- What the scan does behind `_S5_` and 0x12, the name being at offset `i`. -/
def decode (i : ℕ) : Scan Unit := do
  let offset := i + 5
  if offset + 1 ≥ tableLength m dsdt then return ()
  else
    let lead ← dsdtByte m dsdt offset
    let offset := offset + ((lead &&& 0x0F) + 2)
    element m dsdt offset storeTypa
    element m dsdt (offset + 2) storeTypb

/-- A round of the scan. -/
def scanRound (i : ℕ) : Scan (ℕ ⊕ Unit) := do
  if i + 8 < tableLength m dsdt then
    if ← compareAt m dsdt i [0x5F, 0x53, 0x35, 0x5F] then
      if (← dsdtByte m dsdt (i + 4)) = 0x12 then
        decode m dsdt i
        return .inr ()
      else return .inl (i + 1)
    else return .inl (i + 1)
  else return .inr ()

/-- The scan for `_S5_`. -/
def scanDsdt : Scan Unit := Traced.loop (scanRound m dsdt) 0

end

/-! ## The functions -/

/-- `acpi_init`, without what it prints. The FADT has the DSDT at 40 and the control blocks at 64
and 68. -/
def acpiInit (m : Memory) : Scan Unit :=
  match findRsdp m with
  | none => modify fun s => { s with found := false }
  | some rsdp =>
    let rsdt := m.load32 (rsdp + 16)
    if rsdt = 0 ∨ rsdt < 0x100000 then modify fun s => { s with found := false }
    else if ¬ checksumValid m rsdt (tableLength m rsdt) then
      modify fun s => { s with found := false }
    else match findTable m rsdt [0x46, 0x41, 0x43, 0x50] with
      | none => modify fun s => { s with fadt := 0, found := false }
      | some fadt => do
        modify fun s => { s with
          fadt
          pm1aControlBlock := m.load16 (fadt + 64)
          pm1bControlBlock := m.load16 (fadt + 68) }
        let dsdt := m.load32 (fadt + 40)
        if tableLength m dsdt < headerSize ∨ tableLength m dsdt > 1048576 then
          modify fun s => { s with found := true }
        else
          scanDsdt m dsdt
          modify fun s => { s with found := true }

/-- The words that `acpi_shutdown` writes, each with its port, before it halts. -/
def acpiShutdown (s : State) : List (ℕ × ℕ) :=
  if s.found then
    (if s.pm1aControlBlock ≠ 0 then
      [(s.pm1aControlBlock, ((s.slpTypa <<< 10) ||| (1 <<< 13)) % 2 ^ 16)] else []) ++
    if s.pm1bControlBlock ≠ 0 then
      [(s.pm1bControlBlock, ((s.slpTypb <<< 10) ||| (1 <<< 13)) % 2 ^ 16)] else []
  else []

/-! ## What the scan stores -/

section

variable {m : Memory} {dsdt : ℕ} {s : State} {Q : ℕ → Prop}

@[simp] theorem dsdtByte_runs {i : ℕ} {P : ℕ → State → Prop} :
    (dsdtByte m dsdt i).Runs s Q P ↔ Q i ∧ P (m.load8 (dsdt + i)) s := by
  simp only [dsdtByte, Traced.runs_bind, Traced.runs_emit, Traced.runs_pure]

theorem compareAt_runs {i : ℕ} {cs : List ℕ} {P : Bool → State → Prop}
    (hQ : ∀ k < cs.length, Q (i + k)) (hP : P (spells m (dsdt + i) cs) s) :
    (compareAt m dsdt i cs).Runs s Q P := by
  -- the comparison stops at the first character that differs
  induction cs generalizing i with
  | nil => exact Traced.runs_pure.mpr hP
  | cons c cs ih =>
    rw [compareAt, Traced.runs_bind, dsdtByte_runs]
    refine ⟨hQ 0 (Nat.zero_lt_succ _), ?_⟩
    rw [spells] at hP
    split_ifs with hc
    · rw [decide_eq_true hc, Bool.true_and, Nat.add_assoc] at hP
      refine ih (fun k hk => ?_) hP
      rw [Nat.add_assoc, Nat.add_comm 1]
      exact hQ (k + 1) (Nat.succ_lt_succ hk)
    · rw [decide_eq_false hc, Bool.false_and] at hP
      exact Traced.runs_pure.mpr hP

/-- The place holds an element: 0x0A, and a byte behind it. -/
def HasElement (m : Memory) (dsdt offset : ℕ) : Prop :=
  offset + 1 < tableLength m dsdt ∧ m.load8 (dsdt + offset) = 0x0A

instance (m : Memory) (dsdt offset : ℕ) : Decidable (HasElement m dsdt offset) :=
  inferInstanceAs (Decidable (_ ∧ _))

/-- What an element leaves in a variable that holds `old`. -/
def elementOr (m : Memory) (dsdt offset old : ℕ) : ℕ :=
  if HasElement m dsdt offset then m.load8 (dsdt + (offset + 1)) else old

theorem element_runs {offset : ℕ} {store : ℕ → State → State} {P : Unit → State → Prop}
    (hP : P () (if HasElement m dsdt offset then store (m.load8 (dsdt + (offset + 1))) s else s)) :
    (element m dsdt offset store).Runs s (· < tableLength m dsdt) P := by
  rw [element]
  split_ifs with hlen
  · rw [Traced.runs_bind, dsdtByte_runs]
    refine ⟨Nat.lt_of_succ_lt hlen, ?_⟩
    split_ifs with hpre
    · rw [if_pos ⟨hlen, hpre⟩] at hP
      rw [Traced.runs_bind, dsdtByte_runs]
      exact ⟨hlen, Traced.runs_modify.mpr hP⟩
    · rw [if_neg fun h => hpre h.2] at hP
      exact Traced.runs_pure.mpr hP
  · rw [if_neg fun h => hlen h.1] at hP
    exact Traced.runs_pure.mpr hP

/-- The first place the scan looks at for an element, the name being at offset `i`. -/
def elementPlace (m : Memory) (dsdt i : ℕ) : ℕ := i + 7 + m.load8 (dsdt + (i + 5)) % 16

/-- The variables once the package behind the name at offset `i` is decoded. -/
def decoded (m : Memory) (dsdt i : ℕ) (s : State) : State :=
  { s with
    slpTypa := elementOr m dsdt (elementPlace m dsdt i) s.slpTypa
    slpTypb := elementOr m dsdt (elementPlace m dsdt i + 2) s.slpTypb }

theorem decode_runs {i : ℕ} {P : Unit → State → Prop} (hi : i + 8 < tableLength m dsdt)
    (hP : P () (decoded m dsdt i s)) : (decode m dsdt i).Runs s (· < tableLength m dsdt) P := by
  have hplace : i + 5 + ((m.load8 (dsdt + (i + 5)) &&& 0x0F) + 2) = elementPlace m dsdt i := by
    rw [show m.load8 (dsdt + (i + 5)) &&& 0x0F = m.load8 (dsdt + (i + 5)) % 16 from
      Nat.and_two_pow_sub_one_eq_mod _ 4, elementPlace]
    omega
  rw [decode, if_neg (by omega), Traced.runs_bind, dsdtByte_runs, hplace]
  refine ⟨by omega, ?_⟩
  rw [Traced.runs_bind]
  refine element_runs (element_runs ?_)
  convert hP using 1
  unfold decoded elementOr
  split_ifs <;> rfl

/-- The name `_S5_` and the start of a package. -/
def SleepName (m : Memory) (dsdt i : ℕ) : Prop :=
  spells m (dsdt + i) [0x5F, 0x53, 0x35, 0x5F] = true ∧ m.load8 (dsdt + (i + 4)) = 0x12

/-- **What the scan stores**: nothing, or what is behind the first name. It stays in the table. -/
theorem scanDsdt_spec (i : ℕ) (s : State) :
    (Traced.loop (scanRound m dsdt) i).Runs s (· < tableLength m dsdt) fun _ s' =>
      (s' = s ∧ ∀ j, i ≤ j → j + 8 < tableLength m dsdt → ¬ SleepName m dsdt j) ∨
        ∃ j, i ≤ j ∧ SleepName m dsdt j ∧ (∀ k, i ≤ k → k < j → ¬ SleepName m dsdt k) ∧
          s' = decoded m dsdt j s := by
  induction hn : tableLength m dsdt - i using Nat.strong_induction_on generalizing i with
  | _ n ih =>
    apply Traced.Runs.loop
    rw [scanRound]
    by_cases hi : i + 8 < tableLength m dsdt
    swap
    · rw [if_neg hi, Traced.runs_pure, Traced.resumes_inr]
      exact .inl ⟨rfl, fun j hj hj' => absurd hj' (by omega)⟩
    have hnext (hno : ¬ SleepName m dsdt i) : Traced.Resumes (scanRound m dsdt)
        (· < tableLength m dsdt) (fun _ s' =>
          (s' = s ∧ ∀ j, i ≤ j → j + 8 < tableLength m dsdt → ¬ SleepName m dsdt j) ∨
            ∃ j, i ≤ j ∧ SleepName m dsdt j ∧ (∀ k, i ≤ k → k < j → ¬ SleepName m dsdt k) ∧
              s' = decoded m dsdt j s) (.inl (i + 1)) s := by
      rw [Traced.resumes_inl]
      refine (ih _ (by omega) (i + 1) rfl).mono fun _ s' hs' => ?_
      have hstep {k : ℕ} (hk : i ≤ k) (hgo : i + 1 ≤ k → ¬ SleepName m dsdt k) :
          ¬ SleepName m dsdt k := by
        rcases Nat.eq_or_lt_of_le hk with rfl | hlt
        · exact hno
        · exact hgo hlt
      rcases hs' with ⟨rfl, hnone⟩ | ⟨j, hj, hname, hfirst, rfl⟩
      · exact .inl ⟨rfl, fun j hj hj' => hstep hj fun h => hnone j h hj'⟩
      · exact .inr ⟨j, Nat.le_of_succ_le hj, hname, fun k hk hkj => hstep hk fun h => hfirst k h hkj,
          rfl⟩
    rw [if_pos hi, Traced.runs_bind]
    refine compareAt_runs (fun k hk => ?_) ?_
    · have hlt : k < 4 := hk
      omega
    split_ifs with hspell
    · rw [Traced.runs_bind, dsdtByte_runs]
      refine ⟨by omega, ?_⟩
      split_ifs with hop
      · rw [Traced.runs_bind]
        refine decode_runs hi (Traced.runs_pure.mpr (Traced.resumes_inr.mpr (.inr ?_)))
        exact ⟨i, Nat.le_refl i, ⟨hspell, hop⟩, fun k hk hki => absurd hk (Nat.not_le.mpr hki), rfl⟩
      · exact Traced.runs_pure.mpr (hnext fun h => hop h.2)
    · exact Traced.runs_pure.mpr (hnext fun h => hspell h.1)

end

/-! ## The values of the package -/

/-- The tables lead to a DSDT. -/
def FindsDsdt (m : Memory) (dsdt : ℕ) : Prop :=
  ∃ rsdp fadt, findRsdp m = some rsdp ∧ 0x100000 ≤ m.load32 (rsdp + 16) ∧
    checksumValid m (m.load32 (rsdp + 16)) (tableLength m (m.load32 (rsdp + 16))) = true ∧
    findTable m (m.load32 (rsdp + 16)) [0x46, 0x41, 0x43, 0x50] = some fadt ∧
    m.load32 (fadt + 40) = dsdt

/-- The length of the table is that of a DSDT. -/
def ValidLength (m : Memory) (table : ℕ) : Prop :=
  headerSize ≤ tableLength m table ∧ tableLength m table ≤ 1048576

/-- The name `_S5_` at offset `i`, and behind it a package: its length, whose first byte says in its
two high bits how many bytes follow, the number of its elements, and two elements that are the bytes
`a` and `b`. Nothing is assumed of the length itself. -/
structure SleepPackage (m : Memory) (dsdt i a b : ℕ) : Prop where
  name : SleepName m dsdt i
  prefixA : m.load8 (dsdt + (i + 7 + m.load8 (dsdt + (i + 5)) / 64)) = 0x0A
  byteA : m.load8 (dsdt + (i + 7 + m.load8 (dsdt + (i + 5)) / 64 + 1)) = a
  prefixB : m.load8 (dsdt + (i + 7 + m.load8 (dsdt + (i + 5)) / 64 + 2)) = 0x0A
  byteB : m.load8 (dsdt + (i + 7 + m.load8 (dsdt + (i + 5)) / 64 + 2 + 1)) = b
  fits : i + 7 + m.load8 (dsdt + (i + 5)) / 64 + 2 + 1 < tableLength m dsdt

variable {m : Memory} {dsdt i a b : ℕ}

/-- A run of `acpi_init` once the tables have led to a DSDT. -/
theorem acpiInit_runs (h : FindsDsdt m dsdt) (hlen : ValidLength m dsdt) (s : State) :
    (acpiInit m).Runs s (· < tableLength m dsdt) fun _ s' =>
      (s'.slpTypa = s.slpTypa ∧ s'.slpTypb = s.slpTypb ∧
        ∀ j, j + 8 < tableLength m dsdt → ¬ SleepName m dsdt j) ∨
      ∃ j, SleepName m dsdt j ∧ (∀ k < j, ¬ SleepName m dsdt k) ∧
        s'.slpTypa = (decoded m dsdt j s).slpTypa ∧ s'.slpTypb = (decoded m dsdt j s).slpTypb := by
  obtain ⟨rsdp, fadt, hrsdp, hrsdt, hsum, hfadt, rfl⟩ := h
  have hlow : ¬ (m.load32 (rsdp + 16) = 0 ∨ m.load32 (rsdp + 16) < 0x100000) := by omega
  have hbad : ¬ (tableLength m (m.load32 (fadt + 40)) < headerSize ∨
      tableLength m (m.load32 (fadt + 40)) > 1048576) := by
    rintro (hs | hl)
    · exact absurd hlen.1 (Nat.not_le.mpr hs)
    · exact absurd hlen.2 (Nat.not_le.mpr hl)
  simp only [acpiInit, hrsdp, if_neg hlow, hsum, not_true_eq_false, ↓reduceIte, hfadt, if_neg hbad,
    Traced.runs_bind, Traced.runs_modify]
  refine (scanDsdt_spec 0 _).mono fun _ s' hs' => ?_
  rcases hs' with ⟨rfl, hnone⟩ | ⟨j, -, hname, hfirst, rfl⟩
  · exact .inl ⟨rfl, rfl, fun j hj => hnone j (Nat.zero_le j) hj⟩
  · exact .inr ⟨j, hname, fun k hk => hfirst k (Nat.zero_le k) hk, rfl, rfl⟩

/-- Whatever the tables hold, only bytes of the DSDT are looked at by the scan. -/
theorem acpiInit_within (m : Memory) (s : State) :
    (acpiInit m).Within s fun o => ∃ dsdt, FindsDsdt m dsdt ∧ o < tableLength m dsdt := by
  have hmodify {f : State → State} {s : State} {Q : ℕ → Prop} :
      (modify f : Scan Unit).Within s Q := .lift _
  unfold acpiInit
  cases hrsdp : findRsdp m with
  | none => exact hmodify
  | some rsdp =>
    dsimp only
    refine .ite (fun _ => hmodify) fun hlow => .ite (fun _ => hmodify) fun hsum => ?_
    cases hfadt : findTable m (m.load32 (rsdp + 16)) [0x46, 0x41, 0x43, 0x50] with
    | none => exact hmodify
    | some fadt =>
      dsimp only
      refine .bind hmodify fun _ s₁ _ => .ite (fun _ => hmodify) fun _ => ?_
      refine .bind (fun o ho => ?_) fun _ _ _ => hmodify
      refine ⟨m.load32 (fadt + 40), ⟨rsdp, fadt, hrsdp, ?_, ?_, hfadt, rfl⟩, ?_⟩
      · omega
      · simpa using hsum
      · exact (scanDsdt_spec 0 s₁).1 o ho

/-- What `acpi_init` stores is what `decoded` says of the first name. -/
theorem acpiInit_stores (hd : FindsDsdt m dsdt) (hlen : ValidLength m dsdt)
    (hp : SleepPackage m dsdt i a b) (hfirst : ∀ j < i, ¬ SleepName m dsdt j) (s : State) :
    ∃ s', (acpiInit m).erase.Returns s () s' ∧ s'.slpTypa = (decoded m dsdt i s).slpTypa ∧
      s'.slpTypb = (decoded m dsdt i s).slpTypb := by
  obtain ⟨-, _, s', hr, hs'⟩ := acpiInit_runs hd hlen s
  refine ⟨s', hr, ?_⟩
  have hfits := hp.fits
  rcases hs' with ⟨-, -, hnone⟩ | ⟨j, hname, hj, ha, hb⟩
  · exact absurd hp.name (hnone i (by omega))
  · obtain rfl : j = i := by
      rcases Nat.lt_trichotomy j i with hji | hji | hij
      · exact absurd hname (hfirst j hji)
      · exact hji
      · exact absurd hp.name (hj i hij)
    exact ⟨ha, hb⟩

/-- The place looked at is the one behind the length when the low bits of its first byte are the
high ones. -/
theorem decoded_of_skip (hp : SleepPackage m dsdt i a b)
    (hskip : m.load8 (dsdt + (i + 5)) % 16 = m.load8 (dsdt + (i + 5)) / 64) (s : State) :
    (decoded m dsdt i s).slpTypa = a ∧ (decoded m dsdt i s).slpTypb = b := by
  have hfits := hp.fits
  have hplace : elementPlace m dsdt i = i + 7 + m.load8 (dsdt + (i + 5)) / 64 := by
    rw [elementPlace, hskip]
  have hA : HasElement m dsdt (i + 7 + m.load8 (dsdt + (i + 5)) / 64) := ⟨by omega, hp.prefixA⟩
  have hB : HasElement m dsdt (i + 7 + m.load8 (dsdt + (i + 5)) / 64 + 2) := ⟨hfits, hp.prefixB⟩
  simp only [decoded, hplace]
  rw [elementOr, if_pos hA, elementOr, if_pos hB]
  exact ⟨hp.byteA, hp.byteB⟩

/-- In every table whose package has a length that begins with the byte `lead`, the values of the
package are found. -/
def AlwaysFound (lead : ℕ) : Prop :=
  ∀ (m : Memory) (s : State) (dsdt i a b : ℕ), FindsDsdt m dsdt → ValidLength m dsdt →
    SleepPackage m dsdt i a b → (∀ j < i, ¬ SleepName m dsdt j) →
    m.load8 (dsdt + (i + 5)) = lead →
      ∃ s', (acpiInit m).erase.Returns s () s' ∧ s'.slpTypa = a ∧ s'.slpTypb = b

/-! ## A firmware -/

/-- The bytes of a little-endian word. -/
def wordBytes (w : ℕ) : List ℕ := [w % 256, w / 256 % 256, w / 65536 % 256, w / 16777216]

/-- The length of the package of the firmware below: the low six bits of `lead`, or its low four
bits and a byte 1. -/
def packageLength (lead : ℕ) : ℕ := if lead / 64 = 0 then lead else 16 + lead % 16

/-- The bytes behind `lead` that belong to the length. -/
def lengthBytes (lead : ℕ) : List ℕ :=
  if lead / 64 = 0 then [] else 1 :: List.replicate (lead / 64 - 1) 0

/-- Tables at `0x100000` and `0x100100`, and the header of a DSDT of 128 bytes at `0x100200`. -/
def firmwareTables : Memory := fun a =>
  BitVec.ofNat 8 <|
    if a < 0x100000 then
      ([0x52, 0x53, 0x44, 0x20, 0x50, 0x54, 0x52, 0x20, 0xD1, 0, 0, 0, 0, 0, 0, 0] ++
        wordBytes 0x100000).getD (a - 0xE0000) 0
    else if a < 0x100100 then
      ([0x52, 0x53, 0x44, 0x54] ++ wordBytes 40 ++ [0, 0x8A] ++ List.replicate 26 0 ++
        wordBytes 0x100100).getD (a - 0x100000) 0
    else if a < 0x100200 then
      ([0x46, 0x41, 0x43, 0x50] ++ List.replicate 36 0 ++ wordBytes 0x100200 ++
        List.replicate 20 0 ++ wordBytes 0x604).getD (a - 0x100100) 0
    else ([0x44, 0x53, 0x44, 0x54] ++ wordBytes 128).getD (a - 0x100200) 0

/-- The tables, and behind the header of the DSDT `_S5_` and a package whose length begins with the
byte `lead`. The first two elements are the byte 5, and the others are zeros. -/
def firmware (lead : ℕ) : Memory := fun a =>
  if a < 0x100224 then firmwareTables a
  else
    BitVec.ofNat 8 <|
      ([0x5F, 0x53, 0x35, 0x5F, 0x12, lead] ++ lengthBytes lead ++
        [packageLength lead - lead / 64 - 4, 0x0A, 5, 0x0A, 5]).getD (a - 0x100224) 0

theorem firmware_sameOn (lead a n : ℕ) (h : a + n ≤ 0x100224) :
    Memory.SameOn firmwareTables (firmware lead) a n :=
  fun _ _ hb => if_pos (Nat.lt_of_lt_of_le hb h)

theorem spells_of_sameOn {m' : Memory} {a : ℕ} {cs : List ℕ} (h : Memory.SameOn m m' a cs.length)
    (ha : a + cs.length ≤ 2 ^ 32) : spells m' a cs = spells m a cs := by
  induction cs generalizing a with
  | nil => rfl
  | cons c cs ih =>
    rw [List.length_cons] at h ha
    rw [spells, spells, (h.mono le_rfl (by omega) : Memory.SameOn m m' a 1).load8 (by omega),
      ih (h.mono (by omega) (by omega)) (by omega)]

theorem checksumValid_of_sameOn {m' : Memory} {a n : ℕ} (h : Memory.SameOn m m' a n)
    (ha : a + n ≤ 2 ^ 32) : checksumValid m' a n = checksumValid m a n := by
  have hload : (List.range n).map (fun i => m'.load8 (a + i)) =
      (List.range n).map fun i => m.load8 (a + i) := by
    apply List.map_congr_left
    intro i hi
    have hlt := List.mem_range.mp hi
    exact (h.mono (by omega) (by omega) : Memory.SameOn m m' (a + i) 1).load8 (by omega)
  rw [checksumValid, checksumValid, hload]

theorem findRsdp_of_first {m : Memory}
    (h : spells m 0xE0000 [0x52, 0x53, 0x44, 0x20, 0x50, 0x54, 0x52, 0x20] = true)
    (hsum : checksumValid m 0xE0000 20 = true) : findRsdp m = some 0xE0000 := by
  rw [findRsdp, List.range'_succ, List.find?_cons_of_pos]
  rw [h, hsum]
  rfl

theorem findTable_of_single {m : Memory} {rsdt table : ℕ} {signature : List ℕ}
    (hlen : tableLength m rsdt = 40) (htable : m.load32 (rsdt + headerSize) = table)
    (h : spells m table signature = true) : findTable m rsdt signature = some table := by
  simp [findTable, hlen, headerSize, ← htable] at h ⊢
  exact h

/-- A word of the tables. -/
theorem firmware_load32 (lead : ℕ) {a : ℕ} (h : a + 4 ≤ 0x100224) :
    (firmware lead).load32 a = firmwareTables.load32 a :=
  (firmware_sameOn lead a 4 h).load32 (by omega)

theorem firmware_findsDsdt (lead : ℕ) : FindsDsdt (firmware lead) 0x100200 := by
  have hrsdt : (firmware lead).load32 (0xE0000 + 16) = 0x100000 := by
    rw [firmware_load32 lead (by decide)]
    decide +kernel
  have hlen : tableLength (firmware lead) 0x100000 = 40 := by
    rw [tableLength, firmware_load32 lead (by decide)]
    decide +kernel
  refine ⟨0xE0000, 0x100100, findRsdp_of_first ?_ ?_, ?_, ?_, ?_, ?_⟩
  · rw [spells_of_sameOn (firmware_sameOn lead _ _ (by decide)) (by decide)]
    decide +kernel
  · rw [checksumValid_of_sameOn (firmware_sameOn lead _ _ (by decide)) (by decide)]
    decide +kernel
  · rw [hrsdt]
  · rw [hrsdt, hlen, checksumValid_of_sameOn (firmware_sameOn lead _ _ (by decide)) (by decide)]
    decide +kernel
  · rw [hrsdt]
    refine findTable_of_single hlen ?_ ?_
    · rw [firmware_load32 lead (by decide)]
      decide +kernel
    · rw [spells_of_sameOn (firmware_sameOn lead _ _ (by decide)) (by decide)]
      decide +kernel
  · rw [firmware_load32 lead (by decide)]
    decide +kernel

theorem firmware_length (lead : ℕ) : tableLength (firmware lead) 0x100200 = 128 := by
  rw [tableLength, firmware_load32 lead (by decide)]
  decide +kernel

theorem firmware_validLength (lead : ℕ) : ValidLength (firmware lead) 0x100200 := by
  rw [ValidLength, firmware_length]
  decide

/-- No byte of the header is the first character of the name. -/
theorem firmware_first (lead : ℕ) : ∀ j < 36, ¬ SleepName (firmware lead) 0x100200 j := by
  have hall : ∀ j < 36, firmwareTables.load8 (0x100200 + j) ≠ 0x5F := by decide +kernel
  rintro j hj ⟨hname, -⟩
  rw [spells, Bool.and_eq_true, decide_eq_true_eq,
    (firmware_sameOn lead _ 1 (by omega)).load8 (by omega)] at hname
  exact hall j hj hname.1

theorem firmware_sleepPackage {lead : ℕ} (h : lead < 256) :
    (firmware lead).load8 (0x100200 + (36 + 5)) = lead ∧
      SleepPackage (firmware lead) 0x100200 36 5 5 := by
  have hall : ∀ lead < 256, (firmware lead).load8 (0x100200 + (36 + 5)) = lead ∧
      SleepName (firmware lead) 0x100200 36 ∧
      (firmware lead).load8 (0x100200 + (36 + 7 + lead / 64)) = 0x0A ∧
      (firmware lead).load8 (0x100200 + (36 + 7 + lead / 64 + 1)) = 5 ∧
      (firmware lead).load8 (0x100200 + (36 + 7 + lead / 64 + 2)) = 0x0A ∧
      (firmware lead).load8 (0x100200 + (36 + 7 + lead / 64 + 2 + 1)) = 5 := by
    unfold SleepName
    decide +kernel
  obtain ⟨hlead, hname, h₁, h₂, h₃, h₄⟩ := hall lead h
  refine ⟨hlead, hname, ?_, ?_, ?_, ?_, ?_⟩ <;> rw [hlead]
  · exact h₁
  · exact h₂
  · exact h₃
  · exact h₄
  · rw [firmware_length]
    omega

/-- Where the low bits of the length's first byte are not the high ones, the values are missed. -/
theorem firmware_missed {lead : ℕ} (h : lead < 256) (hskip : lead % 16 ≠ lead / 64) :
    ¬ ((decoded (firmware lead) 0x100200 36 acpiLoaded).slpTypa = 5 ∧
      (decoded (firmware lead) 0x100200 36 acpiLoaded).slpTypb = 5) := by
  have hall : ∀ lead < 256, lead % 16 ≠ lead / 64 →
      ¬ ((decoded (firmware lead) 0x100200 36 acpiLoaded).slpTypa = 5 ∧
        (decoded (firmware lead) 0x100200 36 acpiLoaded).slpTypb = 5) := by decide +kernel
  exact hall lead h hskip

/-- **The sleep state is found** in every table, for exactly those first bytes of the package's
length whose four low bits are the two high bits. Whatever the memory holds, the scan stays in the
table. -/
theorem sleep_found_iff {lead : ℕ} (h : lead < 256) :
    (∀ m s, (acpiInit m).Within s fun o => ∃ dsdt, FindsDsdt m dsdt ∧ o < tableLength m dsdt) ∧
      (AlwaysFound lead ↔ lead % 16 = lead / 64) := by
  refine ⟨acpiInit_within, fun hall => ?_, fun hskip => ?_⟩
  · by_contra hskip
    obtain ⟨hlead, hp⟩ := firmware_sleepPackage h
    have hd := firmware_findsDsdt lead
    have hlen := firmware_validLength lead
    obtain ⟨s₁, hr₁, ha, hb⟩ :=
      hall (firmware lead) acpiLoaded 0x100200 36 5 5 hd hlen hp (firmware_first lead) hlead
    obtain ⟨s₂, hr₂, ha', hb'⟩ := acpiInit_stores hd hlen hp (firmware_first lead) acpiLoaded
    obtain ⟨-, rfl⟩ := hr₁.det hr₂
    exact firmware_missed h hskip ⟨ha'.symm.trans ha, hb'.symm.trans hb⟩
  · intro m s dsdt i a b hd hlen hp hfirst hlead
    obtain ⟨s', hr, ha, hb⟩ := acpiInit_stores hd hlen hp hfirst s
    obtain ⟨hda, hdb⟩ := decoded_of_skip hp (by rw [hlead, hskip]) s
    exact ⟨s', hr, ha.trans hda, hb.trans hdb⟩

/-- The theorem at a package of sixteen bytes. -/
theorem sleep_found_sixteen : ∃ s', (acpiInit (firmware 0x10)).erase.Returns acpiLoaded () s' ∧
    s'.slpTypa = 5 ∧ s'.slpTypb = 5 := by
  obtain ⟨hlead, hp⟩ := firmware_sleepPackage (show 0x10 < 256 by decide)
  exact (sleep_found_iff (by decide)).2.mpr (by decide) _ _ _ _ _ _ (firmware_findsDsdt 0x10)
    (firmware_validLength 0x10) hp (firmware_first 0x10) hlead

/-- **A package of ten bytes is not found**: the sleep type stays 0, and `acpi_shutdown` writes that
of another state. -/
theorem sleep_missed : FindsDsdt (firmware 0x0A) 0x100200 ∧ ValidLength (firmware 0x0A) 0x100200 ∧
    SleepPackage (firmware 0x0A) 0x100200 36 5 5 ∧
    (∀ j < 36, ¬ SleepName (firmware 0x0A) 0x100200 j) ∧
    ∃ s', (acpiInit (firmware 0x0A)).erase.Returns acpiLoaded () s' ∧ s'.slpTypa = 0 ∧
      s'.slpTypb = 0 ∧ acpiShutdown s' = [(0x604, 0x2000)] := by
  obtain ⟨-, hp⟩ := firmware_sleepPackage (show 0x0A < 256 by decide)
  refine ⟨firmware_findsDsdt 0x0A, firmware_validLength 0x0A, hp, firmware_first 0x0A,
    ⟨true, 0x100100, 0x604, 0, 0, 0⟩, ⟨60, ?_⟩, rfl, rfl, rfl⟩
  decide +kernel

end WarkRune.Acpi

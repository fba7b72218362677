import Mathlib.Data.List.Induction
import WarkRune.Bytes.Memory
import WarkRune.Machine.Run

/-!
# The interrupt table

The table has eight bytes for each of the 256 vectors. `idt_set_gate` scatters the address of a
handler over the bytes of a gate, and the processor puts it together again when the interrupt comes.
What the processor finds is a map from vectors to gates, in which a call changes one entry.

## Main definitions

* `idtSetGate`: the function of the table
* `gateAt`: what the processor reads for a vector
* `GateCall.apply`: a call as a change of a map
* `idtInit`, `syscallInit`: the calls of the kernel

## Main results

* `gateAt_set`: a call is found at its vector, and the other vectors keep theirs
* `idt_refines`: after every run of calls the processor finds the gates that were set last, and no
  byte outside of the table has changed
* `user_vector_iff`: a program enters the kernel through `int 0x80` and through no other vector
-/

namespace WarkRune.Sched

open Bytes (Memory)
open Bytes.Memory (SameOn)

/-- A gate, as the processor takes it from the table. -/
structure Gate where
  handler : ℕ
  selector : ℕ
  flags : ℕ
  deriving DecidableEq

/-- What `idt_set_gate` is called with. -/
structure GateCall where
  num : BitVec 32
  handler : BitVec 32
  selector : BitVec 32
  flags : BitVec 32

/-- The two bytes of `bx`. -/
def lowWord (v : BitVec 32) : List (BitVec 8) := [v.setWidth 8, (v >>> 8).setWidth 8]

/-- `idt_set_gate`, with the table at `idt`. -/
def idtSetGate (idt : BitVec 32) (m : Memory) (g : GateCall) : Memory :=
  let eax := (g.num * 8 + idt).toNat
  let m := m.storeBytes eax (lowWord g.handler)
  let m := m.storeBytes (eax + 2) (lowWord g.selector)
  let m := m.storeBytes (eax + 4) [0]
  let m := m.storeBytes (eax + 5) [g.flags.setWidth 8]
  m.storeBytes (eax + 6) (lowWord (g.handler >>> 16))

/-- What the processor reads for a vector: nothing when the gate is not present. -/
def gateAt (idt : BitVec 32) (m : Memory) (vector : ℕ) : Option Gate :=
  let a := idt.toNat + 8 * vector
  let flags := m.load8 (a + 5)
  if flags / 128 = 1 then
    some ⟨m.load16 a + 2 ^ 16 * m.load16 (a + 6), m.load16 (a + 2), flags⟩
  else none

/-- The gate that a call sets. -/
def GateCall.gate (g : GateCall) : Option Gate :=
  let flags := g.flags.toNat % 2 ^ 8
  if flags / 128 = 1 then some ⟨g.handler.toNat, g.selector.toNat % 2 ^ 16, flags⟩ else none

/-- The call as a change of the map from vectors to gates. -/
def GateCall.apply (t : ℕ → Option Gate) (g : GateCall) : ℕ → Option Gate :=
  Function.update t g.num.toNat g.gate

variable {idt : BitVec 32} {m : Memory} {g : GateCall} {v : ℕ}

/-- The bytes of a gate. -/
def GateCall.bytes (g : GateCall) : List (BitVec 8) :=
  lowWord g.handler ++ lowWord g.selector ++ [0, g.flags.setWidth 8] ++ lowWord (g.handler >>> 16)

theorem idtSetGate_eq (hidt : idt.toNat + 2048 ≤ 2 ^ 32) (hnum : g.num.toNat < 256) :
    idtSetGate idt m g = m.storeBytes (idt.toNat + 8 * g.num.toNat) g.bytes := by
  have heax : (g.num * 8 + idt).toNat = idt.toNat + 8 * g.num.toNat := by
    rw [BitVec.toNat_add, BitVec.toNat_mul, show (8 : BitVec 32).toNat = 8 from rfl,
      Nat.mod_eq_of_lt (show g.num.toNat * 8 < 2 ^ 32 by omega), Nat.mod_eq_of_lt (by omega)]
    omega
  unfold idtSetGate
  rw [heax]
  rfl

/-- The two bytes make the low half of the word. -/
theorem lowWord_value (v : BitVec 32) :
    (v.setWidth 8).toNat + 2 ^ 8 * ((v >>> 8).setWidth 8).toNat = v.toNat % 2 ^ 16 := by
  rw [BitVec.toNat_setWidth, BitVec.toNat_setWidth, BitVec.toNat_ushiftRight,
    Nat.shiftRight_eq_div_pow]
  omega

/-- A call stores the bytes of its gate. -/
theorem load8_set (hidt : idt.toNat + 2048 ≤ 2 ^ 32) (hnum : g.num.toNat < 256) {i : ℕ}
    (hi : i < g.bytes.length) :
    (idtSetGate idt m g).load8 (idt.toNat + 8 * g.num.toNat + i) = g.bytes[i].toNat := by
  have hlen : g.bytes.length = 8 := rfl
  rw [idtSetGate_eq hidt hnum]
  exact Bytes.Memory.load8_storeBytes (by omega) hi

/-- A call stores nothing else. -/
theorem sameOn_set (hidt : idt.toNat + 2048 ≤ 2 ^ 32) (hnum : g.num.toNat < 256) {b n : ℕ}
    (hout : idt.toNat + 8 * g.num.toNat + 8 ≤ b ∨ b + n ≤ idt.toNat + 8 * g.num.toNat) :
    SameOn m (idtSetGate idt m g) b n := by
  have hlen : g.bytes.length = 8 := rfl
  rw [idtSetGate_eq hidt hnum]
  exact Bytes.Memory.sameOn_storeBytes (by omega) (by omega)

/-- **A call is found at its vector**, and the other vectors keep their gates. -/
theorem gateAt_set (hidt : idt.toNat + 2048 ≤ 2 ^ 32) (hnum : g.num.toNat < 256) (hv : v < 256) :
    gateAt idt (idtSetGate idt m g) v = g.apply (gateAt idt m) v := by
  unfold GateCall.apply
  by_cases heq : v = g.num.toNat
  · subst heq
    have hbyte : ∀ i, (hi : i < 8) → (idtSetGate idt m g).load8
        (idt.toNat + 8 * g.num.toNat + i) = (g.bytes.get ⟨i, hi⟩).toNat :=
      fun _ hi => load8_set hidt hnum hi
    have hflags : (idtSetGate idt m g).load8 (idt.toNat + 8 * g.num.toNat + 5) =
        g.flags.toNat % 2 ^ 8 := (hbyte 5 (by decide)).trans (BitVec.toNat_setWidth ..)
    have hword : ∀ i, (hi : i + 1 < 8) → (idtSetGate idt m g).load16
        (idt.toNat + 8 * g.num.toNat + i) = (g.bytes.get ⟨i, Nat.lt_of_succ_lt hi⟩).toNat +
          2 ^ 8 * (g.bytes.get ⟨i + 1, hi⟩).toNat := by
      intro i hi
      rw [Bytes.Memory.load16, hbyte i (Nat.lt_of_succ_lt hi)]
      exact congrArg (_ + 2 ^ 8 * ·) (hbyte (i + 1) hi)
    have hlow : (idtSetGate idt m g).load16 (idt.toNat + 8 * g.num.toNat) =
        g.handler.toNat % 2 ^ 16 := (hword 0 (by decide)).trans (lowWord_value _)
    have hselector : (idtSetGate idt m g).load16 (idt.toNat + 8 * g.num.toNat + 2) =
        g.selector.toNat % 2 ^ 16 := (hword 2 (by decide)).trans (lowWord_value _)
    have hhigh : (idtSetGate idt m g).load16 (idt.toNat + 8 * g.num.toNat + 6) =
        g.handler.toNat / 2 ^ 16 := by
      refine ((hword 6 (by decide)).trans (lowWord_value _)).trans ?_
      rw [BitVec.toNat_ushiftRight, Nat.shiftRight_eq_div_pow]
      have := g.handler.isLt
      omega
    have hhandler : g.handler.toNat % 2 ^ 16 + 2 ^ 16 * (g.handler.toNat / 2 ^ 16) =
        g.handler.toNat := Nat.mod_add_div ..
    rw [Function.update_self]
    unfold gateAt GateCall.gate
    simp only [hflags, hlow, hselector, hhigh, hhandler]
  · have hsame : SameOn m (idtSetGate idt m g) (idt.toNat + 8 * v) 8 :=
      sameOn_set hidt hnum (by omega)
    have hload : ∀ i < 7, (idtSetGate idt m g).load16 (idt.toNat + 8 * v + i) =
        m.load16 (idt.toNat + 8 * v + i) :=
      fun i hi => (hsame.mono (by omega) (by omega)).load16 (by omega)
    have hflags : (idtSetGate idt m g).load8 (idt.toNat + 8 * v + 5) =
        m.load8 (idt.toNat + 8 * v + 5) := (hsame.mono (by omega) (by omega)).load8 (by omega)
    have hlow := hload 0 (by decide)
    rw [Nat.add_zero] at hlow
    unfold gateAt
    simp only [hflags, hlow, hload 2 (by decide), hload 6 (by decide), Function.update_of_ne heq]

/-- The calls are for vectors. -/
def Vectors (gs : List GateCall) : Prop := ∀ g ∈ gs, g.num.toNat < 256

/-- **The processor finds the gates that were set last**: the bytes of the table refine the map from
vectors to gates over every run of calls, and the other bytes stay as they were. -/
theorem idt_refines (hidt : idt.toNat + 2048 ≤ 2 ^ 32) {gs : List GateCall} (hgs : Vectors gs)
    (m : Memory) :
    (∀ v < 256, gateAt idt (Machine.after (idtSetGate idt) m gs) v =
        Machine.after GateCall.apply (gateAt idt m) gs v) ∧
      SameOn m (Machine.after (idtSetGate idt) m gs) 0 idt.toNat ∧
      ∀ n, SameOn m (Machine.after (idtSetGate idt) m gs) (idt.toNat + 2048) n := by
  -- by induction on the calls, the last one taken first: the map is compared below 256 only
  induction gs using List.reverseRecOn with
  | nil => exact ⟨fun _ _ => rfl, Bytes.Memory.sameOn_refl, fun _ => Bytes.Memory.sameOn_refl⟩
  | append_singleton gs g ih =>
    obtain ⟨hmap, hlow, hhigh⟩ := ih fun g' hg' => hgs g' (List.mem_append_left _ hg')
    have hnum : g.num.toNat < 256 := hgs g (List.mem_append_right _ List.mem_cons_self)
    rw [Machine.after_concat, Machine.after_concat]
    refine ⟨fun v hv => ?_, hlow.trans (sameOn_set hidt hnum (by omega)),
      fun n => (hhigh n).trans (sameOn_set hidt hnum (by omega))⟩
    rw [gateAt_set hidt hnum hv]
    unfold GateCall.apply
    by_cases heq : v = g.num.toNat
    · rw [heq, Function.update_self, Function.update_self]
    · rw [Function.update_of_ne heq, Function.update_of_ne heq]
      exact hmap v hv

/-- Two gates that are set one over the other, and one beside them. -/
theorem idt_refines_last :
    gateAt 0x20000 (Machine.after (idtSetGate 0x20000) (fun _ => 0)
      [⟨0x20, 0x12345678, 8, 0x8E⟩, ⟨0x80, 0x9ABCDEF0, 8, 0xEE⟩, ⟨0x20, 0x87654321, 8, 0x8E⟩]) 0x20 =
      some ⟨0x87654321, 8, 0x8E⟩ := by
  refine ((idt_refines (by decide) ?_ _).1 0x20 (by decide)).trans ?_
  · unfold Vectors
    decide
  · rfl

/-! ## The table of the kernel -/

/-- The vectors that `idt_init` sets. -/
def kernelVectors : List ℕ := [0, 4, 6, 7, 8, 12, 13, 14, 0x20, 0x21, 0x2C]

/-- The calls of `idt_init`, for the addresses of its handlers. -/
def idtInit (handlers : ℕ → BitVec 32) : List GateCall :=
  kernelVectors.map fun n => ⟨.ofNat 32 n, handlers n, 0x08, 0x8E⟩

/-- The call of `syscall_init`. -/
def syscallInit (stub : BitVec 32) : GateCall := ⟨0x80, stub, 0x08, 0xEE⟩

/-- The highest ring that may use the gate with `int`. -/
def Gate.dpl (g : Gate) : ℕ := g.flags / 32 % 4

theorem gate_idtInit (num handler : BitVec 32) :
    (⟨num, handler, 0x08, 0x8E⟩ : GateCall).gate = some ⟨handler.toNat, 8, 0x8E⟩ := by
  simp [GateCall.gate]

theorem gate_syscallInit (stub : BitVec 32) :
    (syscallInit stub).gate = some ⟨stub.toNat, 8, 0xEE⟩ := by
  simp [GateCall.gate, syscallInit]

/-- The gates of a list of vectors. -/
theorem after_map {ns : List ℕ} (hns : ∀ n ∈ ns, n < 256) (handlers : ℕ → BitVec 32)
    (t : ℕ → Option Gate) :
    let t' := Machine.after GateCall.apply t
      (ns.map fun n => ⟨.ofNat 32 n, handlers n, 0x08, 0x8E⟩)
    (v ∈ ns → t' v = some ⟨(handlers v).toNat, 8, 0x8E⟩) ∧ (v ∉ ns → t' v = t v) := by
  induction ns generalizing t with
  | nil => exact ⟨fun h => absurd h List.not_mem_nil, fun _ => rfl⟩
  | cons n ns ih =>
    obtain ⟨hin, hout⟩ := ih (fun k hk => hns k (List.mem_cons_of_mem n hk))
      (GateCall.apply t ⟨.ofNat 32 n, handlers n, 0x08, 0x8E⟩)
    have hn : (BitVec.ofNat 32 n).toNat = n := by
      have hlt := hns n List.mem_cons_self
      rw [BitVec.toNat_ofNat, Nat.mod_eq_of_lt (by omega)]
    rw [List.map_cons, Machine.after_cons]
    refine ⟨fun h => ?_, fun h => ?_⟩
    · by_cases hmem : v ∈ ns
      · exact hin hmem
      · obtain rfl : v = n := (List.mem_cons.mp h).resolve_right hmem
        rw [hout hmem, GateCall.apply, hn, Function.update_self]
        exact gate_idtInit ..
    · have hne : v ≠ n := fun he => h (he ▸ List.mem_cons_self)
      rw [hout fun hmem => h (List.mem_cons_of_mem n hmem), GateCall.apply, hn]
      exact Function.update_of_ne hne ..

/-- **Programs enter the kernel through one gate**: of the vectors of the kernel's table, `int 0x80`
alone can be used in ring 3, and it leads to `syscall_stub`. -/
theorem user_vector_iff (hidt : idt.toNat + 2048 ≤ 2 ^ 32)
    (hzero : ∀ b, idt.toNat ≤ b → b < idt.toNat + 2048 → m b = 0) (handlers : ℕ → BitVec 32)
    (stub : BitVec 32) (hv : v < 256) (gate : Gate) :
    (gateAt idt (Machine.after (idtSetGate idt) m (idtInit handlers ++ [syscallInit stub])) v =
        some gate ∧ gate.dpl = 3) ↔ v = 0x80 ∧ gate = ⟨stub.toNat, 8, 0xEE⟩ := by
  have hvectors : Vectors (idtInit handlers ++ [syscallInit stub]) := by
    intro g hg
    rcases List.mem_append.mp hg with hg | hg
    · obtain ⟨n, hn, rfl⟩ := List.mem_map.mp hg
      exact (by decide : ∀ n ∈ kernelVectors, (BitVec.ofNat 32 n).toNat < 256) n hn
    · rw [List.mem_singleton.mp hg]
      exact (by decide : 0x80 < 256)
  have hnone : gateAt idt m v = none := by
    have hbyte : m.load8 (idt.toNat + 8 * v + 5) = 0 := by
      rw [Bytes.Memory.load8, Nat.mod_eq_of_lt (by omega), hzero _ (by omega) (by omega)]
      rfl
    unfold gateAt
    dsimp only
    rw [hbyte]
    rfl
  obtain ⟨hin, hout⟩ := @after_map v kernelVectors (by decide) handlers (gateAt idt m)
  have hnum : (syscallInit stub).num.toNat = 0x80 := rfl
  rw [(idt_refines hidt hvectors m).1 v hv, Machine.after_concat, GateCall.apply, hnum]
  by_cases hsys : v = 0x80
  · subst hsys
    rw [Function.update_self, gate_syscallInit]
    constructor
    · intro h
      exact ⟨rfl, (Option.some.inj h.1).symm⟩
    · rintro ⟨-, rfl⟩
      exact ⟨rfl, (by decide : 0xEE / 32 % 4 = 3)⟩
  · rw [Function.update_of_ne hsys]
    refine iff_of_false (fun h => ?_) fun h => hsys h.1
    by_cases hmem : v ∈ kernelVectors
    · -- the gates of `idt_init` are for ring 0
      have hgate := Option.some.inj ((hin hmem).symm.trans h.1)
      rw [← hgate] at h
      exact absurd h.2 (by decide : ¬ 0x8E / 32 % 4 = 3)
    · have hempty := (hout hmem).trans hnone
      exact absurd (h.1.symm.trans hempty) (Option.some_ne_none gate)

/-- The theorem for a table at `0x20000`. -/
theorem user_vector_syscall :
    gateAt 0x20000 (Machine.after (idtSetGate 0x20000) (fun _ => 0)
      (idtInit (fun n => .ofNat 32 (0x10000 + 16 * n)) ++ [syscallInit 0x11000])) 0x80 =
      some ⟨0x11000, 8, 0xEE⟩ :=
  ((user_vector_iff (by decide) (fun _ _ _ => rfl) _ _ (by decide) _).mpr ⟨rfl, rfl⟩).1

end WarkRune.Sched

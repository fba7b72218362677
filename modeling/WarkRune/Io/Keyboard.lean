import WarkRune.Machine.Run
import WarkRune.Queue.Ring

/-!
# The keyboard queue

The keyboard interrupt stores each scancode in a ring of 32 bytes, and `read_scancode` takes the
first one out, with interrupts off. The indices are 32-bit words that are masked after each step;
the handler drops a scancode when its index would meet the other one, so the ring holds at most 31.

## Main definitions

* `Keyboard`, `kbdHandler`, `readScancode`: the ring and its two routines
* `Keyboard.step`: interrupts and calls as a machine
* `Keyboard.pending`: the scancodes in the ring

## Main results

* `Keyboard.Ok.handler`, `Keyboard.Ok.read`: what the routines do to the queue
* `keyboard_fifo`: over every run, what was read and what is pending is what was accepted
-/

namespace WarkRune.Io

open Queue (RingBuffer)
open Queue.RingBuffer (between)

/-- `kbd_buf`, `kbd_head` and `kbd_tail`. -/
structure Keyboard where
  buf : ℕ → UInt8
  /-- The index the handler writes at. -/
  head : BitVec 32
  /-- The index `read_scancode` reads at. -/
  tail : BitVec 32

/-- The ring as it is loaded. -/
def kbdInit : Keyboard := ⟨fun _ => 0, 0, 0⟩

/-- `kbd_handler` with the scancode `al` from port 0x60. -/
def kbdHandler (k : Keyboard) (al : UInt8) : Keyboard :=
  let ecx := (k.head + 1) &&& 31
  if ecx = k.tail then k
  else { k with buf := Function.update k.buf k.head.toNat al, head := ecx }

/-- `read_scancode`. -/
def readScancode (k : Keyboard) : UInt8 × Keyboard :=
  if k.tail = k.head then (0, k)
  else (k.buf k.tail.toNat, { k with tail := (k.tail + 1) &&& 31 })

/-- An interrupt with its scancode, or a call of `read_scancode`. -/
inductive KbdEvent
  | irq (sc : UInt8)
  | read
  deriving DecidableEq

namespace Keyboard

/-- An event takes the ring to the next one. -/
def step (k : Keyboard) : KbdEvent → Keyboard
  | .irq sc => kbdHandler k sc
  | .read => (readScancode k).2

/-- The scancode of an interrupt that moved `kbd_head`. -/
def accepted (k : Keyboard) : KbdEvent → List UInt8
  | .irq sc => if (kbdHandler k sc).head = k.head then [] else [sc]
  | .read => []

/-- The ring of the two indices. -/
def ring (k : Keyboard) : RingBuffer UInt8 := between 32 k.buf k.tail.toNat k.head.toNat

/-- The scancodes in the ring, the first to be read first. -/
def pending (k : Keyboard) : List UInt8 := k.ring.contents 32

/-- The scancode a call on a ring that is not empty returns. -/
def returned (k : Keyboard) : KbdEvent → List UInt8
  | .irq _ => []
  | .read => if k.pending = [] then [] else [(readScancode k).1]

/-- Both indices are masked. -/
structure Ok (k : Keyboard) : Prop where
  head_lt : k.head.toNat < 32
  tail_lt : k.tail.toNat < 32

theorem toNat_mask (i : BitVec 32) (h : i.toNat < 32) :
    ((i + 1) &&& 31).toNat = (i.toNat + 1) % 32 := by
  have hadd : (i + 1).toNat = i.toNat + 1 := by
    rw [BitVec.toNat_add]
    exact Nat.mod_eq_of_lt (by simp; omega)
  rw [BitVec.toNat_and, hadd]
  exact Nat.and_two_pow_sub_one_eq_mod _ 5

variable {k : Keyboard}

theorem length_pending : k.pending.length = k.ring.count := RingBuffer.length_contents _

section

variable (h : k.Ok)
include h

theorem Ok.ring_ok : k.ring.Ok 32 := RingBuffer.ok_between h.tail_lt h.head_lt

theorem Ok.length_lt : k.pending.length < 32 :=
  length_pending ▸ RingBuffer.count_between_lt h.tail_lt h.head_lt

/-- The handler finds the ring full when 31 scancodes are pending. -/
theorem Ok.full_iff : (k.head + 1) &&& 31 = k.tail ↔ k.pending.length = 31 := by
  rw [BitVec.toNat_inj.symm, toNat_mask _ h.head_lt, length_pending,
    RingBuffer.succ_mod_eq_iff h.tail_lt h.head_lt]
  exact Nat.succ_inj

theorem Ok.empty_iff : k.tail = k.head ↔ k.pending = [] := by
  rw [BitVec.toNat_inj.symm, ← List.length_eq_zero_iff, length_pending]
  exact (RingBuffer.count_between_eq_zero_iff h.tail_lt).symm

/-- **The handler adds a scancode at the end**, unless 31 are pending. -/
theorem Ok.handler (sc : UInt8) : (kbdHandler k sc).Ok ∧
    if k.pending.length < 31 then (kbdHandler k sc).pending = k.pending ++ [sc] ∧
      accepted k (.irq sc) = [sc]
    else kbdHandler k sc = k ∧ accepted k (.irq sc) = [] := by
  by_cases hfull : (k.head + 1) &&& 31 = k.tail
  · have hsame : kbdHandler k sc = k := if_pos hfull
    rw [if_neg (by rw [h.full_iff.mp hfull]; exact Nat.lt_irrefl 31), accepted, hsame, if_pos rfl]
    exact ⟨h, rfl, rfl⟩
  · have hlt : k.pending.length < 31 := by
      have hne := mt h.full_iff.mpr hfull
      have hle := h.length_lt
      omega
    have hmoved : kbdHandler k sc =
        { k with buf := Function.update k.buf k.head.toNat sc, head := (k.head + 1) &&& 31 } :=
      if_neg hfull
    have hhead := toNat_mask k.head h.head_lt
    -- the index has moved, which is how an accepted scancode is told from a dropped one
    have hnew : ((k.head + 1) &&& 31) ≠ k.head := by
      intro he
      rw [← BitVec.toNat_inj, hhead, RingBuffer.succ_mod h.head_lt] at he
      split_ifs at he <;> omega
    rw [if_pos hlt, accepted, hmoved, if_neg hnew]
    refine ⟨⟨?_, h.tail_lt⟩, ?_, rfl⟩
    · rw [hhead]
      exact Nat.mod_lt _ (Nat.zero_lt_succ 31)
    · rw [length_pending] at hlt
      have hpush : k.ring.push 32 sc = _ :=
        RingBuffer.push_between h.tail_lt h.head_lt (Nat.succ_lt_succ hlt) sc
      rw [pending, ring, hhead, ← hpush]
      exact RingBuffer.contents_push h.ring_ok (hlt.trans (Nat.lt_succ_self 31)) sc

/-- **`read_scancode` takes the first scancode away**, and returns 0 when there is none. -/
theorem Ok.read : (readScancode k).2.Ok ∧
    if k.pending = [] then readScancode k = (0, k) ∧ returned k .read = []
    else k.pending = (readScancode k).1 :: (readScancode k).2.pending ∧
      returned k .read = [(readScancode k).1] := by
  by_cases hempty : k.tail = k.head
  · have hsame : readScancode k = (0, k) := if_pos hempty
    rw [returned, if_pos (h.empty_iff.mp hempty), if_pos (h.empty_iff.mp hempty), hsame]
    exact ⟨h, rfl, rfl⟩
  · have hmoved : readScancode k =
        (k.buf k.tail.toNat, { k with tail := (k.tail + 1) &&& 31 }) := if_neg hempty
    have htail := toNat_mask k.tail h.tail_lt
    rw [returned, if_neg (mt h.empty_iff.mpr hempty), if_neg (mt h.empty_iff.mpr hempty), hmoved]
    refine ⟨⟨h.head_lt, ?_⟩, ?_, rfl⟩
    · rw [htail]
      exact Nat.mod_lt _ (Nat.zero_lt_succ 31)
    · -- the indices differ, so the ring holds a scancode
      have hpos : 0 < k.ring.count := by
        rw [Nat.pos_iff_ne_zero]
        exact mt (RingBuffer.count_between_eq_zero_iff h.tail_lt).mp (mt BitVec.toNat_inj.mp hempty)
      have hpop : k.ring.pop 32 = _ := RingBuffer.pop_between h.tail_lt h.head_lt hpos
      rw [pending, RingBuffer.contents_pop h.ring_ok hpos, hpop, ← htail]
      rfl

end

theorem kbdInit_ok : kbdInit.Ok := ⟨Nat.zero_lt_succ 31, Nat.zero_lt_succ 31⟩

theorem Ok.step (h : k.Ok) (e : KbdEvent) : (k.step e).Ok := by
  cases e with
  | irq sc => exact (h.handler sc).1
  | read => exact h.read.1

/-- One event keeps the account of what was returned, what is pending and what was accepted. -/
theorem Ok.account (h : k.Ok) (e : KbdEvent) :
    returned k e ++ (k.step e).pending = k.pending ++ accepted k e := by
  cases e with
  | irq sc =>
    obtain ⟨-, hq⟩ := h.handler sc
    change [] ++ (kbdHandler k sc).pending = k.pending ++ accepted k (.irq sc)
    split_ifs at hq with hlt
    · rw [hq.1, hq.2, List.nil_append]
    · rw [hq.1, hq.2, List.nil_append, List.append_nil]
  | read =>
    obtain ⟨-, hq⟩ := h.read
    change returned k .read ++ (readScancode k).2.pending = k.pending ++ []
    rw [List.append_nil]
    split_ifs at hq with hnil
    · rw [hq.1, hq.2, List.nil_append]
    · rw [hq.2, hq.1, List.singleton_append]

/-- Over a run from any ring with masked indices. -/
theorem Ok.account_run (h : k.Ok) (es : List KbdEvent) :
    Machine.outputs Keyboard.step returned k es ++ (Machine.after Keyboard.step k es).pending =
      k.pending ++ Machine.outputs Keyboard.step accepted k es := by
  induction es generalizing k with
  | nil => exact (List.append_nil _).symm
  | cons e es ih =>
    rw [Machine.outputs, Machine.outputs, Machine.after_cons, List.append_assoc, ih (h.step e),
      ← List.append_assoc, h.account e, List.append_assoc]

end Keyboard

open Keyboard in
/-- **The keyboard queue**: in every state that interrupts and calls lead to, in any order, the
indices are masked, a scancode is accepted exactly when fewer than 31 are pending and otherwise
changes nothing, a call returns the first scancode pending, or 0, and what the calls returned
followed by what is pending is what was accepted. -/
theorem keyboard_fifo (es : List KbdEvent) :
    let k := Machine.after step kbdInit es
    k.head.toNat ≤ 31 ∧ k.tail.toNat ≤ 31 ∧
    (∀ sc, (accepted k (.irq sc) = [sc] ↔ k.pending.length < 31) ∧
      (k.pending.length < 31 → (kbdHandler k sc).pending = k.pending ++ [sc]) ∧
      (¬ k.pending.length < 31 → kbdHandler k sc = k)) ∧
    (k.pending = [] → readScancode k = (0, k)) ∧
    (∀ sc q, k.pending = sc :: q → (readScancode k).1 = sc ∧ (readScancode k).2.pending = q) ∧
    Machine.outputs step returned kbdInit es ++ k.pending =
      Machine.outputs step accepted kbdInit es := by
  intro k
  -- what one event keeps holds in every state of the run
  have h : k.Ok := Machine.invariant_of_forall (fun _ e hk => hk.step e) kbdInit_ok es
  have hread := h.read.2
  refine ⟨Nat.le_of_lt_succ h.head_lt, Nat.le_of_lt_succ h.tail_lt, fun sc => ?_, fun hnil => ?_,
    fun sc q hq => ?_, ?_⟩
  · obtain ⟨-, hq⟩ := h.handler sc
    split_ifs at hq with hlt
    · exact ⟨iff_of_true hq.2 hlt, fun _ => hq.1, fun hn => absurd hlt hn⟩
    · refine ⟨iff_of_false ?_ hlt, fun hp => absurd hp hlt, fun _ => hq.1⟩
      rw [hq.2]
      exact (List.cons_ne_nil _ _).symm
  · rw [if_pos hnil] at hread
    exact hread.1
  · rw [if_neg (by rw [hq]; exact List.cons_ne_nil _ _), hq] at hread
    obtain ⟨hsc, hrest⟩ := List.cons.inj hread.1
    exact ⟨hsc.symm, hrest.symm⟩
  · exact kbdInit_ok.account_run es

end WarkRune.Io

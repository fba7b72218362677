import Mathlib.Data.Int.Basic
import Mathlib.Order.Lattice
import Mathlib.Tactic.Common
import WarkRune.Machine.Run

/-!
# The mouse

`mouse_irq_handler` takes one byte of a PS/2 packet for each interrupt. With the third byte it moves
the position by the second and third bytes, each read as an `int8_t`. The first byte carries the
sign bits of the two 9-bit movements, and nothing looks at them.

Positions and bounds are `int32_t`; sums wrap.

## Main definitions

* `Mouse`, `mouseIrqHandler`: the variables of the driver, and its handler
* `Packet`: a standard packet, and its bytes
* `Follows`: the mouse has moved as the packet says
* `Mouse.Decodes`: the movements of the packet are those of its bytes, or the edge hides the
  difference

## Main results

* `deliver_spec`: what the three bytes of a packet do
* `mouse_follows_iff`: over every run, the mouse moves as the packets say exactly when they decode
-/

namespace WarkRune.Io

/-- The variables of the driver. -/
structure Mouse where
  x : ℤ
  y : ℤ
  left : Bool
  right : Bool
  middle : Bool
  dx : ℤ
  dy : ℤ
  boundW : ℤ
  boundH : ℤ
  cycle : ℕ
  packet : ℕ → UInt8

/-- The variables as they are loaded. -/
def mouseInit : Mouse := ⟨400, 300, false, false, false, 0, 0, 800, 600, 0, fun _ => 0⟩

/-- An `int32_t` sum. -/
def wrap32 (z : ℤ) : ℤ := z.bmod (2 ^ 32)

/-- A byte as an `int8_t`. -/
def int8 (b : UInt8) : ℤ := (b.toNat : ℤ).bmod (2 ^ 8)

/-- A position after its two checks. -/
def settle (bound v : ℤ) : ℤ :=
  let v := if v < 0 then 0 else v
  if v ≥ bound then wrap32 (bound - 1) else v

/-- `mouse_irq_handler` with the byte from port 0x60. -/
def mouseIrqHandler (m : Mouse) (data : UInt8) : Mouse :=
  match m.cycle with
  | 0 => { m with
      packet := Function.update m.packet 0 data
      cycle := if data &&& 0x08 ≠ 0 then 1 else 0 }
  | 1 => { m with packet := Function.update m.packet 1 data, cycle := 2 }
  | 2 =>
    let packet := Function.update m.packet 2 data
    let dx := int8 (packet 1)
    let dy := int8 (packet 2)
    { m with
      packet
      cycle := 0
      left := packet 0 &&& 0x01 ≠ 0
      right := packet 0 &&& 0x02 ≠ 0
      middle := packet 0 &&& 0x04 ≠ 0
      dx
      dy := -dy
      x := settle m.boundW (wrap32 (m.x + dx))
      y := settle m.boundH (wrap32 (m.y - dy)) }
  | _ => m

/-! ## Packets -/

/-- A movement of nine bits, in two's complement. -/
def Movement : Type := { d : ℤ // -256 ≤ d ∧ d ≤ 255 }

/-- A standard packet: the buttons and the movements. -/
structure Packet where
  left : Bool
  right : Bool
  middle : Bool
  dx : Movement
  dy : Movement

/-- The low eight bits of a movement. -/
def Movement.low (d : Movement) : UInt8 := UInt8.ofNat (d.val % 256).toNat

/-- The first byte: the buttons, bit 3, and the sign bits in bits 4 and 5. -/
def Packet.first (p : Packet) : UInt8 :=
  UInt8.ofNat (p.left.toNat + 2 * p.right.toNat + 4 * p.middle.toNat + 8 +
    16 * (decide (p.dx.val < 0)).toNat + 32 * (decide (p.dy.val < 0)).toNat)

/-- The bytes of the packet. -/
def Packet.bytes (p : Packet) : List UInt8 := [p.first, p.dx.low, p.dy.low]

/-- The bytes of a packet are delivered, one for each interrupt. -/
def deliver (m : Mouse) (p : Packet) : Mouse := Machine.after mouseIrqHandler m p.bytes

/-- The position nearest to `v` in front of the bound. -/
def clamp (bound v : ℤ) : ℤ := max 0 (min v (bound - 1))

/-- From `m` to `m'` the mouse has moved as the packet says, and its buttons are those of the
packet. -/
structure Follows (m m' : Mouse) (p : Packet) : Prop where
  x : m'.x = clamp m.boundW (m.x + p.dx.val)
  y : m'.y = clamp m.boundH (m.y - p.dy.val)
  left : m'.left = p.left
  right : m'.right = p.right
  middle : m'.middle = p.middle

/-- A packet begins, and the position lies in front of the bounds. -/
structure Mouse.Ready (m : Mouse) : Prop where
  cycle : m.cycle = 0
  x_nonneg : 0 ≤ m.x
  x_lt : m.x < m.boundW
  boundW_lt : m.boundW < 2 ^ 31
  y_nonneg : 0 ≤ m.y
  y_lt : m.y < m.boundH
  boundH_lt : m.boundH < 2 ^ 31

/-- The movements of the packet are those of its bytes, and the sums stay below `2 ^ 31`. Otherwise
there is one position only, or the movement of 256 that the bytes lose ends at the edge where the
mouse is. -/
structure Mouse.Decodes (m : Mouse) (p : Packet) : Prop where
  x : (-128 ≤ p.dx.val ∧ p.dx.val ≤ 127 ∧ m.x + p.dx.val < 2 ^ 31) ∨ m.boundW = 1 ∨
    p.dx.val = -256 ∧ m.x = 0
  y : (-128 ≤ p.dy.val ∧ p.dy.val ≤ 127 ∧ m.y - p.dy.val < 2 ^ 31) ∨ m.boundH = 1 ∨
    p.dy.val = -256 ∧ m.y = m.boundH - 1

/-! ## One packet -/

theorem first_bits : ∀ l r c sx sy : Bool,
    let b := UInt8.ofNat (l.toNat + 2 * r.toNat + 4 * c.toNat + 8 + 16 * sx.toNat + 32 * sy.toNat)
    b &&& 0x08 ≠ 0 ∧ (decide (b &&& 0x01 ≠ 0) = l) ∧ (decide (b &&& 0x02 ≠ 0) = r) ∧
      decide (b &&& 0x04 ≠ 0) = c := by
  decide

/-- **What the three bytes of a packet do**: the buttons are set, and the position is moved by the
low bytes of the movements, read as signed bytes. -/
theorem deliver_spec {m : Mouse} (h : m.cycle = 0) (p : Packet) :
    ∃ packet, deliver m p = { m with
      packet
      left := p.left
      right := p.right
      middle := p.middle
      dx := int8 p.dx.low
      dy := -int8 p.dy.low
      x := settle m.boundW (wrap32 (m.x + int8 p.dx.low))
      y := settle m.boundH (wrap32 (m.y - int8 p.dy.low)) } := by
  obtain ⟨hsync, hl, hr, hc⟩ := first_bits p.left p.right p.middle (p.dx.val < 0) (p.dy.val < 0)
  -- bit 3 of the first byte is set, so the decoder goes on to the second
  have h₁ : mouseIrqHandler m p.first =
      { m with packet := Function.update m.packet 0 p.first, cycle := 1 } := by
    rw [mouseIrqHandler, h]
    exact congrArg (Mouse.mk _ _ _ _ _ _ _ _ _ · _) (if_pos hsync)
  refine ⟨Function.update (Function.update (Function.update m.packet 0 p.first) 1 p.dx.low) 2
    p.dy.low, ?_⟩
  rw [deliver, Packet.bytes, Machine.after_cons, h₁]
  simp only [Machine.after_cons, Machine.after_nil, mouseIrqHandler, Function.update_self,
    Function.update_of_ne (show (1 : ℕ) ≠ 2 by decide),
    Function.update_of_ne (show (0 : ℕ) ≠ 2 by decide),
    Function.update_of_ne (show (0 : ℕ) ≠ 1 by decide), Packet.first, hl, hr, hc, h]

/-! ## One axis -/

theorem low_toNat (d : Movement) : (d.low.toNat : ℤ) = d.val % 256 := by
  have hbyte : d.low.toNat = (d.val % 256).toNat := by
    unfold Movement.low
    rw [UInt8.toNat_ofNat']
    exact Nat.mod_eq_of_lt (by omega)
  rw [hbyte]
  exact Int.toNat_of_nonneg (Int.emod_nonneg _ (by decide))

theorem bmod_emod {d : ℤ} (hlo : -256 ≤ d) (hhi : d ≤ 255) : (d % 256).bmod (2 ^ 8) =
    if d < -128 then d + 256 else if d ≤ 127 then d else d - 256 := by
  rw [Int.bmod]
  split_ifs <;> omega

/-- The low byte of a movement, read as a signed byte, is the movement up to a multiple of 256. -/
theorem int8_low (d : Movement) : int8 d.low = if d.val < -128 then d.val + 256
    else if d.val ≤ 127 then d.val else d.val - 256 := by
  unfold int8
  rw [low_toNat]
  exact bmod_emod d.property.1 d.property.2

/-- The low byte has a sign of its own: it is the movement, or it is off by 256 to the other side. -/
theorem int8_low_cases (d : Movement) : -128 ≤ int8 d.low ∧ int8 d.low ≤ 127 ∧
    (int8 d.low = d.val ∨ int8 d.low = d.val - 256 ∧ 128 ≤ d.val ∨
      int8 d.low = d.val + 256 ∧ d.val < -128) := by
  obtain ⟨hlo, hhi⟩ := d.property
  have hlow := int8_low d
  split_ifs at hlow <;> omega

section Axis

variable {bound v c : ℤ} (hv : 0 ≤ v) (hb : v < bound) (hb' : bound < 2 ^ 31)

theorem clamp_eq (hb : 0 < bound) (v : ℤ) :
    clamp bound v = if v < 0 then 0 else if v < bound then v else bound - 1 := by
  unfold clamp
  split_ifs <;> omega

theorem wrap32_of_lt (hv : 0 ≤ v) (hlt : v < 2 ^ 31) : wrap32 v = v := by
  rw [wrap32, Int.bmod]
  split_ifs <;> omega

include hv hb hb'

/-- A sum that does not wrap is clamped; one that wraps is negative, and ends at 0. -/
theorem settle_wrap (hc : -128 ≤ c) (hc' : c ≤ 128) :
    settle bound (wrap32 (v + c)) = if v + c < 2 ^ 31 then clamp bound (v + c) else 0 := by
  have hlast : wrap32 (bound - 1) = bound - 1 := wrap32_of_lt (by omega) (by omega)
  have hsum : wrap32 (v + c) = if v + c < 2 ^ 31 then v + c else v + c - 2 ^ 32 := by
    rw [wrap32, Int.bmod]
    split_ifs <;> omega
  rw [settle, hlast, hsum, clamp_eq (by omega)]
  split_ifs <;> omega

/-- **The position moves by `d` where the sum moves by `c`** if these are equal and the sum does not
wrap, and otherwise only where the edges hide the difference. -/
theorem settle_wrap_eq_iff {d : ℤ} (hc : -128 ≤ c) (hc' : c ≤ 128)
    (hd : c = d ∨ c = d - 256 ∧ 0 < d ∧ c ≤ 0 ∨ c = d + 256 ∧ d < 0 ∧ 0 ≤ c) :
    settle bound (wrap32 (v + c)) = clamp bound (v + d) ↔
      c = d ∧ v + d < 2 ^ 31 ∨ bound = 1 ∨ d = -256 ∧ v = 0 ∨ d = 256 ∧ v = bound - 1 := by
  have hpos : 0 < bound := by omega
  rw [settle_wrap hv hb hb' hc hc', clamp_eq hpos, clamp_eq hpos]
  rcases hd with rfl | ⟨rfl, hd, hs⟩ | ⟨rfl, hd, hs⟩
  · split_ifs <;> omega
  · rw [if_pos (by omega)]
    split_ifs <;> omega
  · rw [if_neg (show ¬ v + (d + 256) < 0 by omega)]
    split_ifs <;> omega

/-- To the right or to the left the position follows the movement if the byte does. -/
theorem settle_low_iff (d : Movement) :
    settle bound (wrap32 (v + int8 d.low)) = clamp bound (v + d.val) ↔
      (-128 ≤ d.val ∧ d.val ≤ 127 ∧ v + d.val < 2 ^ 31) ∨ bound = 1 ∨ d.val = -256 ∧ v = 0 := by
  obtain ⟨hlo, hhi, hcases⟩ := int8_low_cases d
  obtain ⟨hd, hd'⟩ := d.property
  rw [settle_wrap_eq_iff hv hb hb' hlo (by omega) (by omega)]
  clear hv hb hb'
  generalize int8 d.low = c at *
  omega

/-- Upwards and downwards, where the movement is subtracted. -/
theorem settle_sub_low_iff (d : Movement) :
    settle bound (wrap32 (v - int8 d.low)) = clamp bound (v - d.val) ↔
      (-128 ≤ d.val ∧ d.val ≤ 127 ∧ v - d.val < 2 ^ 31) ∨ bound = 1 ∨
        d.val = -256 ∧ v = bound - 1 := by
  obtain ⟨hlo, hhi, hcases⟩ := int8_low_cases d
  obtain ⟨hd, hd'⟩ := d.property
  rw [Int.sub_eq_add_neg, Int.sub_eq_add_neg,
    settle_wrap_eq_iff hv hb hb' (by omega) (by omega) (by omega)]
  clear hv hb hb'
  generalize int8 d.low = c at *
  omega

end Axis

/-- **A packet is followed exactly when it decodes.** -/
theorem follows_iff {m : Mouse} (h : m.Ready) (p : Packet) :
    Follows m (deliver m p) p ↔ m.Decodes p := by
  obtain ⟨packet, hd⟩ := deliver_spec h.cycle p
  -- each axis moves by the low byte with its sign, which is compared with the true movement
  have hxiff := settle_low_iff h.x_nonneg h.x_lt h.boundW_lt p.dx
  have hyiff := settle_sub_low_iff h.y_nonneg h.y_lt h.boundH_lt p.dy
  rw [hd]
  constructor
  · rintro ⟨hx, hy, -, -, -⟩
    exact ⟨hxiff.mp hx, hyiff.mp hy⟩
  · rintro ⟨hx, hy⟩
    exact ⟨hxiff.mpr hx, hyiff.mpr hy, rfl, rfl, rfl⟩

/-! ## Runs -/

/-- The position stays in front of the bounds. -/
theorem Mouse.Ready.deliver {m : Mouse} (h : m.Ready) (p : Packet) : (deliver m p).Ready := by
  obtain ⟨packet, hd⟩ := deliver_spec h.cycle p
  have hin : ∀ {bound v : ℤ}, 0 < bound → bound < 2 ^ 31 →
      0 ≤ settle bound v ∧ settle bound v < bound := by
    intro bound v hpos hlt
    have hlast : wrap32 (bound - 1) = bound - 1 := wrap32_of_lt (by omega) (by omega)
    rw [settle, hlast]
    split_ifs <;> omega
  obtain ⟨hx, hx'⟩ := hin (v := wrap32 (m.x + int8 p.dx.low)) (h.x_nonneg.trans_lt h.x_lt) h.boundW_lt
  obtain ⟨hy, hy'⟩ := hin (v := wrap32 (m.y - int8 p.dy.low)) (h.y_nonneg.trans_lt h.y_lt) h.boundH_lt
  rw [hd]
  exact ⟨h.cycle, hx, hx', h.boundW_lt, hy, hy', h.boundH_lt⟩

/-- **Over every run of packets the mouse moves as they say** exactly when each of them decodes
where it arrives. -/
theorem mouse_follows_iff {m : Mouse} (h : m.Ready) (ps : List Packet) :
    Machine.Admits deliver (fun m p => Follows m (deliver m p) p) m ps ↔
      Machine.Admits deliver Mouse.Decodes m ps :=
  Machine.admits_congr (fun _ p hm => follows_iff hm p) (fun _ p hm _ => hm.deliver p) h

theorem mouseInit_ready : mouseInit.Ready := by
  constructor <;> decide

/-- The theorem at a movement to the right and upwards with the left button held. -/
theorem mouse_follows_right :
    Follows mouseInit (deliver mouseInit
      ⟨true, false, false, ⟨100, by decide⟩, ⟨20, by decide⟩⟩)
      ⟨true, false, false, ⟨100, by decide⟩, ⟨20, by decide⟩⟩ := by
  refine ((mouse_follows_iff mouseInit_ready [_]).mpr ⟨?_, trivial⟩).1
  constructor <;> decide

/-- **A movement of 200 to the right moves the mouse to the left.** -/
theorem mouse_large_movement : mouseInit.Ready ∧ ∃ p : Packet, p.dx.val = 200 ∧
    (deliver mouseInit p).x = 344 ∧ ¬ Follows mouseInit (deliver mouseInit p) p := by
  refine ⟨mouseInit_ready, ⟨false, false, false, ⟨200, by decide⟩, ⟨0, by decide⟩⟩, rfl, by decide, ?_⟩
  rintro ⟨hx, -⟩
  exact absurd hx (by decide)

end WarkRune.Io

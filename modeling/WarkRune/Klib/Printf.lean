import Mathlib.Logic.Function.Basic
import WarkRune.Exec.Traced

/-!
# The formatted output of the kernel

`kvsprintf` puts a text into a buffer of `cap` bytes as a format says. A character of the format
stands for itself; a directive starts with `%` and has flags, a width, a length and a conversion,
which takes its value from the list of arguments. Behind the capacity only the position moves on.

The events of a call are what it does to memory: the characters of the format it reads, the bytes it
stores, and the characters of the format it puts out. A character that is read again is one event.
A variable of type `int` is a number without bounds, as an overflow is undefined in the source.

## Main definitions

* `Call`, `Out`: what a call is given, and what it changes
* `Access`: the events
* `kputc`, `kputs`, `kfmtUll`, `kfmtLl`, `kvsprintf`: the functions
-/

namespace WarkRune.Klib

/-- A character literal. -/
def chr (c : Char) : UInt8 := UInt8.ofNat c.toNat

/-- What a call is given beside the buffer. -/
structure Call where
  /-- The memory from the start of the format on. -/
  fmt : ℕ → UInt8
  /-- The words of the argument list. -/
  args : ℕ → BitVec 32
  /-- The string at a pointer, up to its NUL. -/
  str : BitVec 32 → List UInt8

/-- What a call changes. -/
structure Out where
  buf : ℕ → UInt8
  pos : ℕ
  /-- The position in the argument list. -/
  arg : ℕ

/-- What a call does to memory. -/
inductive Access
  /-- A read of the format. -/
  | fmt (i : ℕ)
  /-- A store to the buffer. -/
  | buf (i : ℕ)
  /-- A store to the digits of `_kfmt_ull`. -/
  | tmp (i : ℕ)
  /-- A store to the digits of `kvsprintf`. -/
  | out (i : ℕ)
  /-- A character of the format is put out. -/
  | copied (c : UInt8)
  deriving DecidableEq

abbrev Pr (α : Type) := Traced Out Access α

section Output

variable (cap : ℤ)

/-- `_kputc`. -/
def kputc (c : UInt8) : Pr Unit := do
  let o ← get
  (if o.pos < cap then do
    Traced.emit (.buf o.pos)
    modify fun o => { o with buf := Function.update o.buf o.pos c }
  else pure ())
  modify fun o => { o with pos := o.pos + 1 }

/-- A round of the loops of `_kputs` that pad. -/
def padRound (pad : UInt8) (limit : ℤ) (printed : ℤ) : Pr (ℤ ⊕ ℤ) :=
  if printed < limit then do
    kputc cap pad
    return .inl (printed + 1)
  else return .inr printed

/-- `_kputs`. -/
def kputs (s : List UInt8) (width : ℕ) (left : Bool) (pad : UInt8) : Pr Unit := do
  let len : ℤ := s.length
  let printed ← (if left then pure 0 else Traced.loop (padRound cap pad (width - len)) 0)
  s.foldlM (fun _ c => kputc cap c) ()
  (if left then do
    let _ ← Traced.loop (padRound cap (chr ' ') width) (printed + len)
    pure ()
  else pure ())

end Output

/-! ## Digits -/

/-- The digit `d`. -/
def digitChar (upper : Bool) (d : ℕ) : UInt8 :=
  if d < 10 then chr '0' + .ofNat d else (if upper then chr 'A' else chr 'a') + .ofNat d - 10

/-- A round of the loop of `_kfmt_ull` that divides; `tmp` are the digits so far. -/
def divideRound (base : ℕ) (upper : Bool) :
    BitVec 64 × List UInt8 → Pr ((BitVec 64 × List UInt8) ⊕ List UInt8)
  | (val, tmp) =>
    if val ≠ 0 then do
      let d := (val % .ofNat 64 base).toNat
      Traced.emit (.tmp tmp.length)
      return .inl (val / .ofNat 64 base, tmp ++ [digitChar upper d])
    else return .inr tmp

/-- A round of the loop of `_kfmt_ull` that turns the digits round. -/
def copyRound (off : ℕ) (tmp out : List UInt8) (i : ℕ) : Pr (List UInt8) := do
  Traced.emit (.out (off + i))
  return out ++ [tmp.getD (tmp.length - 1 - i) 0]

/-- `_kfmt_ull`, with `off` bytes of the digits in front of `out`: what is in `out`. -/
def kfmtUll (off : ℕ) (val : BitVec 64) (base : ℕ) (upper : Bool) : Pr (List UInt8) :=
  if val = 0 then do
    Traced.emit (.out off)
    return [chr '0']
  else do
    let tmp ← Traced.loop (divideRound base upper) (val, [])
    (List.range tmp.length).foldlM (copyRound off tmp) []

/-- `_kfmt_ll`: what is in `out`. -/
def kfmtLl (val : BitVec 64) : Pr (List UInt8) :=
  if val.toInt < 0 then do
    Traced.emit (.out 0)
    let digits ← kfmtUll 1 (-(val + 1) + 1) 10 false
    return chr '-' :: digits
  else kfmtUll 0 val 10 false

/-! ## The format -/

/-- What stands between the `%` of a directive and its conversion. -/
structure Spec where
  left : Bool
  pad : UInt8
  width : ℕ
  ll : Bool
  deriving DecidableEq

section Directives

variable (c : Call) (cap : ℤ)

/-- `*fmt`. -/
def readFmt (i : ℕ) : Pr UInt8 := do
  Traced.emit (.fmt i)
  return c.fmt i

/-- `if (*fmt == x) { …; fmt++; }`: whether the character is `x`, and where the format goes on. -/
def accept (x : UInt8) (i : ℕ) : Pr (Bool × ℕ) := do
  let ch ← readFmt c i
  return if ch = x then (true, i + 1) else (false, i)

/-- A round of the loop over the digits of the width. -/
def widthRound : ℕ × ℕ → Pr ((ℕ × ℕ) ⊕ (ℕ × ℕ))
  | (width, i) => do
    let ch ← readFmt c i
    if ch ≥ chr '0' ∧ ch ≤ chr '9' then return .inl (width * 10 + (ch - chr '0').toNat, i + 1)
    else return .inr (width, i)

/-- The flags, the width and the length of a directive. -/
def parseSpec (i : ℕ) : Pr (Spec × ℕ) := do
  let (left, i) ← accept c (chr '-') i
  let (zero, i) ← accept c (chr '0') i
  let pad := if zero then chr '0' else chr ' '
  let (width, i) ← Traced.loop (widthRound c) (0, i)
  let (long, i) ← accept c (chr 'l') i
  let (ll, i) ← (if long then accept c (chr 'l') i else pure (false, i))
  return (⟨left, pad, width, ll⟩, i)

/-- `va_arg` of a word. -/
def vaArg : Pr (BitVec 32) := do
  let o ← get
  modify fun o => { o with arg := o.arg + 1 }
  return c.args o.arg

/-- `va_arg` of an integer, as it is converted for `_kfmt_ll` or `_kfmt_ull`. -/
def vaInteger (ll signed : Bool) : Pr (BitVec 64) :=
  if ll then do
    let low ← vaArg c
    let high ← vaArg c
    return high ++ low
  else do
    let w ← vaArg c
    return if signed then w.signExtend 64 else w.setWidth 64

/-- The conversions `u`, `x` and `X`. -/
def putUnsigned (sp : Spec) (base : ℕ) (upper : Bool) : Pr Unit := do
  let val ← vaInteger c sp.ll false
  let tmp ← kfmtUll 0 val base upper
  kputs cap tmp sp.width sp.left sp.pad

/-- The conversions. -/
def convert (sp : Spec) (ch : UInt8) : Pr Unit :=
  if ch = chr 'd' ∨ ch = chr 'i' then do
    let val ← vaInteger c sp.ll true
    let tmp ← kfmtLl val
    kputs cap tmp sp.width sp.left sp.pad
  else if ch = chr 'u' then putUnsigned c cap sp 10 false
  else if ch = chr 'x' then putUnsigned c cap sp 16 false
  else if ch = chr 'X' then putUnsigned c cap sp 16 true
  else if ch = chr 's' then do
    let p ← vaArg c
    let s := if p = 0 then "(null)".toList.map chr else c.str p
    kputs cap s sp.width sp.left (chr ' ')
  else if ch = chr 'c' then do
    let w ← vaArg c
    kputc cap (.ofNat w.toNat)
  else if ch = chr '%' then kputc cap (chr '%')
  else do
    kputc cap (chr '%')
    Traced.emit (.copied ch)
    kputc cap ch

/-- A round of `kvsprintf`, at the character `i` of the format. -/
def round (i : ℕ) : Pr (ℕ ⊕ Unit) := do
  let ch ← readFmt c i
  let o ← get
  if ch ≠ 0 ∧ o.pos < cap - 1 then
    if ch ≠ chr '%' then do
      Traced.emit (.copied ch)
      kputc cap ch
      return .inl (i + 1)
    else do
      let (sp, j) ← parseSpec c (i + 1)
      let ch ← readFmt c j
      convert c cap sp ch
      return .inl (j + 1)
  else return .inr ()

/-- `kvsprintf`. -/
def kvsprintf : Pr ℕ := do
  modify fun o => { o with pos := 0 }
  if cap ≤ 0 then return 0
  else do
    Traced.loop (round c cap) 0
    let o ← get
    let last := if o.pos < cap then o.pos else (cap - 1).toNat
    Traced.emit (.buf last)
    modify fun o => { o with buf := Function.update o.buf last 0 }
    return o.pos

end Directives

end WarkRune.Klib

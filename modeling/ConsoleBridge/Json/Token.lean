import ConsoleBridge.Json.Value

/-! # The tokens of a JSON text

A token is read with two degrees of rigour: strictly, when its value is wanted, and leniently, when it is
only skipped. Skipping does not pair surrogates and does not ask how large a number is. -/
namespace ConsoleBridge.Json

/-- How a text fails to be JSON: by something that may not stand where it does, or by its end. -/
inductive Fault
  | malformed | truncated
  deriving DecidableEq, Repr, Inhabited

structure NumberText where
  negative : Bool
  whole : List Char
  fraction : List Char
  /-- The power of ten behind an `e`. -/
  exponent : Option Int
  deriving DecidableEq, Repr, Inhabited

/-- A token. The last token of a text that is not JSON is `bad`, with its fault under strict and under
lenient reading. -/
inductive Token
  | openObject | closeObject | openArray | closeArray | comma | colon
  | null
  | bool (b : Bool)
  | number (n : NumberText)
  | string (strict : Except Fault String) (lenient : Option Fault)
  | bad (strict lenient : Fault)
  deriving Inhabited

namespace NumberText

def digit (c : Char) : Nat := c.toNat - 48

/-- Digits as far as their value fits a 64-bit word, with the number of those that were read and of
those that were left. Behind a digit that does not fit, all are left. -/
def take64 (acc taken : Nat) : List Char → Nat × Nat × Nat
  | [] => (acc, taken, 0)
  | c :: rest =>
    if acc * 10 + digit c < 0x10000000000000000 then take64 (acc * 10 + digit c) (taken + 1) rest
    else (acc, taken, rest.length + 1)

/-- `10 ^ k` for `k` up to 308. -/
def powerOfTen (k : Nat) : Float := Float.ofScientific 1 false k

/-- `f * 10 ^ e` by one multiplication or division at a time, `none` beyond the largest double. -/
def scale (f : Float) (e : Int) : Option Float :=
  if e.natAbs ≤ 308 then
    if 0 ≤ e then
      let x := f * powerOfTen e.toNat
      if x.isInf then none else some x
    else some (f / powerOfTen e.natAbs)
  else if f == 0 then some f
  else if 0 ≤ e then none
  else scale (f / powerOfTen 308) (e + 308)
termination_by e.natAbs
decreasing_by omega

/-- The number as a double: the leading digits that fit 64 bits, scaled by a power of ten. -/
def real? (n : NumberText) : Option Float :=
  let (whole, _, left) := take64 0 0 n.whole
  let (significand, places, _) := take64 whole 0 n.fraction
  let exponent := (left : Int) - places + n.exponent.getD 0
  (scale (UInt64.ofNat significand).toFloat exponent).map fun x => if n.negative then -x else x

def magnitude (n : NumberText) : Nat := n.whole.foldl (fun acc c => acc * 10 + digit c) 0

/-- The number as an integer, where it is written as one and fits 64 bits. A negative zero is none. -/
def integer? (n : NumberText) : Option Int :=
  if n.fraction = [] ∧ n.exponent = none then
    if n.negative then
      if 0 < n.magnitude ∧ n.magnitude ≤ 0x8000000000000000 then some (-(n.magnitude : Int)) else none
    else if n.magnitude < 0x10000000000000000 then some n.magnitude
    else none
  else none

/-- The value of a number; beyond the largest double it has none. -/
def value (n : NumberText) : Except Fault Number :=
  match n.integer? with
  | some i => .ok (.integer i)
  | none =>
    match n.real? with
    | some x => .ok (.real x)
    | none => .error .malformed

end NumberText

end ConsoleBridge.Json

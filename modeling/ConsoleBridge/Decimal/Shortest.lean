import ConsoleBridge.Decimal.Binary

/-! # The fewest decimal digits that read back as a given binary number

Among the decimals that round to the number, those with the fewest digits are candidates, and of these
the nearest is chosen. For each count of digits only the two neighbours of the number on that grid can
be the nearest, so they alone are tried, in exact arithmetic. -/
namespace ConsoleBridge.Decimal

structure Fraction where
  num : Nat
  den : Nat
  deriving DecidableEq, Repr, Inhabited

namespace Fraction

def scaled (n : Nat) (e : Int) : Fraction :=
  if 0 ≤ e then ⟨n * Nat.pow 2 e.toNat, 1⟩ else ⟨n, Nat.pow 2 (-e).toNat⟩

def decimal (d : Nat) (k : Int) : Fraction :=
  if 0 ≤ k then ⟨d * Nat.pow 10 k.toNat, 1⟩ else ⟨d, Nat.pow 10 (-k).toNat⟩

def lt (a b : Fraction) : Bool := a.num * b.den < b.num * a.den

/-- The order of the fractions, ties included. -/
def le (a b : Fraction) : Bool := a.num * b.den ≤ b.num * a.den

/-- The whole part of `a / 10 ^ k`. -/
def floorAt (a : Fraction) (k : Int) : Nat :=
  if 0 ≤ k then a.num / (a.den * Nat.pow 10 k.toNat) else a.num * Nat.pow 10 (-k).toNat / a.den

end Fraction

/-- The numbers that round to a binary number: the ends belong to them when `closed` is set. -/
structure Rounding where
  value : Fraction
  low : Fraction
  high : Fraction
  closed : Bool
  deriving DecidableEq, Repr, Inhabited

/-- The numbers that round to `b` when ties go to the even mantissa. -/
def Binary.rounding (b : Binary) : Rounding where
  value := .scaled (4 * b.mantissa) (b.exponent - 2)
  low := .scaled (4 * b.mantissa - if b.narrowBelow then 1 else 2) (b.exponent - 2)
  high := .scaled (4 * b.mantissa + 2) (b.exponent - 2)
  closed := b.mantissa % 2 == 0

def Rounding.holds (r : Rounding) (d : Nat) (k : Int) : Bool :=
  let x := Fraction.decimal d k
  if r.closed then r.low.le x && x.le r.high else r.low.lt x && x.lt r.high

/-- Which neighbour is taken when both are equally near. -/
inductive Tie
  | up | even
  deriving DecidableEq, Repr, Inhabited

/-- Is `(d + 1) * 10 ^ k` to be preferred to `d * 10 ^ k`, of which the number lies between? -/
def Rounding.prefersUpper (r : Rounding) (tie : Tie) (d : Nat) (k : Int) : Bool :=
  let twice : Fraction := ⟨2 * r.value.num, r.value.den⟩
  let middle := Fraction.decimal (2 * d + 1) k
  if middle.lt twice then true
  else if twice.lt middle then false
  else match tie with
    | .up => true
    | .even => d % 2 == 1

/-- The neighbour on the grid of step `10 ^ k` that reads back, the nearer one when both do. -/
def Rounding.onGrid? (r : Rounding) (tie : Tie) (k : Int) : Option Nat :=
  let d := r.value.floorAt k
  match r.holds d k, r.holds (d + 1) k with
  | true, true => some (if r.prefersUpper tie d k then d + 1 else d)
  | true, false => some d
  | false, true => some (d + 1)
  | false, false => none

/-- The first hit on the grids of `n`, `n + 1`, … digits, `fuel` grids at most, where the number has
`whole` digits before its point. Past the last grid the number's own digits are taken. -/
def Rounding.search (r : Rounding) (tie : Tie) (whole : Int) : Nat → Nat → Nat × Int
  | 0, n => (r.value.floorAt (whole - n), whole - n)
  | fuel + 1, n =>
    match r.onGrid? tie (whole - n) with
    | some d => (d, whole - n)
    | none => r.search tie whole fuel (n + 1)

/-- A positive decimal: its digits, none of them a trailing zero, and how many of them stand before the
decimal point. -/
structure Digits where
  digits : List Char
  point : Int
  deriving DecidableEq, Repr, Inhabited

/-- More decimal places than the smallest number of any supported format has before its digits. -/
def places : Nat := 400

/-- How many digits a fraction has before its point; none or fewer when it is below one. -/
def Fraction.wholeDigits (a : Fraction) : Int :=
  (Nat.toDigits 10 (a.num * Nat.pow 10 places / a.den)).length - (places : Int)

def Digits.ofGrid (d : Nat) (k : Int) : Digits :=
  let ds := Nat.toDigits 10 d
  ⟨(ds.reverse.dropWhile (· == '0')).reverse, ds.length + k⟩

/-- The fewest digits that read back as `b`. -/
def Binary.shortest (b : Binary) (tie : Tie) : Digits :=
  let r := b.rounding
  let (d, k) := r.search tie r.value.wholeDigits 17 1
  .ofGrid d k

end ConsoleBridge.Decimal

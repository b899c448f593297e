import ConsoleBridge.Decimal.Shortest

/-! # How decimals are written -/
namespace ConsoleBridge.Decimal

/-- The digits around a decimal point, with zeros where the point lies outside them. `wholeMark` is
what follows a number without decimal places. -/
def Digits.positional (d : Digits) (wholeMark : List Char) : List Char :=
  if d.point ≤ 0 then '0' :: '.' :: (List.replicate (-d.point).toNat '0' ++ d.digits)
  else if d.digits.length ≤ d.point.toNat then
    d.digits ++ List.replicate (d.point.toNat - d.digits.length) '0' ++ wholeMark
  else d.digits.take d.point.toNat ++ '.' :: d.digits.drop d.point.toNat

/-- One digit, the others behind a point, and a power of ten with a sign. -/
def Digits.scientific (d : Digits) : List Char :=
  let exponent := d.point - 1
  d.digits.take 1 ++ (if d.digits.length ≤ 1 then [] else '.' :: d.digits.drop 1) ++
    'e' :: (if exponent < 0 then '-' else '+') :: Nat.toDigits 10 exponent.natAbs

structure Style where
  format : BinaryFormat
  tie : Tie
  /-- What follows a number without decimal places. -/
  wholeMark : List Char
  /-- The powers of ten from which on up to which a number is written without an exponent; `none` when
  every number is. -/
  plainRange : Option (Int × Int)
  zero : List Char
  infinite : List Char
  notANumber : List Char

def Style.plain (s : Style) (d : Digits) : List Char :=
  match s.plainRange with
  | none => d.positional s.wholeMark
  | some (low, high) =>
    if low ≤ d.point - 1 ∧ d.point - 1 ≤ high then d.positional s.wholeMark else d.scientific

def Style.write (s : Style) (bits : Nat) : String :=
  let signed (cs : List Char) := if s.format.isNegative bits then '-' :: cs else cs
  String.ofList <| match s.format.magnitude bits with
    | .zero => signed s.zero
    | .finite value => signed (s.plain (value.shortest s.tie))
    | .infinite => signed s.infinite
    | .notANumber => s.notANumber

end ConsoleBridge.Decimal

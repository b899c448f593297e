/-! # Binary floating-point formats

The bits of a finite number stand for `mantissa * 2 ^ exponent`. The numbers that round to it reach half
way to its neighbours, and below most powers of two the neighbour is only half as far away as above. -/
namespace ConsoleBridge.Decimal

structure BinaryFormat where
  fractionBits : Nat
  exponentBits : Nat
  deriving DecidableEq, Repr, Inhabited

namespace BinaryFormat

def single : BinaryFormat := ⟨23, 8⟩

def double : BinaryFormat := ⟨52, 11⟩

end BinaryFormat

/-- A finite number other than zero, without its sign: `mantissa * 2 ^ exponent`. The gap to the next
smaller number is half the gap to the next larger one when `narrowBelow` is set. -/
structure Binary where
  mantissa : Nat
  exponent : Int
  narrowBelow : Bool
  deriving DecidableEq, Repr, Inhabited

/-- What the bits of a number stand for, apart from the sign. -/
inductive Magnitude
  | zero
  | finite (value : Binary)
  | infinite
  | notANumber
  deriving DecidableEq, Repr, Inhabited

namespace BinaryFormat

def isNegative (f : BinaryFormat) (bits : Nat) : Bool :=
  bits.testBit (f.fractionBits + f.exponentBits)

def magnitude (f : BinaryFormat) (bits : Nat) : Magnitude :=
  let fraction := bits % Nat.pow 2 f.fractionBits
  let field := bits / Nat.pow 2 f.fractionBits % Nat.pow 2 f.exponentBits
  let unit : Int := 2 - Nat.pow 2 (f.exponentBits - 1) - f.fractionBits
  if field = Nat.pow 2 f.exponentBits - 1 then
    if fraction = 0 then .infinite else .notANumber
  else if field = 0 then
    if fraction = 0 then .zero else .finite ⟨fraction, unit, false⟩
  else .finite ⟨Nat.pow 2 f.fractionBits + fraction, unit + (field - 1), fraction == 0 && field != 1⟩

end BinaryFormat

end ConsoleBridge.Decimal

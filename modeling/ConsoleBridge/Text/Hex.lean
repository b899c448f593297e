/-! # Hexadecimal numerals as they are written -/
namespace ConsoleBridge.Hex

def digit (n : Nat) : Char :=
  if n < 10 then Char.ofNat (48 + n) else Char.ofNat (87 + n)

def digitsFrom (n : Nat) (rest : List Char) : List Char :=
  if h : n = 0 then rest else digitsFrom (n / 16) (digit (n % 16) :: rest)
termination_by n
decreasing_by exact Nat.div_lt_self (Nat.pos_of_ne_zero h) (by decide)

def digits (n : Nat) : List Char := if n = 0 then ['0'] else digitsFrom n []

/-- The digits of `n` behind as many zeros as make `width` of them. -/
def paddedDigits (width n : Nat) : List Char :=
  let ds := digits n
  List.replicate (width - ds.length) '0' ++ ds

def number (n : Nat) : String := "0x" ++ String.ofList (digits n)

def padded (width n : Nat) : String := "0x" ++ String.ofList (paddedDigits width n)

def byteDigits (b : UInt8) : List Char := [digit (b.toNat / 16), digit (b.toNat % 16)]

def upperByte (b : UInt8) : String := String.ofList ((byteDigits b).map Char.toUpper)

def value? (c : Char) : Option Nat :=
  if '0' ≤ c ∧ c ≤ '9' then some (c.toNat - 48)
  else if 'a' ≤ c ∧ c ≤ 'f' then some (c.toNat - 87)
  else if 'A' ≤ c ∧ c ≤ 'F' then some (c.toNat - 55)
  else none

end ConsoleBridge.Hex

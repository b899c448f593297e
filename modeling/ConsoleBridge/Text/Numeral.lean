import ConsoleBridge.Text.Hex

/-! # Reading numerals

A numeral is an optional plus sign and one or more digits. The digits are taken one by one, so of a
digit that is none and a value that is too large the one that comes first is reported. -/
namespace ConsoleBridge.Numeral

inductive Error
  | empty | invalidDigit | tooLarge
  deriving DecidableEq, Repr, Inhabited

def Error.message : Error → String
  | empty => "cannot parse integer from empty string"
  | invalidDigit => "invalid digit found in string"
  | tooLarge => "number too large to fit in target type"

/-- The values below this bound fit a 64-bit word. -/
def wordLimit : Nat := 0x10000000000000000

/-- The value of a character as a digit to the given base. -/
def digit? (base : Nat) (c : Char) : Option Nat :=
  match Hex.value? c with
  | some v => if v < base then some v else none
  | none => none

def readDigits (base : Nat) (acc : Nat) : List Char → Except Error Nat
  | [] => .ok acc
  | c :: rest =>
    match digit? base c with
    | none => .error .invalidDigit
    | some v =>
      if acc * base + v < wordLimit then readDigits base (acc * base + v) rest
      else .error .tooLarge

/-- A numeral to the given base, below 2 ^ 64. -/
def readNatural (base : Nat) (cs : List Char) : Except Error Nat :=
  match cs with
  | [] => .error .empty
  | ['+'] => .error .invalidDigit
  | '+' :: rest => readDigits base 0 rest
  | _ => readDigits base 0 cs

def readInteger? (cs : List Char) : Option Int :=
  match cs with
  | '-' :: c :: rest => (readDigits 10 0 (c :: rest)).toOption.map fun n => -(n : Int)
  | _ => (readNatural 10 cs).toOption.map fun n => (n : Int)

/-- A hexadecimal numeral behind `0x` or `0X`, where underscores may stand anywhere, or a decimal
numeral without them. -/
def readHexOrDecimal (cs : List Char) : Except Error Nat :=
  match cs with
  | '0' :: 'x' :: rest => readNatural 16 (rest.filter (· != '_'))
  | '0' :: 'X' :: rest => readNatural 16 (rest.filter (· != '_'))
  | _ => readNatural 10 cs

end ConsoleBridge.Numeral

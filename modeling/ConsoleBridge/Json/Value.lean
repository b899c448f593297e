import ConsoleBridge.Decimal.Text

/-! # JSON values

A number is an integer that fits 64 bits, with or without a sign, or else a double. The members of an
object are kept in the order of their names, each name once. -/
namespace ConsoleBridge.Json

inductive Number
  | integer (i : Int)
  | real (x : Float)
  deriving Inhabited

inductive Value
  | null
  | bool (b : Bool)
  | number (n : Number)
  | string (s : String)
  | array (elements : List Value)
  | object (members : List (String × Value))
  deriving Inhabited

namespace Value

def insertMember (name : String) (v : Value) : List (String × Value) → List (String × Value)
  | [] => [(name, v)]
  | (n, w) :: rest =>
    if name < n then (name, v) :: (n, w) :: rest
    else if name = n then (name, v) :: rest
    else (n, w) :: insertMember name v rest

/-- The object with the given members, of which the last one of a name counts. -/
def ofMembers (members : List (String × Value)) : Value :=
  .object (members.foldl (fun acc m => insertMember m.1 m.2 acc) [])

def get? (v : Value) (name : String) : Option Value :=
  match v with
  | object members => members.lookup name
  | _ => none

end Value

/-- Doubles have the fewest digits that read back, a decimal point always, and an exponent from
`1e+16` up and from `1e-6` down. -/
def realStyle : Decimal.Style where
  format := .double
  tie := .even
  wholeMark := ['.', '0']
  plainRange := some (-5, 15)
  zero := ['0', '.', '0']
  infinite := "null".toList
  notANumber := "null".toList

def realText (x : Float) : String := realStyle.write x.toBits.toNat

end ConsoleBridge.Json

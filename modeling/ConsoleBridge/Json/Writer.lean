import ConsoleBridge.Json.Value
import ConsoleBridge.Text.Hex

/-! # Writing JSON without blanks -/
namespace ConsoleBridge.Json

/-- A character as it stands in a string: only quotes, backslashes and control characters are
escaped. -/
def escape (c : Char) : List Char :=
  if c = '"' then ['\\', '"']
  else if c = '\\' then ['\\', '\\']
  else if 32 ≤ c.toNat then [c]
  else if c = '\n' then ['\\', 'n']
  else if c = '\r' then ['\\', 'r']
  else if c = '\t' then ['\\', 't']
  else if c.toNat = 8 then ['\\', 'b']
  else if c.toNat = 12 then ['\\', 'f']
  else ['\\', 'u'] ++ Hex.paddedDigits 4 c.toNat

def stringText (s : String) : String := String.ofList ('"' :: (s.toList.flatMap escape ++ ['"']))

def Number.text : Number → String
  | .integer i => toString i
  | .real x => realText x

mutual

def Value.text : Value → String
  | .null => "null"
  | .bool b => if b then "true" else "false"
  | .number n => n.text
  | .string s => stringText s
  | .array elements => "[" ++ elementsText elements ++ "]"
  | .object members => "\x7b" ++ membersText members ++ "\x7d"

def elementsText : List Value → String
  | [] => ""
  | [v] => v.text
  | v :: rest => v.text ++ "," ++ elementsText rest

def membersText : List (String × Value) → String
  | [] => ""
  | [(name, v)] => stringText name ++ ":" ++ v.text
  | (name, v) :: rest => stringText name ++ ":" ++ v.text ++ "," ++ membersText rest

end

end ConsoleBridge.Json

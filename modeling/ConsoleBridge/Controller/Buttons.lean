import ConsoleBridge.Text.Blank
import ConsoleBridge.Text.Hex
import ConsoleBridge.Text.Quoted

/-! # The button field of a standard controller -/
namespace ConsoleBridge

inductive Button
  | cRight | cLeft | cDown | cUp | right | left
  | dRight | dLeft | dDown | dUp | start | z | b | a
  deriving DecidableEq, Repr, Inhabited

namespace Button

def all : List Button :=
  [cRight, cLeft, cDown, cUp, right, left, dRight, dLeft, dDown, dUp, start, z, b, a]

def bit : Button → UInt16
  | cRight => 0x0001 | cLeft => 0x0002 | cDown => 0x0004 | cUp => 0x0008
  | right => 0x0010 | left => 0x0020
  | dRight => 0x0100 | dLeft => 0x0200 | dDown => 0x0400 | dUp => 0x0800
  | start => 0x1000 | z => 0x2000 | b => 0x4000 | a => 0x8000

/-- The name under which a button is pressed on a command line. -/
def name : Button → String
  | cRight => "C_RIGHT" | cLeft => "C_LEFT" | cDown => "C_DOWN" | cUp => "C_UP"
  | right => "R" | left => "L"
  | dRight => "D_RIGHT" | dLeft => "D_LEFT" | dDown => "D_DOWN" | dUp => "D_UP"
  | start => "START" | z => "Z" | b => "B" | a => "A"

def ofName? (s : String) : Option Button := all.find? (·.name == s)

/-- The button that a text names, in letters of either case and between blanks. -/
def ofText? (s : String) : Option Button :=
  ofName? (String.ofList ((Blank.trim s.toList).map Char.toUpper))

def unknownText (s : String) : String := "unknown button " ++ Quoted.quote s

end Button

/-- A set of pressed buttons: the sixteen bits of the hardware's field. Bits that belong to no button
are kept as they came. -/
structure Buttons where
  bits : UInt16
  deriving DecidableEq, Repr, Inhabited

namespace Buttons

/-- The bits that belong to a button. -/
def definedMask : UInt16 := 0xFF3F

def none : Buttons := ⟨0⟩

def single (button : Button) : Buttons := ⟨button.bit⟩

def union (s t : Buttons) : Buttons := ⟨s.bits ||| t.bits⟩

def without (s t : Buttons) : Buttons := ⟨s.bits &&& ~~~t.bits⟩

def setAll (s t : Buttons) (pressed : Bool) : Buttons :=
  if pressed then s.union t else s.without t

/-- The set with exactly these bits, refused when a bit belongs to no button. -/
def ofBits? (bits : UInt16) : Option Buttons :=
  if bits &&& ~~~definedMask = 0 then some ⟨bits⟩ else Option.none

/-- The set with the bits that belong to a button, the others dropped. -/
def ofBitsTruncated (bits : UInt16) : Buttons := ⟨bits &&& definedMask⟩

def has (s : Buttons) (button : Button) : Bool := s.bits &&& button.bit == button.bit

/-- The names of the pressed buttons from the lowest bit up, then what is left over as a number;
`0x0` when nothing is pressed. -/
def names (s : Buttons) : List String :=
  let pressed := (Button.all.filter s.has).map Button.name
  let leftover := s.bits &&& ~~~definedMask
  if s.bits = 0 then ["0x0"]
  else if leftover = 0 then pressed
  else pressed ++ [Hex.number leftover.toNat]

/-- The set as it is shown to a reader: `Buttons(C_RIGHT | A)`. -/
def text (s : Buttons) : String := "Buttons(" ++ " | ".intercalate s.names ++ ")"

end Buttons

end ConsoleBridge

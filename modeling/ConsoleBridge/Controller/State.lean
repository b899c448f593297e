import ConsoleBridge.Bytes
import ConsoleBridge.Controller.Buttons

/-! # A controller's state and the four bytes in which it travels

The same four bytes answer a state query on the bus and are what a running emulator keeps for each
player: the button field with its high byte first, then the two axes in two's complement. -/
namespace ConsoleBridge

structure StateBytes where
  high : UInt8
  low : UInt8
  x : UInt8
  y : UInt8
  deriving DecidableEq, Repr, Inhabited

namespace StateBytes

def toList (w : StateBytes) : List UInt8 := [w.high, w.low, w.x, w.y]

/-- The button field, high byte first. -/
def field (w : StateBytes) : UInt16 := (w.high.toUInt16 <<< 8) ||| w.low.toUInt16

def at? (b : ByteArray) (offset : Nat) : Option StateBytes :=
  if offset + 4 ≤ b.size then
    some ⟨Bytes.byte b offset, Bytes.byte b (offset + 1), Bytes.byte b (offset + 2), Bytes.byte b (offset + 3)⟩
  else none

def zero : StateBytes := ⟨0, 0, 0, 0⟩

end StateBytes

namespace Axis

/-- The furthest a stick can be pushed along an axis, either way. -/
def limit : Nat := 127

def clamp (v : Int) : Int := max (-(limit : Int)) (min v limit)

/-- A position as a byte in two's complement. -/
def toByte (v : Int) : UInt8 := UInt8.ofNat (v % 256).toNat

def ofByte (b : UInt8) : Int := if b.toNat < 128 then b.toNat else (b.toNat : Int) - 256

/-- How far from the centre the position is that a byte stands for. -/
def magnitude (b : UInt8) : Nat := (ofByte b).natAbs

end Axis

/-- One player's input: the pressed buttons and the position of the stick. -/
structure ControllerState where
  buttons : Buttons
  x : Int
  y : Int
  deriving DecidableEq, Repr, Inhabited

namespace ControllerState

def rest : ControllerState := ⟨Buttons.none, 0, 0⟩

/-- The state with the given buttons and the stick as far as it goes towards `x` and `y`. -/
def new (buttons : Buttons) (x y : Int) : ControllerState := ⟨buttons, Axis.clamp x, Axis.clamp y⟩

def setStick (s : ControllerState) (x y : Int) : ControllerState :=
  { s with x := Axis.clamp x, y := Axis.clamp y }

def setButtons (s : ControllerState) (buttons : Buttons) (pressed : Bool) : ControllerState :=
  { s with buttons := s.buttons.setAll buttons pressed }

def assignButtons (s : ControllerState) (buttons : Buttons) : ControllerState :=
  { s with buttons := buttons }

def toBytes (s : ControllerState) : StateBytes :=
  ⟨(s.buttons.bits >>> 8).toUInt8, s.buttons.bits.toUInt8, Axis.toByte s.x, Axis.toByte s.y⟩

/-- The state that four bytes stand for; refused when a bit belongs to no button or an axis is out of
reach. -/
def ofBytes? (w : StateBytes) : Option ControllerState :=
  match Buttons.ofBits? w.field with
  | some buttons =>
    if Axis.magnitude w.x ≤ Axis.limit ∧ Axis.magnitude w.y ≤ Axis.limit then
      some ⟨buttons, Axis.ofByte w.x, Axis.ofByte w.y⟩
    else none
  | none => none

end ControllerState

def padCount : Nat := 4

abbrev Pads := Vector ControllerState padCount

namespace Pads

def atRest : Pads := Vector.replicate padCount ControllerState.rest

/-- Change what one controller reports; a player that does not exist is ignored. -/
def update (pads : Pads) (player : Nat) (f : ControllerState → ControllerState) : Pads :=
  match pads[player]? with
  | some state => pads.setIfInBounds player (f state)
  | none => pads

end Pads

end ConsoleBridge

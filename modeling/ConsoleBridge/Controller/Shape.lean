import ConsoleBridge.Controller.State

/-! # The shape of a controller's state in memory

A word of foreign memory is taken for a controller's state when its four bytes meet a contract: no
button bit outside a mask, both axes within a limit. -/
namespace ConsoleBridge

structure ShapeContract where
  buttonMask : UInt16
  analogLimit : Nat
  deriving DecidableEq, Repr, Inhabited

namespace ShapeContract

def standard : ShapeContract := ⟨Buttons.definedMask, Axis.limit⟩

/-- No bit outside the mask, and both axes within the limit. -/
def admits (c : ShapeContract) (w : StateBytes) : Bool :=
  w.field &&& ~~~c.buttonMask == 0 && Axis.magnitude w.x ≤ c.analogLimit &&
    Axis.magnitude w.y ≤ c.analogLimit

/-- Admitted, and showing some input: memory full of zeros is admitted everywhere. -/
def admitsLive (c : ShapeContract) (w : StateBytes) : Bool :=
  w != StateBytes.zero && c.admits w

/-- The first offset `4 * k`, `4 * (k + 1)`, … of `bytes` that holds a live match. -/
def findFrom (c : ShapeContract) (bytes : ByteArray) (k : Nat) : Option Nat :=
  if h : 4 * k + 4 ≤ bytes.size then
    if c.admitsLive ⟨bytes[4 * k], bytes[4 * k + 1], bytes[4 * k + 2], bytes[4 * k + 3]⟩ then
      some (4 * k)
    else c.findFrom bytes (k + 1)
  else none
termination_by bytes.size - 4 * k

/-- The first aligned offset of `bytes` that holds a live match. -/
def findIn (c : ShapeContract) (bytes : ByteArray) : Option Nat := c.findFrom bytes 0

end ShapeContract

end ConsoleBridge

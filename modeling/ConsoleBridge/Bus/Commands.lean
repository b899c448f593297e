import ConsoleBridge.Bytes
import ConsoleBridge.Controller.State

/-! # Commands in the memory of the peripheral interface

Each controller has a slot of eight bytes: a command, then room for the reply. Words are stored with the
most significant byte first while byte lanes count from the least significant one, so the byte that a
processor sees at `i` is stored at `lane i`. -/
namespace ConsoleBridge.Bus

/-- Where the byte is stored that a processor sees at offset `i`. -/
def lane (i : Nat) : Nat := i ^^^ 3

inductive PadCommand
  | info | readState | other
  deriving DecidableEq, Repr, Inhabited

/-- The command a byte stands for; a reset is answered like a query for information. -/
def PadCommand.ofByte (b : UInt8) : PadCommand :=
  if b = 0x00 ∨ b = 0xFF then .info else if b = 0x01 then .readState else .other

/-- What a controller replies to a command; nothing to a command that is unknown. -/
def reply (c : PadCommand) (state : ControllerState) : List UInt8 :=
  match c with
  | .info => [0x05, 0x00, 0x02]
  | .readState => state.toBytes.toList
  | .other => []

def slotSize : Nat := 8

/-- Store bytes for a processor to see from offset `i` on. -/
def storeSeen (ram : ByteArray) (i : Nat) : List UInt8 → ByteArray
  | [] => ram
  | b :: rest => storeSeen (Bytes.put ram (lane i) b) (i + 1) rest

def answerSlot (ram : ByteArray) (pad : Nat) (state : ControllerState) : ByteArray :=
  if slotSize * pad + slotSize ≤ ram.size then
    storeSeen ram (slotSize * pad + 1)
      (reply (.ofByte (Bytes.byte ram (lane (slotSize * pad)))) state)
  else ram

def answerCommands (ram : ByteArray) (pads : Pads) : ByteArray :=
  (List.finRange padCount).foldl (fun ram (pad : Fin padCount) => answerSlot ram pad pads[pad])
    ram

@[simp] theorem size_storeSeen (ram : ByteArray) (i : Nat) (bs : List UInt8) :
    (storeSeen ram i bs).size = ram.size := by
  induction bs generalizing ram i with
  | nil => rfl
  | cons b rest ih => rw [storeSeen, ih, Bytes.size_put]

@[simp] theorem size_answerSlot (ram : ByteArray) (pad : Nat) (state : ControllerState) :
    (answerSlot ram pad state).size = ram.size := by
  unfold answerSlot
  split <;> simp

end ConsoleBridge.Bus

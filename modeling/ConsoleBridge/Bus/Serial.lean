/-! # The serial interface

Writing one of the two transfer registers asks for a block to be moved between main memory and the
memory of the peripheral interface. The interface only says which; the bus owns both memories. -/
namespace ConsoleBridge.Bus

/-- A requested transfer, with the offset in main memory at which it starts. -/
inductive Transfer
  | toPif (start : Nat)
  | fromPif (start : Nat)
  deriving DecidableEq, Repr, Inhabited

structure SerialInterface where
  dramAddress : UInt32
  pifAddress : UInt32
  status : UInt32
  deriving DecidableEq, Repr, Inhabited

namespace SerialInterface

def statusOffset : Nat := 0x18

/-- The status bit that a finished transfer sets. -/
def interruptBit : UInt32 := 0x1000

def initial : SerialInterface := ⟨0, 0, 0⟩

/-- The register at exactly `offset`, zero where there is none. -/
def read (s : SerialInterface) (offset : Nat) : UInt32 :=
  match offset with
  | 0x00 => s.dramAddress
  | 0x04 => s.pifAddress
  | 0x10 => s.pifAddress
  | 0x18 => s.status
  | _ => 0

/-- Write the register at exactly `offset`, with the transfer that the write asks for. The address in
main memory is kept a multiple of four below eight mebibytes; any write to the status acknowledges. -/
def write (s : SerialInterface) (offset : Nat) (value : UInt32) :
    SerialInterface × Option Transfer :=
  match offset with
  | 0x00 => ({ s with dramAddress := value &&& 0x7FFFFC }, none)
  | 0x04 => ({ s with pifAddress := value }, some (.fromPif s.dramAddress.toNat))
  | 0x10 => ({ s with pifAddress := value }, some (.toPif s.dramAddress.toNat))
  | 0x18 => ({ s with status := s.status &&& ~~~interruptBit }, none)
  | _ => (s, none)

def complete (s : SerialInterface) : SerialInterface :=
  { s with status := s.status ||| interruptBit }

end SerialInterface

end ConsoleBridge.Bus

import ConsoleBridge.Bus.Basic
import ConsoleBridge.Json.Value

/-! # Save states

A save state keeps main memory and the cartridge's save memory. Registers are left out. The states of the
processors come from elsewhere and are carried along unread. -/
namespace ConsoleBridge

structure MemoryState where
  rdram : ByteArray
  cartridgeRam : Option ByteArray
  deriving DecidableEq, Inhabited

structure SaveState where
  cpuState : Json.Value
  memoryState : MemoryState
  rspState : Json.Value
  rdpState : Json.Value
  frameCount : Nat
  cycleCount : Nat
  deriving Inhabited

namespace Console

def getState (c : Console) : MemoryState := ⟨c.rdram, c.cartridge.save?⟩

/-- Bring back memory. Sizes are fixed: what does not fit is dropped and what is missing is zero. Save
memory is left alone by a state without any. -/
def setState (c : Console) (m : MemoryState) : Console :=
  { c with
    rdram := Bytes.fit c.rdram.size m.rdram
    cartridge := match m.cartridgeRam with
      | some save => c.cartridge.loadSave save
      | none => c.cartridge }

end Console

namespace SaveState

/-- The state of a console together with what its processors have to say. -/
def capture (c : Console) (cpu rsp rdp : Json.Value) (frames cycles : Nat) : SaveState :=
  ⟨cpu, c.getState, rsp, rdp, frames, cycles⟩

/-- Bring back the memory; the processors' states are for the caller to apply. -/
def restore (s : SaveState) (c : Console) : Console := c.setState s.memoryState

end SaveState

end ConsoleBridge

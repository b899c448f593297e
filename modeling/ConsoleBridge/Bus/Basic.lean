import ConsoleBridge.Bus.Cartridge
import ConsoleBridge.Bus.Commands
import ConsoleBridge.Bus.Interrupts
import ConsoleBridge.Bus.Layout
import ConsoleBridge.Bus.Registers
import ConsoleBridge.Bus.Serial

/-! # The console's bus

Every access is an access to a whole word. A narrower read picks a lane of the word, lane zero being
the least significant; a narrower write replaces a lane of the word as it is read and writes the word
back, so the side effects of a register do not depend on the width. Open bus reads as zero and drops
writes. -/
namespace ConsoleBridge

/-- The console as its processor sees it: the memories, the devices, the cartridge and the controllers
that are plugged in. -/
structure Console where
  rdram : ByteArray
  pifRom : ByteArray
  pifRam : ByteArray
  vi : Bus.RegisterBlock
  ai : Bus.RegisterBlock
  pi : Bus.RegisterBlock
  ri : Bus.RegisterBlock
  si : Bus.SerialInterface
  mi : Bus.InterruptController
  cartridge : Cartridge
  pads : Pads

namespace Console

open Bus

def new (cartridge : Cartridge) : Console where
  rdram := Bytes.zeros rdramSize
  pifRom := Bytes.zeros pifRomSize
  pifRam := Bytes.zeros pifRamSize
  vi := .zeroed Device.vi.size
  ai := .zeroed Device.ai.size
  pi := .zeroed Device.pi.size
  ri := .zeroed Device.ri.size
  si := .initial
  mi := .initial
  cartridge := cartridge
  pads := Pads.atRest

def readRegister (c : Console) (device : Device) (offset : Nat) : UInt32 :=
  match device with
  | .vi => c.vi.read offset
  | .ai => c.ai.read offset
  | .pi => c.pi.read offset
  | .ri => c.ri.read offset
  | .si => c.si.read offset
  | .mi => c.mi.read offset

/-- The bytes of main memory from `start` on that fill the memory of the peripheral interface, with
zeros past the end. -/
def transferBlock (c : Console) (start : Nat) : ByteArray :=
  ⟨Array.ofFn fun i : Fin c.pifRam.size => Bytes.byte c.rdram (start + i)⟩

/-- Move a block between main memory and the memory of the peripheral interface. On the way to main
memory the commands are answered first. -/
def moveBlock (c : Console) : Transfer → Console
  | .toPif start => { c with pifRam := c.transferBlock start }
  | .fromPif start =>
    let answered := answerCommands c.pifRam c.pads
    { c with pifRam := answered, rdram := Bytes.paste c.rdram start answered }

/-- Run a transfer to its end and raise the interrupt that reports it. -/
def runTransfer (c : Console) (transfer : Transfer) : Console :=
  let moved := c.moveBlock transfer
  { moved with si := moved.si.complete, mi := moved.mi.raise InterruptController.serialLine }

/-- Write a register of the serial interface. A write to its status lowers the interrupt line, a write
to a transfer register has run the transfer when it returns. -/
def writeSerial (c : Console) (offset : Nat) (value : UInt32) : Console :=
  let mi := if offset = SerialInterface.statusOffset then c.mi.lower InterruptController.serialLine
    else c.mi
  match c.si.write offset value with
  | (si, some transfer) => ({ c with si := si, mi := mi } : Console).runTransfer transfer
  | (si, none) => { c with si := si, mi := mi }

def writeRegister (c : Console) (device : Device) (offset : Nat) (value : UInt32) : Console :=
  match device with
  | .vi => { c with vi := c.vi.write offset value }
  | .ai => { c with ai := c.ai.write offset value }
  | .pi => { c with pi := c.pi.write offset value }
  | .ri => { c with ri := c.ri.write offset value }
  | .si => c.writeSerial offset value
  | .mi => { c with mi := c.mi.write offset value }

def readBacking (c : Console) (backing : Backing) (offset : Nat) : UInt32 :=
  match backing with
  | .rdram => Bytes.loadWord c.rdram offset
  | .cartSave => c.cartridge.readSave offset
  | .cartRom => c.cartridge.readRom offset
  | .registers device => c.readRegister device offset
  | .pifRom => Bytes.loadWord c.pifRom offset
  | .pifRam => Bytes.loadWord c.pifRam offset

/-- Write the word of a backing at `offset`; both ROMs ignore writes. -/
def writeBacking (c : Console) (backing : Backing) (offset : Nat) (value : UInt32) : Console :=
  match backing with
  | .rdram => { c with rdram := Bytes.storeWord c.rdram offset value }
  | .cartSave => { c with cartridge := c.cartridge.writeSave offset value }
  | .cartRom => c
  | .registers device => c.writeRegister device offset value
  | .pifRom => c
  | .pifRam => { c with pifRam := Bytes.storeWord c.pifRam offset value }

/-- What answers for the word that holds an address, and the offset of the word into it. -/
def wordAt? (address : UInt32) : Option (Backing × Nat) := resolve (wordBase (physical address))

def read32 (c : Console) (address : UInt32) : UInt32 :=
  match wordAt? address with
  | some (backing, offset) => c.readBacking backing offset
  | none => 0

def write32 (c : Console) (address : UInt32) (value : UInt32) : Console :=
  match wordAt? address with
  | some (backing, offset) => c.writeBacking backing offset value
  | none => c

/-- How far up in its word the byte at `address` is. -/
def byteShift (address : UInt32) : UInt32 := (address &&& 3) * 8

def halfShift (address : UInt32) : UInt32 := (address &&& 2) * 8

/-- `word` with the bits under `mask`, shifted up by `shift`, replaced by `value`. -/
def insertLane (word mask shift value : UInt32) : UInt32 :=
  (word &&& ~~~(mask <<< shift)) ||| (value <<< shift)

def read8 (c : Console) (address : UInt32) : UInt8 :=
  (c.read32 address >>> byteShift address).toUInt8

def read16 (c : Console) (address : UInt32) : UInt16 :=
  (c.read32 address >>> halfShift address).toUInt16

def write8 (c : Console) (address : UInt32) (value : UInt8) : Console :=
  c.write32 address (insertLane (c.read32 address) 0xFF (byteShift address) value.toUInt32)

def write16 (c : Console) (address : UInt32) (value : UInt16) : Console :=
  c.write32 address (insertLane (c.read32 address) 0xFFFF (halfShift address) value.toUInt32)

/-- The bytes that `read8` gives at `count` addresses from `address` on, around the end of the address
space. The count is taken modulo 2 ^ 32. -/
def readBytes (c : Console) (address : UInt32) (count : Nat) : ByteArray :=
  ⟨Array.ofFn fun i : Fin (count % 0x100000000) => c.read8 (address + UInt32.ofNat i)⟩

def controller? (c : Console) (player : Nat) : Option ControllerState := c.pads[player]?

def setController (c : Console) (player : Nat) (state : ControllerState) : Console :=
  { c with pads := c.pads.setIfInBounds player state }

/-- Load the front of the boot ROM; what does not fit is dropped. -/
def loadPifRom (c : Console) (data : ByteArray) : Console :=
  { c with pifRom := Bytes.paste c.pifRom 0 data }

def interruptPending (c : Console) : Bool := c.mi.pending

/-- Switch the console off and on: every memory and register goes back to zero. The cartridge keeps
what it holds and the controllers stay plugged in. -/
def reset (c : Console) : Console :=
  { c with
    rdram := Bytes.zeros c.rdram.size
    pifRom := Bytes.zeros c.pifRom.size
    pifRam := Bytes.zeros c.pifRam.size
    vi := c.vi.reset
    ai := c.ai.reset
    pi := c.pi.reset
    ri := c.ri.reset
    si := .initial
    mi := .initial
    cartridge := c.cartridge.reset }

end Console

end ConsoleBridge

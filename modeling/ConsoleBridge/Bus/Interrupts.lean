/-! # The interrupt controller of the console

Devices raise and lower lines; the processor sees an interrupt while a line is up that its mask lets
through. The version and the lines themselves cannot be written. -/
namespace ConsoleBridge.Bus

structure InterruptController where
  mode : UInt32
  lines : UInt32
  mask : UInt32
  deriving DecidableEq, Repr, Inhabited

namespace InterruptController

def serialLine : UInt32 := 0x2

def version : UInt32 := 0x02020102

def initial : InterruptController := ⟨0, 0, 0⟩

def raise (c : InterruptController) (lines : UInt32) : InterruptController :=
  { c with lines := c.lines ||| lines }

def lower (c : InterruptController) (lines : UInt32) : InterruptController :=
  { c with lines := c.lines &&& ~~~lines }

/-- Is a line up that the mask lets through? -/
def pending (c : InterruptController) : Bool := c.lines &&& c.mask != 0

/-- The register at exactly `offset`, zero where there is none. -/
def read (c : InterruptController) (offset : Nat) : UInt32 :=
  match offset with
  | 0x0 => c.mode
  | 0x4 => version
  | 0x8 => c.lines
  | 0xC => c.mask
  | _ => 0

/-- Write the register at exactly `offset`; only the mode and the mask take a value. -/
def write (c : InterruptController) (offset : Nat) (value : UInt32) : InterruptController :=
  match offset with
  | 0x0 => { c with mode := value }
  | 0xC => { c with mask := value }
  | _ => c

end InterruptController

end ConsoleBridge.Bus

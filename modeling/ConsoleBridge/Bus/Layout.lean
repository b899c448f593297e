/-! # The physical memory layout of the console

Physical addresses are natural numbers. The table lists, in order of priority, each range that
something answers for; every other address is open bus. -/
namespace ConsoleBridge.Bus

inductive Device
  | vi | ai | pi | ri | si | mi
  deriving DecidableEq, Repr, Inhabited

namespace Device

def all : List Device := [vi, ai, pi, ri, si, mi]

def base : Device → Nat
  | vi => 0x04400000 | ai => 0x04500000 | pi => 0x04600000
  | ri => 0x04700000 | si => 0x04800000 | mi => 0x04300000

def size : Device → Nat
  | vi => 0x38 | ai => 0x18 | pi => 0x34 | ri => 0x20 | si => 0x1C | mi => 0x10

def name : Device → String
  | vi => "Vi" | ai => "Ai" | pi => "Pi" | ri => "Ri" | si => "Si" | mi => "Mi"

end Device

inductive Backing
  | rdram | cartSave | cartRom | registers (device : Device) | pifRom | pifRam
  deriving DecidableEq, Repr, Inhabited

def Backing.name : Backing → String
  | rdram => "Rdram"
  | cartSave => "CartSave"
  | cartRom => "CartRom"
  | registers device => "Registers(" ++ device.name ++ ")"
  | pifRom => "PifRom"
  | pifRam => "PifRam"

structure Mapping where
  first : Nat
  limit : Nat
  backing : Backing
  deriving DecidableEq, Repr, Inhabited

def rdramSize : Nat := 0x800000

/-- Bytes of main memory without the expansion. -/
def rdramBaseSize : Nat := 0x400000

def pifRomSize : Nat := 0x7C0

def pifRamSize : Nat := 0x40

/-- Bytes of the window on the cartridge's save memory. -/
def saveWindow : Nat := 0x20000

/-- The mapped ranges in order of priority. -/
def mappings : List Mapping :=
  [⟨0, rdramSize, .rdram⟩, ⟨0x08000000, 0x08000000 + saveWindow, .cartSave⟩,
    ⟨0x10000000, 0x1FC00000, .cartRom⟩] ++
  Device.all.map (fun device => ⟨device.base, device.base + device.size, .registers device⟩) ++
  [⟨0x1FC00000, 0x1FC00000 + pifRomSize, .pifRom⟩,
    ⟨0x1FC007C0, 0x1FC007C0 + pifRamSize, .pifRam⟩]

def Mapping.holds (m : Mapping) (address : Nat) : Bool := m.first ≤ address && address < m.limit

/-- What answers for a physical address, and the offset into it. -/
def resolve (address : Nat) : Option (Backing × Nat) :=
  (mappings.find? (·.holds address)).map fun m => (m.backing, address - m.first)

/-- The physical address behind a processor's address: the two direct-mapped segments lose their top
three bits, every other address passes through. -/
def physical (address : UInt32) : Nat :=
  if 0x80000000 ≤ address.toNat ∧ address.toNat < 0xC0000000 then address.toNat % 0x20000000
  else address.toNat

/-- The first address of the word that holds a physical address. -/
def wordBase (address : Nat) : Nat := address - address % 4

end ConsoleBridge.Bus

import ConsoleBridge.Bytes

/-! # The cartridge slot

The bus sees two windows of a cartridge: its ROM, which cannot be written, and its save memory. -/
namespace ConsoleBridge

inductive Cartridge
  | absent
  | rom (image : ByteArray) (save : Option ByteArray)
  deriving DecidableEq, Inhabited

namespace Cartridge

/-- A cartridge with the given ROM and, where a size is given, save memory full of zeros. -/
def ofRom (image : ByteArray) (saveSize : Option Nat) : Cartridge :=
  .rom image (saveSize.map Bytes.zeros)

def image? : Cartridge → Option ByteArray
  | absent => none
  | rom image _ => some image

def save? : Cartridge → Option ByteArray
  | absent => none
  | rom _ save => save

/-- The word of ROM at `offset`, zero where there is none. -/
def readRom (c : Cartridge) (offset : Nat) : UInt32 :=
  match c.image? with
  | some image => Bytes.loadWord image offset
  | none => 0

def readSave (c : Cartridge) (offset : Nat) : UInt32 :=
  match c.save? with
  | some save => Bytes.loadWord save offset
  | none => 0

def mapSave (f : ByteArray → ByteArray) : Cartridge → Cartridge
  | absent => absent
  | rom image save => .rom image (save.map f)

/-- Write a word of save memory; one that is not wholly there is dropped. -/
def writeSave (c : Cartridge) (offset : Nat) (value : UInt32) : Cartridge :=
  c.mapSave fun save => Bytes.storeWord save offset value

def loadSave (c : Cartridge) (data : ByteArray) : Cartridge :=
  c.mapSave fun save => Bytes.fit save.size data

def reset (c : Cartridge) : Cartridge := c

end Cartridge

end ConsoleBridge

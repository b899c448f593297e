/-! # Register blocks that only latch what is written -/
namespace ConsoleBridge.Bus

structure RegisterBlock where
  words : Array UInt32
  deriving DecidableEq, Repr, Inhabited

namespace RegisterBlock

/-- A block of `size` bytes, rounded down to whole registers, all of them zero. -/
def zeroed (size : Nat) : RegisterBlock := ⟨Array.replicate (size / 4) 0⟩

def size (b : RegisterBlock) : Nat := 4 * b.words.size

/-- The register that holds `offset`, zero outside the block. -/
def read (b : RegisterBlock) (offset : Nat) : UInt32 := b.words.getD (offset / 4) 0

/-- Latch a value in the register that holds `offset`; outside the block nothing changes. -/
def write (b : RegisterBlock) (offset : Nat) (value : UInt32) : RegisterBlock :=
  ⟨b.words.setIfInBounds (offset / 4) value⟩

def reset (b : RegisterBlock) : RegisterBlock := ⟨Array.replicate b.words.size 0⟩

@[simp] theorem size_write (b : RegisterBlock) (offset : Nat) (value : UInt32) :
    (b.write offset value).size = b.size := by
  simp [size, write]

@[simp] theorem size_reset (b : RegisterBlock) : b.reset.size = b.size := by
  simp [size, reset]

end RegisterBlock

end ConsoleBridge.Bus

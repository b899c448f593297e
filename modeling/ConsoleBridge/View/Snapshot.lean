import ConsoleBridge.Bytes
import ConsoleBridge.Bus.Layout
import ConsoleBridge.Process.Handle

/-! # Snapshots of main memory

A snapshot is a copy of all of main memory, made chunk by chunk; a chunk that cannot be read is full of
zeros. A copy is put in place as a whole, and only while the process is there before and after it was
made: the last copy outlives the process. -/
namespace ConsoleBridge

structure Snapshot where
  base : Nat
  image : ByteArray
  deriving DecidableEq, Inhabited

namespace Snapshot

/-- How many bytes are copied at a time. -/
def chunkSize : Nat := 0x10000

variable {σ : Type} [ProcessMemory σ]

def copyChunk (h : Handle σ) (address : Nat) : ByteArray × Handle σ :=
  match h.read address chunkSize with
  | (.ok bytes, h) => (bytes, h)
  | (.error _, h) => (Bytes.zeros chunkSize, h)

def copyChunks (h : Handle σ) (address : Nat) (copied : ByteArray) :
    (count : Nat) → ByteArray × Handle σ
  | 0 => (copied, h)
  | count + 1 =>
    match copyChunk h address with
    | (bytes, h) => copyChunks h (address + chunkSize) (copied ++ bytes) count

def copy (h : Handle σ) (base : Nat) : ByteArray × Handle σ :=
  copyChunks h base (ByteArray.emptyWithCapacity Bus.rdramSize) (Bus.rdramSize / chunkSize)

def start (h : Handle σ) (base : Nat) : Snapshot × Handle σ :=
  match copy h base with
  | (image, h) => (⟨base, image⟩, h)

def refresh (s : Snapshot) (h : Handle σ) : Snapshot × Handle σ :=
  if h.connected then
    match copy h s.base with
    | (image, h) => (if h.connected then { s with image := image } else s, h)
  else (s, h)

theorem size_copyChunk (h : Handle σ) (address : Nat) :
    (copyChunk h address).1.size = chunkSize := by
  unfold copyChunk
  split
  · rename_i heq
    exact Handle.size_of_read (congrArg Prod.fst heq)
  · exact Bytes.size_zeros _

end Snapshot

end ConsoleBridge

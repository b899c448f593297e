import ConsoleBridge.Bytes
import ConsoleBridge.Process.Region
import ConsoleBridge.Text.Hex

/-! # Access to the memory of a foreign process

A process is a state that every call may change: it runs on while it is being looked at. A call either
succeeds, or finds that the span is not mapped, or finds that the process is gone. -/
namespace ConsoleBridge

inductive AccessError
  | unmapped (address length : Nat)
  | disconnected
  deriving DecidableEq, Repr, Inhabited

def AccessError.message : AccessError → String
  | unmapped address length => toString length ++ " bytes at " ++ Hex.number address ++ " are not mapped"
  | disconnected => "process handle is disconnected"

/-- A type of processes whose memory can be reached. -/
class ProcessMemory (σ : Type) where
  /-- Read `length` bytes from `address` on; a part of them is an error. -/
  read : σ → (address length : Nat) → Except AccessError ByteArray × σ
  /-- What a read of the span that has just failed brought all the same, from the front on. -/
  arrived : σ → (address length : Nat) → ByteArray
  /-- Write all the bytes from `address` on. -/
  write : σ → (address : Nat) → ByteArray → Except AccessError Unit × σ
  /-- The regions as they are now. -/
  regions : σ → Except AccessError (List Region) × σ
  /-- A read that succeeds gives as many bytes as were asked for. -/
  size_of_read : ∀ {s s' : σ} {address length : Nat} {b : ByteArray},
    read s address length = (.ok b, s') → b.size = length

end ConsoleBridge

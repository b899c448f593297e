import ConsoleBridge.Process.Maps
import ConsoleBridge.Process.Handle

/-! # A running process of which only the list of mappings is at hand -/
namespace ConsoleBridge

inductive AttachError
  | notFound (pid : Nat)
  deriving DecidableEq, Repr, Inhabited

def AttachError.message : AttachError → String
  | notFound pid => "process " ++ toString pid ++ " not found"

/-- A process with its list of mappings. No span of its memory can be reached. -/
structure ListedProcess where
  maps : ByteArray
  deriving DecidableEq, Inhabited

namespace ListedProcess

instance : ProcessMemory ListedProcess where
  read p address length := (.error (.unmapped address length), p)
  arrived _ _ _ := ByteArray.empty
  write p address bytes := (.error (.unmapped address bytes.size), p)
  regions p := (.ok (Maps.regions p.maps), p)
  size_of_read h := by cases congrArg Prod.fst h

/-- Attach to a process by what the kernel shows of it, if there is such a process. -/
def attach (pid : Nat) (maps : Option ByteArray) : Except AttachError (Handle ListedProcess) :=
  match maps with
  | some maps => .ok (Handle.attach pid ⟨maps⟩)
  | none => .error (.notFound pid)

end ListedProcess

end ConsoleBridge

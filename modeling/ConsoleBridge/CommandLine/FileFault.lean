/-! # Why a file cannot be read, and what is said about it -/
namespace ConsoleBridge.CommandLine

inductive FileFault
  | missing
  | deviceFailed
  | denied
  | notADirectory
  | isADirectory
  | nameTooLong
  | other (number : Nat) (reason : String)
  deriving DecidableEq, Repr, Inhabited

namespace FileFault

/-- The number that the system has for the fault. -/
def number : FileFault → Nat
  | missing => 2
  | deviceFailed => 5
  | denied => 13
  | notADirectory => 20
  | isADirectory => 21
  | nameTooLong => 36
  | other n _ => n

def reason : FileFault → String
  | missing => "No such file or directory"
  | deviceFailed => "Input/output error"
  | denied => "Permission denied"
  | notADirectory => "Not a directory"
  | isADirectory => "Is a directory"
  | nameTooLong => "File name too long"
  | other _ r => r

/-- The fault with a number, in the given words where it is none of the common ones. -/
def ofNumber (n : Nat) (r : String) : FileFault :=
  ([missing, deviceFailed, denied, notADirectory, isADirectory, nameTooLong].find?
    fun f => f.number == n).getD (other n r)

def message (f : FileFault) : String :=
  f.reason ++ " (os error " ++ toString f.number ++ ")"

end FileFault

end ConsoleBridge.CommandLine

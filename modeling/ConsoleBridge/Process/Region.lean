/-! # Regions of a foreign address space -/
namespace ConsoleBridge

structure Protection where
  read : Bool
  write : Bool
  execute : Bool
  deriving DecidableEq, Repr, Inhabited

namespace Protection

def none : Protection := ⟨false, false, false⟩

def readOnly : Protection := ⟨true, false, false⟩

def readWrite : Protection := ⟨true, true, false⟩

def allows (p required : Protection) : Bool :=
  (p.read || !required.read) && (p.write || !required.write) && (p.execute || !required.execute)

/-- The protection as three letters, a dash for each that is missing. -/
def letters (p : Protection) : List Char :=
  [if p.read then 'r' else '-', if p.write then 'w' else '-', if p.execute then 'x' else '-']

/-- The protection as it is shown to a reader: `Protection(READ | WRITE)`. -/
def text (p : Protection) : String :=
  let names := (if p.read then ["READ"] else []) ++ (if p.write then ["WRITE"] else []) ++
    (if p.execute then ["EXECUTE"] else [])
  "Protection(" ++ (if names.isEmpty then "0x0" else " | ".intercalate names) ++ ")"

end Protection

/-- A span of a foreign address space, with the name of what is mapped there, if it has one. -/
structure Region where
  base : Nat
  size : Nat
  protection : Protection
  name : Option String
  deriving DecidableEq, Repr, Inhabited

namespace Region

/-- The first address behind the region. -/
def limit (r : Region) : Nat := r.base + r.size

def holds (r : Region) (address : Nat) : Bool := r.base ≤ address && address < r.limit

def isReadable (r : Region) : Bool := r.protection.allows Protection.readOnly

/-- May the region be read and written? -/
def isWritable (r : Region) : Bool := r.protection.allows Protection.readWrite

end Region

end ConsoleBridge

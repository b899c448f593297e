import ConsoleBridge.Bytes
import ConsoleBridge.Process.Memory

/-! # A process made of byte buffers

Each region holds its contents. An access has to lie inside one region and respect its protection. -/
namespace ConsoleBridge

structure ImageRegion where
  base : Nat
  protection : Protection
  name : Option String
  bytes : ByteArray
  deriving DecidableEq, Inhabited

namespace ImageRegion

/-- Does the region hold the whole span and allow what is required of it? -/
def serves (r : ImageRegion) (required : Protection) (address length : Nat) : Bool :=
  r.protection.allows required && r.base ≤ address && address + length ≤ r.base + r.bytes.size

def describe (r : ImageRegion) : Region := ⟨r.base, r.bytes.size, r.protection, r.name⟩

end ImageRegion

structure ImageProcess where
  regions : List ImageRegion
  exited : Bool
  deriving DecidableEq, Inhabited

namespace ImageProcess

def empty : ImageProcess := ⟨[], false⟩

def insertRegion (r : ImageRegion) : List ImageRegion → List ImageRegion
  | [] => [r]
  | s :: rest => if s.base ≤ r.base then s :: insertRegion r rest else r :: s :: rest

def add (p : ImageProcess) (r : ImageRegion) : ImageProcess :=
  { p with regions := insertRegion r p.regions }

def ofDump (name : String) (base : Nat) (bytes : ByteArray) : ImageProcess :=
  empty.add ⟨base, Protection.readWrite, some name, bytes⟩

def read (p : ImageProcess) (address length : Nat) : Except AccessError ByteArray :=
  if p.exited then .error .disconnected
  else
    match p.regions.find? (·.serves Protection.readOnly address length) with
    | some r => .ok (r.bytes.extract (address - r.base) (address - r.base + length))
    | none => .error (.unmapped address length)

def writeFirst? (required : Protection) (address : Nat) (bytes : ByteArray) :
    List ImageRegion → Option (List ImageRegion)
  | [] => none
  | r :: rest =>
    if r.serves required address bytes.size then
      some ({ r with bytes := Bytes.paste r.bytes (address - r.base) bytes } :: rest)
    else (writeFirst? required address bytes rest).map (r :: ·)

def writeAs (p : ImageProcess) (required : Protection) (address : Nat) (bytes : ByteArray) :
    Except AccessError Unit × ImageProcess :=
  match p with
  | ⟨regions, true⟩ => (.error .disconnected, ⟨regions, true⟩)
  | ⟨regions, false⟩ =>
    match writeFirst? required address bytes regions with
    | some regions => (.ok (), ⟨regions, false⟩)
    | none => (.error (.unmapped address bytes.size), ⟨regions, false⟩)

def write (p : ImageProcess) (address : Nat) (bytes : ByteArray) :
    Except AccessError Unit × ImageProcess :=
  p.writeAs Protection.readWrite address bytes

/-- What the process itself writes into its memory, whatever the protection. -/
def poke (p : ImageProcess) (address : Nat) (bytes : ByteArray) :
    Except AccessError Unit × ImageProcess :=
  p.writeAs Protection.none address bytes

def exit (p : ImageProcess) : ImageProcess := { p with exited := true }

def describe (p : ImageProcess) : Except AccessError (List Region) :=
  if p.exited then .error .disconnected else .ok (p.regions.map ImageRegion.describe)

theorem size_of_read {p : ImageProcess} {address length : Nat} {b : ByteArray}
    (h : p.read address length = .ok b) : b.size = length := by
  unfold read at h
  split at h
  · cases h
  · split at h
    · rename_i r hr
      cases h
      have hs := List.find?_some hr
      simp only [ImageRegion.serves, Bool.and_eq_true, decide_eq_true_eq] at hs
      simp only [ByteArray.size_extract]
      omega
    · cases h

instance : ProcessMemory ImageProcess where
  read p address length := (p.read address length, p)
  arrived _ _ _ := ByteArray.empty
  write := write
  regions p := (p.describe, p)
  size_of_read h := size_of_read (congrArg Prod.fst h)

end ImageProcess

end ConsoleBridge

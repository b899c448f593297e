import ConsoleBridge.Bytes
import ConsoleBridge.Process.Maps
import ConsoleBridge.Process.Memory

/-! # A running process behind the kernel's files

The kernel shows a process as two files: a list of its mappings, and its memory, which can be read and
written wherever something is mapped, whatever the protection, across mappings that touch. When the
process is gone, so are the files. A span of no bytes needs no access. -/
namespace ConsoleBridge

structure Mapped where
  base : Nat
  bytes : ByteArray
  protection : Protection
  isShared : Bool
  offset : Nat
  device : Nat × Nat
  inode : Nat
  name : Option String
  deriving DecidableEq, Inhabited

namespace Mapped

def limit (m : Mapped) : Nat := m.base + m.bytes.size

def holds (m : Mapped) (address : Nat) : Bool := m.base ≤ address && address < m.limit

def line (m : Mapped) : List Char :=
  let bounds := Hex.paddedDigits 8 m.base ++ '-' :: Hex.paddedDigits 8 m.limit
  let permissions := m.protection.letters ++ [if m.isShared then 's' else 'p']
  let device := Hex.paddedDigits 2 m.device.1 ++ ':' :: Hex.paddedDigits 2 m.device.2
  let front := bounds ++ ' ' :: (permissions ++ ' ' :: (Hex.paddedDigits 8 m.offset ++
    ' ' :: (device ++ ' ' :: Nat.toDigits 10 m.inode)))
  match m.name with
  | some name => front ++ List.replicate (73 - front.length) ' ' ++ ' ' :: name.toList
  | none => front

end Mapped

structure LiveProcess where
  mappings : List Mapped
  isAlive : Bool
  deriving Inhabited

namespace LiveProcess

def mapsFile (p : LiveProcess) : ByteArray :=
  (String.ofList (p.mappings.flatMap fun m => m.line ++ ['\n'])).toUTF8

def readUpTo (ms : List Mapped) (address length : Nat) (acc : ByteArray) : ByteArray :=
  if length = 0 then acc
  else
    match _h : ms.find? (·.holds address) with
    | none => acc
    | some m =>
      let take := min length (m.limit - address)
      readUpTo ms (address + take) (length - take)
        (acc ++ m.bytes.extract (address - m.base) (address - m.base + take))
termination_by length
decreasing_by
  have hm := List.find?_some _h
  simp only [Mapped.holds, Bool.and_eq_true, decide_eq_true_eq] at hm
  omega

/-- Write the part of a span that lies in a mapping. -/
def writePart (address : Nat) (bytes : ByteArray) (m : Mapped) : Mapped :=
  if address < m.base then
    { m with bytes := Bytes.paste m.bytes 0 (bytes.extract (m.base - address) bytes.size) }
  else { m with bytes := Bytes.paste m.bytes (address - m.base) bytes }

/-- How many of the `length` bytes from `address` on are mapped in one piece. -/
def reach (ms : List Mapped) (address length : Nat) : Nat :=
  (readUpTo ms address length ByteArray.empty).size

def read (p : LiveProcess) (address length : Nat) : Except AccessError ByteArray :=
  if length = 0 then .ok ByteArray.empty
  else if p.isAlive then
    let b := readUpTo p.mappings address length ByteArray.empty
    if b.size = length then .ok b else .error (.unmapped address length)
  else .error .disconnected

/-- What a read that has just failed brought: all that is mapped in front of the first gap. -/
def arrived (p : LiveProcess) (address length : Nat) : ByteArray :=
  if p.isAlive then readUpTo p.mappings address length ByteArray.empty else ByteArray.empty

/-- Write a span. What is mapped in front of a gap is written even when the whole is not. -/
def write (p : LiveProcess) (address : Nat) (bytes : ByteArray) :
    Except AccessError Unit × LiveProcess :=
  if bytes.size = 0 then (.ok (), p)
  else if p.isAlive then
    let n := reach p.mappings address bytes.size
    let mapped := p.mappings.map (writePart address (bytes.extract 0 n))
    (if n = bytes.size then .ok () else .error (.unmapped address bytes.size),
      { p with mappings := mapped })
  else (.error .disconnected, p)

def regions (p : LiveProcess) : Except AccessError (List Region) :=
  if p.isAlive then .ok (Maps.regions p.mapsFile) else .error .disconnected

def kill (p : LiveProcess) : LiveProcess := { p with isAlive := false }

theorem size_of_read {p : LiveProcess} {address length : Nat} {b : ByteArray}
    (h : p.read address length = .ok b) : b.size = length := by
  unfold read at h
  split at h
  · cases h
    simp_all
  · split at h
    · simp only at h
      split at h
      · cases h
        assumption
      · cases h
    · cases h

instance : ProcessMemory LiveProcess where
  read p address length := (p.read address length, p)
  arrived := arrived
  write := write
  regions p := (p.regions, p)
  size_of_read h := size_of_read (congrArg Prod.fst h)

end LiveProcess

end ConsoleBridge

import ConsoleBridge.Controller.Shape
import ConsoleBridge.Discovery.Found
import ConsoleBridge.Process.Handle

/-! # Captures of writable memory, and what changed between two of them -/
namespace ConsoleBridge

/-- Copies of regions in ascending order of their bases, one for each base. -/
structure Capture where
  regions : List (Nat × ByteArray)
  deriving DecidableEq, Inhabited

namespace Capture

def insertRegion (base : Nat) (bytes : ByteArray) : List (Nat × ByteArray) → List (Nat × ByteArray)
  | [] => [(base, bytes)]
  | (b, c) :: rest =>
    if base < b then (base, bytes) :: (b, c) :: rest
    else if base = b then (base, bytes) :: rest
    else (b, c) :: insertRegion base bytes rest

def empty : Capture := ⟨[]⟩

def insert (c : Capture) (base : Nat) (bytes : ByteArray) : Capture :=
  ⟨insertRegion base bytes c.regions⟩

/-- The copies given, of which the last one with a base counts. -/
def ofList (regions : List (Nat × ByteArray)) : Capture :=
  regions.foldl (fun c r => c.insert r.1 r.2) empty

def get? (c : Capture) (base : Nat) : Option ByteArray := c.regions.lookup base

variable {σ : Type} [ProcessMemory σ]

/-- Copy some regions behind those of `c`. One that cannot be read is left out. -/
def copyRegions (h : Handle σ) (c : Capture) :
    List Region → Except AccessError Capture × Handle σ
  | [] => (.ok c, h)
  | region :: rest =>
    match h.read region.base region.size with
    | (.ok bytes, h) => copyRegions h (c.insert region.base bytes) rest
    | (.error .disconnected, h) => (.error .disconnected, h)
    | (.error _, h) => copyRegions h c rest

/-- Copy every writable region of up to `sizeMax` bytes. -/
def ofProcess (h : Handle σ) (sizeMax : Nat) : Except AccessError Capture × Handle σ :=
  match h.regions with
  | (.ok regions, h) =>
    copyRegions h empty (regions.filter fun r => r.isWritable && r.size ≤ sizeMax)
  | (.error e, h) => (.error e, h)

/-- The offset of the first word from word `k` on that changed and is admitted after the change. -/
def changedFrom (contract : ShapeContract) (before after : ByteArray) (k : Nat) : Option Nat :=
  if hk : 4 * k + 4 ≤ after.size ∧ 4 * k + 4 ≤ before.size then
    let old : StateBytes := ⟨before[4 * k], before[4 * k + 1], before[4 * k + 2], before[4 * k + 3]⟩
    let new : StateBytes := ⟨after[4 * k], after[4 * k + 1], after[4 * k + 2], after[4 * k + 3]⟩
    if old ≠ new ∧ contract.admits new then some (4 * k) else changedFrom contract before after (k + 1)
  else none
termination_by after.size - 4 * k

/-- The address of the first such word of one region, of which there has to be a copy of the same size
from before. -/
def changedIn (contract : ShapeContract) (before : Capture) (region : Nat × ByteArray) : Option Hit :=
  match before.get? region.1 with
  | some old =>
    if old.size = region.2.size then
      (changedFrom contract old region.2 0).map (Address.plus region.1)
    else none
  | none => none

/-- The address of the first aligned word that changed between two captures and is admitted after the
change. -/
def firstChange (before after : Capture) (contract : ShapeContract) : Option Hit :=
  after.regions.findSome? (changedIn contract before)

end Capture

end ConsoleBridge

import ConsoleBridge.Discovery.Capture

/-! # Finding the controllers' state in a foreign process

Three methods are tried in order: a live match in a small writable region, a word that changes between
two captures, and a live match in a region that is named and as large as the data of a module. What was
found is remembered in the handle. -/
namespace ConsoleBridge

/-- What a search for the controllers' state goes by. Sizes are in bytes. -/
structure InputSearch where
  /-- The milliseconds between two captures. -/
  interval : Nat
  smallMin : Nat
  smallMax : Nat
  moduleMin : Nat
  moduleMax : Nat
  /-- Larger regions are not captured. -/
  captureMax : Nat
  deriving DecidableEq, Repr, Inhabited

namespace InputSearch

def standard : InputSearch := ⟨500, 0x400, 0x100000, 0x1000, 0x40000, 0x4000000⟩

variable {σ : Type} [ProcessMemory σ]

def firstMatch (contract : ShapeContract) (h : Handle σ) :
    List Region → Except DiscoveryError (Option Nat) × Handle σ
  | [] => (.ok none, h)
  | region :: rest =>
    match h.read region.base region.size with
    | (.ok bytes, h) =>
      match contract.findIn bytes with
      | some offset => (answered (some (Address.plus region.base offset)), h)
      | none => firstMatch contract h rest
    | (.error .disconnected, h) => (.error (.access .disconnected), h)
    | (.error _, h) => firstMatch contract h rest

def scanRegions (contract : ShapeContract) (h : Handle σ) (select : Region → Bool) :
    Except DiscoveryError (Option Nat) × Handle σ :=
  match h.regions with
  | (.ok regions, h) => firstMatch contract h (regions.filter select)
  | (.error e, h) => (.error (.access e), h)

def isSmall (s : InputSearch) (r : Region) : Bool :=
  r.isWritable && s.smallMin ≤ r.size && r.size ≤ s.smallMax

def isModule (s : InputSearch) (r : Region) : Bool :=
  r.isWritable && r.name.isSome && s.moduleMin ≤ r.size && r.size ≤ s.moduleMax

def scanSmall (s : InputSearch) (contract : ShapeContract) (h : Handle σ) :
    Except DiscoveryError (Option Nat) × Handle σ :=
  scanRegions contract h s.isSmall

def scanChanges (s : InputSearch) (contract : ShapeContract) (h : Handle σ) :
    Except DiscoveryError (Option Nat) × Handle σ :=
  match Capture.ofProcess h s.captureMax with
  | (.error e, h) => (.error (.access e), h)
  | (.ok before, h) =>
    match Capture.ofProcess h s.captureMax with
    | (.error e, h) => (.error (.access e), h)
    | (.ok after, h) => (answered (Capture.firstChange before after contract), h)

def scanModules (s : InputSearch) (contract : ShapeContract) (h : Handle σ) :
    Except DiscoveryError (Option Nat) × Handle σ :=
  scanRegions contract h s.isModule

def search (s : InputSearch) (contract : ShapeContract) (h : Handle σ) :
    Except DiscoveryError Found × Handle σ :=
  match s.scanSmall contract h with
  | (.error e, h) => (.error e, h)
  | (.ok (some base), h) => (.ok ⟨base, .shapeScan⟩, h)
  | (.ok none, h) =>
    match s.scanChanges contract h with
    | (.error e, h) => (.error e, h)
    | (.ok (some base), h) => (.ok ⟨base, .differential⟩, h)
    | (.ok none, h) =>
      match s.scanModules contract h with
      | (.error e, h) => (.error e, h)
      | (.ok (some base), h) => (.ok ⟨base, .moduleScan⟩, h)
      | (.ok none, h) => (.error .notFound, h)

/-- Find the controllers' state, or recall where it was found before. -/
def locate (s : InputSearch) (contract : ShapeContract) (h : Handle σ) :
    Except DiscoveryError Found × Handle σ :=
  match h.input with
  | some found => (.ok found, h)
  | none =>
    match s.search contract h with
    | (.ok found, h) => (.ok found, { h with input := some found })
    | (.error e, h) => (.error e, h)

end InputSearch

end ConsoleBridge

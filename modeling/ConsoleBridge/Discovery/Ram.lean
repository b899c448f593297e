import ConsoleBridge.Bus.Layout
import ConsoleBridge.Discovery.Signature

/-! # Finding main memory in a foreign process

First the signature of booting is looked for in every readable region; where there is none, the first
writable region of a fitting size is taken. What was found is remembered in the handle. -/
namespace ConsoleBridge

structure RamSearch where
  sizeMin : Nat
  sizeMax : Nat
  /-- How many bytes are read at a time. -/
  chunkSize : Nat
  deriving DecidableEq, Repr, Inhabited

namespace RamSearch

def standard : RamSearch := ⟨Bus.rdramBaseSize, Bus.rdramSize, 0x100000⟩

variable {σ : Type} [ProcessMemory σ]

/-- The first signature in some regions. It is an error when the process is lost on the way. -/
def firstSignature (s : RamSearch) (h : Handle σ) :
    List Region → Except DiscoveryError (Option Nat) × Handle σ
  | [] => (.ok none, h)
  | region :: rest =>
    match Signature.scan h region s.chunkSize with
    | (some hit, h) => (answered (some hit), h)
    | (none, h) =>
      if h.connected then s.firstSignature h rest else (.error (.access .disconnected), h)

def scanSignature (s : RamSearch) (h : Handle σ) :
    Except DiscoveryError (Option Nat) × Handle σ :=
  match h.regions with
  | (.ok regions, h) => s.firstSignature h (regions.filter Region.isReadable)
  | (.error e, h) => (.error (.access e), h)

def fits (s : RamSearch) (region : Region) : Bool :=
  region.isWritable && s.sizeMin ≤ region.size && region.size ≤ s.sizeMax

def firstReadable (h : Handle σ) :
    List Region → Except DiscoveryError (Option Nat) × Handle σ
  | [] => (.ok none, h)
  | region :: rest =>
    match h.read region.base 4 with
    | (.ok _, h) => (.ok (some region.base), h)
    | (.error .disconnected, h) => (.error (.access .disconnected), h)
    | (.error _, h) => firstReadable h rest

def scanRegionSize (s : RamSearch) (h : Handle σ) :
    Except DiscoveryError (Option Nat) × Handle σ :=
  match h.regions with
  | (.ok regions, h) => firstReadable h (regions.filter s.fits)
  | (.error e, h) => (.error (.access e), h)

def search (s : RamSearch) (h : Handle σ) : Except DiscoveryError Found × Handle σ :=
  match s.scanSignature h with
  | (.error e, h) => (.error e, h)
  | (.ok (some base), h) => (.ok ⟨base, .signature⟩, h)
  | (.ok none, h) =>
    match s.scanRegionSize h with
    | (.error e, h) => (.error e, h)
    | (.ok (some base), h) => (.ok ⟨base, .heuristic⟩, h)
    | (.ok none, h) => (.error .notFound, h)

def locate (s : RamSearch) (h : Handle σ) : Except DiscoveryError Found × Handle σ :=
  match h.ram with
  | some found => (.ok found, h)
  | none =>
    match s.search h with
    | (.ok found, h) => (.ok found, { h with ram := some found })
    | (.error e, h) => (.error e, h)

end RamSearch

end ConsoleBridge

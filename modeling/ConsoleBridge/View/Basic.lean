import ConsoleBridge.Discovery.Found
import ConsoleBridge.View.Snapshot
import ConsoleBridge.View.Span

/-! # Reading the console's memory in a foreign process

A view reads either straight from the process or from a snapshot. Words have their most significant byte
first. -/
namespace ConsoleBridge

inductive RamView
  | direct (base : Nat)
  | snapshot (snapshot : Snapshot)
  deriving DecidableEq, Inhabited

inductive AccessTier
  | direct
  /-- From a copy that is made anew after so many milliseconds. -/
  | snapshot (interval : Nat)
  | shared
  deriving DecidableEq, Repr, Inhabited

/-- The bytes that arrived, from the front on, and why the rest could not be read. -/
structure ReadOutcome where
  bytes : ByteArray
  fault : Option AccessError
  deriving DecidableEq, Inhabited

def ReadOutcome.toExcept (r : ReadOutcome) : Except AccessError ByteArray :=
  match r.fault with
  | none => .ok r.bytes
  | some e => .error e

namespace AccessTier

variable {σ : Type} [ProcessMemory σ]

def perFrame : AccessTier := .snapshot 16

def openView (tier : AccessTier) (h : Handle σ) (base : Nat) :
    Except DiscoveryError RamView × Handle σ :=
  match tier with
  | direct => (.ok (.direct base), h)
  | snapshot _ =>
    match Snapshot.start h base with
    | (s, h) => (.ok (.snapshot s), h)
  | shared => (.error .unsupported, h)

end AccessTier

namespace RamView

variable {σ : Type} [ProcessMemory σ]

def pick (image : ByteArray) (spans : List View.Span) : ByteArray :=
  spans.foldl (fun acc s => acc ++ image.extract s.offset (s.offset + s.length)) ByteArray.empty

/-- Read pieces behind what has been read already, up to the first that cannot be read. What a piece that
fails brought is cut at its length. -/
def readSpans (h : Handle σ) (base : Nat) (acc : ByteArray) :
    List View.Span → ReadOutcome × Handle σ
  | [] => (⟨acc, none⟩, h)
  | s :: rest =>
    match h.read (base + s.offset) s.length with
    | (.ok bytes, h) => readSpans h base (acc ++ bytes) rest
    | (.error e, h) =>
      (⟨acc ++ (h.arrived (base + s.offset) s.length).extract 0 s.length, some e⟩, h)

def readBytes (view : RamView) (h : Handle σ) (address : UInt32) (length : Nat) :
    ReadOutcome × Handle σ :=
  match view with
  | direct base => readSpans h base ByteArray.empty (View.spans address length)
  | snapshot s => (⟨pick s.image (View.spans address length), none⟩, h)

def readAs {α : Type} (view : RamView) (h : Handle σ) (address : UInt32) (length : Nat)
    (value : ByteArray → α) : Except AccessError α × Handle σ :=
  match view.readBytes h address length with
  | (r, h) => (r.toExcept.map value, h)

def read8 (view : RamView) (h : Handle σ) (address : UInt32) : Except AccessError UInt8 × Handle σ :=
  view.readAs h address 1 fun b => Bytes.byte b 0

def read16 (view : RamView) (h : Handle σ) (address : UInt32) :
    Except AccessError UInt16 × Handle σ :=
  view.readAs h address 2 fun b => (Bytes.byte b 0).toUInt16 <<< 8 ||| (Bytes.byte b 1).toUInt16

/-- Read four bytes as a number, which may be the bits of a single-precision number. -/
def read32 (view : RamView) (h : Handle σ) (address : UInt32) :
    Except AccessError UInt32 × Handle σ :=
  view.readAs h address 4 fun b => Bytes.loadWord b 0

def refresh (view : RamView) (h : Handle σ) : RamView × Handle σ :=
  match view with
  | direct base => (direct base, h)
  | snapshot s =>
    match s.refresh h with
    | (s, h) => (snapshot s, h)

end RamView

end ConsoleBridge

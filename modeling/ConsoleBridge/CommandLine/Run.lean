import ConsoleBridge.CommandLine.Arguments
import ConsoleBridge.CommandLine.FileFault
import ConsoleBridge.Controller.Injector
import ConsoleBridge.Decimal.Text
import ConsoleBridge.Process.Image
import ConsoleBridge.Process.Listed
import ConsoleBridge.View.Basic

/-! # Doing what the arguments ask for -/
namespace ConsoleBridge.CommandLine

/-- What the program leaves: its output, its complaints and its exit code. -/
structure Report where
  output : String
  complaints : String
  exitCode : Nat
  deriving DecidableEq, Repr, Inhabited

namespace Report

def done (output : String) : Report := ⟨output, "", 0⟩

def notFound (message : String) : Report := ⟨"", message ++ "\n", 1⟩

def failed (output message : String) : Report := ⟨output, "Error: " ++ message ++ "\n", 2⟩

def stopped (output : String) (stop : Stop) : Report := ⟨output, stop.message ++ "\n", 101⟩

def dumpUnreadable (path : String) (fault : FileFault) : Report :=
  failed "" ("failed to read dump " ++ path ++ ": " ++ fault.message)

def notAttached (pid : Nat) (e : AttachError) : Report :=
  failed "" ("failed to attach to process " ++ toString pid ++ ": " ++ e.message)

end Report

/-- Single-precision numbers have the fewest digits that read back and never an exponent. -/
def floatStyle : Decimal.Style where
  format := .single
  tie := .up
  wholeMark := []
  plainRange := none
  zero := ['0']
  infinite := ['i', 'n', 'f']
  notANumber := ['N', 'a', 'N']

/-- Put blanks in front of a text until it has the given width. -/
def padLeft (width : Nat) (s : String) : String :=
  String.ofList (List.replicate (width - s.length) ' ') ++ s

def regionLine (r : Region) : String :=
  Hex.padded 12 r.base ++ "-" ++ Hex.padded 12 r.limit ++ " " ++ padLeft 10 (toString r.size) ++ " " ++
    r.protection.text ++ " " ++ r.name.getD "" ++ "\n"

def foundLine (found : Found) : String :=
  Hex.number found.base ++ " (" ++ found.method.name ++ ")\n"

def stateLine (s : ControllerState) : String :=
  "buttons=" ++ s.buttons.text ++ " x=" ++ toString s.x ++ " y=" ++ toString s.y ++ " bytes=[" ++
    ", ".intercalate (s.toBytes.toList.map Hex.upperByte) ++ "]\n"

variable {σ : Type} [ProcessMemory σ]

def runRegions (h : Handle σ) (writable : Bool) : Report × Handle σ :=
  match h.regions with
  | (.ok regions, h) =>
    let shown := regions.filter fun r => !writable || r.isWritable
    let fitting := shown.takeWhile fun r => r.limit < Address.count
    let output := String.join (fitting.map regionLine)
    (if fitting.length = shown.length then .done output else .stopped output .overflow, h)
  | (.error e, h) => (.failed "" e.message, h)

def afterDiscovery (r : Except DiscoveryError Found × Handle σ) (missing : String)
    (next : Found → Handle σ → Report × Handle σ) : Report × Handle σ :=
  match r with
  | (.ok found, h) => next found h
  | (.error .notFound, h) => (.notFound missing, h)
  | (.error (.stopped stop), h) => (.stopped "" stop, h)
  | (.error e, h) => (.failed "" e.message, h)

def valueLine (view : RamView) (h : Handle σ) (address : UInt32) (width : Width) :
    Except AccessError String × Handle σ :=
  match width with
  | .byte => match view.read8 h address with
    | (r, h) => (r.map fun v => Hex.padded 2 v.toNat ++ "\n", h)
  | .half => match view.read16 h address with
    | (r, h) => (r.map fun v => Hex.padded 4 v.toNat ++ "\n", h)
  | .word => match view.read32 h address with
    | (r, h) => (r.map fun v => Hex.padded 8 v.toNat ++ "\n", h)
  | .float => match view.read32 h address with
    | (r, h) => (r.map fun v => floatStyle.write v.toNat ++ "\n", h)

/-- Show the value at an address, main memory being at `base`. -/
def runPeekAt (h : Handle σ) (base : Nat) (address : UInt32) (width : Width) (snapshot : Bool) :
    Report × Handle σ :=
  match (if snapshot then AccessTier.perFrame else .direct).openView h base with
  | (.error e, h) => (.failed "" e.message, h)
  | (.ok view, h) =>
    match valueLine view h address width with
    | (.ok line, h) => (.done line, h)
    | (.error e, h) => (.failed "" e.message, h)

/-- The report on input that could not be injected, after some output. -/
def notInjected (output : String) : InjectError → Report
  | .stopped stop => .stopped output stop
  | e => .failed output e.message

def runRelease (injector : Injector) (h : Handle σ) (output : String) : Report × Handle σ :=
  match injector.release h with
  | (.ok (), _, h) => (.done output, h)
  | (.error e, _, h) => (notInjected output e, h)

def runInject (h : Handle σ) (base : Nat) (i : Injection) : Report × Handle σ :=
  match (Injector.new base).assignButtons h i.player (i.press.foldl Buttons.union Buttons.none) with
  | (.error e, _, h) => (notInjected "" e, h)
  | (.ok (), injector, h) =>
    match injector.setStick h i.player i.x i.y with
    | (.error e, _, h) => (notInjected "" e, h)
    | (.ok (), injector, h) =>
      let line := stateLine ((injector.state? i.player).getD ControllerState.rest)
      if i.hold.isSome then runRelease injector h line else (.done line, h)

/-- Do something where the controllers' state is: at `base` or where it is found. -/
def atInput (a : Arguments) (h : Handle σ) (base : Option Nat)
    (next : Nat → Handle σ → Report × Handle σ) : Report × Handle σ :=
  match base with
  | some base => next base h
  | none =>
    afterDiscovery (a.inputSearch.locate ShapeContract.standard h)
      "Controller state not found; pass --base to skip discovery" fun found h => next found.base h

def run (a : Arguments) (h : Handle σ) : Report × Handle σ :=
  match a.command with
  | .regions writable => runRegions h writable
  | .locate => afterDiscovery (a.ramSearch.locate h) "RDRAM not found" fun found h =>
      (.done (foundLine found), h)
  | .peek address width snapshot =>
    afterDiscovery (a.ramSearch.locate h) "RDRAM not found" fun found h =>
      runPeekAt h found.base (UInt32.ofNat address) width snapshot
  | .discoverInput _ =>
    afterDiscovery (a.inputSearch.locate ShapeContract.standard h) "Controller state not found"
      fun found h => (.done (foundLine found), h)
  | .inject i => atInput a h i.base fun base h => runInject h base i
  | .release base => atInput a h base fun base h => runRelease (Injector.new base) h ""

/-- Do what the arguments ask for to a dump, given its contents or why it cannot be read. -/
def runOnDump (a : Arguments) (path : String) (contents : Except FileFault ByteArray) : Report :=
  match contents with
  | .ok bytes =>
    (run a (Handle.attach 0 (ImageProcess.ofDump path (a.target.dumpBase.getD 0) bytes))).1
  | .error reason => .dumpUnreadable path reason

/-- Do what the arguments ask for to a process, if it can be attached to. -/
def runOnProcess (a : Arguments) (pid : Nat) (attached : Except AttachError (Handle σ)) : Report :=
  match attached with
  | .ok h => (run a h).1
  | .error e => .notAttached pid e

end ConsoleBridge.CommandLine

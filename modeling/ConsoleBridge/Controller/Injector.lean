import ConsoleBridge.Controller.State
import ConsoleBridge.Process.Address
import ConsoleBridge.Process.Handle

/-! # Pressing the buttons of a foreign process

The process keeps four bytes for each player, one player behind the other. What is pressed is kept here
and written there: first the button field, then one axis after the other. -/
namespace ConsoleBridge

inductive InjectError
  | invalidPlayer (player : Nat)
  | access (error : AccessError)
  /-- The address of a byte does not fit. -/
  | stopped (stop : Stop)
  deriving DecidableEq, Repr, Inhabited

def InjectError.message : InjectError → String
  | invalidPlayer player => "no controller port " ++ toString player
  | access error => error.message
  | stopped stop => stop.message

structure Injector where
  base : Nat
  pads : Pads
  deriving DecidableEq

namespace Injector

def new (base : Nat) : Injector := ⟨base, Pads.atRest⟩

def state? (i : Injector) (player : Nat) : Option ControllerState := i.pads[player]?

def pieces (w : StateBytes) : List (Nat × List UInt8) :=
  [(0, [w.high, w.low]), (2, [w.x]), (3, [w.y])]

variable {σ : Type} [ProcessMemory σ]

def writePieces (h : Handle σ) (address : Nat) :
    List (Nat × List UInt8) → Except InjectError Unit × Handle σ
  | [] => (.ok (), h)
  | (offset, bytes) :: rest =>
    match Address.plus address offset with
    | .error stop => (.error (.stopped stop), h)
    | .ok place =>
      match h.write place ⟨bytes.toArray⟩ with
      | (.ok (), h) => writePieces h address rest
      | (.error e, h) => (.error (.access e), h)

def flush (i : Injector) (h : Handle σ) (player : Nat) : Except InjectError Unit × Handle σ :=
  match i.state? player with
  | none => (.error (.invalidPlayer player), h)
  | some state =>
    match Address.plus i.base (4 * player) with
    | .error stop => (.error (.stopped stop), h)
    | .ok address => writePieces h address (pieces state.toBytes)

def change (i : Injector) (h : Handle σ) (player : Nat) (f : ControllerState → ControllerState) :
    Except InjectError Unit × Injector × Handle σ :=
  let changed := { i with pads := i.pads.update player f }
  match changed.flush h player with
  | (r, h) => (r, changed, h)

def setButtons (i : Injector) (h : Handle σ) (player : Nat) (buttons : Buttons) (pressed : Bool) :
    Except InjectError Unit × Injector × Handle σ :=
  i.change h player fun s => s.setButtons buttons pressed

def assignButtons (i : Injector) (h : Handle σ) (player : Nat) (buttons : Buttons) :
    Except InjectError Unit × Injector × Handle σ :=
  i.change h player fun s => s.assignButtons buttons

def setStick (i : Injector) (h : Handle σ) (player : Nat) (x y : Int) :
    Except InjectError Unit × Injector × Handle σ :=
  i.change h player fun s => s.setStick x y

def flushAll (i : Injector) (h : Handle σ) : List Nat → Except InjectError Unit × Handle σ
  | [] => (.ok (), h)
  | player :: rest =>
    match i.flush h player with
    | (.ok (), h) => i.flushAll h rest
    | (.error e, h) => (.error e, h)

def release (i : Injector) (h : Handle σ) : Except InjectError Unit × Injector × Handle σ :=
  let released := new i.base
  match released.flushAll h (List.range padCount) with
  | (r, h) => (r, released, h)

end Injector

end ConsoleBridge

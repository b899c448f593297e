import ConsoleBridge.Process.Address
import ConsoleBridge.Process.Memory

/-! # What discovery finds, and why it fails -/
namespace ConsoleBridge

inductive Method
  | signature | heuristic | shapeScan | differential | moduleScan
  deriving DecidableEq, Repr, Inhabited

def Method.name : Method → String
  | signature => "Signature"
  | heuristic => "Heuristic"
  | shapeScan => "ShapeScan"
  | differential => "Differential"
  | moduleScan => "ModuleScan"

structure Found where
  base : Nat
  method : Method
  deriving DecidableEq, Repr, Inhabited

inductive DiscoveryError
  | notFound
  | unsupported
  | access (error : AccessError)
  /-- The search has stopped without an answer. -/
  | stopped (stop : Stop)
  deriving DecidableEq, Repr, Inhabited

def DiscoveryError.message : DiscoveryError → String
  | notFound => "no candidate satisfied the search"
  | unsupported => "shared-memory access is not supported"
  | access error => error.message
  | stopped stop => stop.message

/-- What a method comes upon: an address, or the end of the search. -/
abbrev Hit := Except Stop Nat

/-- What a method answers that comes upon something, or upon nothing. -/
def answered : Option Hit → Except DiscoveryError (Option Nat)
  | none => .ok none
  | some (.ok base) => .ok (some base)
  | some (.error stop) => .error (.stopped stop)

theorem answered_eq_ok_some_iff {o : Option Hit} {base : Nat} :
    answered o = .ok (some base) ↔ o = some (.ok base) := by
  obtain ⟨⟩ | ⟨⟩ | b := o <;> simp [answered]

theorem answered_ne_access (o : Option Hit) (e : AccessError) : answered o ≠ .error (.access e) := by
  obtain ⟨⟩ | ⟨⟩ | b := o <;> simp [answered]

end ConsoleBridge

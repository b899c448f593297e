/-! # Addresses

Addresses and sizes are natural numbers; whatever reads them from outside admits 64 bits only. Where the sum of
two of them does not fit, the computation that forms it stops without an answer. -/
namespace ConsoleBridge

/-- Why a computation stops without an answer. -/
inductive Stop
  | overflow
  deriving DecidableEq, Repr, Inhabited

def Stop.message : Stop → String
  | overflow => "attempt to add with overflow"

namespace Address

def count : Nat := 0x10000000000000000

def plus (address distance : Nat) : Except Stop Nat :=
  if address + distance < count then .ok (address + distance) else .error .overflow

variable {a d b : Nat}

theorem plus_of_lt (h : a + d < count) : plus a d = .ok (a + d) := if_pos h

theorem plus_of_le (h : count ≤ a + d) : plus a d = .error .overflow := if_neg (Nat.not_lt.mpr h)

theorem plus_eq_ok_iff : plus a d = .ok b ↔ a + d < count ∧ b = a + d := by
  by_cases h : a + d < count
  · rw [plus_of_lt h, Except.ok.injEq]
    exact ⟨fun hb => ⟨h, hb.symm⟩, fun hb => hb.2.symm⟩
  · rw [plus_of_le (Nat.not_lt.mp h)]
    exact ⟨nofun, fun hb => absurd hb.1 h⟩

theorem plus_eq_error_iff {e : Stop} : plus a d = .error e ↔ count ≤ a + d := by
  by_cases h : a + d < count
  · rw [plus_of_lt h]
    exact ⟨nofun, fun hle => absurd h (Nat.not_lt.mpr hle)⟩
  · rw [plus_of_le (Nat.not_lt.mp h)]
    exact ⟨fun _ => Nat.not_lt.mp h, fun _ => by cases e; rfl⟩

end Address

end ConsoleBridge

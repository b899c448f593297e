import ConsoleBridge.Controller.Shape
import ConsoleBridge.Proofs.Bytes.Storage
import ConsoleBridge.Proofs.Discovery.LowestHeader

/-!
# Live words

The search for a controller's state in some bytes answers with the lowest multiple of four at which a live
match stands.
-/
namespace ConsoleBridge

open Bytes
open Signature (Lowest)

/-- The bytes show some input at the offset that the contract admits. -/
def ShapeContract.LiveAt (c : ShapeContract) (bytes : ByteArray) (offset : Nat) : Prop :=
  ∃ w, StateBytes.at? bytes offset = some w ∧ w ≠ StateBytes.zero ∧ c.admits w = true

variable {o k : Nat} {b : ByteArray}

theorem StateBytes.at?_of_le (ho : o + 4 ≤ b.size) :
    StateBytes.at? b o = some ⟨b[o], b[o + 1], b[o + 2], b[o + 3]⟩ := by
  rw [at?, if_pos ho, byte_of_lt, byte_of_lt, byte_of_lt, byte_of_lt]

theorem StateBytes.at?_eq_none (ho : ¬ o + 4 ≤ b.size) : StateBytes.at? b o = none := if_neg ho

theorem StateBytes.bound_of_at? {w : StateBytes} (hw : StateBytes.at? b o = some w) : o + 4 ≤ b.size := by
  by_cases ho : o + 4 ≤ b.size
  · exact ho
  · rw [at?_eq_none ho] at hw
    cases hw

namespace ShapeContract

variable {c : ShapeContract}

private theorem admitsLive_iff {w : StateBytes} : c.admitsLive w = true ↔ w ≠ StateBytes.zero ∧ c.admits w = true := by
  simp [admitsLive]

theorem LiveAt.bound (hl : c.LiveAt b o) : o + 4 ≤ b.size := by
  obtain ⟨w, hw, -⟩ := hl
  exact StateBytes.bound_of_at? hw

theorem liveAt_iff (ho : o + 4 ≤ b.size) :
    c.LiveAt b o ↔ c.admitsLive ⟨b[o], b[o + 1], b[o + 2], b[o + 3]⟩ = true := by
  simp [LiveAt, StateBytes.at?_of_le ho, admitsLive_iff]

private theorem findFrom_lowest (c : ShapeContract) (b : ByteArray) (k : Nat) :
    Lowest (fun o => 4 * k ≤ o ∧ 4 ∣ o ∧ c.LiveAt b o) (c.findFrom b k) := by
  fun_induction c.findFrom b k with
  | case1 k hk hlive =>
    refine .some ⟨Nat.le_refl _, ⟨k, rfl⟩, (liveAt_iff hk).mpr hlive⟩ ?_
    exact fun o ho => ho.1
  | case2 k hk hlive ih =>
    refine ih.of_iff fun o => ⟨?_, ?_⟩
    · rintro ⟨hle, ⟨j, rfl⟩, ho⟩
      have hne : j ≠ k := by
        rintro rfl
        exact hlive ((liveAt_iff hk).mp ho)
      exact ⟨by omega, ⟨j, rfl⟩, ho⟩
    · rintro ⟨hle, ho⟩
      exact ⟨by omega, ho⟩
  | case3 k hk =>
    refine .none ?_
    rintro o ⟨hle, -, ho⟩
    have hbound := ho.bound
    omega

/-- The search for a live match answers with the lowest one. -/
theorem findIn_lowest (c : ShapeContract) (b : ByteArray) :
    Lowest (fun o => 4 ∣ o ∧ c.LiveAt b o) (c.findIn b) :=
  (c.findFrom_lowest b 0).of_iff fun o => by simp

end ShapeContract

end ConsoleBridge

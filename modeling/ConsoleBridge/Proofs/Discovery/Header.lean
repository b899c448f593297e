import ConsoleBridge.Proofs.Bytes.Word
import ConsoleBridge.Proofs.Discovery.ChunkScan

/-!
# The header of booting in a memory

What the checks on a chunk say about the memory that it is a copy of.
-/
namespace ConsoleBridge.Signature

open Bytes

/-- The constants of booting stand in a memory from `b` on. -/
structure Header (memory : Nat → UInt8) (b : Nat) : Prop where
  television : wordAt memory (b + televisionOffset) ≤ televisionMax
  anchor : wordAt memory (b + anchorOffset) = anchor
  memorySize : wordAt memory (b + memorySizeOffset) ∈ memorySizes

variable {memory memory' : Nat → UInt8} {region : Region} {address length start i b b' : Nat}

/-- A header is told by its own bytes. -/
theorem Header.congr (h : Header memory b)
    (hm : ∀ i, i < span → memory' (b' + i) = memory (b + i)) : Header memory' b' := by
  have hword : ∀ i, i + 4 ≤ span → wordAt memory' (b' + i) = wordAt memory (b + i) := by
    intro i hi
    simp only [wordAt, Nat.add_assoc]
    rw [hm i (by omega), hm (i + 1) (by omega), hm (i + 2) (by omega), hm (i + 3) (by omega)]
  refine ⟨?_, ?_, ?_⟩
  · rw [hword _ (by decide)]
    exact h.television
  · rw [hword _ (by decide)]
    exact h.anchor
  · rw [hword _ (by decide)]
    exact h.memorySize

theorem wordAt_eq_anchor_iff :
    wordAt memory address = anchor ↔
      memory address = 0xB0 ∧ memory (address + 1) = 0 ∧ memory (address + 2) = 0 ∧
        memory (address + 3) = 0 := @wordOf_inj _ _ _ _ 0xB0 0 0 0

theorem anchorAt_copy :
    anchorAt (copy memory address length) i = true ↔
      i + 4 ≤ length ∧ wordAt memory (address + i) = anchor := by
  simp only [anchorAt, size_copy, Bool.and_eq_true, decide_eq_true_eq, beq_iff_eq, wordAt_eq_anchor_iff,
    and_assoc]
  refine and_congr_right fun hi => ?_
  rw [byte_copy (by omega), byte_copy (by omega), byte_copy (by omega), byte_copy (by omega), Nat.add_assoc,
    Nat.add_assoc, Nat.add_assoc]

theorem headerAt_copy :
    headerAt (copy memory address length) i = true ↔ i + span ≤ length ∧ Header memory (address + i) := by
  have hspan : span = memorySizeOffset + 4 := rfl
  have htelevision : televisionOffset + 4 ≤ span := by decide
  have hanchor : anchorOffset + 4 ≤ span := by decide
  simp only [headerAt, size_copy, Bool.and_eq_true, decide_eq_true_eq, beq_iff_eq, List.contains_iff_mem]
  constructor
  · rintro ⟨⟨⟨hi, ha⟩, ht⟩, hm⟩
    rw [loadWord_copy (by omega), ← Nat.add_assoc] at ha ht hm
    exact ⟨hi, ht, ha, hm⟩
  · rintro ⟨hi, ht, ha, hm⟩
    rw [loadWord_copy (by omega), loadWord_copy (by omega), loadWord_copy (by omega), ← Nat.add_assoc,
      ← Nat.add_assoc, ← Nat.add_assoc]
    exact ⟨⟨⟨hi, ha⟩, ht⟩, hm⟩

theorem points_copy :
    Points region start (copy memory start length) i (.ok b) ↔
      i + 4 ≤ length ∧ wordAt memory (start + i) = anchor ∧ start + i = b + anchorOffset ∧
        region.base ≤ b ∧ b % 4 = 0 ∧ b + span < Address.count ∧ b + span ≤ region.limit := by
  constructor
  · rintro ⟨ha, hb⟩
    rw [anchorAt_copy] at ha
    rw [baseOf?_eq_ok_iff] at hb
    exact ⟨ha.1, ha.2, hb⟩
  · rintro ⟨hi, ha, hb⟩
    exact ⟨anchorAt_copy.mpr ⟨hi, ha⟩, baseOf?_eq_ok_iff.mpr hb⟩

end ConsoleBridge.Signature

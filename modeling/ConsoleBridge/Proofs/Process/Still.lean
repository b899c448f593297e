import ConsoleBridge.Process.Image
import ConsoleBridge.Proofs.Bytes.Word
import ConsoleBridge.Proofs.Process.Connection

/-!
# Processes that hold still

A process holds still when its memory never changes and whether a span can be read depends on the span
alone. Reading may still change its state, as it does when calls are recorded.
-/
namespace ConsoleBridge

open Bytes

variable {σ : Type} [ProcessMemory σ]

/-- In the states `stays`, which no read leaves, a read brings the bytes of `memory` where the span is
`readable`, and finds it unmapped where it is not. -/
structure Still (memory : Nat → UInt8) (readable : Nat → Nat → Prop) (stays : σ → Prop) : Prop where
  stays_read : ∀ s, stays s → ∀ address length, stays (ProcessMemory.read s address length).2
  copies : ∀ s, stays s → ∀ address length, readable address length →
    (ProcessMemory.read s address length).1 = .ok (copy memory address length)
  denies : ∀ s, stays s → ∀ address length, ¬ readable address length →
    ∃ a n, (ProcessMemory.read s address length).1 = .error (.unmapped a n)

namespace Handle

structure Steady (stays : σ → Prop) (h : Handle σ) : Prop where
  connected : h.connected = true
  target : stays h.target

variable {memory : Nat → UInt8} {readable : Nat → Nat → Prop} {stays : σ → Prop} {h : Handle σ}
  {address length : Nat}

theorem Steady.read_ok (hs : Still memory readable stays) (hh : Steady stays h)
    (hr : readable address length) :
    ∃ h', h.read address length = (.ok (copy memory address length), h') ∧ Steady stays h' := by
  obtain ⟨pid, target, connected, ram, input⟩ := h
  obtain ⟨rfl, ht⟩ := hh
  have hcopy := hs.copies target ht address length hr
  have hstays := hs.stays_read target ht address length
  rw [Handle.read, call]
  generalize ProcessMemory.read target address length = p at hcopy hstays
  obtain ⟨r, target'⟩ := p
  obtain rfl := hcopy
  exact ⟨_, rfl, rfl, hstays⟩

theorem Steady.read_error (hs : Still memory readable stays) (hh : Steady stays h)
    (hr : ¬ readable address length) :
    ∃ a n h', h.read address length = (.error (.unmapped a n), h') ∧ Steady stays h' := by
  obtain ⟨pid, target, connected, ram, input⟩ := h
  obtain ⟨rfl, ht⟩ := hh
  obtain ⟨a, n, hdenied⟩ := hs.denies target ht address length hr
  have hstays := hs.stays_read target ht address length
  rw [Handle.read, call]
  generalize ProcessMemory.read target address length = p at hdenied hstays
  obtain ⟨r, target'⟩ := p
  obtain rfl := hdenied
  exact ⟨a, n, _, rfl, rfl, hstays⟩

theorem Steady.of_ok {b : ByteArray} {h' : Handle σ} (hs : Still memory readable stays)
    (hh : Steady stays h) (hread : h.read address length = (.ok b, h')) :
    readable address length ∧ b = copy memory address length ∧ Steady stays h' := by
  by_cases hr : readable address length
  · obtain ⟨h'', hcopy, hh''⟩ := hh.read_ok hs hr
    rw [hread] at hcopy
    cases hcopy
    exact ⟨hr, rfl, hh''⟩
  · obtain ⟨a, n, h'', hdenied, -⟩ := hh.read_error hs hr
    rw [hread] at hdenied
    cases hdenied

theorem Steady.of_error {e : AccessError} {h' : Handle σ} (hs : Still memory readable stays)
    (hh : Steady stays h) (hread : h.read address length = (.error e, h')) :
    ¬ readable address length ∧ e ≠ .disconnected ∧ Steady stays h' := by
  by_cases hr : readable address length
  · obtain ⟨h'', hcopy, -⟩ := hh.read_ok hs hr
    rw [hread] at hcopy
    cases hcopy
  · obtain ⟨a, n, h'', hdenied, hh''⟩ := hh.read_error hs hr
    rw [hread] at hdenied
    cases hdenied
    exact ⟨hr, nofun, hh''⟩

end Handle

namespace ImageRegion

def memory (r : ImageRegion) (address : Nat) : UInt8 := byte r.bytes (address - r.base)

theorem memory_of_copy {r : ImageRegion} {memory : Nat → UInt8} {length i : Nat}
    (hr : r.bytes = copy memory 0 length) (hi : i < length) : r.memory (r.base + i) = memory i := by
  rw [ImageRegion.memory, hr, Nat.add_sub_cancel_left, byte_copy hi, Nat.zero_add]

theorem extract_eq_copy (r : ImageRegion) {address length : Nat} (ha : r.base ≤ address)
    (hl : address + length ≤ r.base + r.bytes.size) :
    r.bytes.extract (address - r.base) (address - r.base + length) = copy r.memory address length := by
  rw [Bytes.extract_eq_copy _ _ (by omega)]
  apply ByteArray.ext_getElem (by simp)
  intro i hi hi'
  rw [getElem_copy, getElem_copy, memory]
  congr 1
  omega

/-- A process with one region can be read inside it. -/
theorem read_eq (r : ImageRegion) (hr : r.protection.allows Protection.readOnly = true)
    (address length : Nat) :
    ImageProcess.read ⟨[r], false⟩ address length =
      if r.describe.base ≤ address ∧ address + length ≤ r.describe.limit then
        .ok (copy r.memory address length)
      else .error (.unmapped address length) := by
  have hserves : r.serves Protection.readOnly address length =
      decide (r.describe.base ≤ address ∧ address + length ≤ r.describe.limit) := by
    rw [serves, hr, Bool.true_and, Bool.decide_and]
    rfl
  rw [ImageProcess.read, if_neg Bool.false_ne_true, List.find?_singleton, hserves]
  by_cases hin : r.describe.base ≤ address ∧ address + length ≤ r.describe.limit
  · rw [decide_eq_true hin, if_pos rfl, if_pos hin]
    exact congrArg _ (r.extract_eq_copy hin.1 hin.2)
  · rw [decide_eq_false hin, if_neg Bool.false_ne_true, if_neg hin]

/-- A process with one region holds still. -/
theorem still (r : ImageRegion) (hr : r.protection.allows Protection.readOnly = true) :
    Still r.memory
      (fun address length => r.describe.base ≤ address ∧ address + length ≤ r.describe.limit)
      (· = ImageProcess.mk [r] false) where
  stays_read := by
    rintro s rfl address length
    rfl
  copies := by
    rintro s rfl address length hin
    exact (r.read_eq hr address length).trans (if_pos hin)
  denies := by
    rintro s rfl address length hout
    exact ⟨address, length, (r.read_eq hr address length).trans (if_neg hout)⟩

end ImageRegion

end ConsoleBridge

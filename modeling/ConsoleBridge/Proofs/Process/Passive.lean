import ConsoleBridge.Proofs.Discovery.FirstMatch
import ConsoleBridge.Proofs.Bytes.Storage

/-!
# Processes that change by writes alone

The regions of such a process lie apart from each other and stay as they are, each writable region takes
every write that lies inside it, and a write that succeeds leaves its bytes and changes no others.
-/
namespace ConsoleBridge

open Bytes Handle

/-- No address is in both regions. -/
def Region.Apart (r q : Region) : Prop := ∀ a, r.holds a = true → q.holds a = false

def overwritten (memory : Nat → UInt8) (address : Nat) (bytes : ByteArray) (a : Nat) : UInt8 :=
  if address ≤ a ∧ a < address + bytes.size then byte bytes (a - address) else memory a

/-- What a read brings where it finds no fault. -/
def readAnswer (fault : Nat → Nat → Option AccessError) (memory : Nat → UInt8) (address length : Nat) :
    Except AccessError ByteArray :=
  match fault address length with
  | none => .ok (copy memory address length)
  | some e => .error e

theorem Region.holds_iff {r : Region} {a : Nat} : r.holds a = true ↔ r.base ≤ a ∧ a < r.limit := by
  simp [Region.holds]

theorem Region.holds_eq_false_iff {r : Region} {a : Nat} : r.holds a = false ↔ a < r.base ∨ r.limit ≤ a := by
  rw [← Bool.not_eq_true, Region.holds_iff]
  omega

theorem overwritten_inside {memory : Nat → UInt8} {address a : Nat} {bytes : ByteArray} (ha : address ≤ a)
    (hl : a < address + bytes.size) : overwritten memory address bytes a = byte bytes (a - address) :=
  if_pos ⟨ha, hl⟩

theorem overwritten_outside {memory : Nat → UInt8} {address a : Nat} {bytes : ByteArray}
    (ha : a < address ∨ address + bytes.size ≤ a) : overwritten memory address bytes a = memory a :=
  if_neg (by omega)

theorem copy_overwritten (memory : Nat → UInt8) (address : Nat) (bytes : ByteArray) :
    copy (overwritten memory address bytes) address bytes.size = bytes := by
  apply ByteArray.ext_getElem (by simp)
  intro i hi hi'
  rw [getElem_copy, overwritten_inside (by omega) (by omega), Nat.add_sub_cancel_left, byte_of_lt]

/-- To write bytes piece by piece comes to writing them at once. -/
theorem overwritten_append (memory : Nat → UInt8) (address : Nat) (front back : ByteArray) :
    overwritten (overwritten memory address front) (address + front.size) back =
      overwritten memory address (front ++ back) := by
  funext a
  simp only [overwritten, ByteArray.size_append, byte_append]
  by_cases hfront : address ≤ a ∧ a < address + front.size
  · rw [if_neg (by omega), if_pos hfront, if_pos (by omega), if_pos (by omega)]
  · by_cases hback : address + front.size ≤ a ∧ a < address + front.size + back.size
    · rw [if_pos hback, if_pos (by omega), if_neg (by omega), Nat.sub_sub]
    · rw [if_neg hback, if_neg hfront, if_neg (by omega)]

/-- Of regions that lie apart only one holds an address. -/
theorem eq_of_apart {regions : List Region}
    (happart : regions.Pairwise Region.Apart) {r q : Region} (hr : r ∈ regions) (hq : q ∈ regions)
    {a : Nat} (hra : r.holds a = true) (hqa : q.holds a = true) : r = q := by
  induction regions with
  | nil => cases hr
  | cons p rest ih =>
    obtain ⟨hp, hrest⟩ := List.pairwise_cons.mp happart
    rcases List.mem_cons.mp hr with rfl | hr'
    · rcases List.mem_cons.mp hq with rfl | hq'
      · rfl
      · rw [hp q hq' a hra] at hqa
        cases hqa
    · rcases List.mem_cons.mp hq with rfl | hq'
      · rw [hp r hr' a hqa] at hra
        cases hra
      · exact ih hrest hr' hq'

variable {σ : Type} [ProcessMemory σ]

/-- In the states `stays` the process keeps its regions, a read depends on its span and the memory, and the
memory changes as it is written to. -/
structure Passive (regions : List Region) (fault : Nat → Nat → Option AccessError)
    (memory : σ → Nat → UInt8) (stays : σ → Prop) : Prop where
  apart : regions.Pairwise Region.Apart
  present : ∀ address length, fault address length ≠ some .disconnected
  lists : ∀ s, stays s → (ProcessMemory.regions s).1 = .ok regions
  lists_keeps : ∀ s, stays s → stays (ProcessMemory.regions s).2 ∧
    memory (ProcessMemory.regions s).2 = memory s
  reads : ∀ s, stays s → ∀ address length,
    (ProcessMemory.read s address length).1 = readAnswer fault (memory s) address length
  reads_keeps : ∀ s, stays s → ∀ address length, stays (ProcessMemory.read s address length).2 ∧
    memory (ProcessMemory.read s address length).2 = memory s
  accepts : ∀ s, stays s → ∀ r ∈ regions, r.isWritable = true → ∀ address (bytes : ByteArray),
    r.base ≤ address → address + bytes.size ≤ r.limit → (ProcessMemory.write s address bytes).1 = .ok ()
  writes : ∀ s, stays s → ∀ address bytes, (ProcessMemory.write s address bytes).1 = .ok () →
    stays (ProcessMemory.write s address bytes).2 ∧
      memory (ProcessMemory.write s address bytes).2 = overwritten (memory s) address bytes

namespace Passive

variable {regions : List Region} {fault : Nat → Nat → Option AccessError} {memory : σ → Nat → UInt8}
variable {stays : σ → Prop}

/-- While nothing is written the process repeats itself. -/
theorem repeats (hp : Passive regions fault memory stays) (m : Nat → UInt8) :
    Repeats regions (readAnswer fault m) fun s => stays s ∧ memory s = m where
  stays_regions := by
    rintro s ⟨hs, rfl⟩
    exact hp.lists_keeps s hs
  stays_read := by
    rintro s ⟨hs, rfl⟩ address length
    exact hp.reads_keeps s hs address length
  lists := by
    rintro s ⟨hs, -⟩
    exact hp.lists s hs
  answers := by
    rintro s ⟨hs, rfl⟩ address length
    exact hp.reads s hs address length
  present address length := by
    have hpresent := hp.present address length
    rw [readAnswer]
    split
    · nofun
    · rename_i e he
      rw [he] at hpresent
      simpa using hpresent

/-- While nothing is written the process holds still. -/
theorem still (hp : Passive regions fault memory stays) (m : Nat → UInt8) :
    Still m (fun address length => fault address length = none) fun s => stays s ∧ memory s = m where
  stays_read := (hp.repeats m).stays_read
  copies s hs address length hr := by
    rw [(hp.repeats m).answers s hs, readAnswer, hr]
  denies s hs address length hr := by
    have hpresent := hp.present address length
    rw [(hp.repeats m).answers s hs, readAnswer]
    cases hfault : fault address length with
    | none => exact absurd hfault hr
    | some e =>
      cases e with
      | disconnected => exact absurd hfault hpresent
      | unmapped a n => exact ⟨a, n, rfl⟩

end Passive

end ConsoleBridge

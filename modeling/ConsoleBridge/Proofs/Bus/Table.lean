import Mathlib.Data.List.Pairwise
import ConsoleBridge.Bus.Layout

/-!
# The table of mapped ranges

No two ranges meet, so the order of the table does not matter: an address belongs to a backing exactly when
it lies in its range. Every range begins and ends between two words.
-/
namespace ConsoleBridge.Bus

def Backing.first : Backing → Nat
  | rdram => 0
  | cartSave => 0x08000000
  | cartRom => 0x10000000
  | registers device => device.base
  | pifRom => 0x1FC00000
  | pifRam => 0x1FC007C0

def Backing.extent : Backing → Nat
  | rdram => rdramSize
  | cartSave => saveWindow
  | cartRom => 0xFC00000
  | registers device => device.size
  | pifRom => pifRomSize
  | pifRam => pifRamSize

def Backing.mapping (b : Backing) : Mapping := ⟨b.first, b.first + b.extent, b⟩

/-- The ranges have no address in common. -/
def Mapping.Apart (m m' : Mapping) : Prop := m.limit ≤ m'.first ∨ m'.limit ≤ m.first

instance (m m' : Mapping) : Decidable (m.Apart m') := inferInstanceAs (Decidable (_ ∨ _))

instance : Std.Symm Mapping.Apart := ⟨fun _ _ => Or.symm⟩

variable {b b' : Backing} {m : Mapping} {address offset : Nat}

theorem mem_mappings : m ∈ mappings ↔ m = m.backing.mapping := by
  constructor
  · have hall : ∀ m ∈ mappings, m = m.backing.mapping := by decide
    exact hall m
  · intro hm
    have hall : ∀ b : Backing, b.mapping ∈ mappings := by
      intro b
      cases b with
      | registers device =>
        cases device with
        | _ => decide
      | _ => decide
    rw [hm]
    exact hall m.backing

theorem holds_iff : m.holds address = true ↔ m.first ≤ address ∧ address < m.limit := by
  rw [Mapping.holds, Bool.and_eq_true, decide_eq_true_eq, decide_eq_true_eq]

theorem pairwise_apart : mappings.Pairwise Mapping.Apart := by decide

/-- Of ranges that are apart from each other at most one holds an address. -/
theorem countP_holds_le_one {table : List Mapping} (ht : table.Pairwise Mapping.Apart) (address : Nat) :
    table.countP (·.holds address) ≤ 1 := by
  induction ht with
  | nil => exact Nat.zero_le 1
  | @cons m rest hm _ ih =>
    rw [List.countP_cons]
    split
    · rename_i hh
      have hrest : rest.countP (·.holds address) = 0 := by
        rw [List.countP_eq_zero]
        intro m' hm' hh'
        have hapart := hm m' hm'
        rw [holds_iff] at hh hh'
        rw [Mapping.Apart] at hapart
        omega
      exact Nat.le_of_eq (congrArg (· + 1) hrest)
    · exact ih

/-- A range holds the four bytes of a word, or none of them. -/
theorem holds_word_iff (hm : m ∈ mappings) (ha : address % 4 = 0) {i : Nat} (hi : i < 4) :
    m.holds (address + i) = true ↔ m.holds address = true := by
  have hwords : ∀ m ∈ mappings, m.first % 4 = 0 ∧ m.limit % 4 = 0 := by decide
  have hm := hwords m hm
  rw [holds_iff, holds_iff]
  omega

/-- The four bytes of a word lie in one range, or none of them in any. -/
theorem word_in_one_range (ha : address % 4 = 0) :
    (∃ m ∈ mappings, ∀ i < 4, m.holds (address + i) = true) ∨
      ∀ m ∈ mappings, ∀ i < 4, ¬ m.holds (address + i) = true := by
  by_cases h : ∃ m ∈ mappings, m.holds address = true
  · obtain ⟨m, hm, hh⟩ := h
    exact .inl ⟨m, hm, fun i hi => (holds_word_iff hm ha hi).mpr hh⟩
  · exact .inr fun m hm i hi hh => h ⟨m, hm, (holds_word_iff hm ha hi).mp hh⟩

private theorem find_mapping (hm : m ∈ mappings) (hh : m.holds address = true) :
    mappings.find? (·.holds address) = some m := by
  cases hf : mappings.find? (·.holds address) with
  | none => exact absurd hh (List.find?_eq_none.mp hf m hm)
  | some m' =>
    have hh' := List.find?_some hf
    rw [holds_iff] at hh hh'
    by_cases heq : m = m'
    · rw [heq]
    · have hapart := pairwise_apart.forall hm (List.mem_of_find?_eq_some hf) heq
      rw [Mapping.Apart] at hapart
      omega

theorem resolve_eq_some_iff :
    resolve address = some (b, offset) ↔ address = b.first + offset ∧ offset < b.extent := by
  rw [resolve, Option.map_eq_some_iff]
  constructor
  · rintro ⟨m, hf, hm⟩
    have hh := List.find?_some hf
    rw [holds_iff] at hh
    have heq := mem_mappings.mp (List.mem_of_find?_eq_some hf)
    rw [Prod.mk.injEq] at hm
    obtain ⟨rfl, rfl⟩ := hm
    have hfirst : m.first = m.backing.first := congrArg Mapping.first heq
    have hlimit : m.limit = m.backing.first + m.backing.extent := congrArg Mapping.limit heq
    omega
  · rintro ⟨rfl, ho⟩
    have hh : b.mapping.holds (b.first + offset) = true :=
      holds_iff.mpr ⟨Nat.le_add_right _ _, Nat.add_lt_add_left ho _⟩
    refine ⟨b.mapping, find_mapping (mem_mappings.mpr rfl) hh, ?_⟩
    rw [Backing.mapping, Nat.add_sub_cancel_left]

end ConsoleBridge.Bus

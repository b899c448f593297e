import ConsoleBridge.Proofs.Bus.FlatMemory

/-!
# What a write does to the serial interface and its interrupt line

A write of any width reaches one register of the serial interface or none at all. Each case is told once, by
the console that it leaves.
-/
namespace ConsoleBridge

open Bytes Bus

/-- The physical word in which the serial interface keeps its address in main memory. -/
def dramWord : Nat := 0x04800000

def fromPifWord : Nat := 0x04800004

def toPifWord : Nat := 0x04800010

def statusWord : Nat := 0x04800018

def serialWords : List Nat := [dramWord, fromPifWord, toPifWord, statusWord]

def Write.target (w : Write) : Nat := wordOfAddress w.address

namespace Console

variable {c : Console} {w : Write} {v : UInt32} {backing : Backing} {offset : Nat}

/-- What a write leaves, as far as the serial interface and the interrupt lines are concerned. -/
inductive SerialStep (c : Console) (w : Write) : Console → Prop
  | dram (v : UInt32) (hw : w.target = dramWord) :
      SerialStep c w { c with si := { c.si with dramAddress := v &&& dramMask } }
  | fromPif (v : UInt32) (hw : w.target = fromPifWord) :
      SerialStep c w (c.transferred (.fromPif c.si.dramAddress.toNat) v)
  | toPif (v : UInt32) (hw : w.target = toPifWord) :
      SerialStep c w (c.transferred (.toPif c.si.dramAddress.toNat) v)
  | status (hw : w.target = statusWord) :
      SerialStep c w
        { c with
          si := { c.si with status := c.si.status &&& ~~~SerialInterface.interruptBit }
          mi := c.mi.lower InterruptController.serialLine }
  | apart {c' : Console} (hw : w.target ∉ serialWords) (hsi : c'.si = c.si)
      (hlines : c'.mi.lines = c.mi.lines) : SerialStep c w c'

theorem mem_serialWords_iff :
    w.target ∈ serialWords ↔ ∃ offset ∈ serialOffsets, wordAt? w.address = some (.registers .si, offset) := by
  constructor
  · intro hw
    simp only [serialWords, List.mem_cons, List.not_mem_nil, or_false] at hw
    rcases hw with hw | hw | hw | hw
    · exact ⟨0x00, by decide, wordAt?_eq_some_iff.mpr ⟨hw, by decide⟩⟩
    · exact ⟨0x04, by decide, wordAt?_eq_some_iff.mpr ⟨hw, by decide⟩⟩
    · exact ⟨0x10, by decide, wordAt?_eq_some_iff.mpr ⟨hw, by decide⟩⟩
    · exact ⟨0x18, by decide, wordAt?_eq_some_iff.mpr ⟨hw, by decide⟩⟩
  · rintro ⟨offset, ho, hat⟩
    have hw : w.target = dramWord + offset := (wordAt?_eq_some_iff.mp hat).1
    have hall : ∀ offset ∈ serialOffsets, dramWord + offset ∈ serialWords := by decide
    exact hw ▸ hall offset ho

/-- A write goes to what answers for its word. -/
theorem perform_of_wordAt? (hat : wordAt? w.address = some (backing, offset)) :
    c.perform w = c.writeBacking backing offset (patch (c.read32 w.address) w.lane?) := by
  rw [perform_eq, write32, hat]

private theorem lines_write (m : InterruptController) : (m.write offset v).lines = m.lines := by
  unfold InterruptController.write
  split
  · rfl
  · rfl
  · rfl

private theorem writeBacking_apart (hb : backing ≠ .registers .si) :
    (c.writeBacking backing offset v).si = c.si ∧
      (c.writeBacking backing offset v).mi.lines = c.mi.lines := by
  cases backing with
  | registers device =>
    cases device with
    | si => exact absurd rfl hb
    | mi => exact ⟨rfl, lines_write c.mi⟩
    | _ => exact ⟨rfl, rfl⟩
  | _ => exact ⟨rfl, rfl⟩

/-- A write to any other word leaves the serial interface and the lines. -/
theorem perform_apart (hw : w.target ∉ serialWords) :
    (c.perform w).si = c.si ∧ (c.perform w).mi.lines = c.mi.lines := by
  cases hat : wordAt? w.address with
  | none =>
    rw [perform_eq, write32, hat]
    exact ⟨rfl, rfl⟩
  | some p =>
    obtain ⟨backing, offset⟩ := p
    rw [perform_of_wordAt? hat]
    by_cases hb : backing = .registers .si
    · subst hb
      have ho : offset ∉ serialOffsets := fun ho => hw (mem_serialWords_iff.mpr ⟨offset, ho, hat⟩)
      rw [writeBacking, writeRegister, writeSerial_other ho]
      exact ⟨rfl, rfl⟩
    · exact writeBacking_apart hb

/-- Every write is one of these steps. -/
theorem serialStep_perform (c : Console) (w : Write) : SerialStep c w (c.perform w) := by
  by_cases hw : w.target ∈ serialWords
  · obtain ⟨offset, ho, hat⟩ := mem_serialWords_iff.mp hw
    have htarget := (wordAt?_eq_some_iff.mp hat).1
    rw [perform_of_wordAt? hat]
    simp only [serialOffsets, List.mem_cons, List.not_mem_nil, or_false] at ho
    rcases ho with rfl | rfl | rfl | rfl
    · exact .dram _ htarget
    · exact .fromPif _ htarget
    · exact .toPif _ htarget
    · exact .status htarget
  · obtain ⟨hsi, hlines⟩ := perform_apart (c := c) hw
    exact .apart hw hsi hlines

/-- The serial interface keeps an address in main memory that its mask does not change. -/
def Masked (c : Console) : Prop := c.si.dramAddress &&& dramMask = c.si.dramAddress

theorem SerialStep.masked {c' : Console} (hs : SerialStep c w c') (hc : c.Masked) : c'.Masked := by
  cases hs with
  | dram v hw =>
    rw [Masked, UInt32.and_assoc, UInt32.and_self]
  | fromPif v hw =>
    rw [Masked, dramAddress_transferred]
    exact hc
  | toPif v hw =>
    rw [Masked, dramAddress_transferred]
    exact hc
  | status hw => exact hc
  | apart hw hsi hlines =>
    rw [Masked, hsi]
    exact hc

theorem Masked.apply (hc : c.Masked) (o : Operation) : (c.apply o).Masked := by
  cases o with
  | write w => exact (serialStep_perform c w).masked hc
  | reset => exact UInt32.zero_and
  | _ => exact hc

theorem masked_new (k : Cartridge) : (new k).Masked := UInt32.zero_and

theorem Reachable.masked (hc : Reachable c) : c.Masked := by
  induction hc with
  | absent => exact masked_new _
  | plugged image saveSize => exact masked_new _
  | apply hc o ih => exact ih.apply o

/-- The address is that of a word of main memory. -/
theorem Masked.bounds (hc : c.Masked) :
    c.si.dramAddress.toNat % 4 = 0 ∧ c.si.dramAddress.toNat < 0x800000 := by
  have hand : c.si.dramAddress.toNat = c.si.dramAddress.toNat &&& 0x7FFFFC :=
    (congrArg UInt32.toNat hc).symm.trans (UInt32.toNat_and ..)
  have hmod := Nat.and_mod_two_pow (a := c.si.dramAddress.toNat) (b := 0x7FFFFC) (n := 2)
  have hle : c.si.dramAddress.toNat &&& 0x7FFFFC ≤ 0x7FFFFC := Nat.and_le_right
  rw [← hand] at hmod hle
  refine ⟨?_, by omega⟩
  rw [show (4 : Nat) = 2 ^ 2 from rfl, hmod]
  exact Nat.and_zero _

end Console

end ConsoleBridge

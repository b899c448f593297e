import ConsoleBridge.Proofs.Bus.Devices
import ConsoleBridge.Proofs.Bus.Serial
import ConsoleBridge.Proofs.Bus.Writes
import ConsoleBridge.SaveState.Basic

/-!
# The states that a console can come to

A console is built with an empty slot or a cartridge and then changed by operations from outside. Whatever
these are, its memories and register blocks keep the sizes they were built with, and the cartridge its ROM.
-/
namespace ConsoleBridge

open Bytes Bus

/-- An operation from outside that changes a console. -/
inductive Operation
  | write (w : Write)
  | setController (player : Nat) (state : ControllerState)
  | loadPifRom (data : ByteArray)
  | setState (m : MemoryState)
  | reset

namespace Console

def apply (c : Console) : Operation → Console
  | .write w => c.perform w
  | .setController player state => c.setController player state
  | .loadPifRom data => c.loadPifRom data
  | .setState m => c.setState m
  | .reset => c.reset

/-- The consoles that operations lead to from a new one. -/
inductive Reachable : Console → Prop
  | absent : Reachable (.new .absent)
  | plugged (image : ByteArray) (saveSize : Option Nat) : Reachable (.new (.ofRom image saveSize))
  | apply {c} (hc : Reachable c) (o : Operation) : Reachable (c.apply o)

/-- The sizes of the memories and register blocks of a console. -/
structure Sizes where
  rdram : Nat
  pifRom : Nat
  pifRam : Nat
  vi : Nat
  ai : Nat
  pi : Nat
  ri : Nat
  save : Option Nat

def sizes (c : Console) : Sizes where
  rdram := c.rdram.size
  pifRom := c.pifRom.size
  pifRam := c.pifRam.size
  vi := c.vi.size
  ai := c.ai.size
  pi := c.pi.size
  ri := c.ri.size
  save := c.cartridge.save?.map ByteArray.size

/-- The sizes of a console as it is built, with so much save memory. -/
def builtSizes (save : Option Nat) : Sizes :=
  ⟨rdramSize, pifRomSize, pifRamSize, Device.vi.size, Device.ai.size, Device.pi.size, Device.ri.size, save⟩

variable {c : Console} {v : UInt32}

theorem sizes_transferred (transfer : Transfer) : (c.transferred transfer v).sizes = c.sizes := by
  cases transfer with
  | toPif start =>
    rw [transferred_toPif]
    simp only [sizes, size_copy]
  | fromPif start =>
    rw [transferred_fromPif]
    simp only [sizes, size_paste, size_answerCommands]

theorem sizes_writeSerial (offset : Nat) : (c.writeSerial offset v).sizes = c.sizes := by
  by_cases ho : offset ∈ serialOffsets
  · simp only [serialOffsets, List.mem_cons, List.not_mem_nil, or_false] at ho
    rcases ho with rfl | rfl | rfl | rfl
    · rfl
    · exact sizes_transferred _
    · exact sizes_transferred _
    · rfl
  · rw [writeSerial_other ho]

theorem sizes_writeBacking (backing : Backing) (offset : Nat) :
    (c.writeBacking backing offset v).sizes = c.sizes := by
  cases backing with
  | rdram => simp only [writeBacking, sizes, size_storeWord]
  | cartSave =>
    have hsave := Cartridge.map_size_mapSave c.cartridge fun b => @size_storeWord b offset v
    simp only [writeBacking, sizes, Cartridge.writeSave, hsave]
  | cartRom => rfl
  | registers device =>
    cases device with
    | vi => simp only [writeBacking, writeRegister, sizes, RegisterBlock.size_write]
    | ai => simp only [writeBacking, writeRegister, sizes, RegisterBlock.size_write]
    | pi => simp only [writeBacking, writeRegister, sizes, RegisterBlock.size_write]
    | ri => simp only [writeBacking, writeRegister, sizes, RegisterBlock.size_write]
    | si => exact sizes_writeSerial offset
    | mi => rfl
  | pifRom => rfl
  | pifRam => simp only [writeBacking, sizes, size_storeWord]

theorem sizes_write32 (address : UInt32) : (c.write32 address v).sizes = c.sizes := by
  rw [write32]
  split
  · exact sizes_writeBacking _ _
  · rfl

theorem sizes_perform (w : Write) : (c.perform w).sizes = c.sizes := by
  rw [perform_eq, sizes_write32]

/-- No operation changes a size. -/
theorem sizes_apply (o : Operation) : (c.apply o).sizes = c.sizes := by
  cases o with
  | write w => exact sizes_perform w
  | setController player state => rfl
  | loadPifRom data => simp only [apply, loadPifRom, sizes, size_paste]
  | setState m =>
    obtain ⟨rdram, cartridgeRam⟩ := m
    cases cartridgeRam with
    | none => simp only [apply, setState, sizes, size_fit]
    | some save =>
      have hsave := Cartridge.map_size_mapSave c.cartridge fun b => size_fit b.size save
      simp only [apply, setState, sizes, size_fit, Cartridge.loadSave, hsave]
  | reset => simp only [apply, reset, sizes, size_zeros, RegisterBlock.size_reset, Cartridge.reset]

theorem image?_writeSerial (offset : Nat) :
    (c.writeSerial offset v).cartridge.image? = c.cartridge.image? := by
  by_cases ho : offset ∈ serialOffsets
  · simp only [serialOffsets, List.mem_cons, List.not_mem_nil, or_false] at ho
    rcases ho with rfl | rfl | rfl | rfl
    · rfl
    · rfl
    · rfl
    · rfl
  · rw [writeSerial_other ho]

theorem image?_writeBacking (backing : Backing) (offset : Nat) :
    (c.writeBacking backing offset v).cartridge.image? = c.cartridge.image? := by
  cases backing with
  | cartSave => exact Cartridge.image?_mapSave ..
  | registers device =>
    cases device with
    | si => exact image?_writeSerial offset
    | _ => rfl
  | _ => rfl

/-- No operation changes the ROM of the cartridge. -/
theorem image?_apply (o : Operation) : (c.apply o).cartridge.image? = c.cartridge.image? := by
  cases o with
  | write w =>
    rw [apply, perform_eq, write32]
    split
    · exact image?_writeBacking ..
    · rfl
  | setState m =>
    obtain ⟨rdram, cartridgeRam⟩ := m
    cases cartridgeRam with
    | none => rfl
    | some save => exact Cartridge.image?_mapSave ..
  | _ => rfl

theorem sizes_new (k : Cartridge) : (new k).sizes = builtSizes (k.save?.map ByteArray.size) := by
  simp only [new, sizes, builtSizes, size_zeros]
  rfl

theorem Reachable.foldl (hc : Reachable c) (os : List Operation) : Reachable (os.foldl Console.apply c) := by
  induction os generalizing c with
  | nil => exact hc
  | cons o os ih => exact ih (hc.apply o)

/-- A console keeps the sizes it was built with. -/
theorem Reachable.sizes_eq (hc : Reachable c) : ∃ save, c.sizes = builtSizes save := by
  induction hc with
  | absent => exact ⟨_, sizes_new _⟩
  | plugged image saveSize => exact ⟨_, sizes_new _⟩
  | apply hc o ih => exact ih.imp fun save hs => (sizes_apply o).trans hs

end Console

end ConsoleBridge

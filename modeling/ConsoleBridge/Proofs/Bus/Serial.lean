import ConsoleBridge.Bus.Basic
import ConsoleBridge.Proofs.Bus.Replies
import ConsoleBridge.Proofs.Bytes.Latch

/-!
# Writes to the serial interface

A transfer starts again when its register is written again. As it leaves its source as it is and lays the
same bytes over its target, only the address that was written last tells the runs apart.
-/
namespace ConsoleBridge.Console

open Bytes Bus

variable {c : Console} {offset : Nat} {v w : UInt32}

/-- The bits of an address in main memory that the serial interface keeps. -/
def dramMask : UInt32 := 0x7FFFFC

def transferred (c : Console) (transfer : Transfer) (v : UInt32) : Console :=
  ({ c with si := { c.si with pifAddress := v } } : Console).runTransfer transfer

theorem writeSerial_dram : c.writeSerial 0x00 v = { c with si := { c.si with dramAddress := v &&& dramMask } } :=
  rfl

theorem writeSerial_fromPif : c.writeSerial 0x04 v = c.transferred (.fromPif c.si.dramAddress.toNat) v := rfl

theorem writeSerial_toPif : c.writeSerial 0x10 v = c.transferred (.toPif c.si.dramAddress.toNat) v := rfl

theorem writeSerial_status :
    c.writeSerial 0x18 v =
      { c with
        si := { c.si with status := c.si.status &&& ~~~SerialInterface.interruptBit }
        mi := c.mi.lower InterruptController.serialLine } :=
  rfl

def serialOffsets : List Nat := [0x00, 0x04, 0x10, 0x18]

theorem write_other (ho : offset ∉ serialOffsets) (s : SerialInterface) : s.write offset v = (s, none) := by
  unfold SerialInterface.write
  split
  · exact absurd (by decide) ho
  · exact absurd (by decide) ho
  · exact absurd (by decide) ho
  · exact absurd (by decide) ho
  · rfl

theorem writeSerial_other (ho : offset ∉ serialOffsets) : c.writeSerial offset v = c := by
  have hstatus : offset ≠ SerialInterface.statusOffset := fun h => ho (h ▸ by decide)
  rw [writeSerial, if_neg hstatus, write_other ho]

theorem transferred_toPif (start : Nat) :
    c.transferred (.toPif start) v =
      { c with
        pifRam := copy (byte c.rdram) start c.pifRam.size
        si := { c.si with pifAddress := v, status := c.si.status ||| SerialInterface.interruptBit }
        mi := c.mi.raise InterruptController.serialLine } :=
  rfl

theorem transferred_fromPif (start : Nat) :
    c.transferred (.fromPif start) v =
      { c with
        pifRam := answerCommands c.pifRam c.pads
        rdram := paste c.rdram start (answerCommands c.pifRam c.pads)
        si := { c.si with pifAddress := v, status := c.si.status ||| SerialInterface.interruptBit }
        mi := c.mi.raise InterruptController.serialLine } := by
  simp only [transferred, runTransfer, moveBlock, SerialInterface.complete]

theorem or_or_self (x m : UInt32) : x ||| m ||| m = x ||| m := by rw [UInt32.or_assoc, UInt32.or_self]

/-- A transfer that is asked for again moves the same bytes. -/
theorem transferred_transferred (transfer : Transfer) :
    (c.transferred transfer v).transferred transfer w = c.transferred transfer w := by
  cases transfer with
  | toPif start =>
    rw [transferred_toPif, transferred_toPif, transferred_toPif]
    simp only [size_copy, InterruptController.raise, or_or_self]
  | fromPif start =>
    rw [transferred_fromPif, transferred_fromPif, transferred_fromPif]
    simp only [answerCommands_answerCommands, paste_paste, InterruptController.raise, or_or_self]

theorem dramAddress_transferred (transfer : Transfer) :
    (c.transferred transfer v).si.dramAddress = c.si.dramAddress := by
  cases transfer with
  | toPif start => rfl
  | fromPif start => rfl

theorem pifAddress_transferred (transfer : Transfer) : (c.transferred transfer v).si.pifAddress = v := by
  cases transfer with
  | toPif start => rfl
  | fromPif start => rfl

/-- Every register of the serial interface is a latch, what it starts included. -/
theorem latches_serial (c : Console) (offset : Nat) :
    ∃ mask, Latches (fun c x => c.writeSerial offset x) (fun c => c.si.read offset) c mask := by
  by_cases ho : offset ∈ serialOffsets
  · simp only [serialOffsets, List.mem_cons, List.not_mem_nil, or_false] at ho
    rcases ho with rfl | rfl | rfl | rfl
    · refine ⟨dramMask, fun x y => rfl, fun x => ?_, fun x => ?_⟩
      · rw [writeSerial_dram, writeSerial_dram, UInt32.and_assoc, UInt32.and_self]
      · exact (UInt32.and_assoc ..).trans (congrArg _ (UInt32.and_self ..))
    · refine ⟨_, latches_of_read (fun x y => ?_) fun x => pifAddress_transferred _⟩
      rw [writeSerial_fromPif, writeSerial_fromPif, dramAddress_transferred, transferred_transferred]
      rfl
    · refine ⟨_, latches_of_read (fun x y => ?_) fun x => pifAddress_transferred _⟩
      rw [writeSerial_toPif, writeSerial_toPif, dramAddress_transferred, transferred_transferred]
      rfl
    · refine ⟨_, latches_of_const (fun x y => rfl) fun x => ?_⟩
      rw [writeSerial_status, writeSerial_status]
      simp only [InterruptController.lower, UInt32.and_assoc, UInt32.and_self]
  · exact ⟨_, latches_of_inert fun x => writeSerial_other ho⟩

end ConsoleBridge.Console

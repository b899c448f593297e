import ConsoleBridge.Bus.Basic
import ConsoleBridge.Proofs.Bytes.Latch

/-!
# What a device holds after a write

Register blocks, the interrupt controller and the cartridge's save memory by themselves: each word is a latch,
and the words of one device do not disturb each other.
-/
namespace ConsoleBridge

open Bytes

variable {o o' : Nat} {v : UInt32}

namespace Bus

theorem read_write_block {m : RegisterBlock} (ho : o < m.size) (ha : o % 4 = 0)
    (ha' : o' % 4 = 0) : (m.write o v).read o' = if o' = o then v else m.read o' := by
  rw [RegisterBlock.size] at ho
  simp only [RegisterBlock.write, RegisterBlock.read, Array.getD_eq_getD_getElem?]
  by_cases h : o' = o
  · rw [if_pos h, h, Array.getElem?_setIfInBounds_self_of_lt (by omega)]
    rfl
  · rw [if_neg h, Array.getElem?_setIfInBounds_ne (by omega)]

theorem latches_block (b : RegisterBlock) (offset : Nat) :
    ∃ mask, Latches (fun b x => RegisterBlock.write b offset x) (fun b => b.read offset) b mask := by
  by_cases ho : offset / 4 < b.words.size
  · refine ⟨_, latches_of_read (fun x y => ?_) fun x => ?_⟩
    · simp [RegisterBlock.write]
    · simp [RegisterBlock.write, RegisterBlock.read, ho]
  · refine ⟨_, latches_of_inert fun x => ?_⟩
    simp [RegisterBlock.write, Array.setIfInBounds_eq_of_size_le (Nat.not_lt.mp ho)]

theorem write_of_read_only {m : InterruptController} (ho : ¬ (o = 0x0 ∨ o = 0xC)) :
    m.write o v = m := by
  unfold InterruptController.write
  split
  · exact absurd (.inl rfl) ho
  · exact absurd (.inr rfl) ho
  · rfl

theorem read_write_interrupts {m : InterruptController} (ho : o = 0x0 ∨ o = 0xC) :
    (m.write o v).read o' = if o' = o then v else m.read o' := by
  by_cases h : o' = o
  · rw [if_pos h, h]
    rcases ho with rfl | rfl
    · rfl
    · rfl
  · rw [if_neg h]
    rcases ho with rfl | rfl
    · unfold InterruptController.read
      split
      · exact absurd rfl h
      · rfl
      · rfl
      · rfl
      · rfl
    · unfold InterruptController.read
      split
      · rfl
      · rfl
      · rfl
      · exact absurd rfl h
      · rfl

theorem latches_interrupts (m : InterruptController) (offset : Nat) :
    ∃ mask, Latches (fun m x => InterruptController.write m offset x) (fun m => m.read offset) m mask := by
  by_cases ho : offset = 0x0 ∨ offset = 0xC
  · refine ⟨_, latches_of_read (fun x y => ?_) fun x => ?_⟩
    · rcases ho with rfl | rfl
      · rfl
      · rfl
    · rw [read_write_interrupts ho, if_pos rfl]
  · exact ⟨_, latches_of_inert fun x => write_of_read_only ho⟩

end Bus

namespace Cartridge

theorem save?_mapSave (k : Cartridge) (f : ByteArray → ByteArray) : (k.mapSave f).save? = k.save?.map f := by
  cases k with
  | absent => rfl
  | rom image save => rfl

theorem image?_mapSave (k : Cartridge) (f : ByteArray → ByteArray) : (k.mapSave f).image? = k.image? := by
  cases k with
  | absent => rfl
  | rom image save => rfl

theorem map_size_mapSave (k : Cartridge) {f : ByteArray → ByteArray} (hf : ∀ b, (f b).size = b.size) :
    (k.mapSave f).save?.map ByteArray.size = k.save?.map ByteArray.size := by
  rw [save?_mapSave, Option.map_map]
  congr 1
  exact funext hf

theorem readRom_writeSave (k : Cartridge) : (k.writeSave o v).readRom o' = k.readRom o' := by
  cases k with
  | absent => rfl
  | rom image save => rfl

theorem writeSave_of_short {k : Cartridge} (hs : ¬ o + 4 ≤ (k.save?.map ByteArray.size).getD 0) :
    k.writeSave o v = k := by
  cases k with
  | absent => rfl
  | rom image save =>
    cases save with
    | none => rfl
    | some save => exact congrArg (fun s => Cartridge.rom image (some s)) (storeWord_of_short hs)

theorem readSave_writeSave {k : Cartridge}
    (hs : o + 4 ≤ (k.save?.map ByteArray.size).getD 0) (ha : o % 4 = 0) (ha' : o' % 4 = 0) :
    (k.writeSave o v).readSave o' = if o' = o then v else k.readSave o' := by
  cases k with
  | absent => exact absurd hs (by simp [Cartridge.save?])
  | rom image save =>
    cases save with
    | none => exact absurd hs (by simp [Cartridge.save?])
    | some save => exact loadWord_storeWord_aligned hs ha ha'

theorem latches_save (c : Cartridge) (offset : Nat) :
    ∃ mask, Latches (fun c x => writeSave c offset x) (fun c => c.readSave offset) c mask := by
  cases hs : c.save? with
  | none => exact ⟨_, latches_of_inert fun x => writeSave_of_short (by simp [hs])⟩
  | some save =>
    cases c with
    | absent => cases hs
    | rom image save' =>
      obtain rfl : save' = some save := hs
      obtain ⟨mask, hl⟩ := latches_storage save offset
      refine ⟨mask, fun x y => ?_, fun x => ?_, fun x => hl.holds x⟩
      · exact congrArg (fun s => rom image (some s)) (hl.last x y)
      · exact congrArg (fun s => rom image (some s)) (hl.masked x)

end Cartridge

end ConsoleBridge

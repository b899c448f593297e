import ConsoleBridge.Proofs.Bus.AccessWidth
import ConsoleBridge.Proofs.Bus.Reachable
import ConsoleBridge.Proofs.Bus.Table

/-!
# Every word stands alone

Apart from the registers of the serial interface, a word either takes what is written to it, and then no other
word changes, or a write to it changes nothing at all.
-/
namespace ConsoleBridge.Console

open Bytes Bus

/-- Does the word of a backing at `offset` take what is written to it, with so much save memory? -/
def Takes (save : Option Nat) : Backing → Nat → Prop
  | .rdram, _ => True
  | .cartSave, offset => offset + 4 ≤ save.getD 0
  | .cartRom, _ => False
  | .registers device, offset => device = .mi → offset = 0x0 ∨ offset = 0xC
  | .pifRom, _ => False
  | .pifRam, _ => True

variable {c : Console} {b b' : Backing} {offset offset' : Nat} {v : UInt32} {save : Option Nat}

theorem readBacking_writeBacking_of_ne (hb : b' ≠ b) (hsi : b ≠ .registers .si) :
    (c.writeBacking b offset v).readBacking b' offset' = c.readBacking b' offset' := by
  cases b with
  | rdram =>
    cases b' with
    | rdram => exact absurd rfl hb
    | _ => rfl
  | cartSave =>
    cases b' with
    | cartSave => exact absurd rfl hb
    | cartRom => exact Cartridge.readRom_writeSave c.cartridge
    | _ => rfl
  | cartRom => rfl
  | registers device =>
    cases device with
    | si => exact absurd rfl hsi
    | _ =>
      cases b' with
      | registers device' =>
        cases device' with
        | _ => first | rfl | exact absurd rfl hb
      | _ => rfl
  | pifRom => rfl
  | pifRam =>
    cases b' with
    | pifRam => exact absurd rfl hb
    | _ => rfl

/-- The words that share a backing do not disturb each other, and one that takes writes holds the last. -/
theorem readBacking_writeBacking_self (hc : c.sizes = builtSizes save) (ht : Takes save b offset)
    (hsi : b ≠ .registers .si) (ho : offset < b.extent) (ha : offset % 4 = 0) (ha' : offset' % 4 = 0) :
    (c.writeBacking b offset v).readBacking b offset' = if offset' = offset then v else c.readBacking b offset' := by
  cases b with
  | rdram =>
    have hsize : c.rdram.size = 0x800000 := congrArg Sizes.rdram hc
    have hextent : offset < 0x800000 := ho
    exact loadWord_storeWord_aligned (by omega) ha ha'
  | cartSave =>
    have hsave : c.cartridge.save?.map ByteArray.size = save := congrArg Sizes.save hc
    exact Cartridge.readSave_writeSave (hsave ▸ ht) ha ha'
  | cartRom => exact absurd ht id
  | registers device =>
    cases device with
    | vi => exact read_write_block (Nat.lt_of_lt_of_eq ho (congrArg Sizes.vi hc).symm) ha ha'
    | ai => exact read_write_block (Nat.lt_of_lt_of_eq ho (congrArg Sizes.ai hc).symm) ha ha'
    | pi => exact read_write_block (Nat.lt_of_lt_of_eq ho (congrArg Sizes.pi hc).symm) ha ha'
    | ri => exact read_write_block (Nat.lt_of_lt_of_eq ho (congrArg Sizes.ri hc).symm) ha ha'
    | si => exact absurd rfl hsi
    | mi => exact read_write_interrupts (ht rfl)
  | pifRom => exact absurd ht id
  | pifRam =>
    have hsize : c.pifRam.size = 0x40 := congrArg Sizes.pifRam hc
    have hextent : offset < 0x40 := ho
    exact loadWord_storeWord_aligned (by omega) ha ha'

/-- A write to a word that takes none changes nothing. -/
theorem writeBacking_of_not_takes (hc : c.sizes = builtSizes save) (ht : ¬ Takes save b offset)
    (hsi : b ≠ .registers .si) : c.writeBacking b offset v = c := by
  cases b with
  | rdram => exact absurd trivial ht
  | cartSave =>
    have hsave : c.cartridge.save?.map ByteArray.size = save := congrArg Sizes.save hc
    rw [writeBacking, Cartridge.writeSave_of_short (hsave ▸ ht)]
  | cartRom => rfl
  | registers device =>
    cases device with
    | si => exact absurd rfl hsi
    | mi =>
      rw [writeBacking, writeRegister, write_of_read_only fun h => ht fun _ => h]
    | _ => simp [Takes] at ht
  | pifRom => rfl
  | pifRam => exact absurd trivial ht

end ConsoleBridge.Console

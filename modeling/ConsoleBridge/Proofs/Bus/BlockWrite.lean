import Mathlib.Data.List.Induction
import ConsoleBridge.Proofs.Bus.BlockRead

/-!
# A block written to the peripheral interface

The block is what is seen in main memory from the address of the serial interface on, with zeros behind the end
of main memory. So a block that was read, and that nothing writes to in main memory since, is brought back, and
what lay behind the end is lost.
-/
namespace ConsoleBridge

open Bytes Bus

namespace Bus

variable {b : ByteArray} {i start length : Nat}

/-- Bytes that are copied from a word boundary are seen in their order. -/
theorem seen_copy (ha : start % 4 = 0) (hlength : length % 4 = 0) (hi : i < length) :
    seen (copy (byte b) start length) i = seen b (start + i) := by
  have hlane := lane_eq i
  have hshifted := lane_eq (start + i)
  rw [seen, byte_copy (by omega), seen]
  exact congrArg (byte b) (by omega)

private theorem seen_of_le (hb : b.size % 4 = 0) (hi : b.size ≤ i) : seen b i = 0 := by
  have hlane := lane_eq i
  exact byte_of_le (by omega)

private theorem ext_seen {a : ByteArray} (hs : a.size = b.size) (ha : a.size % 4 = 0)
    (h : ∀ i < a.size, seen a i = seen b i) : a = b := by
  apply ext_byte hs
  intro i hi
  have hlane := lane_eq i
  rw [byte_eq_seen, byte_eq_seen]
  exact h _ (by omega)

end Bus

/-- The operation sets a controller, or writes to a word that is no register of the serial interface and not one
of main memory among the 64 bytes from `start` on. -/
def Operation.Aside (start : Nat) : Operation → Prop
  | .setController _ _ => True
  | .write w => w.target ∉ serialWords ∧ ¬ (start ≤ w.target ∧ w.target < start + 64 ∧ w.target < 0x800000)
  | _ => False

instance (start : Nat) (o : Operation) : Decidable (o.Aside start) :=
  match o with
  | .setController _ _ => inferInstanceAs (Decidable True)
  | .write _ => inferInstanceAs (Decidable (_ ∧ _))
  | .loadPifRom _ | .setState _ | .reset => inferInstanceAs (Decidable False)

namespace Console

variable {c c' c'' : Console} {w out back : Write} {v : UInt32} {i j : Nat}

/-- What a block write leaves: the block in the memory of the peripheral interface, and everything else untouched
but for the signs that the transfer is done. -/
structure BlockWrite (c c' : Console) : Prop where
  filled : ∀ i < 64, c'.pifByte i =
    if c.si.dramAddress.toNat + i < 0x800000 then c.ramByte (c.si.dramAddress.toNat + i) else 0
  rest : c' = { c with pifRam := c'.pifRam, si := c'.si, mi := c'.mi }

/-- The transfer into the peripheral interface is a block write. -/
theorem blockWrite_transferred (hpif : c.pifRam.size = 64) (hram : c.rdram.size = 0x800000)
    (ha : c.si.dramAddress.toNat % 4 = 0) :
    c.BlockWrite (c.transferred (.toPif c.si.dramAddress.toNat) v) where
  filled i hi := by
    have hcopied : (c.transferred (.toPif c.si.dramAddress.toNat) v).pifByte i =
        seen c.rdram (c.si.dramAddress.toNat + i) := by
      rw [transferred_toPif, pifByte_eq (by rw [size_copy, hpif]) hi]
      exact seen_copy ha (by rw [hpif]) (by rw [hpif]; exact hi)
    rw [hcopied]
    split
    · rename_i hin
      exact (ramByte_eq hram hin).symm
    · exact seen_of_le (by rw [hram]) (by rw [hram]; omega)
  rest := by rw [transferred_toPif]

/-- Between the registers of the serial interface a write does nothing. -/
theorem perform_between (ha : AtSerial w.address) (hw : w.target ∉ serialWords) : c.perform w = c := by
  have hat : wordAt? w.address = some (.registers .si, w.target - dramWord) := by
    rw [wordAt?_eq_some_iff]
    simp only [AtSerial, Write.target, wordOfAddress, wordBase, dramWord, Backing.first, Backing.extent, Device.base,
      Device.size] at ha ⊢
    omega
  have ho : w.target - dramWord ∉ serialOffsets := fun ho => hw (mem_serialWords_iff.mpr ⟨_, ho, hat⟩)
  rw [perform_of_wordAt? hat, writeBacking, writeRegister, writeSerial_other ho]

/-- A write to another word leaves a byte of main memory. -/
theorem ramByte_perform {save : Option Nat} (hc : c.sizes = builtSizes save) (hw : w.target ∉ serialWords)
    (hj : j < 0x800000) (hne : ¬ (w.target ≤ j ∧ j < w.target + 4)) : (c.perform w).ramByte j = c.ramByte j := by
  by_cases ha : AtSerial w.address
  · rw [perform_between ha hw]
  · have hother : wordOfAddress (UInt32.ofNat j) ≠ wordOfAddress w.address := by
      have htoNat : (UInt32.ofNat j).toNat = j := by rw [UInt32.toNat_ofNat', Nat.mod_eq_of_lt (by omega)]
      have hword : wordOfAddress (UInt32.ofNat j) = j - j % 4 := by
        rw [wordOfAddress, physical, htoNat, if_neg (by omega), wordBase]
      rw [hword]
      rw [Write.target] at hne
      omega
    have hread : (c.perform w).read32 (UInt32.ofNat j) = c.read32 (UInt32.ofNat j) := by
      rw [perform_eq]
      by_cases hn : Writable (save.getD 0) (wordOfAddress w.address)
      · rw [read32_write32 hc ha hn, if_neg hother]
      · rw [write32_of_not_writable hc ha hn]
    rw [ramByte, ramByte, read8_eq, read8_eq, hread]

/-- What of a console a block write goes by: the address of the serial interface and the block there in main
memory. -/
structure SameBlock (c c' : Console) : Prop where
  address : c'.si.dramAddress = c.si.dramAddress
  sizes : c'.sizes = c.sizes
  block : ∀ i < 64, c.si.dramAddress.toNat + i < 0x800000 →
    c'.ramByte (c.si.dramAddress.toNat + i) = c.ramByte (c.si.dramAddress.toNat + i)

theorem SameBlock.refl (c : Console) : c.SameBlock c := ⟨rfl, rfl, fun _ _ _ => rfl⟩

/-- An operation aside leaves the block as it is. -/
theorem SameBlock.apply (hs : c.SameBlock c') {save : Option Nat} (hc : c.sizes = builtSizes save)
    (hd : c.si.dramAddress.toNat % 4 = 0) {o : Operation} (ho : o.Aside c.si.dramAddress.toNat) :
    c.SameBlock (c'.apply o) := by
  cases o with
  | setController player state => exact ⟨hs.address, hs.sizes, hs.block⟩
  | write w =>
    obtain ⟨hw, hout⟩ := ho
    have htarget : w.target % 4 = 0 := wordOfAddress_mod w.address
    have hsi : (c'.perform w).si.dramAddress = c'.si.dramAddress := congrArg _ (perform_apart hw).1
    refine ⟨hsi.trans hs.address, (sizes_perform w).trans hs.sizes, fun i hi hin => ?_⟩
    refine (ramByte_perform (hs.sizes.trans hc) hw hin ?_).trans (hs.block i hi hin)
    omega
  | _ => exact ho.elim

/-- A run of them does so too. -/
theorem SameBlock.run {save : Option Nat} (hc : c.sizes = builtSizes save)
    (hd : c.si.dramAddress.toNat % 4 = 0) {os : List Operation}
    (hos : ∀ o ∈ os, o.Aside c.si.dramAddress.toNat) : c.SameBlock (os.foldl Console.apply c) := by
  induction os using List.reverseRecOn with
  | nil => exact .refl c
  | append_singleton os o ih =>
    rw [List.foldl_append]
    have hs := ih fun o' ho' => hos o' (List.mem_append_left [o] ho')
    exact hs.apply hc hd (hos o (List.mem_append_right os (List.mem_singleton_self o)))

/-- What a block write brings back of the block that was read from `c` and left in `c'`. -/
structure Restores (c c' c'' : Console) : Prop where
  block : ∀ i < 64, c''.pifByte i = if c.si.dramAddress.toNat + i < 0x800000 then c'.pifByte i else 0
  whole : c.si.dramAddress.toNat + 64 ≤ 0x800000 → c''.pifRam = c'.pifRam
  state : c.si.dramAddress.toNat + 64 ≤ 0x800000 → ∀ p s, c.controller? p = some s → c.pifByte (8 * p) = 0x01 →
    [c''.pifByte (8 * p + 1), c''.pifByte (8 * p + 2), c''.pifByte (8 * p + 3), c''.pifByte (8 * p + 4)] =
      s.toBytes.toList

private theorem BlockRead.restores (hread : c.BlockRead c') (hpif : c'.pifRam.size = 64) (hpif' : c''.pifRam.size = 64)
    (hblock : ∀ i < 64, c''.pifByte i = if c.si.dramAddress.toNat + i < 0x800000 then c'.pifByte i else 0) :
    Restores c c' c'' := by
  have hsame : c.si.dramAddress.toNat + 64 ≤ 0x800000 → ∀ i < 64, c''.pifByte i = c'.pifByte i := by
    intro hd i hi
    rw [hblock i hi, if_pos (by omega)]
  refine ⟨hblock, fun hd => ?_, fun hd p s hs hcommand => ?_⟩
  · apply ext_seen (hpif'.trans hpif.symm) (by rw [hpif'])
    rw [hpif']
    intro i hi
    rw [← pifByte_eq hpif' hi, ← pifByte_eq hpif hi, hsame hd i hi]
  · have hp : p < 4 := (Vector.getElem?_eq_some_iff.mp hs).1
    rw [hsame hd _ (by omega), hsame hd _ (by omega), hsame hd _ (by omega), hsame hd _ (by omega)]
    exact hread.state p s hs hcommand

theorem blockRead_of_target (hc : Reachable c) (hout : out.target = fromPifWord) : c.BlockRead (c.perform out) := by
  obtain ⟨save, hsizes⟩ := hc.sizes_eq
  have hat : wordAt? out.address = some (.registers .si, 0x04) := wordAt?_eq_some_iff.mpr ⟨hout, by decide⟩
  rw [perform_of_wordAt? hat]
  exact blockRead_transferred (congrArg Sizes.pifRam hsizes) (congrArg Sizes.rdram hsizes) hc.masked.bounds.1

theorem blockWrite_of_target {save : Option Nat} (hc : c.sizes = builtSizes save)
    (hd : c.si.dramAddress.toNat % 4 = 0) (hback : back.target = toPifWord) : c.BlockWrite (c.perform back) := by
  have hat : wordAt? back.address = some (.registers .si, 0x10) := wordAt?_eq_some_iff.mpr ⟨hback, by decide⟩
  rw [perform_of_wordAt? hat]
  exact blockWrite_transferred (congrArg Sizes.pifRam hc) (congrArg Sizes.rdram hc) hd

/-- From a state that the console can come to, a write to the register that starts a block write has the effect of
one. After a block read and a run that leaves the block in main memory alone it brings back what was answered, as
far as main memory reaches, and with it the controllers as they were at the read. -/
theorem blockWrite_perform (hc : Reachable c) (hback : back.target = toPifWord) :
    c.BlockWrite (c.perform back) ∧
      ∀ (out : Write) (os : List Operation), out.target = fromPifWord →
        (∀ o ∈ os, o.Aside c.si.dramAddress.toNat) →
          Restores c (c.perform out) ((os.foldl apply (c.perform out)).perform back) := by
  obtain ⟨save, hsizes⟩ := hc.sizes_eq
  have hd := hc.masked.bounds.1
  refine ⟨blockWrite_of_target hsizes hd hback, fun out os hout hos => ?_⟩
  have hread := blockRead_of_target hc hout
  have hanswered : (c.perform out).sizes = builtSizes save := (sizes_perform out).trans hsizes
  have haddress : (c.perform out).si.dramAddress = c.si.dramAddress := by
    have hat : wordAt? out.address = some (.registers .si, 0x04) := wordAt?_eq_some_iff.mpr ⟨hout, by decide⟩
    rw [perform_of_wordAt? hat]
    exact dramAddress_transferred _
  have hsame : (c.perform out).SameBlock (os.foldl apply (c.perform out)) := by
    apply SameBlock.run hanswered
    · rw [haddress]
      exact hd
    · rw [haddress]
      exact hos
  have hafter := hsame.sizes.trans hanswered
  have hwrite : (os.foldl apply (c.perform out)).BlockWrite ((os.foldl apply (c.perform out)).perform back) := by
    apply blockWrite_of_target hafter _ hback
    rw [hsame.address, haddress]
    exact hd
  apply hread.restores (congrArg Sizes.pifRam hanswered) (congrArg Sizes.pifRam ((sizes_perform back).trans hafter))
  intro i hi
  have hblock := hsame.block i hi
  rw [hwrite.filled i hi, hsame.address]
  rw [haddress] at hblock ⊢
  split
  · rename_i hin
    rw [hblock hin, hread.copied i hi hin]
  · rfl

/-- What happens while the block lies in main memory: the third controller is put to rest, its answer is
overwritten, and the byte in front of the block is written. -/
def meanwhile : List Operation :=
  [.setController 2 (.new ⟨0⟩ 0 0), .write (.word 0xBFC007D0 0xFFFFFFFF), .write (.byte 0x80000FFF 0x55)]

/-- Writing a halfword of the register brings the reply back that the third controller gave before. -/
theorem pifByte_restored :
    Reachable asking ∧ (Write.half 0x84800010 0x0000).target = toPifWord ∧
      (Write.byte 0xA4800006 0x00).target = fromPifWord ∧
      (∀ o ∈ meanwhile, o.Aside asking.si.dramAddress.toNat) ∧
      let restored := (meanwhile.foldl apply (asking.perform (.byte 0xA4800006 0x00))).perform (.half 0x84800010 0x0000)
      [restored.pifByte 0x11, restored.pifByte 0x12, restored.pifByte 0x13, restored.pifByte 0x14] =
        [0x90, 0x08, 0x32, 0xC4] := by
  have hback : (Write.half 0x84800010 0x0000).target = toPifWord := by decide
  have hout : (Write.byte 0xA4800006 0x00).target = fromPifWord := by decide
  have hdram : asking.si.dramAddress.toNat = 0x1000 := by decide +kernel
  have hos : ∀ o ∈ meanwhile, o.Aside asking.si.dramAddress.toNat := by
    rw [hdram]
    decide
  have hrestores := (blockWrite_perform reachable_asking hback).2 _ meanwhile hout hos
  have hstate := hrestores.state (by rw [hdram]; decide) 2 (.new ⟨0x9008⟩ 50 (-60)) (by decide +kernel)
    (by decide +kernel)
  exact ⟨reachable_asking, hback, hout, hos, hstate.trans (by decide)⟩

end Console

end ConsoleBridge

import ConsoleBridge.Proofs.Bus.Words

/-!
# The bus as a flat memory of words

A flat memory holds four bytes for each physical word. Away from the registers of the serial interface the bus
cannot be told from one, whatever is written in whatever widths through whatever segments.
-/
namespace ConsoleBridge

open Bytes Bus

/-- The first physical address of the word that holds an address. -/
def wordOfAddress (address : UInt32) : Nat := wordBase (physical address)

/-- Is the address in the register block of the serial interface? -/
def AtSerial (address : UInt32) : Prop := 0x04800000 ≤ physical address ∧ physical address < 0x0480001C

instance (address : UInt32) : Decidable (AtSerial address) := inferInstanceAs (Decidable (_ ∧ _))

/-- The physical words that take what is written to them, when the cartridge has so many bytes of save
memory. -/
def Writable (save n : Nat) : Prop :=
  n < 0x00800000 ∨
    (0x08000000 ≤ n ∧ n + 4 ≤ 0x08000000 + min save 0x20000) ∨
    (0x04400000 ≤ n ∧ n < 0x04400038) ∨
    (0x04500000 ≤ n ∧ n < 0x04500018) ∨
    (0x04600000 ≤ n ∧ n < 0x04600034) ∨
    (0x04700000 ≤ n ∧ n < 0x04700020) ∨
    n = 0x04300000 ∨ n = 0x0430000C ∨
    (0x1FC007C0 ≤ n ∧ n < 0x1FC00800)

instance (save n : Nat) : Decidable (Writable save n) := inferInstanceAs (Decidable (_ ∨ _))

abbrev FlatMemory := Nat → Fin 4 → UInt8

namespace FlatMemory

/-- Replace the lanes that a write names, if the word takes them. -/
def write (save : Nat) (m : FlatMemory) (w : Write) : FlatMemory := fun n k =>
  if n = wordOfAddress w.address ∧ Writable save n then (w.lane? k).getD (m n k) else m n k

def read32 (m : FlatMemory) (address : UInt32) : UInt32 := ofLanes (m (wordOfAddress address))

def read16 (m : FlatMemory) (address : UInt32) : UInt16 :=
  halfOf (m (wordOfAddress address) (highLane (pairAt address)))
    (m (wordOfAddress address) (lowLane (pairAt address)))

def read8 (m : FlatMemory) (address : UInt32) : UInt8 := m (wordOfAddress address) (laneAt address)

end FlatMemory

namespace Console

/-- The flat memory that starts with the words of a console. -/
def flat (c : Console) : FlatMemory := fun n k => byteOf (c.read32 (UInt32.ofNat n)) k

def saveSize (c : Console) : Nat := c.sizes.save.getD 0

variable {c : Console} {a b : UInt32} {v : UInt32} {save : Option Nat} {m : FlatMemory}

theorem wordOfAddress_mod (a : UInt32) : wordOfAddress a % 4 = 0 := by
  rw [wordOfAddress, wordBase]
  omega

/-- A physical word is its own physical word. -/
theorem wordOfAddress_ofNat (a : UInt32) : wordOfAddress (UInt32.ofNat (wordOfAddress a)) = wordOfAddress a := by
  have ha := a.toNat_lt
  have hn : wordOfAddress a < 2 ^ 32 ∧ ¬ (0x80000000 ≤ wordOfAddress a ∧ wordOfAddress a < 0xC0000000) := by
    simp only [wordOfAddress, wordBase, physical]
    split
    · omega
    · omega
  have hmod := wordOfAddress_mod a
  generalize wordOfAddress a = n at hn hmod ⊢
  have htoNat : (UInt32.ofNat n).toNat = n := by rw [UInt32.toNat_ofNat', Nat.mod_eq_of_lt hn.1]
  rw [wordOfAddress, physical, htoNat, if_neg hn.2, wordBase, hmod, Nat.sub_zero]

theorem first_mod (backing : Backing) : backing.first % 4 = 0 := by
  cases backing with
  | registers device =>
    cases device with
    | _ => rfl
  | _ => rfl

theorem extent_mod (backing : Backing) : backing.extent % 4 = 0 := by
  cases backing with
  | registers device =>
    cases device with
    | _ => rfl
  | _ => rfl

theorem wordAt?_of_eq (h : wordOfAddress b = wordOfAddress a) : wordAt? b = wordAt? a := congrArg resolve h

theorem wordAt?_eq_some_iff {backing : Backing} {offset : Nat} :
    wordAt? a = some (backing, offset) ↔ wordOfAddress a = backing.first + offset ∧ offset < backing.extent :=
  resolve_eq_some_iff

theorem offset_mod {backing : Backing} {offset : Nat} (hw : wordAt? a = some (backing, offset)) :
    offset % 4 = 0 := by
  have hword := (wordAt?_eq_some_iff.mp hw).1
  have hmod := wordOfAddress_mod a
  have hfirst := first_mod backing
  omega

theorem writable_iff_takes {backing : Backing} {offset : Nat} (hw : wordAt? a = some (backing, offset))
    (hsi : backing ≠ .registers .si) :
    Writable (save.getD 0) (wordOfAddress a) ↔ Takes save backing offset := by
  have hmod := offset_mod hw
  obtain ⟨hword, ho⟩ := wordAt?_eq_some_iff.mp hw
  rw [hword, Writable]
  cases backing with
  | registers device =>
    cases device with
    | si => exact absurd rfl hsi
    | _ =>
      simp only [Backing.first, Backing.extent, Device.base, Device.size, Takes, reduceCtorEq, false_implies,
        true_implies, iff_true] at ho ⊢
      omega
  | _ =>
    simp only [Backing.first, Backing.extent, rdramSize, saveWindow, pifRomSize, pifRamSize, Takes, iff_true,
      iff_false] at ho ⊢
    omega

private theorem wordAt?_ne_none (hn : Writable (save.getD 0) (wordOfAddress a)) : wordAt? a ≠ none := by
  intro hw
  have hout : ∀ backing : Backing, backing.first ≤ wordOfAddress a →
      ¬ wordOfAddress a < backing.first + backing.extent := by
    intro backing hle hlt
    have hsome : wordAt? a = some (backing, wordOfAddress a - backing.first) :=
      wordAt?_eq_some_iff.mpr ⟨by omega, by omega⟩
    rw [hw] at hsome
    cases hsome
  have hrdram := hout .rdram
  have hsave := hout .cartSave
  have hvi := hout (.registers .vi)
  have hai := hout (.registers .ai)
  have hpi := hout (.registers .pi)
  have hri := hout (.registers .ri)
  have hmi := hout (.registers .mi)
  have hpif := hout .pifRam
  simp only [Backing.first, Backing.extent, Device.base, Device.size, rdramSize, saveWindow, pifRamSize]
    at hrdram hsave hvi hai hpi hri hmi hpif
  rw [Writable] at hn
  omega

theorem ne_serial_of_not_atSerial {backing : Backing} {offset : Nat} (hw : wordAt? a = some (backing, offset))
    (ha : ¬ AtSerial a) : backing ≠ .registers .si := by
  rintro rfl
  have hword := wordAt?_eq_some_iff.mp hw
  have hmod := offset_mod hw
  simp only [wordOfAddress, wordBase, Backing.first, Backing.extent, Device.base, Device.size] at hword
  apply ha
  rw [AtSerial]
  omega

/-- A write to a writable word replaces this word and no other. -/
theorem read32_write32 (hc : c.sizes = builtSizes save) (ha : ¬ AtSerial a)
    (hn : Writable (save.getD 0) (wordOfAddress a)) :
    (c.write32 a v).read32 b = if wordOfAddress b = wordOfAddress a then v else c.read32 b := by
  cases hwa : wordAt? a with
  | none => exact absurd hwa (wordAt?_ne_none hn)
  | some p =>
    obtain ⟨backing, offset⟩ := p
    have hsi := ne_serial_of_not_atSerial hwa ha
    have htakes := (writable_iff_takes hwa hsi).mp hn
    obtain ⟨hword, ho⟩ := wordAt?_eq_some_iff.mp hwa
    cases hwb : wordAt? b with
    | none =>
      have hne : wordOfAddress b ≠ wordOfAddress a := by
        intro h
        rw [wordAt?_of_eq h, hwa] at hwb
        cases hwb
      rw [if_neg hne, read32, read32, hwb]
    | some q =>
      obtain ⟨backing', offset'⟩ := q
      obtain ⟨hword', ho'⟩ := wordAt?_eq_some_iff.mp hwb
      rw [write32, hwa, read32, read32, hwb]
      dsimp only
      -- Words of one backing are told apart by their offsets, those of two by the table.
      by_cases hb : backing' = backing
      · subst hb
        rw [readBacking_writeBacking_self hc htakes hsi ho (offset_mod hwa) (offset_mod hwb), hword, hword']
        simp only [Nat.add_left_cancel_iff]
      · have hne : wordOfAddress b ≠ wordOfAddress a := by
          intro h
          rw [wordAt?_of_eq h, hwa] at hwb
          cases hwb
          exact hb rfl
        rw [if_neg hne, readBacking_writeBacking_of_ne hb hsi]

/-- A write to any other word changes nothing. -/
theorem write32_of_not_writable (hc : c.sizes = builtSizes save) (ha : ¬ AtSerial a)
    (hn : ¬ Writable (save.getD 0) (wordOfAddress a)) : c.write32 a v = c := by
  rw [write32]
  split
  · rename_i backing offset hw
    have hsi := ne_serial_of_not_atSerial hw ha
    exact writeBacking_of_not_takes hc (fun ht => hn ((writable_iff_takes hw hsi).mpr ht)) hsi
  · rfl

/-- The flat memory holds what the console reads. -/
def Agrees (c : Console) (m : FlatMemory) : Prop := ∀ a k, m (wordOfAddress a) k = byteOf (c.read32 a) k

private theorem agrees_flat (c : Console) : c.Agrees c.flat := by
  intro a k
  rw [flat, read32, wordAt?_of_eq (wordOfAddress_ofNat a), read32]

theorem Agrees.perform (hm : c.Agrees m) (hc : c.sizes = builtSizes save) {w : Write}
    (hw : ¬ AtSerial w.address) : (c.perform w).Agrees (m.write (save.getD 0) w) := by
  intro a k
  rw [perform_eq, FlatMemory.write]
  by_cases hn : Writable (save.getD 0) (wordOfAddress w.address)
  · rw [read32_write32 hc hw hn]
    by_cases ha : wordOfAddress a = wordOfAddress w.address
    · rw [if_pos ⟨ha, ha ▸ hn⟩, if_pos ha, byteOf_patch, ← hm, ha]
    · rw [if_neg fun h => ha h.1, if_neg ha, hm]
  · rw [write32_of_not_writable hc hw hn, if_neg, hm]
    rintro ⟨ha, hn'⟩
    exact hn (ha ▸ hn')

theorem sizes_foldl (ws : List Write) : (ws.foldl perform c).sizes = c.sizes := by
  induction ws generalizing c with
  | nil => rfl
  | cons w ws ih => rw [List.foldl_cons, ih, sizes_perform]

theorem Agrees.foldl (hm : c.Agrees m) (hc : c.sizes = builtSizes save) {ws : List Write}
    (hws : ∀ w ∈ ws, ¬ AtSerial w.address) :
    (ws.foldl Console.perform c).Agrees (ws.foldl (FlatMemory.write (save.getD 0)) m) := by
  induction ws generalizing c m with
  | nil => exact hm
  | cons w ws ih =>
    apply ih
    · exact hm.perform hc (hws w (List.mem_cons_self ..))
    · rw [sizes_perform, hc]
    · exact fun w' hw' => hws w' (List.mem_cons_of_mem _ hw')

theorem Agrees.reads (hm : c.Agrees m) (a : UInt32) :
    c.read32 a = m.read32 a ∧ c.read16 a = m.read16 a ∧ c.read8 a = m.read8 a := by
  refine ⟨?_, ?_, ?_⟩
  · rw [FlatMemory.read32, funext (hm a), ofLanes_byteOf]
  · rw [FlatMemory.read16, read16_eq, hm, hm]
  · rw [FlatMemory.read8, read8_eq, hm]

/-- Nothing answers at an address that no range holds. -/
theorem reads_of_unmapped (c : Console) (ha : ∀ m ∈ mappings, ¬ m.holds (physical a) = true) :
    c.read32 a = 0 ∧ c.read16 a = 0 ∧ c.read8 a = 0 := by
  have hw : wordAt? a = none := by
    cases hw : wordAt? a with
    | none => rfl
    | some p =>
      obtain ⟨backing, offset⟩ := p
      obtain ⟨hword, ho⟩ := wordAt?_eq_some_iff.mp hw
      have hmod := offset_mod hw
      have hextent := extent_mod backing
      have hholds : backing.mapping.holds (physical a) = true := by
        simp only [wordOfAddress, wordBase] at hword
        rw [holds_iff]
        simp only [Backing.mapping]
        omega
      exact absurd hholds (ha _ (mem_mappings.mpr rfl))
  have hread : c.read32 a = 0 := by rw [read32, hw]
  refine ⟨hread, ?_, ?_⟩
  · rw [read16, hread, UInt32.zero_shiftRight]
    rfl
  · rw [read8, hread, UInt32.zero_shiftRight]
    rfl

/-- From a state that the console can come to, writes of any widths away from the serial interface and all
reads after them are those of a flat memory; a write to a word that is not writable changes nothing, and
where nothing is mapped zero is read. -/
theorem reads_eq_flat (hc : Reachable c) (ws : List Write) (hws : ∀ w ∈ ws, ¬ AtSerial w.address) :
    (∀ a, (ws.foldl perform c).read32 a = (ws.foldl (FlatMemory.write c.saveSize) c.flat).read32 a ∧
        (ws.foldl perform c).read16 a = (ws.foldl (FlatMemory.write c.saveSize) c.flat).read16 a ∧
        (ws.foldl perform c).read8 a = (ws.foldl (FlatMemory.write c.saveSize) c.flat).read8 a) ∧
      (∀ w, ¬ AtSerial w.address → ¬ Writable c.saveSize (wordOfAddress w.address) →
        (ws.foldl perform c).perform w = ws.foldl perform c) ∧
      ∀ a, (∀ m ∈ mappings, ¬ m.holds (physical a) = true) →
        (ws.foldl perform c).read32 a = 0 ∧ (ws.foldl perform c).read16 a = 0 ∧
          (ws.foldl perform c).read8 a = 0 := by
  obtain ⟨save, hsizes⟩ := hc.sizes_eq
  have hsave : c.saveSize = save.getD 0 := congrArg (fun s => s.save.getD 0) hsizes
  have hsizes' := (sizes_foldl ws).trans hsizes
  have hagrees := c.agrees_flat.foldl hsizes hws
  rw [hsave]
  refine ⟨hagrees.reads, fun w hw hn => ?_, fun a ha => reads_of_unmapped _ ha⟩
  rw [perform_eq, write32_of_not_writable hsizes' hw hn]

/-- A word written through one segment, with a byte replaced through another, is read through a third. -/
theorem read_through_segments :
    ([.word 0x80000100 0x11223344, .byte 0xA0000101 0xAB].foldl perform (new .absent)).read32 0x100 =
      0x1122AB44 := by
  have hws : ∀ w ∈ [Write.word 0x80000100 0x11223344, .byte 0xA0000101 0xAB], ¬ AtSerial w.address := by decide
  exact ((reads_eq_flat .absent _ hws).1 0x100).1.trans (by rfl)

end Console

end ConsoleBridge

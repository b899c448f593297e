import ConsoleBridge.Proofs.Bus.Reachable

/-!
# Going back to a saved memory

Restoring a memory state fills main memory and the save memory up to their sizes and leaves all else. As no
operation changes a size, the state that was taken comes back whole after any run of them.
-/
namespace ConsoleBridge

open Bytes Bus

variable {c c' : Console} {m : MemoryState} {k : Cartridge}

/-- The data cut or filled up with zeros to the given size. -/
structure Padded (size : Nat) (data b : ByteArray) : Prop where
  size_eq : b.size = size
  inside : ∀ i, i < size → ∀ h : i < data.size, byte b i = data[i]
  behind : ∀ i, i < size → data.size ≤ i → byte b i = 0

theorem padded_fit (size : Nat) (data : ByteArray) : Padded size data (fit size data) where
  size_eq := size_fit size data
  inside i hi h := by rw [byte_fit, if_pos hi, byte_of_lt h]
  behind i hi h := by rw [byte_fit, if_pos hi, byte_of_le h]

namespace Cartridge

theorem save?_loadSave (k : Cartridge) (data : ByteArray) :
    (k.loadSave data).save? = k.save?.map fun save => fit save.size data :=
  save?_mapSave k _

private theorem loadSave_of_none (hk : k.save? = none) (data : ByteArray) : k.loadSave data = k := by
  cases k with
  | absent => rfl
  | rom image save =>
    obtain rfl : save = none := hk
    rfl

/-- Data of the size of the save memory becomes its contents. -/
theorem save?_loadSave_of_size {data : ByteArray} (hk : k.save?.map ByteArray.size = some data.size) :
    (k.loadSave data).save? = some data := by
  obtain ⟨save, hsave, hsize⟩ := Option.map_eq_some_iff.mp hk
  rw [save?_loadSave, hsave, Option.map_some, hsize, fit_size]

private theorem loadSave_loadSave (k : Cartridge) (data : ByteArray) :
    (k.loadSave data).loadSave data = k.loadSave data := by
  cases k with
  | absent => rfl
  | rom image save =>
    cases save with
    | none => rfl
    | some save => simp [loadSave, mapSave]

end Cartridge

namespace Console

structure Restored (c : Console) (m : MemoryState) (c' : Console) : Prop where
  rdram : Padded 0x800000 m.rdram c'.rdram
  save : ∀ save data, c.cartridge.save? = some save → m.cartridgeRam = some data →
    ∃ save', c'.cartridge.save? = some save' ∧ Padded save.size data save'
  kept : c.cartridge.save? = none ∨ m.cartridgeRam = none → c'.cartridge = c.cartridge
  image : c'.cartridge.image? = c.cartridge.image?
  rest : c' = { c with rdram := c'.rdram, cartridge := c'.cartridge }

private theorem restored_setState (hr : c.rdram.size = 0x800000) (m : MemoryState) : c.Restored m (c.setState m) := by
  obtain ⟨rdram, cartridgeRam⟩ := m
  have hram : Padded 0x800000 rdram (fit c.rdram.size rdram) := hr ▸ padded_fit _ _
  cases cartridgeRam with
  | none =>
    refine ⟨hram, fun save data _ h => ?_, fun _ => rfl, rfl, rfl⟩
    cases h
  | some data =>
    refine ⟨hram, ?_, fun h => ?_, c.cartridge.image?_mapSave _, rfl⟩
    · intro save data' hsave hdata
      cases hdata
      refine ⟨fit save.size data, ?_, padded_fit _ _⟩
      exact (c.cartridge.save?_loadSave data).trans (by rw [hsave, Option.map_some])
    · rcases h with h | h
      · exact c.cartridge.loadSave_of_none h data
      · cases h

/-- A memory state of the right sizes becomes the memory of the console. -/
theorem getState_setState (hr : m.rdram.size = c.rdram.size)
    (hs : m.cartridgeRam.map ByteArray.size = c.cartridge.save?.map ByteArray.size) :
    (c.setState m).getState = m := by
  obtain ⟨rdram, cartridgeRam⟩ := m
  have hram : fit c.rdram.size rdram = rdram := by rw [← hr, fit_size]
  cases cartridgeRam with
  | none =>
    have hnone : c.cartridge.save? = none := Option.map_eq_none_iff.mp hs.symm
    rw [getState, setState, hram, hnone]
  | some data =>
    rw [getState, setState, hram]
    exact congrArg _ (Cartridge.save?_loadSave_of_size hs.symm)

private theorem setState_setState (c : Console) (m : MemoryState) : (c.setState m).setState m = c.setState m := by
  obtain ⟨rdram, cartridgeRam⟩ := m
  cases cartridgeRam with
  | none => simp only [setState, size_fit]
  | some data => simp only [setState, size_fit, Cartridge.loadSave_loadSave]

theorem sizes_run (os : List Operation) : (os.foldl apply c).sizes = c.sizes := by
  induction os generalizing c with
  | nil => rfl
  | cons o os ih => rw [List.foldl_cons, ih, sizes_apply]

/-- From a state that the console can come to, a restored memory state leaves what it should; the state that was
taken comes back after any operations; and to restore twice is to restore once. -/
theorem rollback (hc : Reachable c) :
    (∀ m, c.Restored m (c.setState m)) ∧
      (∀ os : List Operation, ((os.foldl apply c).setState c.getState).getState = c.getState) ∧
      ∀ m, (c.setState m).setState m = c.setState m := by
  obtain ⟨save, hsizes⟩ := hc.sizes_eq
  refine ⟨restored_setState (congrArg Sizes.rdram hsizes), fun os => ?_, c.setState_setState⟩
  have hrun := (sizes_run (c := c) os).symm
  exact getState_setState (congrArg Sizes.rdram hrun) (congrArg Sizes.save hrun)

/-- What is taken of a console with six bytes of save memory comes back past a reset and another state. -/
theorem rollback_past_reset :
    let c := (new (.ofRom .empty (some 6))).apply (.write (.word 0xA8000000 0x11223344))
    Reachable c ∧
      (([.setState ⟨⟨#[1, 2]⟩, some ⟨#[9]⟩⟩, .reset, .write (.word 0x04800004 0)].foldl apply c).setState
        c.getState).getState = c.getState :=
  ⟨(Reachable.plugged ..).apply _, (rollback ((Reachable.plugged ..).apply _)).2.1 _⟩

end Console

end ConsoleBridge

import Mathlib.Logic.Equiv.Defs
import ConsoleBridge.Proofs.Bus.Devices
import ConsoleBridge.Proofs.Bus.Serial
import ConsoleBridge.Proofs.Bus.Writes

/-!
# The width of an access does not matter

Every word of the bus is a latch, whatever answers for it. So a word that is written in parts, in any order,
leaves the console as when it is written at once, although each part is a write of its own to a register.
-/
namespace ConsoleBridge

open Bytes

namespace Console

open Bus

private theorem latches_register (c : Console) (device : Device) (offset : Nat) :
    ∃ mask, Latches (fun c x => writeRegister c device offset x) (fun c => c.readRegister device offset) c
      mask := by
  cases device with
  | vi =>
    obtain ⟨mask, hl⟩ := latches_block c.vi offset
    exact ⟨mask, hl.lift vi (fun c b => { c with vi := b }) (fun _ => rfl) fun _ _ => rfl⟩
  | ai =>
    obtain ⟨mask, hl⟩ := latches_block c.ai offset
    exact ⟨mask, hl.lift ai (fun c b => { c with ai := b }) (fun _ => rfl) fun _ _ => rfl⟩
  | pi =>
    obtain ⟨mask, hl⟩ := latches_block c.pi offset
    exact ⟨mask, hl.lift pi (fun c b => { c with pi := b }) (fun _ => rfl) fun _ _ => rfl⟩
  | ri =>
    obtain ⟨mask, hl⟩ := latches_block c.ri offset
    exact ⟨mask, hl.lift ri (fun c b => { c with ri := b }) (fun _ => rfl) fun _ _ => rfl⟩
  | si => exact latches_serial c offset
  | mi =>
    obtain ⟨mask, hl⟩ := latches_interrupts c.mi offset
    exact ⟨mask, hl.lift mi (fun c m => { c with mi := m }) (fun _ => rfl) fun _ _ => rfl⟩

private theorem latches_backing (c : Console) (backing : Backing) (offset : Nat) :
    ∃ mask, Latches (fun c x => writeBacking c backing offset x) (fun c => c.readBacking backing offset) c
      mask := by
  cases backing with
  | rdram =>
    obtain ⟨mask, hl⟩ := latches_storage c.rdram offset
    exact ⟨mask, hl.lift rdram (fun c b => { c with rdram := b }) (fun _ => rfl) fun _ _ => rfl⟩
  | cartSave =>
    obtain ⟨mask, hl⟩ := c.cartridge.latches_save offset
    exact ⟨mask, hl.lift cartridge (fun c s => { c with cartridge := s }) (fun _ => rfl) fun _ _ => rfl⟩
  | cartRom => exact ⟨_, latches_of_inert fun x => rfl⟩
  | registers device => exact latches_register c device offset
  | pifRom => exact ⟨_, latches_of_inert fun x => rfl⟩
  | pifRam =>
    obtain ⟨mask, hl⟩ := latches_storage c.pifRam offset
    exact ⟨mask, hl.lift pifRam (fun c b => { c with pifRam := b }) (fun _ => rfl) fun _ _ => rfl⟩

/-- Every word of the bus is a latch. -/
theorem latches_word (c : Console) (address : UInt32) :
    ∃ mask, Latches (fun c x => write32 c address x) (fun c => c.read32 address) c mask := by
  cases hw : wordAt? address with
  | none =>
    refine ⟨_, latches_of_inert fun x => ?_⟩
    rw [write32, hw]
  | some p =>
    have hwrite : (fun (c : Console) x => c.write32 address x) = fun c x => c.writeBacking p.1 p.2 x := by
      funext c x
      rw [write32, hw]
    have hread : (fun c : Console => c.read32 address) = fun c => c.readBacking p.1 p.2 := by
      funext c
      rw [read32, hw]
    rw [hwrite, hread]
    exact latches_backing c p.1 p.2

/-- Write bytes of a word in the given order, each by an access of its own. -/
def writeBytes (c : Console) (address value : UInt32) (lanes : List (Fin 4)) : Console :=
  lanes.foldl (fun c (k : Fin 4) => c.write8 (inWord address k) (value >>> UInt32.ofNat (8 * k)).toUInt8) c

/-- Write halfwords of a word in the given order, each by an access of its own. -/
def writeHalves (c : Console) (address value : UInt32) (pairs : List (Fin 2)) : Console :=
  pairs.foldl (fun c (j : Fin 2) => c.write16 (inWord address (2 * j)) (value >>> UInt32.ofNat (16 * j)).toUInt16) c

/-- The byte of `v` in the lane `k`, and nothing else. -/
def byteLane (v : UInt32) (k : Fin 4) : Fin 4 → Option UInt8 := fun j => if j = k then some (byteOf v k) else none

/-- The bytes of `v` in the pair of lanes `j`, and nothing else. -/
def halfLanes (v : UInt32) (j : Fin 2) : Fin 4 → Option UInt8 :=
  fun k => if k.val / 2 = j then some (byteOf v k) else none

private theorem partOf_byteLane (v : UInt32) (k : Fin 4) : PartOf v (byteLane v k) := by
  intro j b hb
  rw [byteLane, Option.ite_none_right_eq_some, Option.some.injEq] at hb
  obtain ⟨rfl, rfl⟩ := hb
  rfl

private theorem partOf_halfLanes (v : UInt32) (j : Fin 2) : PartOf v (halfLanes v j) := by
  intro k b hb
  rw [halfLanes, Option.ite_none_right_eq_some, Option.some.injEq] at hb
  exact hb.2.symm

theorem write32_inWord (c : Console) (address value : UInt32) {k : Nat} (hk : k < 4) :
    c.write32 (inWord address k) value = c.write32 address value := by
  rw [write32, write32, wordAt?_inWord address hk]

theorem read32_inWord (c : Console) (address : UInt32) {k : Nat} (hk : k < 4) :
    c.read32 (inWord address k) = c.read32 address := by
  rw [read32, read32, wordAt?_inWord address hk]

private theorem write8_lane (c : Console) (address value : UInt32) (k : Fin 4) :
    c.write8 (inWord address k) (value >>> UInt32.ofNat (8 * k)).toUInt8 =
      rewrite (fun c x => write32 c address x) (fun c => c.read32 address) c (byteLane value k) := by
  have hlane : laneAt (inWord address k) = k := by
    apply Fin.ext
    simp only [laneAt, toNat_inWord address k.isLt]
    omega
  have hpatch : (Write.byte (inWord address k) (value >>> UInt32.ofNat (8 * k)).toUInt8).lane? =
      byteLane value k := by
    funext j
    rw [Write.lane?, hlane]
    rfl
  have hwrite := c.perform_eq (.byte (inWord address k) (value >>> UInt32.ofNat (8 * k)).toUInt8)
  rw [hpatch, Write.address, write32_inWord c address _ k.isLt, read32_inWord c address k.isLt] at hwrite
  exact hwrite

private theorem write16_pair (c : Console) (address value : UInt32) (j : Fin 2) :
    c.write16 (inWord address (2 * j)) (value >>> UInt32.ofNat (16 * j)).toUInt16 =
      rewrite (fun c x => write32 c address x) (fun c => c.read32 address) c (halfLanes value j) := by
  have hj : 2 * j.val < 4 := by omega
  have hpair : pairAt (inWord address (2 * j)) = j := by
    apply Fin.ext
    simp only [pairAt, toNat_inWord address hj]
    omega
  have hpatch : (Write.half (inWord address (2 * j)) (value >>> UInt32.ofNat (16 * j)).toUInt16).lane? =
      halfLanes value j := by
    funext k
    rw [Write.lane?, hpair, halfLanes]
    by_cases hk : k.val / 2 = j
    · rw [if_pos hk, if_pos hk, halfByte_shifted value hk]
    · rw [if_neg hk, if_neg hk]
  have hwrite := c.perform_eq (.half (inWord address (2 * j)) (value >>> UInt32.ofNat (16 * j)).toUInt16)
  rw [hpatch, Write.address, write32_inWord c address _ hj, read32_inWord c address hj] at hwrite
  exact hwrite

/-- A word that is written in four bytes or in two halves, in any order, leaves the console as when it is
written at once. -/
theorem write32_eq_write_parts (c : Console) (address value : UInt32) (σ : Equiv.Perm (Fin 4))
    (τ : Equiv.Perm (Fin 2)) :
    c.writeBytes address value ((List.finRange 4).map σ) = c.write32 address value ∧
      c.writeHalves address value ((List.finRange 2).map τ) = c.write32 address value := by
  obtain ⟨mask, hl⟩ := c.latches_word address
  constructor
  · have hbytes : c.writeBytes address value ((List.finRange 4).map σ) =
        (((List.finRange 4).map σ).map (byteLane value)).foldl
          (rewrite (fun c x => write32 c address x) fun c => c.read32 address) c := by
      rw [List.foldl_map]
      simp only [writeBytes, write8_lane]
    rw [hbytes]
    apply hl.foldl_rewrite_eq
    · intro p hp
      obtain ⟨k, -, rfl⟩ := List.mem_map.mp hp
      exact partOf_byteLane value k
    · intro k
      refine ⟨byteLane value k, List.mem_map.mpr ⟨k, ?_, rfl⟩, ?_⟩
      · exact List.mem_map.mpr ⟨σ.symm k, List.mem_finRange _, σ.apply_symm_apply k⟩
      · simp [byteLane]
  · have hhalves : c.writeHalves address value ((List.finRange 2).map τ) =
        (((List.finRange 2).map τ).map (halfLanes value)).foldl
          (rewrite (fun c x => write32 c address x) fun c => c.read32 address) c := by
      rw [List.foldl_map]
      simp only [writeHalves, write16_pair]
    rw [hhalves]
    apply hl.foldl_rewrite_eq
    · intro p hp
      obtain ⟨j, -, rfl⟩ := List.mem_map.mp hp
      exact partOf_halfLanes value j
    · intro k
      have hk : k.val / 2 < 2 := by omega
      refine ⟨halfLanes value ⟨k.val / 2, hk⟩, List.mem_map.mpr ⟨⟨k.val / 2, hk⟩, ?_, rfl⟩, ?_⟩
      · exact List.mem_map.mpr ⟨τ.symm ⟨k.val / 2, hk⟩, List.mem_finRange _, τ.apply_symm_apply _⟩
      · simp [halfLanes]

end Console

end ConsoleBridge

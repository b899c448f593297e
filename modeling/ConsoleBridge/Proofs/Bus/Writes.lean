import ConsoleBridge.Bus.Basic
import ConsoleBridge.Proofs.Bytes.Lanes

/-!
# Writes of every width

A write names an address and some lanes of the word that holds it. Whatever its width, the bus patches the
word with these lanes and writes it back.
-/
namespace ConsoleBridge

open Bytes Bus

def laneAt (address : UInt32) : Fin 4 := ⟨address.toNat % 4, Nat.mod_lt _ (by decide)⟩

def pairAt (address : UInt32) : Fin 2 := ⟨address.toNat / 2 % 2, Nat.mod_lt _ (by decide)⟩

def inWord (address : UInt32) (k : Nat) : UInt32 := UInt32.ofNat (4 * (address.toNat / 4) + k)

def lowLane (j : Fin 2) : Fin 4 := ⟨2 * j, by omega⟩

def highLane (j : Fin 2) : Fin 4 := ⟨2 * j + 1, by omega⟩

def halfOf (high low : UInt8) : UInt16 := (high.toUInt16 <<< 8) ||| low.toUInt16

inductive Write
  | byte (address : UInt32) (value : UInt8)
  | half (address : UInt32) (value : UInt16)
  | word (address : UInt32) (value : UInt32)

namespace Write

def address : Write → UInt32
  | byte address _ => address
  | half address _ => address
  | word address _ => address

/-- What is written into a lane of the word that holds the address. -/
def lane? (w : Write) (k : Fin 4) : Option UInt8 :=
  match w with
  | byte address value => if k = laneAt address then some value else none
  | half address value =>
    if k.val / 2 = pairAt address then some (halfByte value ⟨k.val % 2, Nat.mod_lt _ (by decide)⟩) else none
  | word _ value => some (byteOf value k)

end Write

namespace Console

def perform (c : Console) : Write → Console
  | .byte address value => c.write8 address value
  | .half address value => c.write16 address value
  | .word address value => c.write32 address value

theorem byteShift_eq (address : UInt32) : byteShift address = UInt32.ofNat (8 * laneAt address) := by
  have hand : address.toNat &&& 3 = address.toNat % 4 := Nat.and_two_pow_sub_one_eq_mod address.toNat 2
  apply UInt32.toNat_inj.mp
  simp [byteShift, laneAt, hand]
  omega

theorem halfShift_eq (address : UInt32) : halfShift address = UInt32.ofNat (16 * pairAt address) := by
  have hand : address.toNat &&& 2 = address.toNat / 2 % 2 * 2 := by
    have heven : (address.toNat &&& 2) % 2 = 0 := by
      rw [show (2 : Nat) = 2 ^ 1 from rfl, Nat.and_mod_two_pow, Nat.mod_self, Nat.and_zero]
    have hhalf : (address.toNat &&& 2) / 2 = address.toNat / 2 % 2 := by
      rw [Nat.and_div_two, Nat.and_one_is_mod]
    omega
  apply UInt32.toNat_inj.mp
  simp [halfShift, pairAt, hand]
  omega

theorem toNat_inWord (address : UInt32) {k : Nat} (hk : k < 4) :
    (inWord address k).toNat = 4 * (address.toNat / 4) + k := by
  have ha := address.toNat_lt
  rw [inWord, UInt32.toNat_ofNat', Nat.mod_eq_of_lt (by omega)]

/-- The word that holds an address is told by a quarter of it. -/
theorem wordBase_physical {a b : UInt32} (h : a.toNat / 4 = b.toNat / 4) :
    wordBase (physical a) = wordBase (physical b) := by
  simp only [wordBase, physical]
  split
  · rw [if_pos (by omega)]
    omega
  · rw [if_neg (by omega)]
    omega

private theorem wordAt?_congr {a b : UInt32} (h : a.toNat / 4 = b.toNat / 4) : wordAt? a = wordAt? b := by
  rw [wordAt?, wordAt?, wordBase_physical h]

theorem wordAt?_inWord (address : UInt32) {k : Nat} (hk : k < 4) : wordAt? (inWord address k) = wordAt? address :=
  wordAt?_congr (by rw [toNat_inWord address hk]; omega)

/-- Nothing is left of a byte under a full mask. -/
theorem and_not_mask (b : UInt8) : b &&& ~~~0xFF = 0 := by
  rw [show ~~~(0xFF : UInt8) = 0 from rfl, UInt8.and_zero]

private theorem insertLane_byte (w : UInt32) (j : Fin 4) (b : UInt8) :
    insertLane w 0xFF (UInt32.ofNat (8 * j)) b.toUInt32 = patch w fun k => if k = j then some b else none := by
  apply byteOf_ext
  intro k
  have hmask : byteOf (0xFF <<< UInt32.ofNat (8 * j)) k = if k = j then 0xFF else 0 :=
    byteOf_shifted 0xFF j k
  rw [insertLane, byteOf_or, byteOf_and, byteOf_not, hmask, byteOf_shifted, byteOf_patch]
  by_cases hk : k = j
  · simp [hk, and_not_mask]
  · simp [hk]

private theorem insertLane_half (w : UInt32) (j : Fin 2) (h : UInt16) :
    insertLane w 0xFFFF (UInt32.ofNat (16 * j)) h.toUInt32 = patch w fun k =>
      if k.val / 2 = j then some (halfByte h ⟨k.val % 2, Nat.mod_lt _ (by decide)⟩) else none := by
  apply byteOf_ext
  intro k
  have hmask : byteOf (0xFFFF <<< UInt32.ofNat (16 * j)) k = if k.val / 2 = j then 0xFF else 0 := by
    have hbyte : ∀ i, halfByte 0xFFFF i = 0xFF := by decide
    have hshifted := byteOf_shifted_half 0xFFFF j k
    rwa [hbyte] at hshifted
  rw [insertLane, byteOf_or, byteOf_and, byteOf_not, hmask, byteOf_shifted_half, byteOf_patch]
  by_cases hk : k.val / 2 = j
  · simp [hk, and_not_mask]
  · simp [hk]

/-- A write patches the word that holds the address with the lanes that it names. -/
theorem perform_eq (c : Console) (w : Write) :
    c.perform w = c.write32 w.address (patch (c.read32 w.address) w.lane?) := by
  cases w with
  | byte address value =>
    rw [perform, write8, byteShift_eq, insertLane_byte]
    rfl
  | half address value =>
    rw [perform, write16, halfShift_eq, insertLane_half]
    rfl
  | word address value =>
    have hpatch : patch (c.read32 address) (Write.word address value).lane? = value :=
      byteOf_ext fun k => byteOf_patch
    rw [Write.address, hpatch]
    rfl

theorem read8_eq (c : Console) (address : UInt32) :
    c.read8 address = byteOf (c.read32 address) (laneAt address) := by
  rw [read8, byteShift_eq]
  rfl

theorem toNat_halfOf (high low : UInt8) : (halfOf high low).toNat = high.toNat * 2 ^ 8 + low.toNat :=
  toNat_half high low

theorem toUInt16_shifted (w : UInt32) (j : Fin 2) :
    (w >>> UInt32.ofNat (16 * j)).toUInt16 = halfOf (byteOf w (highLane j)) (byteOf w (lowLane j)) := by
  have hw := w.toNat_lt
  apply UInt16.toNat_inj.mp
  rw [toNat_halfOf]
  match j with
  | 0 =>
    have hhigh : byteOf w (highLane 0) = (w >>> 8).toUInt8 := rfl
    have hlow : byteOf w (lowLane 0) = (w >>> 0).toUInt8 := rfl
    rw [hhigh, hlow]
    simp [Nat.shiftRight_eq_div_pow]
    omega
  | 1 =>
    have hhigh : byteOf w (highLane 1) = (w >>> 24).toUInt8 := rfl
    have hlow : byteOf w (lowLane 1) = (w >>> 16).toUInt8 := rfl
    rw [hhigh, hlow]
    simp [Nat.shiftRight_eq_div_pow]
    omega

private theorem halfByte_halfOf (high low : UInt8) :
    halfByte (halfOf high low) 0 = low ∧ halfByte (halfOf high low) 1 = high := by
  have hlow := low.toNat_lt
  have hhigh := high.toNat_lt
  constructor
  · apply UInt8.toNat_inj.mp
    simp [halfByte, toNat_halfOf]
  · apply UInt8.toNat_inj.mp
    simp [halfByte, toNat_halfOf, Nat.shiftRight_eq_div_pow]
    omega

/-- A byte of a halfword of a word. -/
theorem halfByte_shifted (w : UInt32) {k : Fin 4} {j : Fin 2} (hk : k.val / 2 = j) :
    halfByte (w >>> UInt32.ofNat (16 * j)).toUInt16 ⟨k.val % 2, Nat.mod_lt _ (by decide)⟩ = byteOf w k := by
  obtain ⟨hlow, hhigh⟩ := halfByte_halfOf (byteOf w (highLane j)) (byteOf w (lowLane j))
  rw [toUInt16_shifted]
  rcases Nat.mod_two_eq_zero_or_one k.val with h | h
  · have hlane : lowLane j = k := Fin.ext (by simp only [lowLane]; omega)
    simp only [h]
    exact hlow.trans (congrArg _ hlane)
  · have hlane : highLane j = k := Fin.ext (by simp only [highLane]; omega)
    simp only [h]
    exact hhigh.trans (congrArg _ hlane)

theorem read16_eq (c : Console) (address : UInt32) :
    c.read16 address = halfOf (byteOf (c.read32 address) (highLane (pairAt address)))
      (byteOf (c.read32 address) (lowLane (pairAt address))) := by
  rw [read16, halfShift_eq, toUInt16_shifted]

end Console

end ConsoleBridge

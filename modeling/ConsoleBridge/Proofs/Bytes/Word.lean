import Mathlib.Algebra.Group.Nat.Defs
import ConsoleBridge.Bytes

/-!
# Big-endian words and their bytes

A word is the number with its bytes as digits, so that they determine each other.
-/
namespace ConsoleBridge.Bytes

theorem or_digit {n a b : Nat} (hb : b < 2 ^ n) : a * 2 ^ n ||| b = a * 2 ^ n + b := by
  rw [Nat.mul_comm, Nat.two_pow_add_eq_or_of_lt hb]

theorem toNat_shifted {n : Nat} (b : UInt8) (hn : n ≤ 24) : b.toNat <<< n % 2 ^ 32 = b.toNat * 2 ^ n := by
  rw [Nat.shiftLeft_eq, Nat.mod_eq_of_lt]
  calc b.toNat * 2 ^ n < 2 ^ 8 * 2 ^ n := Nat.mul_lt_mul_of_pos_right b.toNat_lt (Nat.two_pow_pos n)
    _ ≤ 2 ^ 8 * 2 ^ 24 := Nat.mul_le_mul_left _ (Nat.pow_le_pow_right (by decide) hn)

theorem toNat_half (high low : UInt8) :
    (high.toUInt16 <<< 8 ||| low.toUInt16).toNat = high.toNat * 2 ^ 8 + low.toNat := by
  have hhigh := high.toNat_lt
  have hshifted : high.toNat <<< 8 % 2 ^ 16 = high.toNat * 2 ^ 8 := by
    rw [Nat.shiftLeft_eq, Nat.mod_eq_of_lt (by omega)]
  simp only [UInt16.toNat_or, UInt16.toNat_shiftLeft, UInt8.toNat_toUInt16, UInt16.reduceToNat]
  rw [hshifted, or_digit low.toNat_lt]

theorem toNat_wordOf (b₀ b₁ b₂ b₃ : UInt8) :
    (wordOf b₀ b₁ b₂ b₃).toNat =
      ((b₀.toNat * 2 ^ 8 + b₁.toNat) * 2 ^ 8 + b₂.toNat) * 2 ^ 8 + b₃.toNat := by
  have h₁ := b₁.toNat_lt
  have h₂ := b₂.toNat_lt
  have h₃ := b₃.toNat_lt
  have h₀₁ : b₀.toNat * 2 ^ 24 + b₁.toNat * 2 ^ 16 = (b₀.toNat * 2 ^ 8 + b₁.toNat) * 2 ^ 16 := by
    rw [Nat.add_mul, Nat.mul_assoc, ← Nat.pow_add]
  have h₀₁₂ : (b₀.toNat * 2 ^ 8 + b₁.toNat) * 2 ^ 16 + b₂.toNat * 2 ^ 8 =
      ((b₀.toNat * 2 ^ 8 + b₁.toNat) * 2 ^ 8 + b₂.toNat) * 2 ^ 8 := by
    rw [Nat.add_mul _ b₂.toNat, Nat.mul_assoc, ← Nat.pow_add]
  simp only [wordOf, UInt32.toNat_or, UInt32.toNat_shiftLeft, UInt8.toNat_toUInt32, UInt32.reduceToNat]
  calc b₀.toNat <<< 24 % 2 ^ 32 ||| b₁.toNat <<< 16 % 2 ^ 32 ||| b₂.toNat <<< 8 % 2 ^ 32 ||| b₃.toNat
      = b₀.toNat * 2 ^ 24 ||| b₁.toNat * 2 ^ 16 ||| b₂.toNat * 2 ^ 8 ||| b₃.toNat := by
        rw [toNat_shifted b₀ (by decide), toNat_shifted b₁ (by decide), toNat_shifted b₂ (by decide)]
    _ = (b₀.toNat * 2 ^ 8 + b₁.toNat) * 2 ^ 16 ||| b₂.toNat * 2 ^ 8 ||| b₃.toNat := by
        rw [or_digit (show b₁.toNat * 2 ^ 16 < 2 ^ 24 by omega), h₀₁]
    _ = ((b₀.toNat * 2 ^ 8 + b₁.toNat) * 2 ^ 8 + b₂.toNat) * 2 ^ 8 ||| b₃.toNat := by
        rw [or_digit (show b₂.toNat * 2 ^ 8 < 2 ^ 16 by omega), h₀₁₂]
    _ = _ := or_digit h₃

theorem wordOf_inj {b₀ b₁ b₂ b₃ c₀ c₁ c₂ c₃ : UInt8} :
    wordOf b₀ b₁ b₂ b₃ = wordOf c₀ c₁ c₂ c₃ ↔ b₀ = c₀ ∧ b₁ = c₁ ∧ b₂ = c₂ ∧ b₃ = c₃ := by
  have := b₁.toNat_lt
  have := b₂.toNat_lt
  have := b₃.toNat_lt
  have := c₁.toNat_lt
  have := c₂.toNat_lt
  have := c₃.toNat_lt
  simp only [← UInt32.toNat_inj, ← UInt8.toNat_inj, toNat_wordOf]
  omega

theorem wordOf_bytes (v : UInt32) :
    wordOf (v >>> 24).toUInt8 (v >>> 16).toUInt8 (v >>> 8).toUInt8 v.toUInt8 = v := by
  have hv := v.toNat_lt
  apply UInt32.toNat_inj.mp
  simp only [toNat_wordOf, UInt32.toNat_toUInt8, UInt32.toNat_shiftRight, UInt32.reduceToNat,
    Nat.shiftRight_eq_div_pow, Nat.reduceMod, Nat.reducePow] at hv ⊢
  omega

def copy (memory : Nat → UInt8) (address length : Nat) : ByteArray :=
  ⟨Array.ofFn fun i : Fin length => memory (address + i)⟩

def wordAt (memory : Nat → UInt8) (address : Nat) : UInt32 :=
  wordOf (memory address) (memory (address + 1)) (memory (address + 2)) (memory (address + 3))

variable {memory : Nat → UInt8} {address length i : Nat}

@[simp] theorem size_copy : (copy memory address length).size = length := by
  simp [copy, ByteArray.size]

@[simp] theorem getElem_copy (hi : i < (copy memory address length).size) :
    (copy memory address length)[i] = memory (address + i) := by
  simp [copy, ByteArray.getElem_eq_getElem_data]

theorem byte_copy (hi : i < length) : byte (copy memory address length) i = memory (address + i) := by
  rw [byte, dif_pos (by simpa using hi), getElem_copy]

theorem copy_congr {memory' : Nat → UInt8} (hm : ∀ i, i < length → memory (address + i) = memory' (address + i)) :
    copy memory address length = copy memory' address length := by
  apply ByteArray.ext_getElem (by simp)
  intro i hi hi'
  rw [getElem_copy, getElem_copy, hm i (by simpa using hi)]

theorem extract_eq_copy (b : ByteArray) (start : Nat) (hs : start + length ≤ b.size) :
    b.extract start (start + length) = copy (byte b) start length := by
  apply ByteArray.ext_getElem
  · simp only [ByteArray.size_extract, size_copy]
    omega
  · intro i hi hi'
    rw [size_copy] at hi'
    rw [ByteArray.getElem_extract, getElem_copy, byte, dif_pos (by omega)]

theorem loadWord_copy (hi : i + 4 ≤ length) :
    loadWord (copy memory address length) i = wordAt memory (address + i) := by
  rw [loadWord, dif_pos (by simpa using hi)]
  simp only [getElem_copy, wordAt, Nat.add_assoc]

end ConsoleBridge.Bytes

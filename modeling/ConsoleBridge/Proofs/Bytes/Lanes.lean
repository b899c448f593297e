import ConsoleBridge.Proofs.Bytes.Word

/-!
# The bytes of a word by their lanes

Lanes count from the least significant byte. Bitwise operations act on each byte of a word for itself, and a
word is patched by replacing some of its bytes.
-/
namespace ConsoleBridge.Bytes

def byteOf (v : UInt32) (k : Fin 4) : UInt8 := (v >>> UInt32.ofNat (8 * k)).toUInt8

def halfByte (v : UInt16) (k : Fin 2) : UInt8 := (v >>> UInt16.ofNat (8 * k)).toUInt8

def ofLanes (b : Fin 4 → UInt8) : UInt32 := wordOf (b 3) (b 2) (b 1) (b 0)

def patch (w : UInt32) (p : Fin 4 → Option UInt8) : UInt32 := ofLanes fun k => (p k).getD (byteOf w k)

variable {v w : UInt32} {k : Fin 4} {b b₀ b₁ b₂ b₃ : UInt8}

theorem ofLanes_byteOf (v : UInt32) : ofLanes (byteOf v) = v := wordOf_bytes v

theorem byteOf_wordOf :
    byteOf (wordOf b₀ b₁ b₂ b₃) 3 = b₀ ∧ byteOf (wordOf b₀ b₁ b₂ b₃) 2 = b₁ ∧
      byteOf (wordOf b₀ b₁ b₂ b₃) 1 = b₂ ∧ byteOf (wordOf b₀ b₁ b₂ b₃) 0 = b₃ :=
  wordOf_inj.mp (ofLanes_byteOf _)

theorem byteOf_ofLanes (b : Fin 4 → UInt8) (k : Fin 4) : byteOf (ofLanes b) k = b k := by
  obtain ⟨h₃, h₂, h₁, h₀⟩ := @byteOf_wordOf (b 3) (b 2) (b 1) (b 0)
  match k with
  | 0 => exact h₀
  | 1 => exact h₁
  | 2 => exact h₂
  | 3 => exact h₃

theorem byteOf_ext (h : ∀ k, byteOf v k = byteOf w k) : v = w := by
  rw [← ofLanes_byteOf v, ← ofLanes_byteOf w, funext h]

@[simp] theorem byteOf_patch {p : Fin 4 → Option UInt8} : byteOf (patch w p) k = (p k).getD (byteOf w k) :=
  byteOf_ofLanes _ k

@[simp] theorem byteOf_and : byteOf (v &&& w) k = byteOf v k &&& byteOf w k := by
  simp [byteOf, UInt32.shiftRight_and]

@[simp] theorem byteOf_or : byteOf (v ||| w) k = byteOf v k ||| byteOf w k := by
  simp [byteOf, UInt32.shiftRight_or]

@[simp] theorem byteOf_not : byteOf (~~~v) k = ~~~(byteOf v k) := by
  apply UInt8.toBitVec_inj.mp
  ext i hi
  match k with
  | 0 => simp [byteOf]
  | 1 =>
    simp [byteOf]
    omega
  | 2 =>
    simp [byteOf]
    omega
  | 3 =>
    simp [byteOf]
    omega

/-- A byte moved up into a lane. -/
theorem byteOf_shifted (b : UInt8) (j k : Fin 4) :
    byteOf (b.toUInt32 <<< UInt32.ofNat (8 * j)) k = if k = j then b else 0 := by
  have hword : b.toUInt32 <<< UInt32.ofNat (8 * j) = ofLanes fun k => if k = j then b else 0 := by
    match j with
    | 0 => simp [ofLanes, wordOf]
    | 1 => simp [ofLanes, wordOf]
    | 2 => simp [ofLanes, wordOf]
    | 3 =>
      have hshift : UInt32.ofNat (8 * (3 : Fin 4)) = 24 := rfl
      rw [hshift]
      simp [ofLanes, wordOf]
  rw [hword, byteOf_ofLanes]

private theorem toUInt32_eq_wordOf (h : UInt16) : h.toUInt32 = wordOf 0 0 (halfByte h 1) (halfByte h 0) := by
  have hh := h.toNat_lt
  apply UInt32.toNat_inj.mp
  simp [toNat_wordOf, halfByte, Nat.shiftRight_eq_div_pow]
  omega

private theorem toUInt32_shifted_eq_wordOf (h : UInt16) :
    h.toUInt32 <<< 16 = wordOf (halfByte h 1) (halfByte h 0) 0 0 := by
  have hh := h.toNat_lt
  apply UInt32.toNat_inj.mp
  simp [toNat_wordOf, halfByte, Nat.shiftRight_eq_div_pow, Nat.shiftLeft_eq]
  omega

/-- A halfword moved up into a pair of lanes. -/
theorem byteOf_shifted_half (h : UInt16) (j : Fin 2) (k : Fin 4) :
    byteOf (h.toUInt32 <<< UInt32.ofNat (16 * j)) k =
      if k.val / 2 = j then halfByte h ⟨k.val % 2, Nat.mod_lt _ (by decide)⟩ else 0 := by
  match j with
  | 0 =>
    have hshift : h.toUInt32 <<< UInt32.ofNat (16 * (0 : Fin 2)) = h.toUInt32 := by simp
    obtain ⟨h₃, h₂, h₁, h₀⟩ := @byteOf_wordOf 0 0 (halfByte h 1) (halfByte h 0)
    rw [hshift, toUInt32_eq_wordOf]
    match k with
    | 0 => exact h₀
    | 1 => exact h₁
    | 2 => exact h₂
    | 3 => exact h₃
  | 1 =>
    have hshift : h.toUInt32 <<< UInt32.ofNat (16 * (1 : Fin 2)) = h.toUInt32 <<< 16 := by simp
    obtain ⟨h₃, h₂, h₁, h₀⟩ := @byteOf_wordOf (halfByte h 1) (halfByte h 0) 0 0
    rw [hshift, toUInt32_shifted_eq_wordOf]
    match k with
    | 0 => exact h₀
    | 1 => exact h₁
    | 2 => exact h₂
    | 3 => exact h₃

end ConsoleBridge.Bytes

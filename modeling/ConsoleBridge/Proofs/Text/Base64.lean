import ConsoleBridge.Proofs.Bytes.Storage
import ConsoleBridge.Text.Base64

/-!
# Base64 text reads back as its bytes

The text of some bytes is known symbol by symbol: each three bytes give four symbols, and what is missing at the
end is padded. So the decoder reads each complete group back, and the last one by what is left for it.
-/
namespace ConsoleBridge.Base64

open Bytes

variable {b : ByteArray} {i j n p : Nat}

/-! ## The text, code by code -/

def code (n : UInt32) : UInt8 := (symbol n).toNat.toUInt8

/-- The value of six bits of a word, from the given one up. -/
def sextet (n : UInt32) (shift : UInt32) : UInt32 := UInt32.ofNat ((n >>> shift).toNat % 64)

theorem symbol_congr {m n : UInt32} (h : m.toNat % 64 = n.toNat % 64) : symbol m = symbol n := by
  simp only [symbol, h]

/-- All symbols are told by the sixty-four values. -/
theorem forall_symbol {P : Char → UInt32 → Prop} (h : ∀ k : Fin 64, P (symbol (UInt32.ofNat k)) (UInt32.ofNat k))
    (n : UInt32) : P (symbol n) (UInt32.ofNat (n.toNat % 64)) := by
  have hk : n.toNat % 64 < 64 := Nat.mod_lt _ (by decide)
  have hsymbol : symbol n = symbol (UInt32.ofNat (n.toNat % 64)) := by
    apply symbol_congr
    simp
  rw [hsymbol]
  exact h ⟨_, hk⟩

private theorem utf8Encode_symbol (n : UInt32) : [symbol n].utf8Encode = ⟨#[code n]⟩ :=
  forall_symbol (P := fun c _ => [c].utf8Encode = ⟨#[c.toNat.toUInt8]⟩) (by decide +kernel) n

theorem value?_code (n : UInt32) : value? (code n) = some (UInt32.ofNat (n.toNat % 64)) :=
  forall_symbol (P := fun c v => value? c.toNat.toUInt8 = some v) (by decide +kernel) n

private theorem code_ne_pad (n : UInt32) : code n ≠ pad :=
  forall_symbol (P := fun c _ => c.toNat.toUInt8 ≠ pad) (by decide +kernel) n

def groupAt (b : ByteArray) (p : Nat) : UInt32 := triple (byte b p) (byte b (p + 1)) (byte b (p + 2))

def codeAt (b : ByteArray) (p l : Nat) : UInt8 :=
  if p + l ≤ b.size then code (groupAt b p >>> UInt32.ofNat (18 - 6 * l)) else pad

def written (b : ByteArray) (i j : Nat) : UInt8 := codeAt b (i + 3 * (j / 4)) (j % 4)

theorem toUTF8_push_symbol (s : String) (n : UInt32) : (s.push (symbol n)).toUTF8 = s.toUTF8 ++ ⟨#[code n]⟩ := by
  rw [String.toUTF8, String.toUTF8, String.toByteArray_push, utf8Encode_symbol]

theorem toUTF8_push_pad (s : String) : (s.push '=').toUTF8 = s.toUTF8 ++ ⟨#[pad]⟩ := by
  have hpad : ['='].utf8Encode = ⟨#[pad]⟩ := by decide +kernel
  rw [String.toUTF8, String.toUTF8, String.toByteArray_push, hpad]

def groupCodes (b : ByteArray) (p : Nat) : ByteArray :=
  ⟨#[codeAt b p 0]⟩ ++ ⟨#[codeAt b p 1]⟩ ++ ⟨#[codeAt b p 2]⟩ ++ ⟨#[codeAt b p 3]⟩

theorem size_groupCodes : (groupCodes b p).size = 4 := rfl

theorem byte_groupCodes (hj : j < 4) : byte (groupCodes b p) j = codeAt b p j :=
  match j with
  | 0 => rfl
  | 1 => rfl
  | 2 => rfl
  | 3 => rfl

/-- The text for the bytes from `i` on starts with its first group. -/
theorem copy_written :
    copy (written b i) 0 (4 * (n + 1)) = groupCodes b i ++ copy (written b (i + 3)) 0 (4 * n) := by
  apply ext_byte
  · rw [ByteArray.size_append, size_groupCodes, size_copy, size_copy]
    omega
  · intro j hj
    rw [size_copy] at hj
    rw [byte_copy hj, byte_append, size_groupCodes, Nat.zero_add, written]
    by_cases hj' : j < 4
    · have hdiv : i + 3 * (j / 4) = i := by omega
      have hmod : j % 4 = j := by omega
      rw [if_pos hj', byte_groupCodes hj', hdiv, hmod]
    · have hdiv : i + 3 * (j / 4) = i + 3 + 3 * ((j - 4) / 4) := by omega
      have hmod : j % 4 = (j - 4) % 4 := by omega
      rw [if_neg hj', byte_copy (by omega), Nat.zero_add, written, hdiv, hmod]

theorem copy_written_last : copy (written b i) 0 (4 * 1) = groupCodes b i :=
  (copy_written (n := 0)).trans ByteArray.append_empty

theorem codeAt_of_le {l : Nat} (h : p + l ≤ b.size) :
    codeAt b p l = code (groupAt b p >>> UInt32.ofNat (18 - 6 * l)) := if_pos h

theorem codeAt_of_lt {l : Nat} (h : b.size < p + l) : codeAt b p l = pad := if_neg (Nat.not_le.mpr h)

private theorem toUTF8_encodeFrom (b : ByteArray) (i : Nat) (acc : String) :
    (encodeFrom b i acc).toUTF8 = acc.toUTF8 ++ copy (written b i) 0 (4 * ((b.size - i + 2) / 3)) := by
  fun_induction encodeFrom b i acc with
  | case1 i acc h n ih =>
    have hgroups : (b.size - i + 2) / 3 = (b.size - (i + 3) + 2) / 3 + 1 := by omega
    have hn : groupAt b i = n := by rw [groupAt, byte_of_lt, byte_of_lt, byte_of_lt]
    have hcodes : groupCodes b i =
        ⟨#[code (n >>> 18)]⟩ ++ ⟨#[code (n >>> 12)]⟩ ++ ⟨#[code (n >>> 6)]⟩ ++ ⟨#[code n]⟩ := by
      rw [groupCodes, codeAt_of_le (by omega), codeAt_of_le (by omega), codeAt_of_le (by omega),
        codeAt_of_le (by omega), hn]
      simp
    rw [ih, hgroups, copy_written, hcodes]
    simp only [toUTF8_push_symbol, ByteArray.append_assoc]
  | case2 i acc h h' n =>
    have hgroups : (b.size - i + 2) / 3 = 1 := by omega
    have hn : groupAt b i = n := by rw [groupAt, byte_of_lt, byte_of_lt, byte_of_le (by omega)]
    have hcodes : groupCodes b i =
        ⟨#[code (n >>> 18)]⟩ ++ ⟨#[code (n >>> 12)]⟩ ++ ⟨#[code (n >>> 6)]⟩ ++ ⟨#[pad]⟩ := by
      rw [groupCodes, codeAt_of_le (by omega), codeAt_of_le (by omega), codeAt_of_le (by omega),
        codeAt_of_lt (by omega), hn]
      simp
    rw [hgroups, copy_written_last, hcodes]
    simp only [toUTF8_push_symbol, toUTF8_push_pad, ByteArray.append_assoc]
  | case3 i acc h h' h'' n =>
    have hgroups : (b.size - i + 2) / 3 = 1 := by omega
    have hn : groupAt b i = n := by rw [groupAt, byte_of_lt, byte_of_le (by omega), byte_of_le (by omega)]
    have hcodes : groupCodes b i =
        ⟨#[code (n >>> 18)]⟩ ++ ⟨#[code (n >>> 12)]⟩ ++ ⟨#[pad]⟩ ++ ⟨#[pad]⟩ := by
      rw [groupCodes, codeAt_of_le (by omega), codeAt_of_le (by omega), codeAt_of_lt (by omega),
        codeAt_of_lt (by omega), hn]
      simp
    rw [hgroups, copy_written_last, hcodes]
    simp only [toUTF8_push_symbol, toUTF8_push_pad, ByteArray.append_assoc]
  | case4 i acc h h' h'' =>
    have hgroups : (b.size - i + 2) / 3 = 0 := by omega
    rw [hgroups]
    exact ByteArray.append_empty.symm

def codes (b : ByteArray) : ByteArray := copy (written b 0) 0 (4 * ((b.size + 2) / 3))

theorem toUTF8_encode (b : ByteArray) : (encode b).toUTF8 = codes b := by
  rw [encode, toUTF8_encodeFrom, Nat.sub_zero]
  exact ByteArray.empty_append

theorem size_codes : (codes b).size = 4 * ((b.size + 2) / 3) := size_copy ..

/-- Group `q` of the text is for the three bytes from `3 * q` on. -/
theorem byte_codes {q l : Nat} (hq : q < (b.size + 2) / 3) (hl : l < 4) :
    byte (codes b) (4 * q + l) = codeAt b (3 * q) l := by
  have hdiv : 0 + 3 * ((4 * q + l) / 4) = 3 * q := by omega
  have hmod : (4 * q + l) % 4 = l := by omega
  rw [codes, byte_copy (by omega), Nat.zero_add, written, hdiv, hmod]

/-! ## A text of bytes stands for itself between quotes -/

/-- A character that stands for itself between quotes. -/
def Plain (c : Char) : Prop := c ≠ '"' ∧ c ≠ '\\' ∧ 32 ≤ c.toNat

theorem plain_symbol (n : UInt32) : Plain (symbol n) :=
  forall_symbol (P := fun c _ => c ≠ '"' ∧ c ≠ '\\' ∧ 32 ≤ c.toNat) (by decide +kernel) n

theorem plain_of_mem_push {s : String} {c : Char} (hs : ∀ d ∈ s.toList, Plain d) (hc : Plain c) :
    ∀ d ∈ (s.push c).toList, Plain d := by
  intro d hd
  rw [String.toList_push] at hd
  rcases List.mem_append.mp hd with h | h
  · exact hs d h
  · exact List.mem_singleton.mp h ▸ hc

/-- No character of a text of bytes ends or blurs a string that it stands in. -/
theorem plain_encodeFrom (acc : String) (hacc : ∀ c ∈ acc.toList, Plain c) :
    ∀ c ∈ (encodeFrom b i acc).toList, Plain c := by
  have hpad : Plain '=' := ⟨by decide, by decide, by decide⟩
  fun_induction encodeFrom b i acc with
  | case1 i acc h n ih =>
    apply ih
    iterate 4 refine plain_of_mem_push ?_ (plain_symbol _)
    exact hacc
  | case2 i acc h h' n =>
    refine plain_of_mem_push ?_ hpad
    iterate 3 refine plain_of_mem_push ?_ (plain_symbol _)
    exact hacc
  | case3 i acc h h' h'' n =>
    iterate 2 refine plain_of_mem_push ?_ hpad
    iterate 2 refine plain_of_mem_push ?_ (plain_symbol _)
    exact hacc
  | case4 => exact hacc

theorem plain_encode (b : ByteArray) : ∀ c ∈ (encode b).toList, Plain c :=
  plain_encodeFrom "" fun _ hc => absurd hc List.not_mem_nil

/-! ## The bits of a group -/

theorem toNat_triple (b₀ b₁ b₂ : UInt8) :
    (triple b₀ b₁ b₂).toNat = (b₀.toNat * 2 ^ 8 + b₁.toNat) * 2 ^ 8 + b₂.toNat := by
  have hword : triple b₀ b₁ b₂ = wordOf 0 b₀ b₁ b₂ := by simp [triple, wordOf]
  rw [hword, toNat_wordOf]
  simp

theorem bytes_triple (b₀ b₁ b₂ : UInt8) :
    (triple b₀ b₁ b₂ >>> 16).toUInt8 = b₀ ∧ (triple b₀ b₁ b₂ >>> 8).toUInt8 = b₁ ∧
      (triple b₀ b₁ b₂).toUInt8 = b₂ := by
  have h₀ := b₀.toNat_lt
  have h₁ := b₁.toNat_lt
  have h₂ := b₂.toNat_lt
  refine ⟨?_, ?_, ?_⟩
  · apply UInt8.toNat_inj.mp
    simp [toNat_triple, Nat.shiftRight_eq_div_pow]
    omega
  · apply UInt8.toNat_inj.mp
    simp [toNat_triple, Nat.shiftRight_eq_div_pow]
    omega
  · apply UInt8.toNat_inj.mp
    simp [toNat_triple]

theorem toNat_sextet (n : UInt32) {s : Nat} (hs : s < 32) :
    (sextet n (UInt32.ofNat s)).toNat = n.toNat / 2 ^ s % 64 := by
  have hsize : UInt32.size = 2 ^ 32 := rfl
  have hshift : (UInt32.ofNat s).toNat = s := UInt32.toNat_ofNat_of_lt (by omega)
  rw [sextet, UInt32.toNat_ofNat', UInt32.toNat_shiftRight, hshift, Nat.mod_eq_of_lt hs, Nat.shiftRight_eq_div_pow]
  omega

theorem or_sextets {x₀ x₁ x₂ x₃ : Nat} (h₁ : x₁ < 64) (h₂ : x₂ < 64) (h₃ : x₃ < 64) :
    x₀ * 2 ^ 18 ||| x₁ * 2 ^ 12 ||| x₂ * 2 ^ 6 ||| x₃ = ((x₀ * 2 ^ 6 + x₁) * 2 ^ 6 + x₂) * 2 ^ 6 + x₃ := by
  have hfront : x₀ * 2 ^ 18 + x₁ * 2 ^ 12 = (x₀ * 2 ^ 6 + x₁) * 2 ^ 12 := by
    rw [Nat.add_mul, Nat.mul_assoc, ← Nat.pow_add]
  have hmiddle : (x₀ * 2 ^ 6 + x₁) * 2 ^ 12 + x₂ * 2 ^ 6 = ((x₀ * 2 ^ 6 + x₁) * 2 ^ 6 + x₂) * 2 ^ 6 := by
    rw [Nat.add_mul _ x₂, Nat.mul_assoc, ← Nat.pow_add]
  rw [or_digit (show x₁ * 2 ^ 12 < 2 ^ 18 by omega), hfront, or_digit (show x₂ * 2 ^ 6 < 2 ^ 12 by omega), hmiddle,
    or_digit h₃]

/-- The four values of a group make up its number. -/
theorem join_sextets {n : UInt32} (hn : n.toNat < 2 ^ 24) :
    (sextet n 18 <<< 18) ||| (sextet n 12 <<< 12) ||| (sextet n 6 <<< 6) ||| sextet n 0 = n := by
  have h₀ : (sextet n 18).toNat = n.toNat / 2 ^ 18 % 64 := toNat_sextet n (by decide)
  have h₁ : (sextet n 12).toNat = n.toNat / 2 ^ 12 % 64 := toNat_sextet n (by decide)
  have h₂ : (sextet n 6).toNat = n.toNat / 2 ^ 6 % 64 := toNat_sextet n (by decide)
  have h₃ : (sextet n 0).toNat = n.toNat / 2 ^ 0 % 64 := toNat_sextet n (by decide)
  apply UInt32.toNat_inj.mp
  simp only [UInt32.toNat_or, UInt32.toNat_shiftLeft, UInt32.reduceToNat, Nat.reduceMod, Nat.shiftLeft_eq]
  rw [Nat.mod_eq_of_lt (by omega), Nat.mod_eq_of_lt (by omega), Nat.mod_eq_of_lt (by omega),
    or_sextets (by omega) (by omega) (by omega)]
  omega

theorem toNat_sextets_triple (b₀ b₁ b₂ : UInt8) :
    (sextet (triple b₀ b₁ b₂) 18).toNat = b₀.toNat / 4 ∧
      (sextet (triple b₀ b₁ b₂) 12).toNat = b₀.toNat % 4 * 16 + b₁.toNat / 16 ∧
      (sextet (triple b₀ b₁ b₂) 6).toNat = b₁.toNat % 16 * 4 + b₂.toNat / 64 := by
  have h₀ := b₀.toNat_lt
  have h₁ := b₁.toNat_lt
  have h₂ := b₂.toNat_lt
  have hn := toNat_triple b₀ b₁ b₂
  refine ⟨(toNat_sextet _ (by decide : 18 < 32)).trans ?_, (toNat_sextet _ (by decide : 12 < 32)).trans ?_,
    (toNat_sextet _ (by decide : 6 < 32)).trans ?_⟩
  · omega
  · omega
  · omega

theorem first_of_sextets (b₀ b₁ b₂ : UInt8) :
    ((sextet (triple b₀ b₁ b₂) 18 <<< 2) ||| (sextet (triple b₀ b₁ b₂) 12 >>> 4)).toUInt8 = b₀ := by
  have h₀ := b₀.toNat_lt
  have h₁ := b₁.toNat_lt
  obtain ⟨hv₀, hv₁, -⟩ := toNat_sextets_triple b₀ b₁ b₂
  apply UInt8.toNat_inj.mp
  simp only [UInt32.toNat_toUInt8, UInt32.toNat_or, UInt32.toNat_shiftLeft, UInt32.toNat_shiftRight,
    UInt32.reduceToNat, Nat.reduceMod, Nat.shiftLeft_eq, Nat.shiftRight_eq_div_pow, hv₀, hv₁]
  rw [Nat.mod_eq_of_lt (show b₀.toNat / 4 * 2 ^ 2 < 2 ^ 32 by omega), or_digit (by omega)]
  omega

private theorem second_of_sextets (b₀ b₁ b₂ : UInt8) :
    ((sextet (triple b₀ b₁ b₂) 12 <<< 4) ||| (sextet (triple b₀ b₁ b₂) 6 >>> 2)).toUInt8 = b₁ := by
  have h₁ := b₁.toNat_lt
  have h₂ := b₂.toNat_lt
  obtain ⟨-, hv₁, hv₂⟩ := toNat_sextets_triple b₀ b₁ b₂
  apply UInt8.toNat_inj.mp
  simp only [UInt32.toNat_toUInt8, UInt32.toNat_or, UInt32.toNat_shiftLeft, UInt32.toNat_shiftRight,
    UInt32.reduceToNat, Nat.reduceMod, Nat.shiftLeft_eq, Nat.shiftRight_eq_div_pow, hv₁, hv₂]
  rw [Nat.mod_eq_of_lt (show (b₀.toNat % 4 * 16 + b₁.toNat / 16) * 2 ^ 4 < 2 ^ 32 by omega), or_digit (by omega)]
  omega

theorem and_mask_eq_zero {v mask : UInt32} {x k : Nat} (hv : v.toNat = x * 2 ^ k) (hmask : mask.toNat = 2 ^ k - 1) :
    v &&& mask = 0 := by
  apply UInt32.toNat_inj.mp
  rw [UInt32.toNat_and, hmask, Nat.and_two_pow_sub_one_eq_mod, hv]
  exact Nat.mul_mod_left x _

private theorem sextet_of_two (b₀ b₁ : UInt8) : sextet (triple b₀ b₁ 0) 6 &&& 0x3 = 0 := by
  have hzero : (0 : UInt8).toNat = 0 := rfl
  have hv := (toNat_sextets_triple b₀ b₁ 0).2.2
  rw [hzero, Nat.zero_div, Nat.add_zero] at hv
  exact and_mask_eq_zero (k := 2) hv rfl

private theorem sextet_of_one (b₀ : UInt8) : sextet (triple b₀ 0 0) 12 &&& 0xF = 0 := by
  have hzero : (0 : UInt8).toNat = 0 := rfl
  have hv := (toNat_sextets_triple b₀ 0 0).2.1
  rw [hzero, Nat.zero_div, Nat.add_zero] at hv
  exact and_mask_eq_zero (k := 4) hv rfl

theorem toNat_triple_lt (b₀ b₁ b₂ : UInt8) : (triple b₀ b₁ b₂).toNat < 2 ^ 24 := by
  have h₀ := b₀.toNat_lt
  have h₁ := b₁.toNat_lt
  have h₂ := b₂.toNat_lt
  rw [toNat_triple]
  omega

/-! ## Decoding -/

private theorem valueAt_code (i : Nat) (n s : UInt32) : valueAt i (code (n >>> s)) = .ok (sextet n s) := by
  rw [valueAt, value?_code]
  rfl

theorem extract_push (h : n < b.size) : (b.extract 0 n).push b[n] = b.extract 0 (n + 1) := by
  rw [ByteArray.extract_eq_extract_append_extract n (Nat.zero_le n) (Nat.le_succ n), ByteArray.extract_add_one h]
  generalize b.extract 0 n = a
  apply ByteArray.ext
  simp

private theorem decodeGroups_step {t acc : ByteArray} {stop : Nat} (hi : i < stop) (ht : i + 4 ≤ t.size)
    (hp : p + 3 ≤ b.size) (hcode : ∀ l, l < 4 → byte t (i + l) = codeAt b p l) :
    decodeGroups t i stop acc =
      decodeGroups t (i + 4) stop (((acc.push b[p]).push b[p + 1]).push b[p + 2]) := by
  have hgroup : groupAt b p = triple b[p] b[p + 1] b[p + 2] := by rw [groupAt, byte_of_lt, byte_of_lt, byte_of_lt]
  have hjoin := join_sextets (toNat_triple_lt b[p] b[p + 1] b[p + 2])
  obtain ⟨hb₀, hb₁, hb₂⟩ := bytes_triple b[p] b[p + 1] b[p + 2]
  have hread : ∀ l, l < 4 → ∀ h : i + l < t.size,
      valueAt (i + l) t[i + l] = .ok (sextet (groupAt b p) (UInt32.ofNat (18 - 6 * l))) := by
    intro l hl h
    rw [← byte_of_lt, hcode l hl, codeAt_of_le (by omega), valueAt_code]
  have h₀ : valueAt i t[i] = .ok (sextet (groupAt b p) 18) := hread 0 (by decide) _
  rw [decodeGroups, dif_pos ⟨hi, ht⟩, h₀, hread 1 (by decide), hread 2 (by decide), hread 3 (by decide), hgroup]
  simp only [bind, Except.bind]
  simp [hjoin, hb₀, hb₁, hb₂]

/-- The complete groups in front of the last one are read back. -/
theorem decodeGroups_codes {q r : Nat} (hr : 3 * (q + r) ≤ b.size) :
    decodeGroups (codes b) (4 * q) (4 * (q + r)) (b.extract 0 (3 * q)) = .ok (b.extract 0 (3 * (q + r))) := by
  have hsize := size_codes (b := b)
  induction r generalizing q with
  | zero =>
    rw [decodeGroups, dif_neg (by omega)]
    rfl
  | succ r ih =>
    have hstop : q + (r + 1) = (q + 1) + r := by omega
    rw [decodeGroups_step (b := b) (p := 3 * q) (by omega) (by omega) (by omega) fun l hl => byte_codes (by omega) hl,
      extract_push, extract_push, extract_push, hstop]
    exact ih (q := q + 1) (by omega)

/-- The last of the groups as it is cut off for its reader. -/
theorem toList_last {q : Nat} (hq : q + 1 = (b.size + 2) / 3) :
    ((codes b).extract (4 * q) (codes b).size).toList =
      [codeAt b (3 * q) 0, codeAt b (3 * q) 1, codeAt b (3 * q) 2, codeAt b (3 * q) 3] := by
  have hsize := size_codes (b := b)
  have hlast : (codes b).extract (4 * q) (codes b).size = groupCodes b (3 * q) := by
    apply ext_byte
    · rw [ByteArray.size_extract, size_groupCodes]
      omega
    · intro j hj
      rw [ByteArray.size_extract] at hj
      rw [byte_extract, if_pos (by omega), byte_codes (by omega) (by omega), byte_groupCodes (by omega)]
  rw [hlast]
  simp [groupCodes, ByteArray.toList, ByteArray.toList.loop, ByteArray.size, ByteArray.get!]

section LastGroup

variable {start index : Nat} {symbols : List (UInt8 × UInt32)} {rest : List UInt8}

theorem read_code {l : Nat} (h : p + l ≤ b.size) :
    LastGroup.read start index ⟨symbols, 0, 0⟩ (codeAt b p l :: rest) =
      LastGroup.read start (index + 1)
        ⟨(codeAt b p l, sextet (groupAt b p) (UInt32.ofNat (18 - 6 * l))) :: symbols, 0, 0⟩ rest := by
  rw [codeAt_of_le h, LastGroup.read, if_neg (code_ne_pad _), if_neg (Nat.lt_irrefl 0), value?_code]
  rfl

private theorem read_three (h : p + 3 ≤ b.size) :
    LastGroup.read start 0 ⟨[], 0, 0⟩ [codeAt b p 0, codeAt b p 1, codeAt b p 2, codeAt b p 3] =
      .ok ⟨[(codeAt b p 3, sextet (groupAt b p) 0), (codeAt b p 2, sextet (groupAt b p) 6),
        (codeAt b p 1, sextet (groupAt b p) 12), (codeAt b p 0, sextet (groupAt b p) 18)], 0, 0⟩ := by
  rw [read_code (by omega), read_code (by omega), read_code (by omega), read_code (by omega)]
  rfl

private theorem read_two (h : b.size = p + 2) :
    LastGroup.read start 0 ⟨[], 0, 0⟩ [codeAt b p 0, codeAt b p 1, codeAt b p 2, codeAt b p 3] =
      .ok ⟨[(codeAt b p 2, sextet (groupAt b p) 6), (codeAt b p 1, sextet (groupAt b p) 12),
        (codeAt b p 0, sextet (groupAt b p) 18)], 3, 1⟩ := by
  have hpad : codeAt b p 3 = pad := codeAt_of_lt (by omega)
  rw [read_code (by omega), read_code (by omega), read_code (by omega), hpad]
  rfl

private theorem read_one (h : b.size = p + 1) :
    LastGroup.read start 0 ⟨[], 0, 0⟩ [codeAt b p 0, codeAt b p 1, codeAt b p 2, codeAt b p 3] =
      .ok ⟨[(codeAt b p 1, sextet (groupAt b p) 12), (codeAt b p 0, sextet (groupAt b p) 18)], 2, 2⟩ := by
  have hpad₂ : codeAt b p 2 = pad := codeAt_of_lt (by omega)
  have hpad₃ : codeAt b p 3 = pad := codeAt_of_lt (by omega)
  rw [read_code (by omega), read_code (by omega), hpad₂, hpad₃]
  rfl

/-- With the last group the bytes are complete. -/
theorem append_last {q : Nat} (hq : q + 1 = (b.size + 2) / 3) :
    ((LastGroup.read (4 * q) 0 ⟨[], 0, 0⟩
        [codeAt b (3 * q) 0, codeAt b (3 * q) 1, codeAt b (3 * q) 2, codeAt b (3 * q) 3]).bind fun last =>
      last.append (4 * q) (b.extract 0 (3 * q))) = .ok b := by
  -- The last group may be complete, or one or two bytes short; the padding tells which.
  have hleft : b.size = 3 * q + 3 ∨ b.size = 3 * q + 2 ∨ b.size = 3 * q + 1 := by omega
  have hall : ∀ n, b.size = n → b.extract 0 n = b := by
    rintro _ rfl
    exact ByteArray.extract_zero_size
  rcases hleft with hsize | hsize | hsize
  · have hgroup : groupAt b (3 * q) = triple b[3 * q] b[3 * q + 1] b[3 * q + 2] := by
      rw [groupAt, byte_of_lt, byte_of_lt, byte_of_lt]
    have hjoin := join_sextets (toNat_triple_lt b[3 * q] b[3 * q + 1] b[3 * q + 2])
    obtain ⟨hb₀, hb₁, hb₂⟩ := bytes_triple b[3 * q] b[3 * q + 1] b[3 * q + 2]
    rw [read_three (by omega), hgroup]
    simp only [Except.bind, LastGroup.append]
    rw [hjoin, hb₀, hb₁, hb₂, extract_push, extract_push, extract_push, hall _ hsize]
  · have hgroup : groupAt b (3 * q) = triple b[3 * q] b[3 * q + 1] 0 := by
      rw [groupAt, byte_of_lt, byte_of_lt, byte_of_le (by omega)]
    rw [read_two hsize, hgroup]
    simp only [Except.bind, LastGroup.append, if_true]
    rw [if_pos (sextet_of_two _ _), first_of_sextets, second_of_sextets, extract_push, extract_push, hall _ hsize]
  · have hgroup : groupAt b (3 * q) = triple b[3 * q] 0 0 := by
      rw [groupAt, byte_of_lt, byte_of_le (by omega), byte_of_le (by omega)]
    rw [read_one hsize, hgroup]
    simp only [Except.bind, LastGroup.append, if_true]
    rw [if_pos (sextet_of_one _), first_of_sextets, extract_push, hall _ hsize]

end LastGroup

theorem empty_of_capacity (n : Nat) : ByteArray.emptyWithCapacity n = ByteArray.empty := rfl

private theorem decodeBytes_empty : decodeBytes ByteArray.empty = .ok ByteArray.empty := by
  have hfront : decodeGroups ByteArray.empty 0 0 ByteArray.empty = .ok ByteArray.empty := by
    rw [decodeGroups, dif_neg (fun h => absurd h.1 (Nat.not_lt_zero 0))]
  have hlist : ByteArray.empty.toList = [] := by
    simp [ByteArray.toList, ByteArray.toList.loop]
  simp [decodeBytes, strayLast?, lastStart, empty_of_capacity, hfront, hlist, LastGroup.read, LastGroup.append,
    bind, Except.bind]

/-- The text of bytes is decoded to the same bytes. -/
theorem decode_encode (b : ByteArray) : decode (encode b) = .ok b := by
  have hsize := size_codes (b := b)
  rw [decode, toUTF8_encode]
  by_cases hb : b.size = 0
  · have hcodes : codes b = ByteArray.empty := ByteArray.size_eq_zero_iff.mp (by omega)
    have hempty : b = ByteArray.empty := ByteArray.size_eq_zero_iff.mp hb
    rw [hcodes, hempty]
    exact decodeBytes_empty
  · obtain ⟨q, hq⟩ : ∃ q, q + 1 = (b.size + 2) / 3 := ⟨(b.size + 2) / 3 - 1, by omega⟩
    have hstray : strayLast? (codes b) = none := if_neg (by omega)
    have hstart : lastStart (codes b).size = 4 * (0 + q) := by
      rw [lastStart, if_pos (by omega)]
      omega
    have hnone : ByteArray.empty = b.extract 0 (3 * 0) := by
      apply ByteArray.ext
      simp
    have hfront := decodeGroups_codes (b := b) (q := 0) (r := q) (by omega)
    rw [decodeBytes, hstray]
    simp only [bind, Except.bind]
    rw [empty_of_capacity, hnone, hstart, hfront]
    simp only [Nat.zero_add]
    rw [toList_last hq]
    exact append_last hq

end ConsoleBridge.Base64

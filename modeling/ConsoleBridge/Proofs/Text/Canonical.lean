import ConsoleBridge.Proofs.Text.Base64

/-!
# Only the text of some bytes decodes

The decoder takes no text but the one that encoding gives: each symbol stands for six bits, the padding for what
is missing of the last group, and no bit is left over.
-/
namespace ConsoleBridge

/-- What came of two steps came of the second one, behind the first. -/
theorem exists_of_bind {α β ε : Type} {x : Except ε α} {f : α → Except ε β} {y : β}
    (h : x.bind f = .ok y) : ∃ v, x = .ok v ∧ f v = .ok y := by
  cases x with
  | error e => cases h
  | ok v => exact ⟨v, rfl, h⟩

namespace Base64

open Bytes

variable {a b : ByteArray} {c : UInt8} {v v₀ v₁ v₂ v₃ : UInt32}

/-- Behind whole groups the codes of further bytes are appended. -/
theorem codes_append (ha : a.size % 3 = 0) : codes (a ++ b) = codes a ++ codes b := by
  have hsize : (a ++ b).size = a.size + b.size := ByteArray.size_append
  apply ext_byte
  · rw [ByteArray.size_append, size_codes, size_codes, size_codes]
    omega
  · intro j hj
    rw [size_codes] at hj
    obtain ⟨q, l, hl, rfl⟩ : ∃ q l, l < 4 ∧ j = 4 * q + l := ⟨j / 4, j % 4, by omega, by omega⟩
    rw [byte_append, size_codes, byte_codes (by omega) hl]
    by_cases hq : 4 * q + l < 4 * ((a.size + 2) / 3)
    · rw [if_pos hq, byte_codes (by omega) hl, codeAt, codeAt, if_pos (by omega), if_pos (by omega), groupAt, groupAt,
        byte_append, byte_append, byte_append, if_pos (by omega), if_pos (by omega), if_pos (by omega)]
    · have hplace : 4 * q + l - 4 * ((a.size + 2) / 3) = 4 * (q - a.size / 3) + l := by omega
      have hgroup : groupAt (a ++ b) (3 * q) = groupAt b (3 * (q - a.size / 3)) := by
        have hthree : ∀ k, byte (a ++ b) (3 * q + k) = byte b (3 * (q - a.size / 3) + k) := by
          intro k
          rw [byte_append, if_neg (by omega)]
          exact congrArg (byte b) (by omega)
        have hfirst := hthree 0
        rw [Nat.add_zero, Nat.add_zero] at hfirst
        rw [groupAt, groupAt, hfirst, hthree, hthree]
      have hin : 3 * q + l ≤ a.size + b.size ↔ 3 * (q - a.size / 3) + l ≤ b.size := by omega
      rw [if_neg hq, hplace, byte_codes (by omega) hl, codeAt, codeAt, hgroup, hsize]
      simp only [hin]

/-- A symbol is told by its value. -/
theorem code_of_value (hc : value? c = some v) : code v = c ∧ v.toNat < 64 := by
  have hall : ∀ k : Fin 256,
      (value? (UInt8.ofNat k)).all (fun v => code v == UInt8.ofNat k && decide (v.toNat < 64)) = true := by
    decide +kernel
  have hcode := hall ⟨c.toNat, c.toNat_lt⟩
  rw [UInt8.ofNat_toNat, hc] at hcode
  simpa using hcode

section Short

variable (x y z : UInt8)

/-- The codes of up to three bytes are one group. -/
theorem codes_of_short (hb : 0 < b.size ∧ b.size ≤ 3) : codes b = groupCodes b 0 := by
  have hgroups : (b.size + 2) / 3 = 1 := by omega
  rw [codes, hgroups, copy_written_last]

private theorem codes_three :
    codes ⟨#[x, y, z]⟩ =
      ⟨#[code (triple x y z >>> UInt32.ofNat 18), code (triple x y z >>> UInt32.ofNat 12),
        code (triple x y z >>> UInt32.ofNat 6), code (triple x y z >>> UInt32.ofNat 0)]⟩ :=
  codes_of_short ⟨Nat.succ_pos 2, Nat.le_refl 3⟩

private theorem codes_two :
    codes ⟨#[x, y]⟩ =
      ⟨#[code (triple x y 0 >>> UInt32.ofNat 18), code (triple x y 0 >>> UInt32.ofNat 12),
        code (triple x y 0 >>> UInt32.ofNat 6), pad]⟩ :=
  codes_of_short ⟨Nat.succ_pos 1, Nat.le_succ 2⟩

private theorem codes_one :
    codes ⟨#[x]⟩ =
      ⟨#[code (triple x 0 0 >>> UInt32.ofNat 18), code (triple x 0 0 >>> UInt32.ofNat 12), pad, pad]⟩ :=
  codes_of_short ⟨Nat.succ_pos 0, Nat.le_add_left 1 2⟩

end Short

private theorem code_congr {m n : UInt32} (h : m.toNat % 64 = n.toNat % 64) : code m = code n := by
  rw [code, code, symbol_congr h]

def quad (v₀ v₁ v₂ v₃ : UInt32) : UInt32 := (v₀ <<< 18) ||| (v₁ <<< 12) ||| (v₂ <<< 6) ||| v₃

theorem toNat_quad (h₀ : v₀.toNat < 64) (h₁ : v₁.toNat < 64) (h₂ : v₂.toNat < 64) (h₃ : v₃.toNat < 64) :
    (quad v₀ v₁ v₂ v₃).toNat =
      ((v₀.toNat * 2 ^ 6 + v₁.toNat) * 2 ^ 6 + v₂.toNat) * 2 ^ 6 + v₃.toNat := by
  simp only [quad, UInt32.toNat_or, UInt32.toNat_shiftLeft, UInt32.reduceToNat, Nat.reduceMod, Nat.shiftLeft_eq]
  rw [Nat.mod_eq_of_lt (by omega), Nat.mod_eq_of_lt (by omega), Nat.mod_eq_of_lt (by omega), or_sextets h₁ h₂ h₃]

/-- The symbol at the given place of a group is told by the value that the number has there. -/
theorem code_shifted {n : UInt32} {s : Nat} (hs : s < 32) (h : n.toNat / 2 ^ s % 64 = v.toNat) :
    code (n >>> UInt32.ofNat s) = code v := by
  have hshift : (UInt32.ofNat s).toNat = s :=
    UInt32.toNat_ofNat_of_lt (by rw [show UInt32.size = 2 ^ 32 from rfl]; omega)
  apply code_congr
  rw [UInt32.toNat_shiftRight, hshift, Nat.mod_eq_of_lt hs, Nat.shiftRight_eq_div_pow]
  omega

/-- The three bytes of a whole group are written as its four symbols. -/
theorem codes_quad (h₀ : v₀.toNat < 64) (h₁ : v₁.toNat < 64) (h₂ : v₂.toNat < 64) (h₃ : v₃.toNat < 64) :
    codes ⟨#[(quad v₀ v₁ v₂ v₃ >>> 16).toUInt8, (quad v₀ v₁ v₂ v₃ >>> 8).toUInt8, (quad v₀ v₁ v₂ v₃).toUInt8]⟩ =
      ⟨#[code v₀, code v₁, code v₂, code v₃]⟩ := by
  have hn := toNat_quad h₀ h₁ h₂ h₃
  generalize quad v₀ v₁ v₂ v₃ = n at hn ⊢
  have htriple : (triple (n >>> 16).toUInt8 (n >>> 8).toUInt8 n.toUInt8).toNat = n.toNat := by
    rw [toNat_triple]
    simp [Nat.shiftRight_eq_div_pow]
    omega
  have hplace : ∀ s < 32, ∀ v : UInt32, n.toNat / 2 ^ s % 64 = v.toNat →
      code (triple (n >>> 16).toUInt8 (n >>> 8).toUInt8 n.toUInt8 >>> UInt32.ofNat s) = code v := by
    intro s hs v hv
    exact code_shifted hs (by rw [htriple, hv])
  rw [codes_three, hplace 18 (by decide) v₀ (by omega), hplace 12 (by decide) v₁ (by omega),
    hplace 6 (by decide) v₂ (by omega), hplace 0 (by decide) v₃ (by omega)]

theorem toNat_first (h₀ : v₀.toNat < 64) (h₁ : v₁.toNat < 64) :
    ((v₀ <<< 2) ||| (v₁ >>> 4)).toUInt8.toNat = v₀.toNat * 4 + v₁.toNat / 16 := by
  simp only [UInt32.toNat_toUInt8, UInt32.toNat_or, UInt32.toNat_shiftLeft, UInt32.toNat_shiftRight,
    UInt32.reduceToNat, Nat.reduceMod, Nat.shiftLeft_eq, Nat.shiftRight_eq_div_pow]
  rw [Nat.mod_eq_of_lt (show v₀.toNat * 2 ^ 2 < 2 ^ 32 by omega), or_digit (by omega)]
  omega

theorem toNat_second (h₁ : v₁.toNat < 64) (h₂ : v₂.toNat < 64) :
    ((v₁ <<< 4) ||| (v₂ >>> 2)).toUInt8.toNat = v₁.toNat % 16 * 16 + v₂.toNat / 4 := by
  simp only [UInt32.toNat_toUInt8, UInt32.toNat_or, UInt32.toNat_shiftLeft, UInt32.toNat_shiftRight,
    UInt32.reduceToNat, Nat.reduceMod, Nat.shiftLeft_eq, Nat.shiftRight_eq_div_pow]
  rw [Nat.mod_eq_of_lt (show v₁.toNat * 2 ^ 4 < 2 ^ 32 by omega), or_digit (by omega)]
  omega

theorem mod_of_and_mask {mask : UInt32} {k : Nat} (hmask : mask.toNat = 2 ^ k - 1) (h : v &&& mask = 0) :
    v.toNat % 2 ^ k = 0 := by
  have hand := congrArg UInt32.toNat h
  rw [UInt32.toNat_and, hmask, Nat.and_two_pow_sub_one_eq_mod] at hand
  exact hand

/-- Two bytes are written as three symbols of which the last one has no bit over. -/
theorem codes_pair (h₀ : v₀.toNat < 64) (h₁ : v₁.toNat < 64) (h₂ : v₂.toNat < 64) (hover : v₂ &&& 0x3 = 0) :
    codes ⟨#[((v₀ <<< 2) ||| (v₁ >>> 4)).toUInt8, ((v₁ <<< 4) ||| (v₂ >>> 2)).toUInt8]⟩ =
      ⟨#[code v₀, code v₁, code v₂, pad]⟩ := by
  have hrest : v₂.toNat % 2 ^ 2 = 0 := mod_of_and_mask rfl hover
  have hx := toNat_first h₀ h₁
  have hy := toNat_second h₁ h₂
  generalize ((v₀ <<< 2) ||| (v₁ >>> 4)).toUInt8 = x at hx ⊢
  generalize ((v₁ <<< 4) ||| (v₂ >>> 2)).toUInt8 = y at hy ⊢
  have hn := toNat_triple x y 0
  rw [hx, hy, show (0 : UInt8).toNat = 0 from rfl] at hn
  rw [codes_two, code_shifted (s := 18) (v := v₀) (by decide) (by omega),
    code_shifted (s := 12) (v := v₁) (by decide) (by omega), code_shifted (s := 6) (v := v₂) (by decide) (by omega)]

/-- One byte is written as two symbols of which the last one has no bit over. -/
theorem codes_single (h₀ : v₀.toNat < 64) (h₁ : v₁.toNat < 64) (hover : v₁ &&& 0xF = 0) :
    codes ⟨#[((v₀ <<< 2) ||| (v₁ >>> 4)).toUInt8]⟩ = ⟨#[code v₀, code v₁, pad, pad]⟩ := by
  have hrest : v₁.toNat % 2 ^ 4 = 0 := mod_of_and_mask rfl hover
  have hx := toNat_first h₀ h₁
  generalize ((v₀ <<< 2) ||| (v₁ >>> 4)).toUInt8 = x at hx ⊢
  have hn := toNat_triple x 0 0
  rw [hx, show (0 : UInt8).toNat = 0 from rfl] at hn
  rw [codes_one, code_shifted (s := 18) (v := v₀) (by decide) (by omega),
    code_shifted (s := 12) (v := v₁) (by decide) (by omega)]

theorem code_of_valueAt {i : Nat} (h : valueAt i c = .ok v) : code v = c ∧ v.toNat < 64 := by
  rw [valueAt] at h
  split at h
  · rename_i hc
    cases h
    exact code_of_value hc
  · cases h

private theorem push_one (a : ByteArray) (x : UInt8) : a.push x = a ++ ⟨#[x]⟩ := by
  apply ByteArray.ext
  apply Array.ext'
  simp

private theorem push_two (a : ByteArray) (x y : UInt8) : (a.push x).push y = a ++ ⟨#[x, y]⟩ := by
  apply ByteArray.ext
  apply Array.ext'
  simp

theorem push_three (a : ByteArray) (x y z : UInt8) : ((a.push x).push y).push z = a ++ ⟨#[x, y, z]⟩ := by
  apply ByteArray.ext
  apply Array.ext'
  simp

private theorem extract_four {t : ByteArray} {i : Nat} (h₀ : i < t.size) (h₁ : i + 1 < t.size) (h₂ : i + 2 < t.size)
    (h₃ : i + 3 < t.size) :
    t.extract 0 (i + 4) = t.extract 0 i ++ ⟨#[t[i], t[i + 1], t[i + 2], t[i + 3]]⟩ := by
  rw [← extract_push (n := i + 3) (by omega), ← extract_push (n := i + 2) (by omega),
    ← extract_push (n := i + 1) (by omega), ← extract_push (n := i) (by omega)]
  apply ByteArray.ext
  apply Array.ext'
  simp

/-- The complete groups in front of the last one are the codes of their bytes. -/
theorem codes_of_decodeGroups {t acc front : ByteArray} {i stop : Nat} (hi : i % 4 = 0) (hstop : stop % 4 = 0)
    (hle : i ≤ stop) (ht : stop ≤ t.size) (hacc : acc.size % 3 = 0) (hcodes : codes acc = t.extract 0 i)
    (h : decodeGroups t i stop acc = .ok front) : front.size % 3 = 0 ∧ codes front = t.extract 0 stop := by
  fun_induction decodeGroups t i stop acc with
  | case1 i acc hin ih =>
    obtain ⟨v₀, hv₀, h⟩ := exists_of_bind h
    obtain ⟨v₁, hv₁, h⟩ := exists_of_bind h
    obtain ⟨v₂, hv₂, h⟩ := exists_of_bind h
    obtain ⟨v₃, hv₃, h⟩ := exists_of_bind h
    obtain ⟨hc₀, h₀⟩ := code_of_valueAt hv₀
    obtain ⟨hc₁, h₁⟩ := code_of_valueAt hv₁
    obtain ⟨hc₂, h₂⟩ := code_of_valueAt hv₂
    obtain ⟨hc₃, h₃⟩ := code_of_valueAt hv₃
    apply ih v₀ v₁ v₂ v₃ (by omega) (by omega) _ _ h
    · rw [push_three, ByteArray.size_append]
      exact (Nat.add_mod_right acc.size 3).trans hacc
    · have hquad := codes_quad h₀ h₁ h₂ h₃
      rw [quad] at hquad
      have hfour := extract_four (t := t) (i := i) (by omega) (by omega) (by omega) (by omega)
      rw [push_three, codes_append hacc, hquad, hcodes, hfour, hc₀, hc₁, hc₂, hc₃]
  | case2 i acc hin =>
    have hend : i = stop := by omega
    cases h
    exact ⟨hacc, hend ▸ hcodes⟩

structure Told (g : LastGroup) (seen : List UInt8) : Prop where
  bytes : seen = (g.symbols.map Prod.fst).reverse ++ List.replicate g.pads pad
  values : ∀ p ∈ g.symbols, value? p.1 = some p.2

theorem Told.read {g last : LastGroup} {seen rest : List UInt8} {start index : Nat} (hg : Told g seen)
    (h : LastGroup.read start index g rest = .ok last) : Told last (seen ++ rest) := by
  induction rest generalizing g seen index with
  | nil =>
    cases h
    rwa [List.append_nil]
  | cons b rest ih =>
    have hsplit : seen ++ b :: rest = (seen ++ [b]) ++ rest := by simp
    rw [LastGroup.read] at h
    rw [hsplit]
    split at h
    · rename_i hpad
      split at h
      · cases h
      · refine ih ?_ h
        exact ⟨by rw [hg.bytes, hpad, List.replicate_succ', List.append_assoc], hg.values⟩
    · split at h
      · cases h
      · rename_i hpads
        split at h
        · rename_i v hv
          refine ih ⟨?_, ?_⟩ h
          · have hnone : g.pads = 0 := by omega
            rw [hg.bytes, hnone]
            simp
          · exact List.forall_mem_cons.mpr ⟨hv, hg.values⟩
        · cases h

/-- The last group is the codes of its bytes. -/
theorem codes_of_append {g : LastGroup} {seen : List UInt8} {start : Nat} {front : ByteArray} (hg : Told g seen)
    (hseen : seen.length ≤ 4) (h : g.append start front = .ok b) :
    ∃ x, b = front ++ x ∧ codes x = ⟨seen.toArray⟩ := by
  obtain ⟨symbols, padStart, pads⟩ := g
  obtain ⟨rfl, hvalues⟩ := hg
  match symbols with
  | [] =>
    simp only [LastGroup.append] at h
    split at h
    · rename_i hempty
      cases h
      refine ⟨ByteArray.empty, ByteArray.append_empty.symm, ?_⟩
      rw [hempty.2]
      rfl
    · cases h
  | [_] => cases h
  | [(c₁, v₁), (c₀, v₀)] =>
    obtain ⟨hc₁, h₁⟩ := code_of_value (hvalues (c₁, v₁) (by simp))
    obtain ⟨hc₀, h₀⟩ := code_of_value (hvalues (c₀, v₀) (by simp))
    simp only [LastGroup.append] at h
    split at h
    · rename_i hpads
      split at h
      · rename_i hover
        cases h
        refine ⟨⟨#[((v₀ <<< 2) ||| (v₁ >>> 4)).toUInt8]⟩, push_one .., ?_⟩
        rw [codes_single h₀ h₁ hover, hc₀, hc₁, hpads]
        rfl
      · cases h
    · cases h
  | [(c₂, v₂), (c₁, v₁), (c₀, v₀)] =>
    obtain ⟨hc₂, h₂⟩ := code_of_value (hvalues (c₂, v₂) (by simp))
    obtain ⟨hc₁, h₁⟩ := code_of_value (hvalues (c₁, v₁) (by simp))
    obtain ⟨hc₀, h₀⟩ := code_of_value (hvalues (c₀, v₀) (by simp))
    simp only [LastGroup.append] at h
    split at h
    · rename_i hpads
      split at h
      · rename_i hover
        cases h
        refine ⟨⟨#[((v₀ <<< 2) ||| (v₁ >>> 4)).toUInt8, ((v₁ <<< 4) ||| (v₂ >>> 2)).toUInt8]⟩, push_two .., ?_⟩
        rw [codes_pair h₀ h₁ h₂ hover, hc₀, hc₁, hc₂, hpads]
        rfl
      · cases h
    · cases h
  | (c₃, v₃) :: (c₂, v₂) :: (c₁, v₁) :: (c₀, v₀) :: symbols =>
    obtain ⟨hc₃, h₃⟩ := code_of_value (hvalues (c₃, v₃) (by simp))
    obtain ⟨hc₂, h₂⟩ := code_of_value (hvalues (c₂, v₂) (by simp))
    obtain ⟨hc₁, h₁⟩ := code_of_value (hvalues (c₁, v₁) (by simp))
    obtain ⟨hc₀, h₀⟩ := code_of_value (hvalues (c₀, v₀) (by simp))
    simp only [List.length_append, List.length_reverse, List.length_map, List.length_cons, List.length_replicate]
      at hseen
    have hnone : symbols = [] := List.eq_nil_of_length_eq_zero (by omega)
    have hpads : pads = 0 := by omega
    subst hnone hpads
    cases h
    refine ⟨_, push_three .., ?_⟩
    have hquad := codes_quad h₀ h₁ h₂ h₃
    rw [quad] at hquad
    rw [hquad, hc₀, hc₁, hc₂, hc₃]
    rfl

theorem toList_loop (b : ByteArray) (i : Nat) (r : List UInt8) :
    ByteArray.toList.loop b i r = r.reverse ++ b.data.toList.drop i := by
  fun_induction ByteArray.toList.loop b i r with
  | case1 i r hi ih =>
    have hget : b.get! i = b.data.toList.get ⟨i, hi⟩ := getElem!_pos b.data i hi
    rw [ih, List.reverse_cons, List.append_assoc, List.drop_eq_getElem_cons hi, hget]
    rfl
  | case2 i r hi => rw [List.drop_eq_nil_of_le (Nat.not_lt.mp hi), List.append_nil]

private theorem toArray_toList (b : ByteArray) : ⟨b.toList.toArray⟩ = b := by
  apply ByteArray.ext
  rw [ByteArray.toList, toList_loop]
  simp

private theorem codes_of_decodeBytes {t : ByteArray} (h : decodeBytes t = .ok b) : codes b = t := by
  rw [decodeBytes] at h
  split at h
  · cases h
  · obtain ⟨front, hfront, h⟩ := exists_of_bind h
    obtain ⟨last, hlast, h⟩ := exists_of_bind h
    have hstart : lastStart t.size % 4 = 0 ∧ lastStart t.size ≤ t.size ∧ t.size ≤ lastStart t.size + 4 := by
      rw [lastStart]
      split
      · omega
      · omega
    have hempty : codes (ByteArray.emptyWithCapacity (t.size / 4 * 3)) = t.extract 0 0 := by
      rw [empty_of_capacity]
      apply ByteArray.ext
      rw [ByteArray.data_extract, Array.extract_zero]
      rfl
    obtain ⟨hsize, hcodes⟩ :=
      codes_of_decodeGroups rfl hstart.1 (Nat.zero_le _) hstart.2.1 rfl hempty hfront
    have hwhole : t.extract 0 (lastStart t.size) ++ t.extract (lastStart t.size) t.size = t := by
      rw [← ByteArray.extract_eq_extract_append_extract _ (Nat.zero_le _) hstart.2.1, ByteArray.extract_zero_size]
    have hlast' := toArray_toList (t.extract (lastStart t.size) t.size)
    have htold : Told ⟨[], 0, 0⟩ [] := ⟨rfl, List.forall_mem_nil _⟩
    have hlength : (t.extract (lastStart t.size) t.size).toList.length ≤ 4 := by
      have hcount := congrArg ByteArray.size hlast'
      rw [ByteArray.size_extract] at hcount
      have hlist : (⟨(t.extract (lastStart t.size) t.size).toList.toArray⟩ : ByteArray).size =
          (t.extract (lastStart t.size) t.size).toList.length := rfl
      omega
    obtain ⟨x, rfl, hx⟩ := codes_of_append (htold.read hlast) hlength h
    rw [codes_append hsize, hcodes, hx, List.nil_append, hlast', hwhole]

/-- Only the text that encoding gives for some bytes is decoded. -/
theorem decode_eq_ok_iff {s : String} : decode s = .ok b ↔ s = encode b := by
  constructor
  · intro h
    have hcodes := codes_of_decodeBytes h
    rw [← toUTF8_encode] at hcodes
    exact (String.toByteArray_inj.mp hcodes).symm
  · rintro rfl
    exact decode_encode b

/-- The text stands for bytes and is the one that is written for them. -/
def Canonical (s : String) : Prop := ∃ b, decode s = .ok b ∧ encode b = s

theorem canonical_iff {s : String} : Canonical s ↔ ∃ b, s = encode b := by
  constructor
  · rintro ⟨b, _, hs⟩
    exact ⟨b, hs.symm⟩
  · rintro ⟨b, rfl⟩
    exact ⟨b, decode_encode b, rfl⟩

end Base64

end ConsoleBridge

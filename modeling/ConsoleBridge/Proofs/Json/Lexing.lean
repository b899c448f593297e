import ConsoleBridge.Json.Lexer
import ConsoleBridge.Json.Writer

/-!
# What is written is cut into the same tokens

A mark or a word is one token, a string is read back past all its escapes, and a whole number is read back
where something follows that cannot belong to it.
-/
namespace ConsoleBridge.Json

open Lexer

variable {acc s : String} {c : Char} {cs ds rest : List Char} {t : Token} {n : Nat}

/-- The tokens that were read before stay in front. -/
theorem tokensFrom_eq (ts : List Token) (cs : List Char) : tokensFrom ts cs = ts.reverse ++ tokens cs := by
  -- The readers skip any number of characters at once, so the theorem recurs as the definition does.
  rw [tokens]
  match cs with
  | [] => simp [tokensFrom]
  | c :: cs =>
    rw [tokensFrom, tokensFrom]
    split
    · exact tokensFrom_eq ts cs
    · split
      · rename_i t left hleft heq
        rw [tokensFrom_eq (t :: ts) left, tokensFrom_eq [t] left]
        simp
      · simp
termination_by cs.length

theorem tokens_nil : tokens [] = [] := by
  rw [tokens, tokensFrom]
  rfl

def Takes (k : Taken cs) (t : Token) (rest : List Char) : Prop := ∃ h, k = (t, some ⟨rest, h⟩)

theorem tokens_cons (hc : isBlank c = false) (ht : Takes (takeAfter c cs) t rest) :
    tokens (c :: cs) = t :: tokens rest := by
  obtain ⟨h, heq⟩ := ht
  rw [tokens, tokensFrom, hc, heq]
  exact tokensFrom_eq [t] rest

theorem tokens_blank (hc : isBlank c = true) : tokens (c :: cs) = tokens cs := by
  rw [tokens, tokensFrom, if_pos hc]
  rfl

theorem takes_single (t : Token) (cs : List Char) : Takes (single t cs) t cs := ⟨Nat.le_refl _, rfl⟩

section Marks

theorem tokens_openObject : tokens ('\x7b' :: rest) = .openObject :: tokens rest := tokens_cons rfl (takes_single ..)

theorem tokens_closeObject : tokens ('\x7d' :: rest) = .closeObject :: tokens rest := tokens_cons rfl (takes_single ..)

theorem tokens_openArray : tokens ('[' :: rest) = .openArray :: tokens rest := tokens_cons rfl (takes_single ..)

theorem tokens_closeArray : tokens (']' :: rest) = .closeArray :: tokens rest := tokens_cons rfl (takes_single ..)

theorem tokens_comma : tokens (',' :: rest) = .comma :: tokens rest := tokens_cons rfl (takes_single ..)

theorem tokens_colon : tokens (':' :: rest) = .colon :: tokens rest := tokens_cons rfl (takes_single ..)

end Marks

section Words

theorem takes_word (expected : List Char) : Takes (takeWord t expected (expected ++ rest)) t rest := by
  induction expected with
  | nil => exact takes_single t rest
  | cons e expected ih =>
    obtain ⟨h, heq⟩ := ih
    exact ⟨Nat.le_succ_of_le h, by simp only [List.cons_append, takeWord, if_true, heq]⟩

theorem tokens_null : tokens ("null".toList ++ rest) = .null :: tokens rest :=
  tokens_cons rfl (takes_word "ull".toList)

theorem tokens_bool (b : Bool) : tokens ((if b then "true" else "false").toList ++ rest) = .bool b :: tokens rest := by
  cases b with
  | true => exact tokens_cons rfl (takes_word "rue".toList)
  | false => exact tokens_cons rfl (takes_word "alse".toList)

end Words

section Strings

/-- The ways to write a character between quotes: as it stands, by an escape of its own, or by the four digits of its
code or of each half of a surrogate pair. -/
inductive CharSpelled : Char → List Char → Prop
  | plain {c : Char} (hq : c ≠ '"') (hb : c ≠ '\\') (hc : 32 ≤ c.toNat) : CharSpelled c [c]
  | simple {c d : Char} (hd : simpleEscape? d = some c) : CharSpelled c ['\\', d]
  | quad {a b c d : Char} {n : Nat} (hn : hexQuad? a b c d = some n) (hlow : isLowHalf n = false)
      (hhigh : isHighHalf n = false) : CharSpelled (Char.ofNat n) ['\\', 'u', a, b, c, d]
  | pair {a b c d e f g h : Char} {n m : Nat} (hn : hexQuad? a b c d = some n) (hhigh : isHighHalf n = true)
      (hm : hexQuad? e f g h = some m) (hlow : isLowHalf m = true) :
      CharSpelled (joinHalves n m) ['\\', 'u', a, b, c, d, '\\', 'u', e, f, g, h]

/-- The ways to write the characters of a string between its quotes. -/
inductive TextSpelled : List Char → List Char → Prop
  | nil : TextSpelled [] []
  | cons {c : Char} {us cs vs : List Char} (hc : CharSpelled c us) (hcs : TextSpelled cs vs) :
      TextSpelled (c :: cs) (us ++ vs)

private theorem not_isLowHalf {n : Nat} (hhigh : isHighHalf n = true) : isLowHalf n = false := by
  simp only [isHighHalf, Bool.and_eq_true, decide_eq_true_eq] at hhigh
  rw [isLowHalf, Bool.and_eq_false_iff]
  exact .inl (decide_eq_false (by omega))

private theorem readText_spelled_char {us : List Char} (hc : CharSpelled c us) (acc : String) (rest : List Char) :
    readText acc (us ++ rest) = readText (acc.push c) rest := by
  cases hc with
  | plain hq hb hc =>
    rw [List.singleton_append, readText]
    · rw [if_neg (by omega)]
    · exact hq
    all_goals simp [hb]
  | @simple c d hd =>
    have hu : d ≠ 'u' := by
      rintro rfl
      cases hd
    change readText acc ('\\' :: d :: rest) = _
    rw [readText]
    · rw [hd]
    all_goals simp [hu]
  | @quad a b c d n hn hlow hhigh =>
    change readText acc ('\\' :: 'u' :: a :: b :: c :: d :: rest) = _
    rw [readText, hn]
    simp [hlow, hhigh]
  | @pair a b c d e f g h n m hn hhigh hm hlow =>
    change readText acc ('\\' :: 'u' :: a :: b :: c :: d :: '\\' :: 'u' :: e :: f :: g :: h :: rest) = _
    rw [readText, hn]
    simp [not_isLowHalf hhigh, hhigh, hm, hlow]

/-- A string is read up to its closing quote, in whatever way its characters are written. -/
theorem readText_spelled {us : List Char} (hcs : TextSpelled cs us) (acc : String) (rest : List Char) :
    readText acc (us ++ '"' :: rest) = .ok (acc ++ String.ofList cs, rest) := by
  induction hcs generalizing acc with
  | nil => simp [readText]
  | @cons c us cs vs hc hcs ih =>
    have hpush : acc.push c ++ String.ofList cs = acc ++ String.ofList (c :: cs) := by
      rw [← String.toList_inj]
      simp
    rw [List.append_assoc, readText_spelled_char hc, ih, hpush]

theorem hex_digit : ∀ n < 16, Hex.value? (Hex.digit n) = some n := by decide

private theorem hexQuad_digits (hn : n < 32) : hexQuad? '0' '0' (Hex.digit (n / 16)) (Hex.digit (n % 16)) = some n := by
  have h₁ := hex_digit (n / 16) (by omega)
  have h₂ := hex_digit (n % 16) (by omega)
  have h₀ : Hex.value? '0' = some 0 := rfl
  have hn : ((0 * 16 + 0) * 16 + n / 16) * 16 + n % 16 = n := by omega
  simp only [hexQuad?, h₀, h₁, h₂]
  exact congrArg some hn

private theorem paddedDigits_of_lt (hn : n < 32) :
    Hex.paddedDigits 4 n = ['0', '0', Hex.digit (n / 16), Hex.digit (n % 16)] := by
  have hnil : ∀ rest, Hex.digitsFrom 0 rest = rest := fun rest => by rw [Hex.digitsFrom, dif_pos rfl]
  rw [Hex.paddedDigits, Hex.digits]
  by_cases h₀ : n = 0
  · subst h₀
    rfl
  · by_cases h₁ : n < 16
    · have hd : n / 16 = 0 := by omega
      rw [if_neg h₀, Hex.digitsFrom, dif_neg h₀, hd, hnil]
      rfl
    · have hd : n / 16 = 1 := by omega
      have hdigits : Hex.digitsFrom n [] = [Hex.digit 1, Hex.digit (n % 16)] := by
        rw [Hex.digitsFrom, dif_neg h₀, hd, Hex.digitsFrom, dif_neg (by decide)]
        exact hnil _
      rw [if_neg h₀, hdigits, hd]
      rfl

/-- What is written for a character is a way to write it. -/
theorem spelled_escape (c : Char) : CharSpelled c (escape c) := by
  fun_cases escape c with
  | case1 hc => exact .simple (congrArg some hc.symm)
  | case2 _ hc => exact .simple (congrArg some hc.symm)
  | case3 hq hb hc => exact .plain hq hb hc
  | case4 _ _ _ hc => exact .simple (congrArg some hc.symm)
  | case5 _ _ _ _ hc => exact .simple (congrArg some hc.symm)
  | case6 _ _ _ _ _ hc => exact .simple (congrArg some hc.symm)
  | case7 _ _ _ _ _ _ hc => exact .simple (congrArg some (hc ▸ Char.ofNat_toNat c))
  | case8 _ _ _ _ _ _ _ hc => exact .simple (congrArg some (hc ▸ Char.ofNat_toNat c))
  | case9 _ _ hc =>
    -- What is left are control characters; two of their four digits are zeros and no surrogate is among them.
    have hlow : isLowHalf c.toNat = false := by
      rw [isLowHalf, Bool.and_eq_false_iff]
      exact .inl (decide_eq_false (by omega))
    have hhigh : isHighHalf c.toNat = false := by
      rw [isHighHalf, Bool.and_eq_false_iff]
      exact .inl (decide_eq_false (by omega))
    have hspelled := CharSpelled.quad (hexQuad_digits (show c.toNat < 32 by omega)) hlow hhigh
    rw [Char.ofNat_toNat] at hspelled
    rw [paddedDigits_of_lt (by omega)]
    exact hspelled

theorem spelled_flatMap (cs : List Char) : TextSpelled cs (cs.flatMap escape) := by
  induction cs with
  | nil => exact .nil
  | cons c cs ih => exact .cons (spelled_escape c) ih

private theorem takes_string (h : readText "" cs = .ok (s, rest)) :
    Takes (takeString cs) (.string (.ok s) none) rest := by
  refine ⟨Nat.le_of_lt (length_of_readText h), ?_⟩
  rw [takeString]
  split
  · rename_i s' rest' h'
    cases h.symm.trans h'
    rfl
  · rename_i h'
    cases h.symm.trans h'

/-- A string between quotes is one token. -/
theorem tokens_text {us : List Char} (hs : TextSpelled s.toList us) :
    tokens ('"' :: (us ++ '"' :: rest)) = .string (.ok s) none :: tokens rest :=
  tokens_cons rfl (takes_string ((readText_spelled hs "" rest).trans (by simp)))

/-- A string is read back whole. -/
theorem tokens_stringText (s : String) :
    tokens ((stringText s).toList ++ rest) = .string (.ok s) none :: tokens rest := by
  have htext : (stringText s).toList ++ rest = '"' :: (s.toList.flatMap escape ++ '"' :: rest) := by
    rw [stringText, String.toList_ofList]
    simp
  rw [htext, tokens_text (spelled_flatMap s.toList)]

end Strings

section Numbers

/-- What cannot belong to a number in front of it. -/
def Ends (rest : List Char) : Prop := ∀ c ∈ rest.head?, c = ',' ∨ c = ']' ∨ c = '\x7d'

/-- What does not go on with a number in front of it. -/
def Stops (rest : List Char) : Prop :=
  ∀ c ∈ rest.head?, c.isDigit = false ∧ c ≠ '.' ∧ c ≠ 'e' ∧ c ≠ 'E'

theorem Ends.stops (h : Ends rest) : Stops rest := by
  intro c hc
  rcases h c hc with rfl | rfl | rfl
  · decide
  · decide
  · decide

theorem digits_append (hds : ∀ c ∈ ds, c.isDigit = true) (hrest : ∀ c ∈ rest.head?, c.isDigit = false) :
    digits (ds ++ rest) = ds ∧ afterDigits (ds ++ rest) = rest := by
  have hstop : rest.takeWhile Char.isDigit = [] ∧ rest.dropWhile Char.isDigit = rest := by
    cases rest with
    | nil => exact ⟨rfl, rfl⟩
    | cons c rest =>
      have hc := hrest c rfl
      exact ⟨List.takeWhile_cons_of_neg (by simp [hc]), List.dropWhile_cons_of_neg (by simp [hc])⟩
  rw [digits, afterDigits, List.takeWhile_append_of_pos hds, List.dropWhile_append_of_pos hds, hstop.1, hstop.2]
  exact ⟨List.append_nil _, rfl⟩

def digitsValue (ds : List Char) : Nat := ds.foldl (fun acc c => acc * 10 + NumberText.digit c) 0

/-- The ways to write the exponent of a number, or to leave it out. -/
inductive ExponentSpelled : Option Int → List Char → Prop
  | none : ExponentSpelled none []
  | plain {e d ds} (he : e = 'e' ∨ e = 'E') (hds : ∀ c ∈ d :: ds, c.isDigit = true) :
      ExponentSpelled (some (digitsValue (d :: ds))) (e :: d :: ds)
  | plus {e d ds} (he : e = 'e' ∨ e = 'E') (hds : ∀ c ∈ d :: ds, c.isDigit = true) :
      ExponentSpelled (some (digitsValue (d :: ds))) (e :: '+' :: d :: ds)
  | minus {e d ds} (he : e = 'e' ∨ e = 'E') (hds : ∀ c ∈ d :: ds, c.isDigit = true) :
      ExponentSpelled (some (-(digitsValue (d :: ds) : Int))) (e :: '-' :: d :: ds)

def pointed : List Char → List Char
  | [] => []
  | d :: ds => '.' :: d :: ds

/-- How a number is written: digits without a needless zero in front, then decimal places and an exponent where it
has them, all behind its sign. -/
inductive NumberText.Spelled : NumberText → List Char → Prop
  | intro {negative c ds fraction exponent es} (whole : ∀ d ∈ c :: ds, d.isDigit = true) (short : c = '0' → ds = [])
      (places : ∀ d ∈ fraction, d.isDigit = true) (scale : ExponentSpelled exponent es) :
      Spelled ⟨negative, c :: ds, fraction, exponent⟩
        ((if negative then ['-'] else []) ++ c :: (ds ++ (pointed fraction ++ es)))

section

variable {negative : Bool} {whole fraction es : List Char} {exponent : Option Int}

theorem takes_exponent_digits {d e : Char} (signed : List Char) (hds : ∀ c ∈ d :: ds, c.isDigit = true)
    (hrest : Stops rest) (he : e = 'e' ∨ e = 'E')
    (hsigned : (if signed.head? = some '-' ∨ signed.head? = some '+' then signed.drop 1 else signed) =
      d :: (ds ++ rest)) :
    Takes (takeExponent ⟨negative, whole, fraction, none⟩ (e :: signed))
      (.number ⟨negative, whole, fraction,
        some (if signed.head? == some '-' then -(digitsValue (d :: ds) : Int) else digitsValue (d :: ds))⟩) rest := by
  obtain ⟨hdigits, hafter⟩ := digits_append hds fun c hc => (hrest c hc).1
  rw [List.cons_append] at hdigits hafter
  simp only [takeExponent, if_pos he, hsigned, hdigits, hafter]
  exact ⟨_, rfl⟩

theorem takes_exponent (hscale : ExponentSpelled exponent es) (hrest : Stops rest) :
    Takes (takeExponent ⟨negative, whole, fraction, none⟩ (es ++ rest)) (.number ⟨negative, whole, fraction, exponent⟩)
      rest := by
  cases hscale with
  | none =>
    cases rest with
    | nil => exact ⟨Nat.le_refl _, rfl⟩
    | cons c rest =>
      obtain ⟨-, -, he, hE⟩ := hrest c rfl
      have hmark : ¬ (c = 'e' ∨ c = 'E') := by simp [he, hE]
      exact ⟨Nat.le_refl _, if_neg hmark⟩
  | @plain e d ds he hds =>
    have hsign : d ≠ '-' ∧ d ≠ '+' := by
      have hd := hds d List.mem_cons_self
      exact ⟨fun h => absurd (h ▸ hd) (by decide), fun h => absurd (h ▸ hd) (by decide)⟩
    have hunsigned : (if (d :: (ds ++ rest)).head? = some '-' ∨ (d :: (ds ++ rest)).head? = some '+' then
        (d :: (ds ++ rest)).drop 1 else d :: (ds ++ rest)) = d :: (ds ++ rest) := if_neg (by simp [hsign])
    have htakes : Takes (takeExponent ⟨negative, whole, fraction, none⟩ (e :: d :: (ds ++ rest))) _ rest :=
      takes_exponent_digits _ hds hrest he hunsigned
    simpa [hsign] using htakes
  | @plus e d ds he hds => exact takes_exponent_digits ('+' :: d :: (ds ++ rest)) hds hrest he rfl
  | @minus e d ds he hds => exact takes_exponent_digits ('-' :: d :: (ds ++ rest)) hds hrest he rfl

/-- What is behind the whole digits does not go on with them. -/
theorem isDigit_head (hscale : ExponentSpelled exponent es) (hrest : Stops rest) :
    ∀ c ∈ (es ++ rest).head?, c.isDigit = false := by
  have hmark : ∀ e : Char, e = 'e' ∨ e = 'E' → e.isDigit = false := by
    rintro e (rfl | rfl)
    · rfl
    · rfl
  cases hscale with
  | none => exact fun c hc => (hrest c hc).1
  | plain he hds => exact fun c hc => Option.some.inj hc ▸ hmark _ he
  | plus he hds => exact fun c hc => Option.some.inj hc ▸ hmark _ he
  | minus he hds => exact fun c hc => Option.some.inj hc ▸ hmark _ he

private theorem takes_fraction (hplaces : ∀ d ∈ fraction, d.isDigit = true) (hscale : ExponentSpelled exponent es)
    (hrest : Stops rest) :
    Takes (takeFraction ⟨negative, whole, [], none⟩ (pointed fraction ++ (es ++ rest)))
      (.number ⟨negative, whole, fraction, exponent⟩) rest := by
  cases fraction with
  | nil =>
    have hpoint : ∀ places, es ++ rest ≠ '.' :: places := by
      intro places heq
      cases hscale with
      | none =>
        have hhead := hrest '.' (by rw [← List.nil_append rest, heq]; rfl)
        exact hhead.2.1 rfl
      | plain he hds => rcases he with rfl | rfl <;> cases heq
      | plus he hds => rcases he with rfl | rfl <;> cases heq
      | minus he hds => rcases he with rfl | rfl <;> cases heq
    rw [pointed, List.nil_append, takeFraction]
    · exact takes_exponent hscale hrest
    · exact hpoint
  | cons d ds =>
    obtain ⟨hdigits, hafter⟩ := digits_append hplaces (isDigit_head hscale hrest)
    have hexponent : Takes (takeExponent ⟨negative, whole, d :: ds, none⟩ (afterDigits (d :: ds ++ (es ++ rest))))
        (.number ⟨negative, whole, d :: ds, exponent⟩) rest := by
      rw [hafter]
      exact takes_exponent hscale hrest
    obtain ⟨h, heq⟩ := hexponent
    refine ⟨Nat.le_trans h (Nat.le_succ_of_le (length_afterDigits _)), ?_⟩
    change takeFraction _ ('.' :: (d :: ds ++ (es ++ rest))) = _
    rw [takeFraction, hdigits, if_neg (List.cons_ne_nil d ds), heq]
    rfl

private theorem takes_digits {c : Char} (hds : ∀ d ∈ ds, d.isDigit = true) (hzero : c = '0' → ds = [])
    (hplaces : ∀ d ∈ fraction, d.isDigit = true) (hscale : ExponentSpelled exponent es) (hrest : Stops rest) :
    Takes (takeDigits negative c (ds ++ (pointed fraction ++ (es ++ rest))))
      (.number ⟨negative, c :: ds, fraction, exponent⟩) rest := by
  have hbehind : ∀ d ∈ (pointed fraction ++ (es ++ rest)).head?, d.isDigit = false := by
    cases fraction with
    | nil =>
      rw [pointed, List.nil_append]
      exact isDigit_head hscale hrest
    | cons d ds => exact fun c hc => Option.some.inj hc ▸ rfl
  obtain ⟨hdigits, hafter⟩ := digits_append hds hbehind
  have hfraction : Takes (takeFraction ⟨negative, c :: ds, [], none⟩
      (afterDigits (ds ++ (pointed fraction ++ (es ++ rest))))) (.number ⟨negative, c :: ds, fraction, exponent⟩)
      rest := by
    rw [hafter]
    exact takes_fraction hplaces hscale hrest
  obtain ⟨h, heq⟩ := hfraction
  refine ⟨Nat.le_trans h (length_afterDigits _), ?_⟩
  rw [takeDigits, hdigits, if_neg fun hc => hc.2 (hzero hc.1), heq]

end

private theorem takes_negative {m : NumberText} (hc : c.isDigit = true)
    (h : Takes (takeDigits true c cs) (.number m) rest) :
    Takes (takeNegative (c :: cs)) (.number m) rest := by
  obtain ⟨hle, heq⟩ := h
  refine ⟨Nat.le_succ_of_le hle, ?_⟩
  rw [takeNegative, if_pos hc, heq]

private theorem takeAfter_digit (hc : c.isDigit = true) : takeAfter c cs = takeDigits false c cs := by
  have hne : ∀ d : Char, d.isDigit = false → ¬ c = d := by
    rintro d hd rfl
    exact absurd (hc.symm.trans hd) (by decide)
  rw [takeAfter, if_neg (hne _ rfl), if_neg (hne _ rfl), if_neg (hne _ rfl), if_neg (hne _ rfl), if_neg (hne _ rfl),
    if_neg (hne _ rfl), if_neg (hne _ rfl), if_neg (hne _ rfl), if_neg (hne _ rfl), if_neg (hne _ rfl),
    if_neg (hne _ rfl), if_pos hc]

private theorem isBlank_digit (hc : c.isDigit = true) : isBlank c = false := by
  have hne : ∀ d : Char, d.isDigit = false → (c == d) = false := by
    rintro d hd
    rw [beq_eq_false_iff_ne]
    rintro rfl
    exact absurd (hc.symm.trans hd) (by decide)
  rw [isBlank, hne ' ' rfl, hne '\n' rfl, hne '\t' rfl, hne '\r' rfl]
  rfl

/-- A number is one token, and what follows is read behind it. -/
theorem tokens_number {m : NumberText} (h : m.Spelled cs) (hrest : Stops rest) :
    tokens (cs ++ rest) = .number m :: tokens rest := by
  cases h with
  | @intro negative c ds fraction exponent es whole short places scale =>
    have hc := whole c List.mem_cons_self
    have hds : ∀ d ∈ ds, d.isDigit = true := fun d hd => whole d (List.mem_cons_of_mem c hd)
    have hdigits : Takes (takeDigits negative c (ds ++ (pointed fraction ++ (es ++ rest))))
        (.number ⟨negative, c :: ds, fraction, exponent⟩) rest := takes_digits hds short places scale hrest
    cases negative with
    | false =>
      have htext : (if false = true then ['-'] else []) ++ c :: (ds ++ (pointed fraction ++ es)) ++ rest =
          c :: (ds ++ (pointed fraction ++ (es ++ rest))) := by simp
      rw [htext]
      exact tokens_cons (isBlank_digit hc) (takeAfter_digit hc ▸ hdigits)
    | true =>
      have htext : (if true = true then ['-'] else []) ++ c :: (ds ++ (pointed fraction ++ es)) ++ rest =
          '-' :: c :: (ds ++ (pointed fraction ++ (es ++ rest))) := by simp
      rw [htext]
      exact tokens_cons rfl (takes_negative hc hdigits)

/-- Only zero starts with a zero. -/
theorem head_toDigits (hn : 0 < n) : ∀ c ∈ (Nat.toDigits 10 n).head?, c ≠ '0' := by
  induction n using Nat.strongRecOn with
  | ind n ih =>
    rw [Nat.toDigits_eq_if (by decide)]
    split
    · rename_i hlt
      have hdigit : ∀ k < 10, 0 < k → k.digitChar ≠ '0' := by decide
      rintro c hc
      cases hc
      exact hdigit n hlt hn
    · have hfront := ih (n / 10) (by omega) (by omega)
      obtain ⟨d, ds, hds⟩ := List.exists_cons_of_ne_nil (Nat.toDigits_ne_nil (n := n / 10) (b := 10))
      rw [hds] at hfront ⊢
      exact hfront

/-- A numeral as it is written: digits without a needless zero in front, which make up the number. -/
structure Spells (n : Nat) (c : Char) (ds : List Char) : Prop where
  text : (toString n).toList = c :: ds
  first : c.isDigit = true
  others : ∀ d ∈ ds, d.isDigit = true
  short : c = '0' → ds = []
  value : (c :: ds).foldl (fun acc c => acc * 10 + NumberText.digit c) 0 = n

theorem exists_spells (n : Nat) : ∃ c ds, Spells n c ds := by
  have htext : (toString n).toList = Nat.toDigits 10 n := by
    rw [Nat.toString_eq_ofList_toDigits, String.toList_ofList]
  have hdigit : ∀ c ∈ Nat.toDigits 10 n, c.isDigit = true := fun c =>
    Nat.isDigit_of_mem_toDigits (by decide) (by decide)
  have hhead := head_toDigits (n := n)
  have hvalue : Nat.ofDigitChars 10 (Nat.toDigits 10 n) 0 = n := Nat.ofDigitChars_ten_toDigits
  obtain ⟨c, ds, hcs⟩ := List.exists_cons_of_ne_nil (Nat.toDigits_ne_nil (n := n) (b := 10))
  rw [hcs] at htext hdigit hhead hvalue
  refine ⟨c, ds, htext, hdigit c List.mem_cons_self, fun d hd => hdigit d (List.mem_cons_of_mem _ hd), ?_, ?_⟩
  · intro hc
    cases Nat.eq_zero_or_pos n with
    | inl hn =>
      subst hn
      exact (List.cons.inj hcs).2.symm
    | inr hn => exact absurd hc (hhead hn c rfl)
  · rw [Nat.ofDigitChars_eq_foldl] at hvalue
    simp only [Nat.mul_comm] at hvalue
    exact hvalue

/-- A numeral is a number without decimal places and exponent. -/
theorem Spells.spelled {ds : List Char} (h : Spells n c ds) (negative : Bool) :
    (NumberText.mk negative (c :: ds) [] none).Spelled ((if negative then ['-'] else []) ++ c :: ds) := by
  have hwhole : ∀ d ∈ c :: ds, d.isDigit = true := List.forall_mem_cons.mpr ⟨h.first, h.others⟩
  have hspelled := @NumberText.Spelled.intro negative c ds [] none [] hwhole h.short (List.forall_mem_nil _) .none
  rwa [pointed, List.append_nil, List.append_nil] at hspelled

private theorem value_spells {ds : List Char} (h : Spells n c ds) (hn : n < 0x10000000000000000) :
    (NumberText.mk false (c :: ds) [] none).value = .ok (.integer n) := by
  have hmagnitude : (NumberText.mk false (c :: ds) [] none).magnitude = n := h.value
  have hinteger : (NumberText.mk false (c :: ds) [] none).integer? = some (n : Int) := by
    rw [NumberText.integer?, hmagnitude, if_pos ⟨rfl, rfl⟩, if_pos hn]
    rfl
  rw [NumberText.value, hinteger]

private theorem value_spells_negative {ds : List Char} (h : Spells n c ds) (hn : 0 < n) (hn' : n ≤ 0x8000000000000000) :
    (NumberText.mk true (c :: ds) [] none).value = .ok (.integer (-n)) := by
  have hmagnitude : (NumberText.mk true (c :: ds) [] none).magnitude = n := h.value
  have hinteger : (NumberText.mk true (c :: ds) [] none).integer? = some (-(n : Int)) := by
    rw [NumberText.integer?, hmagnitude, if_pos ⟨rfl, rfl⟩, if_pos rfl, if_pos ⟨hn, hn'⟩]
  rw [NumberText.value, hinteger]

theorem tokens_toString (hn : n < 0x10000000000000000) (hrest : Ends rest) :
    ∃ m, tokens ((toString n).toList ++ rest) = .number m :: tokens rest ∧ m.value = .ok (.integer n) := by
  obtain ⟨c, ds, h⟩ := exists_spells n
  refine ⟨⟨false, c :: ds, [], none⟩, ?_, value_spells h hn⟩
  rw [h.text]
  exact tokens_number (h.spelled false) hrest.stops

/-- A whole number that fits 64 bits, with or without a sign, is read back. -/
theorem tokens_integer {i : Int} (hi : -0x8000000000000000 ≤ i) (hi' : i < 0x10000000000000000) (hrest : Ends rest) :
    ∃ m, tokens ((toString i).toList ++ rest) = .number m :: tokens rest ∧ m.value = .ok (.integer i) := by
  cases i with
  | ofNat k =>
    have hk : k < 0x10000000000000000 := Int.ofNat_lt.mp hi'
    exact tokens_toString hk hrest
  | negSucc k =>
    obtain ⟨c, ds, h⟩ := exists_spells (k + 1)
    have htext : (toString (Int.negSucc k)).toList = '-' :: c :: ds := by
      have hminus : toString (Int.negSucc k) = "-" ++ toString (k + 1) := rfl
      rw [hminus, String.toList_append, h.text]
      rfl
    refine ⟨⟨true, c :: ds, [], none⟩, ?_, value_spells_negative h (Nat.succ_pos k) (by omega)⟩
    rw [htext]
    exact tokens_number (h.spelled true) hrest.stops

end Numbers

end ConsoleBridge.Json

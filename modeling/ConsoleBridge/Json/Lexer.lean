import ConsoleBridge.Json.Token
import ConsoleBridge.Text.Hex

/-! # Cutting a JSON text into tokens -/
namespace ConsoleBridge.Json.Lexer

def isBlank (c : Char) : Bool := c == ' ' || c == '\n' || c == '\t' || c == '\r'

def hexQuad? (a b c d : Char) : Option Nat := do
  let a ← Hex.value? a
  let b ← Hex.value? b
  let c ← Hex.value? c
  let d ← Hex.value? d
  return ((a * 16 + b) * 16 + c) * 16 + d

/-- The fault of an escape that the text ends in: four bytes that are no digits, or fewer than four. -/
def shortQuad (cs : List Char) : Fault :=
  if 4 ≤ cs.foldl (fun n c => n + c.utf8Size) 0 then .malformed else .truncated

/-- Is the value the first half of a surrogate pair? -/
def isHighHalf (n : Nat) : Bool := 0xD800 ≤ n && n ≤ 0xDBFF

def isLowHalf (n : Nat) : Bool := 0xDC00 ≤ n && n ≤ 0xDFFF

def joinHalves (high low : Nat) : Char :=
  Char.ofNat ((high - 0xD800) * 0x400 + (low - 0xDC00) + 0x10000)

/-- The character behind a backslash that stands for one character. -/
def simpleEscape? (c : Char) : Option Char :=
  if c = '"' ∨ c = '\\' ∨ c = '/' then some c
  else if c = 'b' then some (Char.ofNat 8)
  else if c = 'f' then some (Char.ofNat 12)
  else if c = 'n' then some '\n'
  else if c = 'r' then some '\r'
  else if c = 't' then some '\t'
  else none

def readText (acc : String) : List Char → Except Fault (String × List Char)
  | [] => .error .truncated
  | '"' :: rest => .ok (acc, rest)
  | '\\' :: [] => .error .truncated
  | '\\' :: 'u' :: a :: b :: c :: d :: rest =>
    match hexQuad? a b c d with
    | none => .error .malformed
    | some n =>
      if isLowHalf n then .error .malformed
      else if isHighHalf n then
        match rest with
        | [] => .error .truncated
        | '\\' :: [] => .error .truncated
        | '\\' :: 'u' :: e :: f :: g :: h :: rest =>
          match hexQuad? e f g h with
          | none => .error .malformed
          | some m =>
            if isLowHalf m then readText (acc.push (joinHalves n m)) rest else .error .malformed
        | '\\' :: 'u' :: short => .error (shortQuad short)
        | _ :: _ => .error .malformed
      else readText (acc.push (Char.ofNat n)) rest
  | '\\' :: 'u' :: short => .error (shortQuad short)
  | '\\' :: c :: rest =>
    match simpleEscape? c with
    | some c => readText (acc.push c) rest
    | none => .error .malformed
  | c :: rest => if c.toNat < 32 then .error .malformed else readText (acc.push c) rest

/-- Skip the text of a string behind its opening quote; surrogates need not be paired. -/
def skipText : List Char → Except Fault (List Char)
  | [] => .error .truncated
  | '"' :: rest => .ok rest
  | '\\' :: [] => .error .truncated
  | '\\' :: 'u' :: a :: b :: c :: d :: rest =>
    match hexQuad? a b c d with
    | none => .error .malformed
    | some _ => skipText rest
  | '\\' :: 'u' :: short => .error (shortQuad short)
  | '\\' :: c :: rest =>
    match simpleEscape? c with
    | some _ => skipText rest
    | none => .error .malformed
  | c :: rest => if c.toNat < 32 then .error .malformed else skipText rest

theorem length_of_readText {acc s : String} {cs rest : List Char}
    (h : readText acc cs = .ok (s, rest)) : rest.length < cs.length := by
  fun_induction readText acc cs <;> simp_all <;> omega

theorem length_of_skipText {cs rest : List Char} (h : skipText cs = .ok rest) :
    rest.length < cs.length := by
  fun_induction skipText cs <;> simp_all <;> omega

/-- What is read off the front of `cs`: a token, and what is left of the characters unless the token is
the last one that can be read. -/
abbrev Taken (cs : List Char) := Token × Option { rest : List Char // rest.length ≤ cs.length }

def takeString (cs : List Char) : Taken cs :=
  match h : readText "" cs with
  | .ok (s, rest) => (.string (.ok s) none, some ⟨rest, Nat.le_of_lt (length_of_readText h)⟩)
  | .error strict =>
    match h : skipText cs with
    | .ok rest => (.string (.error strict) none, some ⟨rest, Nat.le_of_lt (length_of_skipText h)⟩)
    | .error lenient => (.string (.error strict) (some lenient), none)

def takeWord (t : Token) : (expected cs : List Char) → Taken cs
  | [], cs => (t, some ⟨cs, Nat.le_refl _⟩)
  | _ :: _, [] => (.bad .truncated .truncated, none)
  | e :: expected, c :: cs =>
    if c = e then
      match takeWord t expected cs with
      | (t, some ⟨rest, h⟩) => (t, some ⟨rest, Nat.le_succ_of_le h⟩)
      | (t, none) => (t, none)
    else (.bad .malformed .malformed, none)

/-- The token for a number that breaks off: strictly the end of the text is what is wrong, if it is
reached. -/
def brokenNumber (cs : List Char) : Token :=
  match cs with
  | [] => .bad .truncated .malformed
  | _ => .bad .malformed .malformed

def digits (cs : List Char) : List Char := cs.takeWhile Char.isDigit

def afterDigits (cs : List Char) : List Char := cs.dropWhile Char.isDigit

theorem length_afterDigits (cs : List Char) : (afterDigits cs).length ≤ cs.length :=
  (List.dropWhile_suffix _).length_le

def takeExponent (n : NumberText) (cs : List Char) : Taken cs :=
  match cs with
  | c :: signed =>
    if c = 'e' ∨ c = 'E' then
      let negative := signed.head? == some '-'
      let unsigned := if signed.head? = some '-' ∨ signed.head? = some '+' then signed.drop 1
        else signed
      if digits unsigned = [] then (brokenNumber unsigned, none)
      else
        let size := (digits unsigned).foldl (fun acc c => acc * 10 + NumberText.digit c) 0
        (.number { n with exponent := some (if negative then -(size : Int) else size) },
          some ⟨afterDigits unsigned, by
            have h := length_afterDigits unsigned
            have hu : unsigned.length ≤ signed.length := by
              simp only [unsigned]
              split
              · simp only [List.length_drop]
                omega
              · exact Nat.le_refl _
            simp only [List.length_cons]
            omega⟩)
    else (.number n, some ⟨c :: signed, Nat.le_refl _⟩)
  | [] => (.number n, some ⟨[], Nat.le_refl _⟩)

def takeFraction (n : NumberText) (cs : List Char) : Taken cs :=
  match cs with
  | '.' :: places =>
    if digits places = [] then (brokenNumber places, none)
    else
      match takeExponent { n with fraction := digits places } (afterDigits places) with
      | (t, some ⟨rest, h⟩) =>
        (t, some ⟨rest, Nat.le_trans h (Nat.le_succ_of_le (length_afterDigits places))⟩)
      | (t, none) => (t, none)
  | cs => takeExponent n cs

/-- Read a number from its first digit `c` on. A zero in front may not be followed by a digit. -/
def takeDigits (negative : Bool) (c : Char) (cs : List Char) : Taken cs :=
  if c = '0' ∧ digits cs ≠ [] then (.bad .malformed .malformed, none)
  else
    match takeFraction ⟨negative, c :: digits cs, [], none⟩ (afterDigits cs) with
    | (t, some ⟨rest, h⟩) => (t, some ⟨rest, Nat.le_trans h (length_afterDigits cs)⟩)
    | (t, none) => (t, none)

def takeNegative (cs : List Char) : Taken cs :=
  match cs with
  | [] => (brokenNumber [], none)
  | c :: cs =>
    if c.isDigit then
      match takeDigits true c cs with
      | (t, some ⟨rest, h⟩) => (t, some ⟨rest, Nat.le_succ_of_le h⟩)
      | (t, none) => (t, none)
    else (brokenNumber (c :: cs), none)

def single (t : Token) (cs : List Char) : Taken cs := (t, some ⟨cs, Nat.le_refl _⟩)

/-- Read the token that starts with `c`, which is not blank, and goes on with `cs`. -/
def takeAfter (c : Char) (cs : List Char) : Taken cs :=
  if c = '\x7b' then single .openObject cs
  else if c = '\x7d' then single .closeObject cs
  else if c = '[' then single .openArray cs
  else if c = ']' then single .closeArray cs
  else if c = ',' then single .comma cs
  else if c = ':' then single .colon cs
  else if c = '"' then takeString cs
  else if c = 'n' then takeWord .null "ull".toList cs
  else if c = 't' then takeWord (.bool true) "rue".toList cs
  else if c = 'f' then takeWord (.bool false) "alse".toList cs
  else if c = '-' then takeNegative cs
  else if c.isDigit then takeDigits false c cs
  else (.bad .malformed .malformed, none)

/-- The tokens of a text behind those of `acc`, which are in reverse. -/
def tokensFrom (acc : List Token) (cs : List Char) : List Token :=
  match cs with
  | [] => acc.reverse
  | c :: rest =>
    if isBlank c then tokensFrom acc rest
    else
      match takeAfter c rest with
      | (t, some ⟨left, _⟩) => tokensFrom (t :: acc) left
      | (t, none) => (t :: acc).reverse
termination_by cs.length
decreasing_by
  all_goals simp only [List.length_cons]
  all_goals omega

end ConsoleBridge.Json.Lexer

namespace ConsoleBridge.Json

def tokens (cs : List Char) : List Token := Lexer.tokensFrom [] cs

end ConsoleBridge.Json

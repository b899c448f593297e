import ConsoleBridge.Proofs.Json.Lexing

/-!
# The grammar of JSON texts

What a text says is a tree in which nothing is decided yet: the members of an object stand as they were written,
repeated names among them, and a number is its digits. A text for a tree spells its tokens one after another with
blanks wherever two of them meet, each token in any of its spellings; it is cut into just these tokens.
-/
namespace ConsoleBridge.Json

open Lexer

/-- What a JSON text says. -/
inductive Tree
  | null
  | bool (b : Bool)
  | number (n : NumberText)
  | string (s : String)
  | array (elements : List Tree)
  | object (members : List (String × Tree))

/-- What holds of a container whenever it holds of all that is directly inside holds of every tree. -/
theorem Tree.induction {motive : Tree → Prop} (null : motive .null) (bool : ∀ b, motive (.bool b))
    (number : ∀ n, motive (.number n)) (string : ∀ s, motive (.string s))
    (array : ∀ elements, (∀ t ∈ elements, motive t) → motive (.array elements))
    (object : ∀ members, (∀ m ∈ members, motive m.2) → motive (.object members)) : ∀ t, motive t
  | .null => null
  | .bool b => bool b
  | .number n => number n
  | .string s => string s
  | .array elements => array elements fun t _ => Tree.induction null bool number string array object t
  | .object members => object members fun m _ => Tree.induction null bool number string array object m.2
termination_by t => sizeOf t
decreasing_by
  · rename_i ht
    have hlt := List.sizeOf_lt_of_mem ht
    simp only [Tree.array.sizeOf_spec]
    omega
  · rename_i hm
    have hlt := List.sizeOf_lt_of_mem hm
    have hmember : sizeOf m = 1 + sizeOf m.1 + sizeOf m.2 := rfl
    simp only [Tree.object.sizeOf_spec]
    omega

section Tokens

mutual

def Tree.tokens : Tree → List Token
  | .null => [.null]
  | .bool b => [.bool b]
  | .number n => [.number n]
  | .string s => [.string (.ok s) none]
  | .array elements => .openArray :: elementTokens elements
  | .object members => .openObject :: memberTokens members

def elementTokens : List Tree → List Token
  | [] => [.closeArray]
  | t :: ts => t.tokens ++ moreElementTokens ts

def moreElementTokens : List Tree → List Token
  | [] => [.closeArray]
  | t :: ts => .comma :: (t.tokens ++ moreElementTokens ts)

def memberTokens : List (String × Tree) → List Token
  | [] => [.closeObject]
  | (name, t) :: ms => .string (.ok name) none :: .colon :: (t.tokens ++ moreMemberTokens ms)

def moreMemberTokens : List (String × Tree) → List Token
  | [] => [.closeObject]
  | (name, t) :: ms => .comma :: .string (.ok name) none :: .colon :: (t.tokens ++ moreMemberTokens ms)

end

end Tokens

section Texts

inductive Token.Spelled : Token → List Char → Prop
  | openObject : Spelled .openObject ['\x7b']
  | closeObject : Spelled .closeObject ['\x7d']
  | openArray : Spelled .openArray ['[']
  | closeArray : Spelled .closeArray [']']
  | comma : Spelled .comma [',']
  | colon : Spelled .colon [':']
  | null : Spelled .null "null".toList
  | bool (b : Bool) : Spelled (.bool b) (if b then "true" else "false").toList
  | number {n : NumberText} {cs : List Char} (h : n.Spelled cs) : Spelled (.number n) cs
  | string {s : String} {cs : List Char} (h : TextSpelled s.toList cs) :
      Spelled (.string (.ok s) none) ('"' :: (cs ++ ['"']))

/-- Tokens one after another, with blanks anywhere between them. -/
inductive Spelled : List Token → List Char → Prop
  | nil : Spelled [] []
  | blank {c : Char} {ts : List Token} {cs : List Char} (hc : isBlank c = true) (h : Spelled ts cs) :
      Spelled ts (c :: cs)
  | cons {us cs : List Char} {t : Token} {ts : List Token} (ht : t.Spelled us) (hts : Spelled ts cs) :
      Spelled (t :: ts) (us ++ cs)

/-- The text says what the tree holds. -/
def Tree.Written (t : Tree) (text : String) : Prop := Spelled t.tokens text.toList

def Token.IsEnd : Token → Prop
  | .closeObject | .closeArray | .comma => True
  | _ => False

/-- Tokens among which each number is followed by something that ends it. -/
inductive Parted : List Token → Prop
  | nil : Parted []
  | other {t : Token} {ts : List Token} (ht : ∀ n, t ≠ .number n) (hts : Parted ts) : Parted (t :: ts)
  | number {n : NumberText} {ts : List Token} (hts : Parted ts) (hend : ∀ t ∈ ts.head?, t.IsEnd) :
      Parted (.number n :: ts)

variable {t : Token} {ts : List Token} {cs us rest : List Char}

private theorem stops_blank {c : Char} (hc : isBlank c = true) : Stops (c :: rest) := by
  have hblank : c = ' ' ∨ c = '\n' ∨ c = '\t' ∨ c = '\r' := by simpa [isBlank, or_assoc] using hc
  intro d hd
  cases hd
  rcases hblank with rfl | rfl | rfl | rfl
  · decide
  · decide
  · decide
  · decide

private theorem stops_end (ht : t.Spelled us) (hend : t.IsEnd) : Stops (us ++ rest) := by
  intro c hc
  cases ht with
  | closeObject | closeArray | comma =>
    cases hc
    decide
  | _ => exact hend.elim

theorem Spelled.stops (h : Spelled ts cs) (hend : ∀ t ∈ ts.head?, t.IsEnd) : Stops cs := by
  cases h with
  | nil => exact fun c hc => nomatch hc
  | blank hc _ => exact stops_blank hc
  | cons ht _ => exact stops_end ht (hend _ rfl)

/-- A text is cut into the tokens that it spells. -/
theorem Spelled.tokens_eq (h : Spelled ts cs) (hparted : Parted ts) : tokens cs = ts := by
  induction h with
  | nil => exact tokens_nil
  | blank hc _ ih => exact (tokens_blank hc).trans (ih hparted)
  | @cons us cs t ts ht hts ih =>
    have htokens : tokens (us ++ cs) = t :: tokens cs := by
      cases ht with
      | openObject => exact tokens_openObject
      | closeObject => exact tokens_closeObject
      | openArray => exact tokens_openArray
      | closeArray => exact tokens_closeArray
      | comma => exact tokens_comma
      | colon => exact tokens_colon
      | null => exact tokens_null
      | bool b => exact tokens_bool b
      | number h =>
        cases hparted with
        | other hnumber _ => exact absurd rfl (hnumber _)
        | number _ hend => exact tokens_number h (hts.stops hend)
      | string h =>
        rw [List.cons_append, List.append_assoc]
        exact tokens_text h
    have hrest : Parted ts := by
      cases hparted with
      | other _ h => exact h
      | number h _ => exact h
    rw [htokens, ih hrest]

end Texts

section Parting

variable {ts : List Token}

/-- The tokens of a tree are parted, and so is what ends them. -/
def Parts (t : Tree) : Prop := ∀ ts, Parted ts → (∀ u ∈ ts.head?, u.IsEnd) → Parted (t.tokens ++ ts)

theorem parted_moreElements {elements : List Tree} (h : ∀ t ∈ elements, Parts t) (hts : Parted ts) :
    Parted (moreElementTokens elements ++ ts) ∧ ∀ u ∈ (moreElementTokens elements ++ ts).head?, u.IsEnd := by
  induction elements with
  | nil =>
    rw [moreElementTokens]
    exact ⟨.other (fun _ => nofun) hts, fun u hu => Option.some.inj hu ▸ trivial⟩
  | cons t elements ih =>
    obtain ⟨hmore, hend⟩ := ih fun u hu => h u (List.mem_cons_of_mem t hu)
    rw [moreElementTokens, List.cons_append, List.append_assoc]
    exact ⟨.other (fun _ => nofun) (h t List.mem_cons_self _ hmore hend), fun u hu => Option.some.inj hu ▸ trivial⟩

theorem parted_moreMembers {members : List (String × Tree)} (h : ∀ m ∈ members, Parts m.2) (hts : Parted ts) :
    Parted (moreMemberTokens members ++ ts) ∧ ∀ u ∈ (moreMemberTokens members ++ ts).head?, u.IsEnd := by
  induction members with
  | nil =>
    rw [moreMemberTokens]
    exact ⟨.other (fun _ => nofun) hts, fun u hu => Option.some.inj hu ▸ trivial⟩
  | cons m members ih =>
    obtain ⟨hmore, hend⟩ := ih fun n hn => h n (List.mem_cons_of_mem m hn)
    have hm := h m List.mem_cons_self _ hmore hend
    rw [moreMemberTokens, List.cons_append, List.cons_append, List.cons_append, List.append_assoc]
    exact ⟨.other (fun _ => nofun) (.other (fun _ => nofun) (.other (fun _ => nofun) hm)),
      fun u hu => Option.some.inj hu ▸ trivial⟩

-- A number may be the last token of what is inside, so what ends it is carried along from outside.
private theorem parts (t : Tree) : Parts t := by
  induction t using Tree.induction with
  | null => exact fun ts hts _ => .other (fun _ => nofun) hts
  | bool b => exact fun ts hts _ => .other (fun _ => nofun) hts
  | number n => exact fun ts hts hend => .number hts hend
  | string s => exact fun ts hts _ => .other (fun _ => nofun) hts
  | array elements ih =>
    intro ts hts _
    rw [Tree.tokens, List.cons_append]
    refine .other (fun _ => nofun) ?_
    cases elements with
    | nil => exact (parted_moreElements ih hts).1
    | cons t elements =>
      obtain ⟨hmore, hend⟩ := parted_moreElements (fun u hu => ih u (List.mem_cons_of_mem t hu)) hts
      rw [elementTokens, List.append_assoc]
      exact ih t List.mem_cons_self _ hmore hend
  | object members ih =>
    intro ts hts _
    rw [Tree.tokens, List.cons_append]
    refine .other (fun _ => nofun) ?_
    cases members with
    | nil => exact (parted_moreMembers ih hts).1
    | cons m members =>
      obtain ⟨hmore, hend⟩ := parted_moreMembers (fun n hn => ih n (List.mem_cons_of_mem m hn)) hts
      rw [memberTokens, List.cons_append, List.cons_append, List.append_assoc]
      exact .other (fun _ => nofun) (.other (fun _ => nofun) (ih m List.mem_cons_self _ hmore hend))

/-- A text for a tree is cut into the tokens of the tree. -/
theorem Tree.Written.tokens_eq {t : Tree} {text : String} (h : t.Written text) :
    Json.tokens text.toList = t.tokens := by
  have hparted := parts t [] .nil fun u hu => nomatch hu
  rw [List.append_nil] at hparted
  exact Spelled.tokens_eq h hparted

end Parting

end ConsoleBridge.Json

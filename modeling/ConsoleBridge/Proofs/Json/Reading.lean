import ConsoleBridge.Json.Reader
import ConsoleBridge.Proofs.Json.Lexing

/-!
# What is written is read back as the same value

A value without doubles, whose members stand in the order of their names, is read back from its text by every
reader that allows as many containers inside one another as it has.
-/
namespace ConsoleBridge.Json

variable {α σ : Type} {ts us vs : List Token} {first : Bool}

/-- A reader takes a value off the front and leaves these tokens. -/
def Reads (read : Reader α) (ts : List Token) (v : α) (rest : List Token) : Prop :=
  ∃ h, read ts = .ok (v, ⟨rest, h⟩)

theorem Reads.map {β : Type} {read : Reader α} {v : α} (f : α → β) (h : Reads read ts v us) :
    Reads (Reader.map f read) ts (f v) us := by
  obtain ⟨hlt, heq⟩ := h
  exact ⟨hlt, by rw [Reader.map, heq]⟩

section Elements

variable {item : Reader α} {v : α} {acc all : List α}

def Opens (ts : List Token) : Prop := ∃ t us, ts = t :: us ∧ t ≠ .closeArray

theorem nextElement_true (h : Opens ts) : nextElement true ts = .ok (.more ts (Nat.le_refl _)) := by
  obtain ⟨t, us, rfl, ht⟩ := h
  cases t with
  | closeArray => exact absurd rfl ht
  | _ => rfl

theorem nextElement_comma (h : Opens ts) : nextElement false (.comma :: ts) = .ok (.more ts (Nat.le_succ _)) := by
  obtain ⟨t, us, rfl, ht⟩ := h
  cases t with
  | closeArray => exact absurd rfl ht
  | _ => rfl

theorem reads_elements_done : Reads (readElements item acc first) (.closeArray :: ts) acc.reverse ts :=
  ⟨Nat.lt_succ_self _, by rw [readElements]; rfl⟩

theorem reads_elements_more {hu : us.length ≤ ts.length} {rest : List Token}
    (hnext : nextElement first ts = .ok (.more us hu)) (hv : Reads item us v vs)
    (hall : Reads (readElements item (v :: acc) false) vs all rest) :
    Reads (readElements item acc first) ts all rest := by
  obtain ⟨hvs, heqv⟩ := hv
  obtain ⟨hrest, heq⟩ := hall
  refine ⟨by omega, ?_⟩
  rw [readElements, hnext]
  simp only [heqv, heq]
  rfl

end Elements

section Members

variable {member : String → σ → Except ReadError (Reader σ)} {read : Reader σ} {acc acc' all : σ} {name : String}

theorem reads_members_done : Reads (readMembers member acc first) (.closeObject :: ts) acc ts :=
  ⟨Nat.lt_succ_self _, by rw [readMembers]; rfl⟩

theorem reads_members_more {hu : (.string (.ok name) none :: .colon :: us : List Token).length ≤ ts.length}
    {rest : List Token} (hnext : nextMember first ts = .ok (.more (.string (.ok name) none :: .colon :: us) hu))
    (hmember : member name acc = .ok read) (hread : Reads read us acc' vs)
    (hall : Reads (readMembers member acc' false) vs all rest) :
    Reads (readMembers member acc first) ts all rest := by
  obtain ⟨hvs, heqv⟩ := hread
  obtain ⟨hrest, heq⟩ := hall
  simp only [List.length_cons] at hu
  refine ⟨by omega, ?_⟩
  rw [readMembers, hnext]
  simp only [readName, readColon, behind, hmember, heqv, heq]
  rfl

variable {cs rest : List Char}

theorem tokens_member (name : String) (cs : List Char) :
    tokens ((stringText name).toList ++ ':' :: cs) = .string (.ok name) none :: .colon :: tokens cs := by
  rw [tokens_stringText, tokens_colon]

theorem reads_members_first (hmember : member name acc = .ok read) (hread : Reads read (tokens cs) acc' us)
    (hall : Reads (readMembers member acc' false) us all vs) :
    Reads (readMembers member acc true) (tokens ((stringText name).toList ++ ':' :: cs)) all vs := by
  rw [tokens_member]
  exact reads_members_more rfl hmember hread hall

theorem reads_members_next (hmember : member name acc = .ok read) (hread : Reads read (tokens cs) acc' us)
    (hall : Reads (readMembers member acc' false) us all vs) :
    Reads (readMembers member acc false) (tokens (',' :: ((stringText name).toList ++ ':' :: cs))) all vs := by
  rw [tokens_comma, tokens_member]
  exact reads_members_more rfl hmember hread hall

theorem reads_members_end (acc : σ) (first : Bool) (rest : List Char) :
    Reads (readMembers member acc first) (tokens ('\x7d' :: rest)) acc (tokens rest) := by
  rw [tokens_closeObject]
  exact reads_members_done

end Members

/-- Values without doubles, with at most this many containers inside one another. As in every value that is kept, each
integer fits 64 bits, with or without a sign, and the members of an object stand in the order of their names, each name
once. -/
inductive Value.Whole : Nat → Value → Prop
  | null {levels : Nat} : Whole levels .null
  | bool {levels : Nat} (b : Bool) : Whole levels (.bool b)
  | integer {levels : Nat} {i : Int} (low : -0x8000000000000000 ≤ i) (high : i < 0x10000000000000000) :
      Whole levels (.number (.integer i))
  | string {levels : Nat} (s : String) : Whole levels (.string s)
  | array {levels : Nat} {elements : List Value} (inner : ∀ v ∈ elements, Whole levels v) :
      Whole (levels + 1) (.array elements)
  | object {levels : Nat} {members : List (String × Value)} (ordered : members.Pairwise (·.1 < ·.1))
      (inner : ∀ m ∈ members, Whole levels m.2) : Whole (levels + 1) (.object members)

/-- A value of which the text is read back by a reader, whatever follows it. -/
def ReadBack (read : Reader Value) (v : Value) : Prop :=
  ∀ rest, Ends rest → Reads read (tokens (v.text.toList ++ rest)) v (tokens rest)

variable {levels : Nat} {v : Value} {rest : List Char}

theorem ends_comma : Ends (',' :: rest) := fun _ hc => .inl (Option.some.inj hc).symm

private theorem ends_closeArray : Ends (']' :: rest) := fun _ hc => .inr (.inl (Option.some.inj hc).symm)

theorem ends_closeObject : Ends ('\x7d' :: rest) := fun _ hc => .inr (.inr (Option.some.inj hc).symm)

theorem opens_of_reads {ts us : List Token} (h : Reads (readValue levels) ts v us) : Opens ts := by
  obtain ⟨hlt, heq⟩ := h
  cases ts with
  | nil => exact absurd hlt (Nat.not_lt_zero _)
  | cons t ts =>
    refine ⟨t, ts, rfl, ?_⟩
    rintro rfl
    rw [readValue] at heq
    cases heq

def furtherElements (vs : List Value) : List Char := vs.flatMap fun v => ',' :: v.text.toList

private theorem toList_elementsText (v : Value) (vs : List Value) :
    (elementsText (v :: vs)).toList = v.text.toList ++ furtherElements vs := by
  induction vs generalizing v with
  | nil => simp [elementsText, furtherElements]
  | cons w vs ih =>
    rw [elementsText, String.toList_append, String.toList_append, ih]
    · simp [furtherElements]
    · simp

theorem ends_furtherElements (vs : List Value) (rest : List Char) : Ends (furtherElements vs ++ ']' :: rest) := by
  cases vs with
  | nil => exact ends_closeArray
  | cons v vs => exact ends_comma

-- The elements read so far are in reverse, so each step takes one off the list and puts it on the accumulator.
private theorem reads_furtherElements (acc vs : List Value) (h : ∀ v ∈ vs, ReadBack (readValue levels) v) :
    Reads (readElements (readValue levels) acc false) (tokens (furtherElements vs ++ ']' :: rest)) (acc.reverse ++ vs)
      (tokens rest) := by
  induction vs generalizing acc with
  | nil =>
    rw [List.append_nil]
    exact @tokens_closeArray rest ▸ reads_elements_done
  | cons v vs ih =>
    have hv := h v List.mem_cons_self _ (ends_furtherElements vs rest)
    have hall := ih (v :: acc) fun w hw => h w (List.mem_cons_of_mem _ hw)
    have htext : furtherElements (v :: vs) ++ ']' :: rest =
        ',' :: (v.text.toList ++ (furtherElements vs ++ ']' :: rest)) := by
      simp [furtherElements]
    rw [List.reverse_cons, List.append_assoc] at hall
    rw [htext, tokens_comma]
    exact reads_elements_more (nextElement_comma (opens_of_reads hv)) hv hall

private theorem reads_elements (vs : List Value) (h : ∀ v ∈ vs, ReadBack (readValue levels) v) :
    Reads (readElements (readValue levels) [] true) (tokens ((elementsText vs).toList ++ ']' :: rest)) vs
      (tokens rest) := by
  cases vs with
  | nil => exact @tokens_closeArray rest ▸ reads_elements_done
  | cons v vs =>
    have hv := h v List.mem_cons_self _ (ends_furtherElements vs rest)
    have hall := @reads_furtherElements levels rest [v] vs fun w hw => h w (List.mem_cons_of_mem _ hw)
    rw [toList_elementsText, List.append_assoc]
    exact reads_elements_more (nextElement_true (opens_of_reads hv)) hv hall

private theorem insertMember_append {acc : List (String × Value)} {name : String} (h : ∀ m ∈ acc, m.1 < name) :
    Value.insertMember name v acc = acc ++ [(name, v)] := by
  induction acc with
  | nil => rfl
  | cons m acc ih =>
    have hm := h m List.mem_cons_self
    have hne : ¬ name = m.1 := fun hname => String.lt_irrefl _ (hname ▸ hm)
    rw [Value.insertMember, if_neg (String.lt_asymm hm), if_neg hne, ih fun n hn => h n (List.mem_cons_of_mem _ hn)]
    rfl

def memberText (m : String × Value) : List Char := (stringText m.1).toList ++ ':' :: m.2.text.toList

def furtherMembers (ms : List (String × Value)) : List Char := ms.flatMap fun m => ',' :: memberText m

private theorem toList_membersText (m : String × Value) (ms : List (String × Value)) :
    (membersText (m :: ms)).toList = memberText m ++ furtherMembers ms := by
  induction ms generalizing m with
  | nil => simp [membersText, furtherMembers, memberText]
  | cons n ms ih =>
    rw [membersText, String.toList_append, String.toList_append, ih]
    · simp [furtherMembers, memberText]
    · simp

theorem ends_furtherMembers (ms : List (String × Value)) (rest : List Char) :
    Ends (furtherMembers ms ++ '\x7d' :: rest) := by
  cases ms with
  | nil => exact ends_closeObject
  | cons m ms => exact ends_comma

def gather (levels : Nat) (name : String) (acc : List (String × Value)) :
    Except ReadError (Reader (List (String × Value))) :=
  .ok (Reader.map (Value.insertMember name · acc) (readValue levels))

theorem reads_member {acc : List (String × Value)} {m : String × Value} (hacc : ∀ n ∈ acc, n.1 < m.1)
    (hm : ReadBack (readValue levels) m.2) (hrest : Ends rest) :
    Reads (Reader.map (Value.insertMember m.1 · acc) (readValue levels)) (tokens (m.2.text.toList ++ rest))
      (acc ++ [m]) (tokens rest) :=
  insertMember_append (v := m.2) hacc ▸ (hm rest hrest).map (Value.insertMember m.1 · acc)

-- The members read so far stand in order and in front of those to come, so each one is inserted at the end.
private theorem reads_furtherMembers (acc ms : List (String × Value))
    (hordered : (acc ++ ms).Pairwise (·.1 < ·.1)) (h : ∀ m ∈ ms, ReadBack (readValue levels) m.2) :
    Reads (readMembers (gather levels) acc false) (tokens (furtherMembers ms ++ '\x7d' :: rest)) (acc ++ ms)
      (tokens rest) := by
  induction ms generalizing acc with
  | nil =>
    rw [List.append_nil]
    exact reads_members_end acc false rest
  | cons m ms ih =>
    have hfront : ∀ n ∈ acc, n.1 < m.1 := fun n hn => (List.pairwise_append.mp hordered).2.2 n hn m List.mem_cons_self
    have hm := reads_member hfront (h m List.mem_cons_self) (ends_furtherMembers ms rest)
    have hsplit : acc ++ m :: ms = acc ++ [m] ++ ms := List.append_cons acc m ms
    have hall := ih (acc ++ [m]) (hsplit ▸ hordered) fun n hn => h n (List.mem_cons_of_mem _ hn)
    have htext : furtherMembers (m :: ms) ++ '\x7d' :: rest =
        ',' :: ((stringText m.1).toList ++ ':' :: (m.2.text.toList ++ (furtherMembers ms ++ '\x7d' :: rest))) := by
      simp [furtherMembers, memberText]
    rw [htext, hsplit]
    exact reads_members_next rfl hm hall

private theorem reads_members (ms : List (String × Value)) (hordered : ms.Pairwise (·.1 < ·.1))
    (h : ∀ m ∈ ms, ReadBack (readValue levels) m.2) :
    Reads (readMembers (gather levels) [] true) (tokens ((membersText ms).toList ++ '\x7d' :: rest)) ms
      (tokens rest) := by
  cases ms with
  | nil => exact reads_members_end [] true rest
  | cons m ms =>
    have hm := reads_member (fun n hn => absurd hn List.not_mem_nil) (h m List.mem_cons_self)
      (ends_furtherMembers ms rest)
    have hall := @reads_furtherMembers levels rest [m] ms hordered fun n hn =>
      h n (List.mem_cons_of_mem _ hn)
    have htext : (membersText (m :: ms)).toList ++ '\x7d' :: rest =
        (stringText m.1).toList ++ ':' :: (m.2.text.toList ++ (furtherMembers ms ++ '\x7d' :: rest)) := by
      rw [toList_membersText]
      simp [memberText]
    rw [htext]
    exact reads_members_first rfl hm hall

section Values

variable {ts us : List Token}

theorem reads_null : Reads (readValue levels) (.null :: ts) .null ts := ⟨Nat.lt_succ_self _, by rw [readValue]; rfl⟩

theorem reads_bool (b : Bool) : Reads (readValue levels) (.bool b :: ts) (.bool b) ts :=
  ⟨Nat.lt_succ_self _, by rw [readValue]; rfl⟩

theorem reads_number {n : Number} {m : NumberText} (hm : m.value = .ok n) :
    Reads (readValue levels) (.number m :: ts) (.number n) ts :=
  ⟨Nat.lt_succ_self _, by rw [readValue, hm]; rfl⟩

theorem reads_string (s : String) : Reads (readValue levels) (.string (.ok s) none :: ts) (.string s) ts :=
  ⟨Nat.lt_succ_self _, by rw [readValue]; rfl⟩

theorem reads_array {vs : List Value} (h : Reads (readElements (readValue levels) [] true) ts vs us) :
    Reads (readValue (levels + 1)) (.openArray :: ts) (.array vs) us := by
  obtain ⟨hlt, heq⟩ := h
  exact ⟨Nat.lt_succ_of_lt hlt, by rw [readValue, heq]; rfl⟩

theorem reads_object {ms : List (String × Value)} (h : Reads (readMembers (gather levels) [] true) ts ms us) :
    Reads (readValue (levels + 1)) (.openObject :: ts) (.object ms) us := by
  obtain ⟨hlt, heq⟩ := h
  refine ⟨Nat.lt_succ_of_lt hlt, ?_⟩
  unfold gather at heq
  rw [readValue, heq]
  rfl

end Values

/-- The text of a value is read back by a reader that allows as many containers inside one another. -/
theorem readBack_of_whole (h : v.Whole levels) : ReadBack (readValue levels) v := by
  induction h with
  | null =>
    intro rest _
    rw [Value.text, tokens_null]
    exact reads_null
  | bool b =>
    intro rest _
    rw [Value.text, tokens_bool]
    exact reads_bool b
  | integer low high =>
    intro rest hrest
    obtain ⟨m, htokens, hm⟩ := tokens_integer low high hrest
    rw [Value.text, Number.text, htokens]
    exact reads_number hm
  | string s =>
    intro rest _
    rw [Value.text, tokens_stringText]
    exact reads_string s
  | @array levels elements inner ih =>
    intro rest _
    have htext : (Value.array elements).text.toList ++ rest =
        '[' :: ((elementsText elements).toList ++ ']' :: rest) := by
      simp [Value.text]
    rw [htext, tokens_openArray]
    exact reads_array (reads_elements elements ih)
  | @object levels members ordered inner ih =>
    intro rest _
    have htext : (Value.object members).text.toList ++ rest =
        '\x7b' :: ((membersText members).toList ++ '\x7d' :: rest) := by
      simp [Value.text]
    rw [htext, tokens_openObject]
    exact reads_object (reads_members members ordered ih)

/-- A count that fits 64 bits is read back. -/
theorem reads_count {n : Nat} (hn : n < 0x10000000000000000) (hrest : Ends rest) :
    Reads readCount (tokens ((toString n).toList ++ rest)) n (tokens rest) := by
  obtain ⟨m, htokens, hm⟩ := tokens_toString hn hrest
  rw [htokens]
  exact ⟨Nat.lt_succ_self _, by rw [readCount, hm]; rfl⟩

end ConsoleBridge.Json

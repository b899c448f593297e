import Mathlib.Data.List.Forall2
import ConsoleBridge.Json.Skip
import ConsoleBridge.Proofs.Json.Grammar
import ConsoleBridge.Proofs.Json.Reading

/-!
# What readers make of a tree

A reader that meets the tokens of a tree decides on them alone: what stands behind them is left as it is. What it
makes of the tree is told without tokens: a value is decoded container by container, a count is digits that fit 64 bits,
an object is a sequence of steps with one for each member, and whatever is not wanted is skipped.
-/
namespace ConsoleBridge.Json

variable {α β σ : Type} {ts us vs left : List Token} {first : Bool}

/-- In front of whatever follows, these tokens are read as just the values with the property, and what follows is
left. -/
def Decides (read : Reader α) (ts : List Token) (p : α → Prop) : Prop :=
  ∀ rest v left, Reads read (ts ++ rest) v left ↔ p v ∧ left = rest

section Readers

variable {read : Reader α} {v w : α} {p : α → Prop}

/-- A reader takes one value off the front. -/
theorem reads_iff (h : Reads read ts v us) : Reads read ts w left ↔ w = v ∧ left = us := by
  constructor
  · rintro ⟨_, hw⟩
    obtain ⟨_, hv⟩ := h
    rw [hv] at hw
    cases hw
    exact ⟨rfl, rfl⟩
  · rintro ⟨rfl, rfl⟩
    exact h

theorem not_reads {e : ReadError} (h : read ts = .error e) : ¬ Reads read ts v left := by
  rintro ⟨_, hv⟩
  rw [h] at hv
  cases hv

theorem decides_one (h : ∀ rest, Reads read (ts ++ rest) v rest) : Decides read ts (· = v) :=
  fun rest _ _ => reads_iff (h rest)

theorem decides_none (h : ∀ rest, ∃ e, read (ts ++ rest) = .error e) : Decides read ts fun _ => False := by
  intro rest v left
  obtain ⟨e, he⟩ := h rest
  exact iff_of_false (not_reads he) fun hv => hv.1

theorem Decides.congr {q : α → Prop} (h : Decides read ts p) (hpq : ∀ v, p v ↔ q v) : Decides read ts q :=
  fun rest v left => (h rest v left).trans (and_congr_left' (hpq v))

private theorem reads_map_iff {f : α → β} {w : β} :
    Reads (Reader.map f read) ts w left ↔ ∃ v, Reads read ts v left ∧ w = f v := by
  constructor
  · rintro ⟨hlt, heq⟩
    rw [Reader.map] at heq
    split at heq
    · rename_i v left' hv
      cases heq
      exact ⟨v, ⟨hlt, hv⟩, rfl⟩
    · cases heq
  · rintro ⟨v, hv, rfl⟩
    exact hv.map f

theorem Decides.map {f : α → β} (h : Decides read ts p) :
    Decides (Reader.map f read) ts fun w => ∃ v, p v ∧ w = f v := by
  intro rest w left
  rw [reads_map_iff]
  constructor
  · rintro ⟨v, hv, rfl⟩
    obtain ⟨hp, rfl⟩ := (h rest v left).mp hv
    exact ⟨⟨v, hp, rfl⟩, rfl⟩
  · rintro ⟨⟨v, hp, rfl⟩, rfl⟩
    exact ⟨v, (h left v left).mpr ⟨hp, rfl⟩, rfl⟩

end Readers

theorem exists_tokens_eq (t : Tree) : ∃ u us, t.tokens = u :: us ∧ u ≠ .closeArray := by
  cases t with
  | _ => exact ⟨_, _, rfl, nofun⟩

/-- No value starts with a closing bracket. -/
theorem opens_tokens (t : Tree) (rest : List Token) : Opens (t.tokens ++ rest) := by
  obtain ⟨u, us, htokens, hu⟩ := exists_tokens_eq t
  exact ⟨u, us ++ rest, by rw [htokens]; rfl, hu⟩

section Elements

variable {item : Reader α} {d : Tree → α → Prop} {acc all : List α} {elements : List Tree} {rest : List Token}

private theorem reads_elements_iff {hu : us.length ≤ ts.length} (hnext : nextElement first ts = .ok (.more us hu)) :
    Reads (readElements item acc first) ts all rest ↔
      ∃ v vs, Reads item us v vs ∧ Reads (readElements item (v :: acc) false) vs all rest := by
  constructor
  · rintro ⟨hlt, heq⟩
    rw [readElements, hnext] at heq
    rcases hv : item us with e | ⟨v, vs, hvs⟩
    · simp only [hv] at heq
      cases heq
    · rcases hall : readElements item (v :: acc) false vs with e | ⟨all', left, hleft⟩
      · simp only [hv, hall] at heq
        cases heq
      · simp only [hv, hall] at heq
        cases heq
        exact ⟨v, vs, ⟨hvs, hv⟩, ⟨hleft, hall⟩⟩
  · rintro ⟨v, vs, hv, hall⟩
    exact reads_elements_more hnext hv hall

/-- An element is decided on its own, and then those behind it are. -/
theorem reads_element_iff {t : Tree} {q : α → List α → Prop} {hu : (t.tokens ++ (us ++ rest)).length ≤ ts.length}
    (hnext : nextElement first ts = .ok (.more (t.tokens ++ (us ++ rest)) hu)) (ht : Decides item t.tokens (d t))
    (hmore : ∀ v, Decides (readElements item (v :: acc) false) us (q v)) :
    Reads (readElements item acc first) ts all left ↔ (∃ v, d t v ∧ q v all) ∧ left = rest := by
  rw [reads_elements_iff hnext]
  constructor
  · rintro ⟨v, vs, hv, hall⟩
    obtain ⟨hd, rfl⟩ := (ht _ v vs).mp hv
    obtain ⟨hq, rfl⟩ := (hmore v _ all left).mp hall
    exact ⟨⟨v, hd, hq⟩, rfl⟩
  · rintro ⟨⟨v, hd, hq⟩, rfl⟩
    exact ⟨v, _, (ht _ v _).mpr ⟨hd, rfl⟩, (hmore v _ all left).mpr ⟨hq, rfl⟩⟩

-- The elements read so far are in reverse, so each step takes one off the list and puts it on the accumulator.
private theorem decides_moreElements (h : ∀ t ∈ elements, Decides item t.tokens (d t)) (acc : List α) :
    Decides (readElements item acc false) (moreElementTokens elements)
      fun all => ∃ vs, List.Forall₂ d elements vs ∧ all = acc.reverse ++ vs := by
  induction elements generalizing acc with
  | nil => exact (decides_one fun rest => reads_elements_done).congr fun all => by simp
  | cons t elements ih =>
    have hmore := fun v => ih (fun u hu => h u (List.mem_cons_of_mem t hu)) (v :: acc)
    intro rest all left
    rw [moreElementTokens, List.cons_append, List.append_assoc,
      reads_element_iff (nextElement_comma (opens_tokens ..)) (h t List.mem_cons_self) hmore]
    refine and_congr_left' ⟨?_, ?_⟩
    · rintro ⟨v, hd, vs, hvs, rfl⟩
      exact ⟨v :: vs, .cons hd hvs, by simp⟩
    · rintro ⟨_, hall, rfl⟩
      obtain ⟨v, vs, hd, hvs, rfl⟩ := List.forall₂_cons_left_iff.mp hall
      exact ⟨v, hd, vs, hvs, by simp⟩

/-- The elements of an array are decided one by one. -/
theorem decides_elements (h : ∀ t ∈ elements, Decides item t.tokens (d t)) :
    Decides (readElements item [] true) (elementTokens elements) (List.Forall₂ d elements) := by
  cases elements with
  | nil => exact (decides_one fun rest => reads_elements_done).congr fun all => by simp
  | cons t elements =>
    have hmore := fun v => decides_moreElements (fun u hu => h u (List.mem_cons_of_mem t hu)) [v]
    intro rest all left
    rw [elementTokens, List.append_assoc,
      reads_element_iff (nextElement_true (opens_tokens ..)) (h t List.mem_cons_self) hmore,
      List.forall₂_cons_left_iff]
    simp

end Elements

section Members

variable {member : String → σ → Except ReadError (Reader σ)} {step : String × Tree → σ → σ → Prop} {acc all : σ}
  {name : String} {ms : List (String × Tree)} {rest : List Token}

/-- One member after another takes a step. -/
def Steps (step : String × Tree → σ → σ → Prop) : List (String × Tree) → σ → σ → Prop
  | [], s, s' => s' = s
  | m :: ms, s, s' => ∃ s₁, step m s s₁ ∧ Steps step ms s₁ s'

/-- Reading a member is a step, whatever was read before and whatever follows. -/
def ReadsBy (member : String → σ → Except ReadError (Reader σ)) (step : String × Tree → σ → σ → Prop)
    (m : String × Tree) : Prop :=
  ∀ acc rest acc' left,
    (∃ read, member m.1 acc = .ok read ∧ Reads read (m.2.tokens ++ rest) acc' left) ↔ step m acc acc' ∧ left = rest

private theorem reads_members_iff {hu : (.string (.ok name) none :: .colon :: us : List Token).length ≤ ts.length}
    (hnext : nextMember first ts = .ok (.more (.string (.ok name) none :: .colon :: us) hu)) :
    Reads (readMembers member acc first) ts all rest ↔
      ∃ acc' vs, (∃ read, member name acc = .ok read ∧ Reads read us acc' vs) ∧
        Reads (readMembers member acc' false) vs all rest := by
  constructor
  · rintro ⟨hlt, heq⟩
    rw [readMembers, hnext] at heq
    simp only [readName, readColon, behind] at heq
    rcases hmember : member name acc with e | read
    · simp only [hmember] at heq
      cases heq
    · rcases hread : read us with e | ⟨acc', vs, hvs⟩
      · simp only [hmember, hread] at heq
        cases heq
      · rcases hall : readMembers member acc' false vs with e | ⟨all', left, hleft⟩
        · simp only [hmember, hread, hall] at heq
          cases heq
        · simp only [hmember, hread, hall] at heq
          cases heq
          exact ⟨acc', vs, ⟨read, rfl, hvs, hread⟩, ⟨hleft, hall⟩⟩
  · rintro ⟨acc', vs, ⟨read, hmember, hread⟩, hall⟩
    exact reads_members_more hnext hmember hread hall

/-- A member takes its step, and then those behind it do. -/
theorem reads_member_iff {m : String × Tree} {q : σ → σ → Prop}
    {hu : (.string (.ok m.1) none :: .colon :: (m.2.tokens ++ (us ++ rest)) : List Token).length ≤ ts.length}
    (hnext : nextMember first ts = .ok (.more (.string (.ok m.1) none :: .colon :: (m.2.tokens ++ (us ++ rest))) hu))
    (hm : ReadsBy member step m) (hmore : ∀ acc', Decides (readMembers member acc' false) us (q acc')) :
    Reads (readMembers member acc first) ts all left ↔ (∃ acc', step m acc acc' ∧ q acc' all) ∧ left = rest := by
  rw [reads_members_iff hnext]
  constructor
  · rintro ⟨acc', vs, hread, hall⟩
    obtain ⟨hstep, rfl⟩ := (hm acc _ acc' vs).mp hread
    obtain ⟨hq, rfl⟩ := (hmore acc' _ all left).mp hall
    exact ⟨⟨acc', hstep, hq⟩, rfl⟩
  · rintro ⟨⟨acc', hstep, hq⟩, rfl⟩
    exact ⟨acc', _, (hm acc _ acc' _).mpr ⟨hstep, rfl⟩, (hmore acc' _ all left).mpr ⟨hq, rfl⟩⟩

private theorem decides_moreMembers (h : ∀ m ∈ ms, ReadsBy member step m) (acc : σ) :
    Decides (readMembers member acc false) (moreMemberTokens ms) (Steps step ms acc) := by
  induction ms generalizing acc with
  | nil => exact decides_one fun rest => reads_members_done
  | cons m ms ih =>
    intro rest all left
    rw [moreMemberTokens, List.cons_append, List.cons_append, List.cons_append, List.append_assoc,
      reads_member_iff rfl (h m List.mem_cons_self) (ih fun n hn => h n (List.mem_cons_of_mem m hn))]
    rfl

/-- The members of an object are read step by step. -/
theorem decides_members (h : ∀ m ∈ ms, ReadsBy member step m) (acc : σ) :
    Decides (readMembers member acc true) (memberTokens ms) (Steps step ms acc) := by
  cases ms with
  | nil => exact decides_one fun rest => reads_members_done
  | cons m ms =>
    intro rest all left
    rw [memberTokens, List.cons_append, List.cons_append, List.append_assoc,
      reads_member_iff rfl (h m List.mem_cons_self)
        (decides_moreMembers fun n hn => h n (List.mem_cons_of_mem m hn))]
    rfl

end Members

section Values

mutual

def Tree.value? : Nat → Tree → Option Value
  | _, .null => some .null
  | _, .bool b => some (.bool b)
  | _, .number m => m.value.toOption.map .number
  | _, .string s => some (.string s)
  | 0, .array _ => none
  | levels + 1, .array elements => (elementValues? levels elements).map .array
  | 0, .object _ => none
  | levels + 1, .object members => (memberValues? levels members).map .ofMembers

def elementValues? (levels : Nat) : List Tree → Option (List Value)
  | [] => some []
  | t :: ts => do
    let v ← t.value? levels
    let vs ← elementValues? levels ts
    return v :: vs

def memberValues? (levels : Nat) : List (String × Tree) → Option (List (String × Value))
  | [] => some []
  | (name, t) :: ms => do
    let v ← t.value? levels
    let vs ← memberValues? levels ms
    return (name, v) :: vs

end

variable {levels : Nat} {elements : List Tree} {ms : List (String × Tree)} {v : Value}

theorem elementValues?_eq_some_iff {vs : List Value} :
    elementValues? levels elements = some vs ↔ List.Forall₂ (fun t v => t.value? levels = some v) elements vs := by
  induction elements generalizing vs with
  | nil => simp [elementValues?, eq_comm]
  | cons t elements ih =>
    rw [elementValues?, List.forall₂_cons_left_iff]
    simp only [← ih, Option.bind_eq_bind, Option.bind_eq_some_iff, Option.pure_def, Option.some.injEq, exists_and_left]
    simp only [eq_comm]

theorem memberValues?_cons {m : String × Tree} {vs : List (String × Value)} :
    memberValues? levels (m :: ms) = some vs ↔
      ∃ v, m.2.value? levels = some v ∧ ∃ ws, memberValues? levels ms = some ws ∧ vs = (m.1, v) :: ws := by
  rw [memberValues?]
  simp only [Option.bind_eq_bind, Option.bind_eq_some_iff, Option.pure_def, Option.some.injEq]
  simp only [eq_comm]

private theorem exists_of_memberValues? {vs : List (String × Value)} {w : String × Value}
    (h : memberValues? levels ms = some vs) (hw : w ∈ vs) : ∃ m ∈ ms, m.2.value? levels = some w.2 := by
  induction ms generalizing vs with
  | nil =>
    cases h
    exact absurd hw List.not_mem_nil
  | cons m ms ih =>
    obtain ⟨v, hv, ws, hws, rfl⟩ := memberValues?_cons.mp h
    rcases List.mem_cons.mp hw with rfl | hw
    · exact ⟨m, List.mem_cons_self, hv⟩
    · obtain ⟨n, hn, hnw⟩ := ih hws hw
      exact ⟨n, List.mem_cons_of_mem m hn, hnw⟩

/-- The members of an object are gathered one after another. -/
theorem steps_gather {acc all : List (String × Value)} :
    Steps (fun m acc acc' => ∃ v, m.2.value? levels = some v ∧ acc' = Value.insertMember m.1 v acc) ms acc all ↔
      ∃ vs, memberValues? levels ms = some vs ∧ all = vs.foldl (fun acc w => Value.insertMember w.1 w.2 acc) acc := by
  induction ms generalizing acc with
  | nil => simp [Steps, memberValues?]
  | cons m ms ih =>
    simp only [Steps, ih, memberValues?_cons]
    constructor
    · rintro ⟨_, ⟨v, hv, rfl⟩, vs, hvs, rfl⟩
      exact ⟨_, ⟨v, hv, vs, hvs, rfl⟩, rfl⟩
    · rintro ⟨_, ⟨v, hv, vs, hvs, rfl⟩, rfl⟩
      exact ⟨_, ⟨v, hv, rfl⟩, vs, hvs, rfl⟩

private theorem reads_array_iff {left : List Token} :
    Reads (readValue (levels + 1)) (.openArray :: ts) v left ↔
      ∃ vs, Reads (readElements (readValue levels) [] true) ts vs left ∧ v = .array vs := by
  constructor
  · rintro ⟨hlt, heq⟩
    rw [readValue] at heq
    split at heq
    · rename_i vs left' hall
      cases heq
      exact ⟨vs, ⟨left'.2, hall⟩, rfl⟩
    · cases heq
  · rintro ⟨vs, hall, rfl⟩
    exact reads_array hall

theorem reads_object_iff {left : List Token} :
    Reads (readValue (levels + 1)) (.openObject :: ts) v left ↔
      ∃ all, Reads (readMembers (gather levels) [] true) ts all left ∧ v = .object all := by
  constructor
  · rintro ⟨hlt, heq⟩
    rw [readValue] at heq
    split at heq
    · rename_i all left' hall
      cases heq
      exact ⟨all, ⟨left'.2, hall⟩, rfl⟩
    · cases heq
  · rintro ⟨all, hall, rfl⟩
    exact reads_object hall

/-- A value is read exactly if the tree has one. -/
theorem decides_value (t : Tree) (levels : Nat) :
    Decides (readValue levels) t.tokens fun v => t.value? levels = some v := by
  induction t using Tree.induction generalizing levels with
  | null => exact (decides_one fun rest => reads_null).congr fun v => by simp [Tree.value?, eq_comm]
  | bool b => exact (decides_one fun rest => reads_bool b).congr fun v => by simp [Tree.value?, eq_comm]
  | number m =>
    rcases hm : m.value with e | n
    · have hnone : Decides (readValue levels) (Tree.number m).tokens fun _ => False := decides_none fun rest =>
        ⟨.form e, by rw [Tree.tokens, List.singleton_append, readValue, hm]⟩
      exact hnone.congr fun v => by simp [Tree.value?, hm, Except.toOption]
    · refine (decides_one fun rest => reads_number hm).congr fun v => ?_
      simp [Tree.value?, hm, Except.toOption, eq_comm]
  | string s => exact (decides_one fun rest => reads_string s).congr fun v => by simp [Tree.value?, eq_comm]
  | array elements ih =>
    intro rest v left
    rw [Tree.tokens, List.cons_append]
    cases levels with
    | zero =>
      have herror : readValue 0 (.openArray :: (elementTokens elements ++ rest)) = .error (.form .malformed) := by
        rw [readValue]
      exact iff_of_false (not_reads herror) (by simp [Tree.value?])
    | succ levels =>
      have hall := fun vs => decides_elements (fun t ht => ih t ht levels) rest vs left
      simp only [reads_array_iff, hall, ← elementValues?_eq_some_iff, Tree.value?, Option.map_eq_some_iff]
      grind
  | object members ih =>
    intro rest v left
    rw [Tree.tokens, List.cons_append]
    cases levels with
    | zero =>
      have herror : readValue 0 (.openObject :: (memberTokens members ++ rest)) = .error (.form .malformed) := by
        rw [readValue]
      exact iff_of_false (not_reads herror) (by simp [Tree.value?])
    | succ levels =>
      have hstep : ∀ m ∈ members, ReadsBy (gather levels)
          (fun m acc acc' => ∃ v, m.2.value? levels = some v ∧ acc' = Value.insertMember m.1 v acc) m := by
        intro m hm acc rest acc' left
        have hvalue := (ih m hm levels).map (f := (Value.insertMember m.1 · acc)) rest acc' left
        rw [← hvalue]
        simp [gather]
      have hall := fun all => decides_members hstep [] rest all left
      simp only [reads_object_iff, hall, steps_gather, Tree.value?, Option.map_eq_some_iff, Value.ofMembers]
      grind

end Values

section Wholeness

inductive Value.Integral : Value → Prop
  | null : Integral .null
  | bool (b : Bool) : Integral (.bool b)
  | integer (i : Int) : Integral (.number (.integer i))
  | string (s : String) : Integral (.string s)
  | array {elements : List Value} (inner : ∀ v ∈ elements, Integral v) : Integral (.array elements)
  | object {members : List (String × Value)} (inner : ∀ m ∈ members, Integral m.2) : Integral (.object members)

variable {levels : Nat} {v : Value} {acc : List (String × Value)} {name : String}

theorem mem_insertMember {m : String × Value} (h : m ∈ Value.insertMember name v acc) : m = (name, v) ∨ m ∈ acc := by
  fun_induction Value.insertMember name v acc with
  | case1 => exact .inl (List.mem_singleton.mp h)
  | case2 n w rest hlt => exact List.mem_cons.mp h
  | case3 w rest hlt =>
    rcases List.mem_cons.mp h with rfl | h
    · exact .inl rfl
    · exact .inr (List.mem_cons_of_mem _ h)
  | case4 n w rest hlt hne ih =>
    rcases List.mem_cons.mp h with rfl | h
    · exact .inr List.mem_cons_self
    · exact (ih h).imp_right (List.mem_cons_of_mem _)

private theorem pairwise_insertMember (h : acc.Pairwise (·.1 < ·.1)) :
    (Value.insertMember name v acc).Pairwise (·.1 < ·.1) := by
  fun_induction Value.insertMember name v acc with
  | case1 => exact List.pairwise_singleton _ _
  | case2 n w rest hlt =>
    refine List.pairwise_cons.mpr ⟨fun m hm => ?_, h⟩
    rcases List.mem_cons.mp hm with rfl | hm
    · exact hlt
    · exact String.lt_trans hlt ((List.pairwise_cons.mp h).1 m hm)
  | case3 w rest hlt => exact List.pairwise_cons.mpr (List.pairwise_cons.mp h)
  | case4 n w rest hlt hne ih =>
    obtain ⟨hfront, hrest⟩ := List.pairwise_cons.mp h
    refine List.pairwise_cons.mpr ⟨fun m hm => ?_, ih hrest⟩
    rcases mem_insertMember hm with rfl | hm
    · exact Decidable.byContradiction fun hnot =>
        hne (String.le_antisymm (String.not_lt.mp hnot) (String.not_lt.mp hlt))
    · exact hfront m hm

/-- The members that are kept are among those that were read, in the order of their names. -/
theorem ofMembers_ordered (ms acc : List (String × Value)) (hacc : acc.Pairwise (·.1 < ·.1)) :
    (ms.foldl (fun acc w => Value.insertMember w.1 w.2 acc) acc).Pairwise (·.1 < ·.1) ∧
      ∀ m ∈ ms.foldl (fun acc w => Value.insertMember w.1 w.2 acc) acc, m ∈ ms ∨ m ∈ acc := by
  induction ms generalizing acc with
  | nil => exact ⟨hacc, fun m hm => .inr hm⟩
  | cons w ms ih =>
    obtain ⟨hordered, hmem⟩ := ih _ (pairwise_insertMember hacc)
    refine ⟨hordered, fun m hm => ?_⟩
    rcases hmem m hm with hm | hm
    · exact .inl (List.mem_cons_of_mem w hm)
    · rcases mem_insertMember hm with rfl | hm
      · exact .inl List.mem_cons_self
      · exact .inr hm

theorem value_eq_integer_iff {m : NumberText} {i : Int} : m.value = .ok (.integer i) ↔ m.integer? = some i := by
  rw [NumberText.value]
  cases m.integer? with
  | some j => simp
  | none => cases m.real? <;> simp

/-- An integer that was read fits 64 bits. -/
theorem range_of_value {m : NumberText} {i : Int} (h : m.value = .ok (.integer i)) :
    -0x8000000000000000 ≤ i ∧ i < 0x10000000000000000 := by
  have hinteger := value_eq_integer_iff.mp h
  grind [NumberText.integer?]

private theorem exists_of_forall₂ {R : α → β → Prop} {xs : List α} {ys : List β} (h : List.Forall₂ R xs ys) {y : β}
    (hy : y ∈ ys) : ∃ x ∈ xs, R x y := by
  induction h with
  | nil => exact absurd hy List.not_mem_nil
  | cons hxy _ ih =>
    rcases List.mem_cons.mp hy with rfl | hy
    · exact ⟨_, List.mem_cons_self, hxy⟩
    · obtain ⟨x, hx, hxy⟩ := ih hy
      exact ⟨x, List.mem_cons_of_mem _ hx, hxy⟩

/-- A value that was read, with no double in it, is one that is read back. -/
theorem whole_of_value {t : Tree} (h : t.value? levels = some v) (hv : v.Integral) : v.Whole levels := by
  induction t using Tree.induction generalizing levels v with
  | null =>
    cases h
    exact .null
  | bool b =>
    cases h
    exact .bool b
  | number m =>
    rcases hm : m.value with e | n
    · simp [Tree.value?, hm, Except.toOption] at h
    · simp only [Tree.value?, hm, Except.toOption, Option.map_some, Option.some.injEq] at h
      subst h
      cases hv with
      | integer i =>
        obtain ⟨hlow, hhigh⟩ := range_of_value hm
        exact .integer hlow hhigh
  | string s =>
    cases h
    exact .string s
  | array elements ih =>
    cases levels with
    | zero => cases h
    | succ levels =>
      obtain ⟨vs, hvs, rfl⟩ := Option.map_eq_some_iff.mp h
      cases hv with
      | array inner =>
        refine .array fun v hv => ?_
        obtain ⟨t, ht, htv⟩ := exists_of_forall₂ (elementValues?_eq_some_iff.mp hvs) hv
        exact ih t ht htv (inner v hv)
  | object members ih =>
    cases levels with
    | zero => cases h
    | succ levels =>
      obtain ⟨vs, hvs, rfl⟩ := Option.map_eq_some_iff.mp h
      cases hv with
      | object inner =>
        obtain ⟨hordered, hmem⟩ := ofMembers_ordered vs [] .nil
        refine .object hordered fun w hw => ?_
        have hread : w ∈ vs := (hmem w hw).resolve_right List.not_mem_nil
        obtain ⟨m, hm, hmw⟩ := exists_of_memberValues? hvs hread
        exact ih m hm hmw (inner w hw)

end Wholeness

section Skipping

open Skip

variable {inside : List Container} {rest : List Token}

def Passes (t : Tree) : Prop :=
  ∀ inside rest, run (.value, inside) (t.tokens ++ rest) = run (.separator, inside) rest

private theorem run_moreElements {elements : List Tree} (h : ∀ t ∈ elements, Passes t) :
    run (.separator, .array :: inside) (moreElementTokens elements ++ rest) = run (.separator, inside) rest := by
  induction elements with
  | nil => rfl
  | cons t elements ih =>
    rw [moreElementTokens, List.cons_append, List.append_assoc]
    exact (h t List.mem_cons_self _ _).trans (ih fun u hu => h u (List.mem_cons_of_mem t hu))

private theorem run_firstElement (t : Tree) :
    run (.firstElement, inside) (t.tokens ++ rest) = run (.value, inside) (t.tokens ++ rest) := by
  obtain ⟨u, us, htokens, hu⟩ := exists_tokens_eq t
  rw [htokens]
  cases u with
  | closeArray => exact absurd rfl hu
  | _ => rfl

private theorem run_moreMembers {ms : List (String × Tree)} (h : ∀ m ∈ ms, Passes m.2) :
    run (.separator, .object :: inside) (moreMemberTokens ms ++ rest) = run (.separator, inside) rest := by
  induction ms with
  | nil => rfl
  | cons m ms ih =>
    rw [moreMemberTokens, List.cons_append, List.cons_append, List.cons_append, List.append_assoc]
    exact (h m List.mem_cons_self _ _).trans (ih fun n hn => h n (List.mem_cons_of_mem m hn))

private theorem passes (t : Tree) : Passes t := by
  induction t using Tree.induction with
  | null => exact fun inside rest => rfl
  | bool b => exact fun inside rest => rfl
  | number n => exact fun inside rest => rfl
  | string s => exact fun inside rest => rfl
  | array elements ih =>
    intro inside rest
    cases elements with
    | nil => rfl
    | cons t elements =>
      have hmore := @run_moreElements inside rest elements fun u hu => ih u (List.mem_cons_of_mem t hu)
      rw [Tree.tokens, elementTokens, List.cons_append, List.append_assoc]
      exact (run_firstElement t).trans ((ih t List.mem_cons_self _ _).trans hmore)
  | object members ih =>
    intro inside rest
    cases members with
    | nil => rfl
    | cons m members =>
      have hmore := @run_moreMembers inside rest members fun n hn => ih n (List.mem_cons_of_mem m hn)
      rw [Tree.tokens, memberTokens, List.cons_append, List.cons_append, List.cons_append, List.append_assoc]
      exact (ih m List.mem_cons_self _ _).trans hmore

private theorem reads_skip {t : Token} {ts rest : List Token} (h : run (.value, []) (t :: ts) = .ok rest) :
    Reads skipValue (t :: ts) () rest := by
  rcases hs : start [] t with fault | s
  · have hstep : step [] t .value = .error fault := hs
    rw [run, hstep] at h
    · cases h
    · nofun
  · have hstep : step [] t .value = .ok s := hs
    have hrun : run s ts = .ok rest := by
      rw [run, hstep] at h
      · exact h
      · nofun
    refine ⟨Nat.lt_succ_of_le (length_of_run hrun), ?_⟩
    rw [skipValue]
    split
    · rename_i fault hfault
      cases hs.symm.trans hfault
    · rename_i s' hs'
      cases hs.symm.trans hs'
      split
      · rename_i rest' hrest
        cases hrun.symm.trans hrest
        rfl
      · rename_i fault hrest
        cases hrun.symm.trans hrest

/-- Whatever a tree is, it is skipped. -/
theorem decides_skip (t : Tree) : Decides skipValue t.tokens fun _ => True := by
  have hskip : ∀ rest, Reads skipValue (t.tokens ++ rest) () rest := by
    intro rest
    have hpass : run (.value, []) (t.tokens ++ rest) = .ok rest := (passes t [] rest).trans (by rw [run])
    obtain ⟨u, us, htokens, -⟩ := exists_tokens_eq t
    rw [htokens, List.cons_append] at hpass ⊢
    exact reads_skip hpass
  exact (decides_one hskip).congr fun v => by simp

end Skipping

section Counts

/-- The number is written as digits and nothing else, with this value, which fits 64 bits. -/
structure NumberText.Counts (m : NumberText) (n : Nat) : Prop where
  unsigned : m.negative = false
  whole : m.fraction = []
  plain : m.exponent = none
  value : m.magnitude = n
  fits : n < 0x10000000000000000

theorem counts_iff {m : NumberText} {n : Nat} : m.Counts n ↔ m.value = .ok (.integer n) := by
  rw [value_eq_integer_iff]
  constructor
  · rintro ⟨hsign, hwhole, hplain, hvalue, hfits⟩
    simp [NumberText.integer?, hsign, hwhole, hplain, hvalue, hfits]
  · intro h
    grind [NumberText.integer?, NumberText.Counts]

private theorem decides_number (m : NumberText) : Decides readCount [.number m] m.Counts := by
  rcases hm : m.value with e | (i | x)
  · refine (decides_none fun rest => ⟨_, by rw [List.singleton_append, readCount, hm]⟩).congr fun n => ?_
    simp [counts_iff, hm]
  · by_cases hi : 0 ≤ i
    · have hread : ∀ rest, Reads readCount (.number m :: rest) i.toNat rest := fun rest =>
        ⟨Nat.lt_succ_self _, by rw [readCount, hm]; exact if_pos hi⟩
      refine Decides.congr (decides_one hread) fun n => ?_
      rw [counts_iff, hm, Except.ok.injEq, Number.integer.injEq]
      omega
    · refine (decides_none fun rest => ⟨_, by rw [List.singleton_append, readCount, hm]; exact if_neg hi⟩).congr
        fun n => ?_
      rw [counts_iff, hm, Except.ok.injEq, Number.integer.injEq]
      exact iff_of_false not_false (by omega)
  · refine (decides_none fun rest => ⟨_, by rw [List.singleton_append, readCount, hm]⟩).congr fun n => ?_
    simp [counts_iff, hm]

/-- A count is read exactly off a number that is written as one. -/
theorem decides_count (t : Tree) : Decides readCount t.tokens fun n => ∃ m, t = .number m ∧ m.Counts n := by
  cases t with
  | number m => exact (decides_number m).congr fun n => by simp
  | _ => exact (decides_none fun rest => ⟨_, rfl⟩).congr fun n => iff_of_false not_false fun ⟨m, hm, _⟩ => nomatch hm

end Counts

end ConsoleBridge.Json

import ConsoleBridge.Json.Lexer
import ConsoleBridge.Text.Quoted

/-! # Reading values off a list of tokens

A reader takes a value off the front and leaves the tokens behind it, fewer than there were. It stops at
the first thing that is wrong, be it the form of the text or, where a value of a certain kind is wanted,
its meaning. -/
namespace ConsoleBridge.Json

inductive Unexpected
  | null | bool (b : Bool) | number (n : Number) | string (s : String) | array | object
  deriving Inhabited

def Unexpected.text : Unexpected → String
  | null => "null"
  | bool b => if b then "boolean `true`" else "boolean `false`"
  | number (.integer i) => "integer `" ++ toString i ++ "`"
  | number (.real x) => "floating point `" ++ realText x ++ "`"
  | string s => "string " ++ Quoted.quote s
  | array => "sequence"
  | object => "map"

inductive Misfit
  | kind (found : Unexpected) (wanted : String)
  | value (found : Unexpected) (wanted : String)
  | missing (name : String)
  | duplicate (name : String)
  | tooShort (count : Nat) (wanted : String)
  | content (message : String)
  deriving Inhabited

def Misfit.message : Misfit → String
  | kind found wanted => "invalid type: " ++ found.text ++ ", expected " ++ wanted
  | value found wanted => "invalid value: " ++ found.text ++ ", expected " ++ wanted
  | missing name => "missing field `" ++ name ++ "`"
  | duplicate name => "duplicate field `" ++ name ++ "`"
  | tooShort count wanted => s!"invalid length {count}, expected " ++ wanted
  | content message => message

inductive ReadError
  | form (fault : Fault)
  | meaning (misfit : Misfit)
  deriving Inhabited

abbrev Left (ts : List Token) := { rest : List Token // rest.length < ts.length }

abbrev Outcome (ts : List Token) (α : Type) := Except ReadError (α × Left ts)

abbrev Reader (α : Type) := (ts : List Token) → Outcome ts α

@[inline] def behind (t : Token) (rest : List Token) : Left (t :: rest) :=
  ⟨rest, Nat.lt_succ_self _⟩

@[inline] def Left.widen {ts us : List Token} (left : Left us) (h : us.length ≤ ts.length) : Left ts :=
  ⟨left.1, Nat.lt_of_lt_of_le left.2 h⟩

@[inline] def Left.past {t : Token} {ts : List Token} (left : Left ts) : Left (t :: ts) :=
  left.widen (Nat.le_succ _)

@[inline] def Reader.map {α β : Type} (f : α → β) (read : Reader α) : Reader β := fun ts =>
  match read ts with
  | .ok (v, left) => .ok (f v, left)
  | .error e => .error e

/-- Whether a container goes on: `done` leaves what is behind its closing token, `more` what starts with
its next element or member. -/
inductive Next (ts : List Token)
  | done (left : Left ts)
  | more (rest : List Token) (h : rest.length ≤ ts.length)

def nextElement (first : Bool) (ts : List Token) : Except ReadError (Next ts) :=
  match ts with
  | [] => .error (.form .truncated)
  | .closeArray :: rest => .ok (.done (behind _ rest))
  | t :: rest =>
    if first then .ok (.more (t :: rest) (Nat.le_refl _))
    else
      match t, rest with
      | .comma, [] => .error (.form .truncated)
      | .comma, .closeArray :: _ => .error (.form .malformed)
      | .comma, rest => .ok (.more rest (Nat.le_succ _))
      | _, _ => .error (.form .malformed)

def Token.isString : Token → Bool
  | .string .. => true
  | _ => false

def nextMember (first : Bool) (ts : List Token) : Except ReadError (Next ts) :=
  match ts with
  | [] => .error (.form .truncated)
  | .closeObject :: rest => .ok (.done (behind _ rest))
  | t :: rest =>
    if first then
      if t.isString then .ok (.more (t :: rest) (Nat.le_refl _)) else .error (.form .malformed)
    else
      match t, rest with
      | .comma, [] => .error (.form .truncated)
      | .comma, k :: rest =>
        if k.isString then .ok (.more (k :: rest) (Nat.le_succ _)) else .error (.form .malformed)
      | _, _ => .error (.form .malformed)

def readName : Reader String
  | .string (.ok name) _ :: rest => .ok (name, behind _ rest)
  | .string (.error fault) _ :: _ => .error (.form fault)
  | [] => .error (.form .truncated)
  | _ :: _ => .error (.form .malformed)

def readColon : Reader Unit
  | .colon :: rest => .ok ((), behind _ rest)
  | [] => .error (.form .truncated)
  | _ :: _ => .error (.form .malformed)

/-- Read the closing bracket of an array of which no more elements are wanted. -/
def readArrayEnd : Reader Unit
  | .closeArray :: rest => .ok ((), behind _ rest)
  | [] => .error (.form .truncated)
  | _ :: _ => .error (.form .malformed)

/-- Read the elements of an array behind those of `acc`, which are in reverse, and its closing
bracket. -/
def readElements {α : Type} (item : Reader α) (acc : List α) (first : Bool) (ts : List Token) :
    Outcome ts (List α) :=
  match nextElement first ts with
  | .error e => .error e
  | .ok (.done left) => .ok (acc.reverse, left)
  | .ok (.more us hu) =>
    match item us with
    | .error e => .error e
    | .ok (v, ⟨vs, hv⟩) =>
      match readElements item (v :: acc) false vs with
      | .error e => .error e
      | .ok (all, left) => .ok (all, left.widen (by omega))
termination_by ts.length

/-- Read the members of an object and its closing brace. `member` is given the name of a member and what
came of those before it, and says how its value is to be read, or why the member may not be there. -/
def readMembers {σ : Type} (member : String → σ → Except ReadError (Reader σ)) (acc : σ)
    (first : Bool) (ts : List Token) : Outcome ts σ :=
  match nextMember first ts with
  | .error e => .error e
  | .ok (.done left) => .ok (acc, left)
  | .ok (.more us hu) =>
    match readName us with
    | .error e => .error e
    | .ok (name, ⟨vs, hv⟩) =>
      match member name acc with
      | .error e => .error e
      | .ok read =>
        match readColon vs with
        | .error e => .error e
        | .ok ((), ⟨ws, hw⟩) =>
          match read ws with
          | .error e => .error e
          | .ok (acc, ⟨xs, hx⟩) =>
            match readMembers member acc false xs with
            | .error e => .error e
            | .ok (all, left) => .ok (all, left.widen (by omega))
termination_by ts.length

/-- Read any value with at most `levels` containers inside one another. -/
def readValue (levels : Nat) (ts : List Token) : Outcome ts Value :=
  match ts with
  | [] => .error (.form .truncated)
  | .null :: rest => .ok (.null, behind _ rest)
  | .bool b :: rest => .ok (.bool b, behind _ rest)
  | .number n :: rest =>
    match n.value with
    | .ok n => .ok (.number n, behind _ rest)
    | .error fault => .error (.form fault)
  | .string (.ok s) _ :: rest => .ok (.string s, behind _ rest)
  | .string (.error fault) _ :: _ => .error (.form fault)
  | .openArray :: rest =>
    match levels with
    | 0 => .error (.form .malformed)
    | levels + 1 =>
      match readElements (readValue levels) [] true rest with
      | .ok (elements, left) => .ok (.array elements, left.past)
      | .error e => .error e
  | .openObject :: rest =>
    match levels with
    | 0 => .error (.form .malformed)
    | levels + 1 =>
      match readMembers (fun name acc => .ok (Reader.map (Value.insertMember name · acc)
          (readValue levels))) [] true rest with
      | .ok (members, left) => .ok (.object members, left.past)
      | .error e => .error e
  | .bad fault _ :: _ => .error (.form fault)
  | .closeObject :: _ | .closeArray :: _ | .comma :: _ | .colon :: _ => .error (.form .malformed)

/-- The misfit of a value that is not of the kind that is wanted, or the fault that comes before. -/
def misfitAt (wanted : String) : List Token → ReadError
  | [] => .form .truncated
  | .null :: _ => .meaning (.kind .null wanted)
  | .bool b :: _ => .meaning (.kind (.bool b) wanted)
  | .number n :: _ =>
    match n.value with
    | .ok n => .meaning (.kind (.number n) wanted)
    | .error fault => .form fault
  | .string (.ok s) _ :: _ => .meaning (.kind (.string s) wanted)
  | .string (.error fault) _ :: _ => .form fault
  | .openArray :: _ => .meaning (.kind .array wanted)
  | .openObject :: _ => .meaning (.kind .object wanted)
  | .bad fault _ :: _ => .form fault
  | .closeObject :: _ | .closeArray :: _ | .comma :: _ | .colon :: _ => .form .malformed

def readCount (ts : List Token) : Outcome ts Nat :=
  match ts with
  | .number n :: rest =>
    match n.value with
    | .ok (.integer i) =>
      if 0 ≤ i then .ok (i.toNat, behind _ rest)
      else .error (.meaning (.value (.number (.integer i)) "u64"))
    | .ok (.real x) => .error (.meaning (.kind (.number (.real x)) "u64"))
    | .error fault => .error (.form fault)
  | ts => .error (misfitAt "u64" ts)

def readString (ts : List Token) : Outcome ts String :=
  match ts with
  | .string (.ok s) _ :: rest => .ok (s, behind _ rest)
  | ts => .error (misfitAt "a string" ts)

def readOptionalString (ts : List Token) : Outcome ts (Option String) :=
  match ts with
  | .null :: rest => .ok (none, behind _ rest)
  | ts => Reader.map some readString ts

end ConsoleBridge.Json

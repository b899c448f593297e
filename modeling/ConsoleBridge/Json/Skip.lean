import ConsoleBridge.Json.Reader

/-! # Skipping a value that nobody asked for

A skipped value may be nested to any depth, its strings may hold single surrogates, and its numbers may be
of any size. -/
namespace ConsoleBridge.Json

inductive Container
  | array | object
  deriving DecidableEq, Repr, Inhabited

/-- What may come next in a skipped value. -/
inductive Expecting
  | value | firstElement | firstName | name | colon | separator
  deriving DecidableEq, Repr, Inhabited

namespace Skip

/-- A value started or ended: what may come next, inside which containers. -/
abbrev State := Expecting × List Container

def start (inside : List Container) : Token → Except Fault State
  | .null | .bool _ | .number _ | .string _ none => .ok (.separator, inside)
  | .string _ (some fault) => .error fault
  | .openArray => .ok (.firstElement, .array :: inside)
  | .openObject => .ok (.firstName, .object :: inside)
  | .bad _ fault => .error fault
  | .closeObject | .closeArray | .comma | .colon => .error .malformed

def named (inside : List Container) : Token → Except Fault State
  | .string _ none => .ok (.colon, inside)
  | .string _ (some fault) => .error fault
  | _ => .error .malformed

def step (inside : List Container) (t : Token) : Expecting → Except Fault State
  | .value => start inside t
  | .firstElement =>
    match t with
    | .closeArray => .ok (.separator, inside.drop 1)
    | t => start inside t
  | .firstName =>
    match t with
    | .closeObject => .ok (.separator, inside.drop 1)
    | t => named inside t
  | .name => named inside t
  | .colon =>
    match t with
    | .colon => .ok (.value, inside)
    | _ => .error .malformed
  | .separator =>
    match inside, t with
    | .array :: _, .comma => .ok (.value, inside)
    | .object :: _, .comma => .ok (.name, inside)
    | .array :: outer, .closeArray => .ok (.separator, outer)
    | .object :: outer, .closeObject => .ok (.separator, outer)
    | _, _ => .error .malformed

/-- What is left behind the value that a state is inside of. -/
def run : State → List Token → Except Fault (List Token)
  | (.separator, []), ts => .ok ts
  | _, [] => .error .truncated
  | (expecting, inside), t :: ts =>
    match step inside t expecting with
    | .ok s => run s ts
    | .error fault => .error fault

theorem length_of_run {s : State} {ts rest : List Token} (h : run s ts = .ok rest) :
    rest.length ≤ ts.length := by
  induction ts generalizing s with
  | nil => unfold run at h; split at h <;> simp_all
  | cons t ts ih =>
    unfold run at h
    split at h
    · simp_all
    · simp_all
    · rename_i heq
      simp only [List.cons.injEq] at heq
      obtain ⟨rfl, rfl⟩ := heq
      split at h
      · exact Nat.le_succ_of_le (ih h)
      · cases h

end Skip

def skipValue (ts : List Token) : Outcome ts Unit :=
  match ts with
  | [] => .error (.form .truncated)
  | t :: rest =>
    match Skip.start [] t with
    | .error fault => .error (.form fault)
    | .ok s =>
      match h : Skip.run s rest with
      | .ok left => .ok ((), ⟨left, Nat.lt_succ_of_le (Skip.length_of_run h)⟩)
      | .error fault => .error (.form fault)

end ConsoleBridge.Json

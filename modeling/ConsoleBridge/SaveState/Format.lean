import ConsoleBridge.Json.Skip
import ConsoleBridge.Json.Writer
import ConsoleBridge.SaveState.Basic
import ConsoleBridge.Text.Base64

/-! # The file format of save states

A save state is one JSON object. Memory is written in Base64. Members that the format does not know are
skipped, a member that it knows may stand only once, and an array of the values in their order is read
as well. -/
namespace ConsoleBridge

open Json

def bytesOfString (s : String) : Except ReadError ByteArray :=
  match Base64.decode s with
  | .ok b => .ok b
  | .error e => .error (.meaning (.content e.message))

def readBytes : Reader ByteArray := fun ts =>
  match readString ts with
  | .error e => .error e
  | .ok (s, left) => (bytesOfString s).map fun b => (b, left)

def readOptionalBytes : Reader (Option ByteArray) := fun ts =>
  match readOptionalString ts with
  | .error e => .error e
  | .ok (none, left) => .ok (none, left)
  | .ok (some s, left) => (bytesOfString s).map fun b => (some b, left)

/-- The member of an object that may stand only once: how its value is read into what has been read so
far, or the misfit of its having been there before. -/
def once {σ α : Type} (name : String) (seen : Option α) (read : Reader α) (set : α → σ) :
    Except ReadError (Reader σ) :=
  match seen with
  | some _ => .error (.meaning (.duplicate name))
  | none => .ok (Reader.map set read)

def required {α : Type} (name : String) (seen : Option α) : Except ReadError α :=
  match seen with
  | some v => .ok v
  | none => .error (.meaning (.missing name))

/-- What an array of values in their order holds next: a value, or nothing at its end. -/
def readNext {α : Type} (read : Reader α) (first : Bool) (ts : List Token) :
    Except ReadError (Option α × { rest : List Token // rest.length ≤ ts.length }) :=
  match nextElement first ts with
  | .error e => .error e
  | .ok (.done _) => .ok (none, ⟨ts, Nat.le_refl _⟩)
  | .ok (.more us hu) =>
    match read us with
    | .error e => .error e
    | .ok (v, ⟨rest, h⟩) => .ok (some v, ⟨rest, Nat.le_trans (Nat.le_of_lt h) hu⟩)

namespace MemoryState

structure Seen where
  rdram : Option ByteArray
  cartridgeRam : Option (Option ByteArray)

def member (name : String) (s : Seen) : Except ReadError (Reader Seen) :=
  if name = "rdram" then once name s.rdram readBytes fun v => { s with rdram := some v }
  else if name = "cartridgeRam" then
    once name s.cartridgeRam readOptionalBytes fun v => { s with cartridgeRam := some v }
  else .ok (Reader.map (fun _ => s) skipValue)

def ofSeen (s : Seen) : Except ReadError MemoryState := do
  let rdram ← required "rdram" s.rdram
  return ⟨rdram, s.cartridgeRam.join⟩

/-- Read the values of a memory state in their order, and the closing bracket. -/
def readOrdered (ts : List Token) : Except ReadError (MemoryState × Left ts) := do
  let (rdram, ⟨us, hu⟩) ← readNext readBytes true ts
  match rdram with
  | none => .error (.meaning (.tooShort 0 "struct MemoryState with 2 elements"))
  | some rdram =>
    let (save, ⟨vs, hv⟩) ← readNext readOptionalBytes false us
    let ((), left) ← readArrayEnd vs
    return (⟨rdram, save.join⟩, left.widen (Nat.le_trans hv hu))

def read (ts : List Token) : Except ReadError (MemoryState × Left ts) :=
  match ts with
  | .openObject :: rest => do
    let (seen, left) ← readMembers member ⟨none, none⟩ true rest
    let m ← ofSeen seen
    return (m, left.past)
  | .openArray :: rest => do
    let (m, left) ← readOrdered rest
    return (m, left.past)
  | ts => .error (misfitAt "struct MemoryState" ts)

def text (m : MemoryState) : String :=
  "\x7b\"rdram\":\"" ++ Base64.encode m.rdram ++ "\",\"cartridgeRam\":" ++
    (match m.cartridgeRam with
      | some save => "\"" ++ Base64.encode save ++ "\""
      | none => "null") ++ "\x7d"

end MemoryState

namespace SaveState

/-- How many containers may be inside one another in a processor's state. -/
def levels : Nat := 126

structure Seen where
  cpuState : Option Value
  memoryState : Option MemoryState
  rspState : Option Value
  rdpState : Option Value
  frameCount : Option Nat
  cycleCount : Option Nat

def member (name : String) (s : Seen) : Except ReadError (Reader Seen) :=
  if name = "cpuState" then
    once name s.cpuState (readValue levels) fun v => { s with cpuState := some v }
  else if name = "memoryState" then
    once name s.memoryState MemoryState.read fun v => { s with memoryState := some v }
  else if name = "rspState" then
    once name s.rspState (readValue levels) fun v => { s with rspState := some v }
  else if name = "rdpState" then
    once name s.rdpState (readValue levels) fun v => { s with rdpState := some v }
  else if name = "frameCount" then
    once name s.frameCount readCount fun v => { s with frameCount := some v }
  else if name = "cycleCount" then
    once name s.cycleCount readCount fun v => { s with cycleCount := some v }
  else .ok (Reader.map (fun _ => s) skipValue)

/-- The save state of which these members were read: the processors' states may be missing. -/
def ofSeen (s : Seen) : Except ReadError SaveState := do
  let memory ← required "memoryState" s.memoryState
  let frames ← required "frameCount" s.frameCount
  let cycles ← required "cycleCount" s.cycleCount
  return ⟨s.cpuState.getD .null, memory, s.rspState.getD .null, s.rdpState.getD .null, frames, cycles⟩

def requiredNext {α : Type} (count : Nat) (v : Option α) : Except ReadError α :=
  match v with
  | some v => .ok v
  | none => .error (.meaning (.tooShort count "struct SaveState with 6 elements"))

/-- Read the values of a save state in their order, and the closing bracket. -/
def readOrdered (ts : List Token) : Except ReadError (SaveState × Left ts) := do
  let (cpu, ⟨t₁, h₁⟩) ← readNext (readValue levels) true ts
  let (memory, ⟨t₂, h₂⟩) ← readNext MemoryState.read cpu.isNone t₁
  let memory ← requiredNext 1 memory
  let (rsp, ⟨t₃, h₃⟩) ← readNext (readValue levels) false t₂
  let (rdp, ⟨t₄, h₄⟩) ← readNext (readValue levels) false t₃
  let (frames, ⟨t₅, h₅⟩) ← readNext readCount false t₄
  let frames ← requiredNext 4 frames
  let (cycles, ⟨t₆, h₆⟩) ← readNext readCount false t₅
  let cycles ← requiredNext 5 cycles
  let ((), left) ← readArrayEnd t₆
  return (⟨cpu.getD .null, memory, rsp.getD .null, rdp.getD .null, frames, cycles⟩,
    left.widen (by omega))

def read (ts : List Token) : Except ReadError (SaveState × Left ts) :=
  match ts with
  | .openObject :: rest => do
    let (seen, left) ← readMembers member ⟨none, none, none, none, none, none⟩ true rest
    let s ← ofSeen seen
    return (s, left.past)
  | .openArray :: rest => do
    let (s, left) ← readOrdered rest
    return (s, left.past)
  | ts => .error (misfitAt "struct SaveState" ts)

/-- The save state that a list of tokens stands for; nothing may be behind it. -/
def ofTokens (ts : List Token) : Except ReadError SaveState := do
  let (s, left) ← read ts
  match left.1 with
  | [] => return s
  | _ => .error (.form .malformed)

def ofJson (text : String) : Except ReadError SaveState := ofTokens (tokens text.toList)

def toJson (s : SaveState) : String :=
  "\x7b\"cpuState\":" ++ s.cpuState.text ++ ",\"memoryState\":" ++ s.memoryState.text ++
    ",\"rspState\":" ++ s.rspState.text ++ ",\"rdpState\":" ++ s.rdpState.text ++
    ",\"frameCount\":" ++ toString s.frameCount ++ ",\"cycleCount\":" ++ toString s.cycleCount ++
    "\x7d"

def misfitMessage (m : Misfit) : String := "malformed save state: " ++ m.message

end SaveState

end ConsoleBridge

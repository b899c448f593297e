import ConsoleBridge.Process.Image

/-! # A process that changes while it is being read

A script says what happens to the process right before a given read, and which ranges cannot be read
although they are mapped. Every call is recorded, up to a limit. -/
namespace ConsoleBridge

inductive Change
  | exit
  | poke (address : Nat) (bytes : ByteArray)
  deriving DecidableEq, Inhabited

/-- A change right before the read of the given number, the first read having number zero. -/
structure ScriptEvent where
  before : Nat
  change : Change
  deriving DecidableEq, Inhabited

inductive CallKind
  | read | write | enumerate
  deriving DecidableEq, Repr, Inhabited

structure RecordedCall where
  kind : CallKind
  address : Nat
  length : Nat
  succeeded : Bool
  deriving DecidableEq, Repr, Inhabited

/-- A process with its script: `reads` have been made, `calls` are recorded, the last one first, and
`room` is how many more can be. -/
structure ScriptedProcess where
  image : ImageProcess
  events : List ScriptEvent
  denied : List (Nat × Nat)
  reads : Nat
  calls : List RecordedCall
  room : Nat
  deriving Inhabited

namespace ScriptedProcess

def capacity : Nat := 4096

def new (image : ImageProcess) (events : List ScriptEvent) (denied : List (Nat × Nat)) :
    ScriptedProcess :=
  ⟨image, events, denied, 0, [], capacity⟩

def record (p : ScriptedProcess) (call : RecordedCall) : ScriptedProcess :=
  match p.room with
  | 0 => p
  | room + 1 => { p with calls := call :: p.calls, room := room }

/-- The recorded calls in order, and the process with none recorded. -/
def takeCalls (p : ScriptedProcess) : List RecordedCall × ScriptedProcess :=
  (p.calls.reverse, { p with calls := [], room := capacity })

/-- Let something happen to the process; a poke that misses its memory does nothing. -/
def apply (image : ImageProcess) : Change → ImageProcess
  | .exit => image.exit
  | .poke address bytes => (image.poke address bytes).2

/-- Let happen what the script has for the read of the given number. -/
def happen (p : ScriptedProcess) (n : Nat) : ImageProcess :=
  (p.events.filter (·.before == n)).foldl (fun image e => apply image e.change) p.image

def isDenied (p : ScriptedProcess) (address length : Nat) : Bool :=
  p.denied.any fun r => decide (address < r.2) && decide (r.1 < address + length)

def read (p : ScriptedProcess) (address length : Nat) :
    Except AccessError ByteArray × ScriptedProcess :=
  let image := p.happen p.reads
  let answer :=
    match image.read address length with
    | .ok b => if p.isDenied address length then .error (.unmapped address length) else .ok b
    | .error e => .error e
  (answer, record { p with image := image, reads := p.reads + 1 }
    ⟨.read, address, length, answer.isOk⟩)

/-- What a read that has just failed brought: it is only told of a denied range after the bytes are there. -/
def arrived (p : ScriptedProcess) (address length : Nat) : ByteArray :=
  (p.image.read address length).toOption.getD ByteArray.empty

def write (p : ScriptedProcess) (address : Nat) (bytes : ByteArray) :
    Except AccessError Unit × ScriptedProcess :=
  match p.image.write address bytes with
  | (answer, image) =>
    (answer, record { p with image := image } ⟨.write, address, bytes.size, answer.isOk⟩)

def regions (p : ScriptedProcess) : Except AccessError (List Region) × ScriptedProcess :=
  (p.image.describe, p.record ⟨.enumerate, 0, 0, p.image.describe.isOk⟩)

theorem size_of_read {p q : ScriptedProcess} {address length : Nat} {b : ByteArray}
    (h : p.read address length = (.ok b, q)) : b.size = length := by
  have h := congrArg Prod.fst h
  simp only [read] at h
  split at h
  · rename_i c hc
    split at h
    · cases h
    · cases h
      exact ImageProcess.size_of_read hc
  · cases h

instance : ProcessMemory ScriptedProcess where
  read := read
  arrived := arrived
  write := write
  regions := regions
  size_of_read := size_of_read

end ScriptedProcess

end ConsoleBridge

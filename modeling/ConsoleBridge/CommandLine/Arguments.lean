import ConsoleBridge.CommandLine.Grammar
import ConsoleBridge.Controller.Buttons
import ConsoleBridge.Discovery.Input
import ConsoleBridge.Discovery.Ram
import ConsoleBridge.Text.Numeral

/-! # The arguments of the program

In front of the subcommand it is said which process is to be worked on. The bounds on the size of main
memory may stand on either side; those behind the subcommand win. -/
namespace ConsoleBridge.CommandLine

/-- What is to be worked on: a running process or a dump of memory. -/
structure Target where
  pid : Option Nat
  dump : Option String
  /-- The address that the dump was taken from. -/
  dumpBase : Option Nat
  deriving DecidableEq, Repr, Inhabited

structure Bounds where
  sizeMin : Option Nat
  sizeMax : Option Nat
  deriving DecidableEq, Repr, Inhabited

inductive Width
  | byte | half | word | float
  deriving DecidableEq, Repr, Inhabited

structure Injection where
  player : Nat
  press : List Buttons
  x : Int
  y : Int
  /-- The milliseconds after which everything is released, if it is to be. -/
  hold : Option Nat
  base : Option Nat
  deriving DecidableEq, Repr, Inhabited

inductive Command
  | regions (writable : Bool)
  | locate
  | peek (address : Nat) (width : Width) (snapshot : Bool)
  | discoverInput (interval : Option Nat)
  | inject (injection : Injection)
  | release (base : Option Nat)
  deriving DecidableEq, Repr, Inhabited

structure Arguments where
  target : Target
  bounds : Bounds
  command : Command
  deriving DecidableEq, Repr, Inhabited

inductive Inconsistency
  | noTarget
  | strayDumpBase
  | emptyBounds
  | wideAddress (address : Nat)
  | noSuchPad (player : Nat)
  deriving DecidableEq, Repr, Inhabited

def Inconsistency.message : Inconsistency → String
  | noTarget => "one of --pid or --dump is required"
  | strayDumpBase => "--dump-base only applies with --dump"
  | emptyBounds => "--ram-size-min is larger than --ram-size-max"
  | wideAddress address => Hex.number address ++ " is not a 32-bit console address"
  | noSuchPad player => "--player " ++ toString player ++ " is not a controller port (0-3)"

/-! ## Values -/

def readNumber (s : String) : Except UsageError Nat :=
  match Numeral.readHexOrDecimal s.toList with
  | .ok n => .ok n
  | .error _ => .error .valueValidation

def readCount (s : String) : Except UsageError Nat :=
  match Numeral.readNatural 10 s.toList with
  | .ok n => .ok n
  | .error _ => .error .valueValidation

def readBetween (low high : Int) (s : String) : Except UsageError Int :=
  match Numeral.readInteger? s.toList with
  | some i => if low ≤ i ∧ i ≤ high then .ok i else .error .valueValidation
  | none => .error .valueValidation

def readPid (s : String) : Except UsageError Nat :=
  (readBetween 0 0xFFFFFFFF s).map Int.toNat

def readAxis (s : String) : Except UsageError Int := readBetween (-0x80000000) 0x7FFFFFFF s

def readPath (s : String) : Except UsageError String :=
  if s.isEmpty then .error .invalidValue else .ok s

def readWidth (s : String) : Except UsageError Width :=
  if s = "byte" then .ok .byte
  else if s = "half" then .ok .half
  else if s = "word" then .ok .word
  else if s = "float" then .ok .float
  else .error .invalidValue

def readPress (s : String) : Except UsageError (List Buttons) :=
  (s.splitOn ",").mapM fun piece =>
    match Button.ofText? piece with
    | some button => .ok (Buttons.single button)
    | none => .error .valueValidation

/-! ## Levels -/

def Bounds.orElse (b c : Bounds) : Bounds :=
  ⟨b.sizeMin.orElse fun _ => c.sizeMin, b.sizeMax.orElse fun _ => c.sizeMax⟩

def boundOptions : List (Parameter Bounds) :=
  [.option "ram-size-min" readNumber fun n b => { b with sizeMin := some n },
    .option "ram-size-max" readNumber fun n b => { b with sizeMax := some n }]

def targetOptions : List (Parameter Target) :=
  [.option "pid" readPid fun n t => { t with pid := some n },
    .option "dump" readPath fun s t => { t with dump := some s },
    .option "dump-base" readNumber fun n t => { t with dumpBase := some n }]

def commandNames : List String :=
  ["regions", "locate", "peek", "discover-input", "inject", "release"]

/-- What may stand in front of a subcommand. -/
def outerLevel : Level (Target × Bounds) where
  options := targetOptions.map .first ++ boundOptions.map .second ++ [.help]
  positional := none
  subcommands := commandNames ++ ["help"]

/-- What may stand behind a subcommand with the given options and positional argument. -/
def innerLevel {α : Type} (options : List (Parameter α)) (positional : Option (Parameter α)) :
    Level (Bounds × α) where
  options := boundOptions.map .first ++ options.map .second ++ [.help]
  positional := positional.map .second
  subcommands := []

def Bounds.none : Bounds := ⟨Option.none, Option.none⟩

def readInner {α : Type} (options : List (Parameter α)) (positional : Option (Parameter α))
    (start : α) (finish : α → Except UsageError Command) (tokens : List String) :
    Except UsageError (Bounds × Command) := do
  let (bounds, a) ← (innerLevel options positional).readAll (Bounds.none, start) tokens
  let command ← finish a
  return (bounds, command)

structure Peek where
  address : Option Nat
  width : Width
  snapshot : Bool

def readPeek : List String → Except UsageError (Bounds × Command) :=
  readInner
    [.option "width" readWidth fun w (p : Peek) => { p with width := w },
      .flag "snapshot" fun p => { p with snapshot := true }]
    (some (.option "address" readNumber fun n p => { p with address := some n }))
    ⟨none, .word, false⟩
    fun p => match p.address with
      | some address => .ok (.peek address p.width p.snapshot)
      | none => .error .missingRequired

def readInject : List String → Except UsageError (Bounds × Command) :=
  readInner
    [.option "player" readCount fun n (i : Injection) => { i with player := n },
      .many "press" readPress fun bs i => { i with press := i.press ++ bs },
      .signed "x" readAxis fun x i => { i with x := x },
      .signed "y" readAxis fun y i => { i with y := y },
      .option "hold-ms" readCount fun n i => { i with hold := some n },
      .option "base" readNumber fun n i => { i with base := some n }]
    none ⟨0, [], 0, 0, none, none⟩ fun i => .ok (.inject i)

/-- What comes of asking for help: there is help in general and on each subcommand. -/
def helpFor : List String → UsageError
  | [] => .help
  | [name] => if outerLevel.subcommands.contains name then .help else .invalidSubcommand
  | _ => .invalidSubcommand

def readCommand (name : String) (tokens : List String) : Except UsageError (Bounds × Command) :=
  if name = "regions" then
    readInner [.flag "writable" fun _ => true] none false (fun w => .ok (.regions w)) tokens
  else if name = "locate" then readInner [] none () (fun _ => .ok .locate) tokens
  else if name = "peek" then readPeek tokens
  else if name = "discover-input" then
    readInner [.option "interval-ms" readCount fun n _ => some n] none none
      (fun i => .ok (.discoverInput i)) tokens
  else if name = "inject" then readInject tokens
  else if name = "release" then
    readInner [.option "base" readNumber fun n _ => some n] none none
      (fun b => .ok (.release b)) tokens
  else .error (helpFor tokens)

namespace Arguments

def withoutCommand (given : List String) : UsageError :=
  if given.isEmpty then .helpForNothing else .missingSubcommand

/-- Read the arguments. What waits in front of the subcommand takes effect after all that is behind
it. -/
def read (tokens : List String) : Except UsageError Arguments := do
  let (s, inner) ← outerLevel.read (Level.start (⟨none, none, none⟩, Bounds.none)) tokens
  let command ← inner.mapM fun (name, rest) => readCommand name rest
  let s ← s.settle
  match command with
  | none => .error (withoutCommand s.given)
  | some (bounds, command) =>
    let (target, outer) := s.args
    if target.pid.isSome && target.dump.isSome then .error .argumentConflict
    else return ⟨target, bounds.orElse outer, command⟩

def commandFault : Command → Option Inconsistency
  | .peek address _ _ => if 0x100000000 ≤ address then some (.wideAddress address) else none
  | .inject i => if padCount ≤ i.player then some (.noSuchPad i.player) else none
  | _ => none

def boundsEmpty (b : Bounds) : Bool :=
  match b.sizeMin, b.sizeMax with
  | some low, some high => high < low
  | _, _ => false

/-- The first contradiction in the arguments. -/
def fault (a : Arguments) : Option Inconsistency :=
  if a.target.pid.isNone && a.target.dump.isNone then some .noTarget
  else if a.target.dumpBase.isSome && a.target.dump.isNone then some .strayDumpBase
  else if boundsEmpty a.bounds then some .emptyBounds
  else commandFault a.command

def ramSearch (a : Arguments) : RamSearch :=
  { RamSearch.standard with
    sizeMin := a.bounds.sizeMin.getD RamSearch.standard.sizeMin
    sizeMax := a.bounds.sizeMax.getD RamSearch.standard.sizeMax }

def inputSearch (a : Arguments) : InputSearch :=
  match a.command with
  | .discoverInput (some interval) => { InputSearch.standard with interval := interval }
  | _ => InputSearch.standard

end Arguments

end ConsoleBridge.CommandLine

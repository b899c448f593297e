/-! # Reading a command line

A command line is read token by token. An option takes the token behind it, or what stands behind an
equals sign in its own token. What an option does takes effect late: when the next option or positional
argument comes, or at the end. So of two mistakes the one that takes effect first is reported, and a token
that fits nowhere is reported before a value that is waiting.

One `Level` describes what may stand in front of a subcommand, another one what may stand behind it. -/
namespace ConsoleBridge.CommandLine

/-- Why a command line cannot be read, or that help is to be shown instead. -/
inductive UsageError
  | help
  | helpForNothing
  | unknownArgument
  | invalidSubcommand
  | missingSubcommand
  | invalidValue
  | valueValidation
  | tooManyValues
  | argumentConflict
  | missingRequired
  deriving DecidableEq, Repr, Inhabited

/-- What a parameter takes: nothing, or a value once or any number of times. -/
inductive Arity
  | help | flag | once | repeated
  deriving DecidableEq, Repr, Inhabited

/-- An option, a flag or a positional argument, with what it does to the arguments read so far. -/
structure Parameter (α : Type) where
  name : String
  arity : Arity
  /-- May a negative number stand behind it? -/
  negative : Bool
  apply : String → α → Except UsageError α

namespace Parameter

variable {α β : Type}

def flag (name : String) (set : α → α) : Parameter α := ⟨name, .flag, false, fun _ a => .ok (set a)⟩

def option {ν : Type} (name : String) (read : String → Except UsageError ν) (set : ν → α → α) :
    Parameter α :=
  ⟨name, .once, false, fun s a => (read s).map (set · a)⟩

def signed {ν : Type} (name : String) (read : String → Except UsageError ν) (set : ν → α → α) :
    Parameter α :=
  ⟨name, .once, true, fun s a => (read s).map (set · a)⟩

/-- An option that may be given again. -/
def many {ν : Type} (name : String) (read : String → Except UsageError ν) (set : ν → α → α) :
    Parameter α :=
  ⟨name, .repeated, false, fun s a => (read s).map (set · a)⟩

def help : Parameter α := ⟨"help", .help, false, fun _ _ => .error .help⟩

def first (p : Parameter α) : Parameter (α × β) :=
  ⟨p.name, p.arity, p.negative, fun s a => (p.apply s a.1).map (·, a.2)⟩

def second (p : Parameter β) : Parameter (α × β) :=
  ⟨p.name, p.arity, p.negative, fun s a => (p.apply s a.2).map (a.1, ·)⟩

def takesValue (p : Parameter α) : Bool := p.arity == .once || p.arity == .repeated

end Parameter

structure Level (α : Type) where
  options : List (Parameter α)
  positional : Option (Parameter α)
  /-- The names of the subcommands; none on a level behind one. -/
  subcommands : List String

/-- How far a level has been read: the arguments, the names of the parameters that have taken effect, the
one that has not yet, with its value if that has been read, and whether the positional argument is
still to come. -/
structure Progress (α : Type) where
  args : α
  given : List String
  pending : Option (Parameter α × Option String)
  awaitsPositional : Bool

namespace Progress

variable {α : Type}

/-- Let a parameter take effect. A parameter that can be given only once is refused the second time. -/
def take (s : Progress α) (p : Parameter α) (value : Option String) :
    Except UsageError (Progress α) :=
  if p.takesValue && value.isNone then .error .invalidValue
  else if (p.arity == .once || p.arity == .flag) && s.given.contains p.name then
    .error .argumentConflict
  else
    match p.apply (value.getD "") s.args with
    | .ok args => .ok { s with args := args, given := p.name :: s.given }
    | .error e => .error e

/-- Let the parameter take effect that has not yet. -/
def settle (s : Progress α) : Except UsageError (Progress α) :=
  match s.pending with
  | some (p, value) => { s with pending := none }.take p value
  | none => .ok s

def awaiting (s : Progress α) : Option (Parameter α) :=
  match s.pending with
  | some (p, none) => some p
  | _ => none

end Progress

inductive Token
  | escape
  | long (name : String) (value : Option String)
  | short (letters : List Char)
  | plain
  deriving DecidableEq, Repr, Inhabited

/-- The text in front of the first equals sign, and the text behind it if there is one. -/
def splitAtEquals : List Char → List Char × Option (List Char)
  | [] => ([], none)
  | '=' :: rest => ([], some rest)
  | c :: rest =>
    match splitAtEquals rest with
    | (front, back) => (c :: front, back)

/-- What a token looks like. A lone dash is no option. -/
def Token.ofText (s : String) : Token :=
  match s.toList with
  | ['-', '-'] => escape
  | '-' :: '-' :: rest =>
    match splitAtEquals rest with
    | (name, value) => long (String.ofList name) (value.map String.ofList)
  | '-' :: c :: rest => short (c :: rest)
  | _ => plain

def marksExponent (c : Char) : Bool := c == 'e' || c == 'E'

/-- Are these the characters of a number behind its sign: digits with one point, but not in front, and
an exponent, but not in front or without digits? -/
def looksNumeric (cs : List Char) : Bool :=
  let (whole, exponent) := (cs.takeWhile (!marksExponent ·), cs.dropWhile (!marksExponent ·))
  !cs.isEmpty && whole.head? != some '.' && whole.count '.' ≤ 1 &&
    whole.all (fun c => c.isDigit || c == '.') &&
    match exponent with
    | [] => true
    | _ :: digits => !whole.isEmpty && !digits.isEmpty && digits.all Char.isDigit

/-- What comes of a token: the level goes on, it goes on with positional arguments only, or a subcommand
begins. -/
inductive Step (α : Type)
  | more (s : Progress α)
  | positionals (s : Progress α)
  | subcommand (s : Progress α) (name : String)

namespace Level

variable {α : Type}

def readLong (level : Level α) (s : Progress α) (name : String) (value : Option String) :
    Except UsageError (Progress α) :=
  match level.options.find? (·.name == name) with
  | none => .error .unknownArgument
  | some p =>
    if p.takesValue then do
      let s ← s.settle
      match value with
      | some v => s.take p (some v)
      | none => .ok { s with pending := some (p, none) }
    else if value.isSome then .error .tooManyValues
    else do
      let s ← s.settle
      s.take p none

/-- Read a token that is an option's value or a positional argument. -/
def readPositional (level : Level α) (s : Progress α) (escaped : Bool) (token : String) :
    Except UsageError (Progress α) :=
  match level.positional, s.awaitsPositional with
  | some p, true => do
    let s ← s.settle
    .ok { s with pending := some (p, some token), awaitsPositional := false }
  | _, _ =>
    if level.subcommands.isEmpty || escaped && level.subcommands.contains token then
      .error .unknownArgument
    else .error .invalidSubcommand

/-- Read a token that is the value of an option if one waits for it. -/
def readPlain (level : Level α) (s : Progress α) (token : String) : Except UsageError (Progress α) :=
  match s.awaiting with
  | some p => .ok { s with pending := some (p, some token) }
  | none => level.readPositional s false token

def readShort (level : Level α) (s : Progress α) (token : String) (letters : List Char) :
    Except UsageError (Progress α) :=
  if (s.awaiting.any (·.negative)) && looksNumeric letters then level.readPlain s token
  else if letters.head? == some 'h' then do
    let _ ← s.settle
    .error .help
  else .error .unknownArgument

def step (level : Level α) (s : Progress α) (token : String) : Except UsageError (Step α) :=
  if s.awaiting.isNone && level.subcommands.contains token then .ok (.subcommand s token)
  else
    match Token.ofText token with
    | .escape => .ok (.positionals s)
    | .long name value => (level.readLong s name value).map .more
    | .short letters => (level.readShort s token letters).map .more
    | .plain => (level.readPlain s token).map .more

def readPositionals (level : Level α) (s : Progress α) : List String → Except UsageError (Progress α)
  | [] => .ok s
  | token :: rest => do
    let s ← level.readPositional s true token
    level.readPositionals s rest

/-- Read a level up to a subcommand or the end. What is left behind a subcommand comes with its name. -/
def read (level : Level α) (s : Progress α) :
    List String → Except UsageError (Progress α × Option (String × List String))
  | [] => .ok (s, none)
  | token :: rest =>
    match level.step s token with
    | .error e => .error e
    | .ok (.more s) => level.read s rest
    | .ok (.positionals s) => (level.readPositionals s rest).map (·, none)
    | .ok (.subcommand s name) => .ok (s, some (name, rest))

def start (args : α) : Progress α := ⟨args, [], none, true⟩

def readAll (level : Level α) (args : α) (tokens : List String) : Except UsageError α := do
  let (s, _) ← level.read (start args) tokens
  let s ← s.settle
  return s.args

end Level

end ConsoleBridge.CommandLine

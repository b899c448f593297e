import ConsoleBridge.CommandLine.Run

/-! # The program -/
namespace ConsoleBridge.CommandLine

def usageText : String :=
  "Usage: consolebridge [--pid PID | --dump FILE [--dump-base ADDRESS]]\n" ++
  "         [--ram-size-min BYTES] [--ram-size-max BYTES] COMMAND\n" ++
  "Commands: regions [--writable]\n" ++
  "          locate\n" ++
  "          peek ADDRESS [--width byte|half|word|float] [--snapshot]\n" ++
  "          discover-input [--interval-ms N]\n" ++
  "          inject [--player N] [--press BUTTONS] [--x N] [--y N] [--hold-ms N] [--base ADDRESS]\n" ++
  "          release [--base ADDRESS]\n" ++
  "          help [COMMAND]\n"

def UsageError.message : UsageError → String
  | help => "help"
  | helpForNothing => "no command given"
  | unknownArgument => "unexpected argument"
  | invalidSubcommand => "unknown command"
  | missingSubcommand => "a command is required"
  | invalidValue => "a value is missing or not one of the possible values"
  | valueValidation => "invalid value"
  | tooManyValues => "a value where none is taken"
  | argumentConflict => "arguments that exclude each other"
  | missingRequired => "a required argument is missing"

def usageReport (e : UsageError) : Report :=
  if e = .help then .done usageText
  else ⟨"", "error: " ++ e.message ++ "\n\n" ++ usageText, 2⟩

/-- The fault with the number that a failed call gave, whichever sign the call gave it. -/
def faultOf (code : UInt32) (reason : String) : FileFault :=
  .ofNumber (if code < 0x80000000 then code else 0 - code).toNat reason

/-- The contents of a file, or why they cannot be read. -/
def fileContents (path : String) : IO (Except FileFault ByteArray) := do
  try
    return .ok (← IO.FS.readBinFile path)
  catch
    | .noFileOrDirectory _ code reason | .permissionDenied _ code reason
    | .inappropriateType _ code reason | .invalidArgument _ code reason
    | .resourceExhausted _ code reason | .hardwareFault code reason | .otherError code reason =>
      return .error (faultOf code reason)
    | e => return .error (.other 0 (toString e))

def execute (a : Arguments) : IO Report := do
  match a.target with
  | ⟨_, some path, _⟩ => return runOnDump a path (← fileContents path)
  | ⟨some pid, none, _⟩ =>
    let maps ← fileContents s!"/proc/{pid}/maps"
    return runOnProcess a pid (ListedProcess.attach pid maps.toOption)
  | ⟨none, none, _⟩ => return .failed "" Inconsistency.noTarget.message

def reportOn (tokens : List String) : IO Report := do
  match Arguments.read tokens with
  | .error e => return usageReport e
  | .ok a =>
    match a.fault with
    | some fault => return .failed "" fault.message
    | none => execute a

end ConsoleBridge.CommandLine

open ConsoleBridge.CommandLine in
def main (tokens : List String) : IO UInt32 := do
  let report ← reportOn tokens
  (← IO.getStdout).putStr report.output
  (← IO.getStderr).putStr report.complaints
  return UInt32.ofNat report.exitCode

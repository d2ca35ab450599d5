import LoxLang.CommandLine.Program
import Std.Time.DateTime.Timestamp

/-!
The command line: reads arguments, files, input and the clock, and writes what the program answers.
At the prompt each line is answered before the next one is read.
-/
namespace LoxLang.CommandLine

def contentOf : IO.Error → Content
  | .noFileOrDirectory .. => .missing
  | .inappropriateType _ 21 _ => .directory
  | .inappropriateType .. => .refused "Not a directory (os error 20)"
  | .permissionDenied .. => .refused "Permission denied (os error 13)"
  | e => .refused (toString e)

def lookUp (name : String) : IO Content := do
  try
    return .bytes (← IO.FS.readBinFile name).toList
  catch e =>
    return contentOf e

/-- A clock that starts now and moves on by a microsecond from one reading to the next. -/
def startClock : IO Clock := do
  let now ← Std.Time.Timestamp.now
  let start := Float.ofInt now.toNanosecondsSinceUnixEpoch.val * 1e-9
  return fun reading =>
    let seconds := start + Float.ofNat reading * 1e-6
    if seconds < 0 then .error "second time provided was later than self" else .ok seconds

def startLog : IO (Option Failure) := do
  try
    IO.FS.writeFile logName ""
    return none
  catch e =>
    return logFailure? (contentOf e)

def write (out err : ByteArray) : IO Unit := do
  let stdout ← IO.getStdout
  let stderr ← IO.getStderr
  stdout.write out
  stdout.flush
  stderr.write err
  stderr.flush

def finish (result : Option Result) : IO UInt32 := do
  match result with
  | some r =>
    write r.out r.err
    return r.exitCode.toUInt32
  | none => throw (IO.userError "out of fuel")

partial def prompt (mode : Mode) (s : Session) : IO UInt32 := do
  write promptText.toUTF8 .empty
  let line ←
    try
      (← IO.getStdin).getLine
    catch _ =>
      write .empty badLineText.toUTF8
      return 1
  if line.isEmpty then
    return 0
  match respondToLine Session.ampleFuel mode line s with
  | some (response, s) =>
    write response.out response.err
    prompt mode s
  | none => finish none

def start (i : Invocation) : IO UInt32 := do
  let failure ← if i.has .log then startLog else pure none
  let clock ← startClock
  match failure, i.scripts with
  | some f, _ => finish (some f.result)
  | none, [] => prompt i.mode (freshSession clock)
  | none, [name] => finish (runScript Session.ampleFuel i.mode clock name (← lookUp name))
  | none, _ => finish (some (.say 1 tooManyScriptsText ""))

end LoxLang.CommandLine

open LoxLang.CommandLine in
def main (arguments : List String) : IO UInt32 := do
  match Request.ofArguments arguments with
  | .invoke i => start i
  | request => finish (run 0 request ⟨fun _ => .missing, [], fun _ => .ok 0⟩)

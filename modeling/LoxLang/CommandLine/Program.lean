import LoxLang.CommandLine.Response
import LoxLang.Text.Quoted
import LoxLang.Text.Utf8

/-!
The program as a whole, as a function of its arguments, the files that it can see, and its input. With
one script it runs it; with none it reads its input line by line, each line a source of one session.
-/
namespace LoxLang.CommandLine

inductive Content
  | missing
  | directory
  | refused (reason : String)
  | bytes (content : List UInt8)

def Content.isMissing : Content → Bool
  | missing => true
  | _ => false

structure World where
  file : String → Content
  input : List UInt8
  clock : Clock

structure Result where
  exitCode : Nat
  out : ByteArray
  err : ByteArray

namespace Result

def say (exitCode : Nat) (out err : String) : Result := ⟨exitCode, out.toUTF8, err.toUTF8⟩

end Result

structure Failure where
  context : String
  cause : String

namespace Failure

def text (f : Failure) : String := "Error: " ++ f.context ++ "\n\nCaused by:\n    " ++ f.cause ++ "\n"

def result (f : Failure) : Result := .say 1 "" f.text

def isDirectory : String := "Is a directory (os error 21)"

def notFound : String := "No such file or directory (os error 2)"

end Failure

def readScript (name : String) : Content → Except Failure String
  | .missing => .error ⟨"Failed to open file " ++ Text.quoted name, Failure.notFound⟩
  | .refused reason => .error ⟨"Failed to open file " ++ Text.quoted name, reason⟩
  | .directory => .error ⟨"Failed to read file " ++ Text.quoted name, Failure.isDirectory⟩
  | .bytes content =>
    match Text.Utf8.decode content with
    | .ok text => .ok text
    | .error e => .error ⟨"File " ++ Text.quoted name ++ " is not valid UTF-8", e.message⟩

def freshSession (clock : Clock) : Session := .start .unlimited .unlimited clock

def runScript (fuel : Nat) (mode : Mode) (clock : Clock) (name : String)
    (content : Content) : Option Result :=
  match readScript name content with
  | .error f => some f.result
  | .ok text =>
    (respond fuel mode text (freshSession clock)).map fun (response, _) =>
      ⟨response.status.exitCode, response.out, response.err⟩

def promptText : String := ">>> "

def badLineText : String := "Error: stream did not contain valid UTF-8\n"

def inputLines : List UInt8 → List (List UInt8)
  | [] => []
  | b :: bs =>
    if b = 10 then [b] :: inputLines bs
    else
      match inputLines bs with
      | [] => [[b]]
      | line :: lines => (b :: line) :: lines

/-- Handles one line. Its static errors do not keep later lines from running. -/
def respondToLine (fuel : Nat) (mode : Mode) (line : String) (s : Session) :
    Option (Response × Session) :=
  (respond fuel mode line s).map fun (response, s) => (response, s.reset)

def runLines (fuel : Nat) (mode : Mode) (s : Session) (out err : ByteArray) :
    List (List UInt8) → Option Result
  | [] => some ⟨0, out ++ promptText.toUTF8, err⟩
  | line :: lines =>
    let out := out ++ promptText.toUTF8
    match Text.Utf8.decode line with
    | .error _ => some ⟨1, out, err ++ badLineText.toUTF8⟩
    | .ok text =>
      match respondToLine fuel mode text s with
      | none => none
      | some (response, s) => runLines fuel mode s (out ++ response.out) (err ++ response.err) lines

def logName : String := "app.log"

def logFailure? : Content → Option Failure
  | .directory => some ⟨"Failed to create app.log", Failure.isDirectory⟩
  | .refused reason => some ⟨"Failed to create app.log", reason⟩
  | _ => none

def versionText : String := "letlox 0.1.0\n"

def tooManyScriptsText : String := "Usage: letlox [script]\n"

def usageErrorText : String :=
  "error: invalid arguments\n\nUsage: letlox [OPTIONS] [SCRIPTS]...\n\n" ++
    "For more information, try '--help'.\n"

def helpText : String :=
  "letlox language interpreter\n\nUsage: letlox [OPTIONS] [SCRIPTS]...\n\nArguments:\n" ++
    "  [SCRIPTS]...  Script to run; starts an interactive prompt when omitted\n\nOptions:\n" ++
    "      --log      Enable logging to app.log\n" ++
    "      --tokens   Print the token stream instead of running\n" ++
    "      --json     With --tokens, print one JSON object per token\n" ++
    "      --ast      Print the parsed statements in prefix form instead of running\n" ++
    "  -h, --help     Print help\n" ++
    "  -V, --version  Print version\n"

def runInvocation (fuel : Nat) (i : Invocation) (w : World) : Option Result :=
  let log := if i.has .log then logFailure? (w.file logName) else none
  match log, i.scripts with
  | some f, _ => some f.result
  | none, [] =>
    runLines fuel i.mode (freshSession w.clock) ByteArray.empty ByteArray.empty
      (inputLines w.input)
  | none, [name] => runScript fuel i.mode w.clock name (w.file name)
  | none, _ => some (.say 1 tooManyScriptsText "")

/-- What the program does; there is no result if the fuel does not last. -/
def run (fuel : Nat) (request : Request) (w : World) : Option Result :=
  match request with
  | .help => some (.say 0 helpText "")
  | .version => some (.say 0 versionText "")
  | .usageError => some (.say 2 "" usageErrorText)
  | .invoke i => runInvocation fuel i w

def createsLog (request : Request) (w : World) : Bool :=
  match request with
  | .invoke i => i.has .log && (w.file logName).isMissing
  | _ => false

end LoxLang.CommandLine

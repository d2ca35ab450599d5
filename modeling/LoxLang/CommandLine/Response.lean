import LoxLang.CommandLine.Arguments
import LoxLang.Session
import LoxLang.Token.Json
import LoxLang.Tree.Text

/-!
What the program does with one source: it runs it in a session, or shows its tokens or its trees.
-/
namespace LoxLang.CommandLine

inductive Status
  | fine
  | staticError
  | runtimeError
  deriving DecidableEq, Repr

def Status.exitCode : Status → Nat
  | fine => 0
  | staticError => 1
  | runtimeError => 2

structure Response where
  out : ByteArray
  err : ByteArray
  status : Status

def unlines (texts : List String) : ByteArray :=
  texts.foldl (fun out text => out ++ (text ++ "\n").toUTF8) ByteArray.empty

def Response.listing (lines : List String) (diagnostics : List Diagnostic) : Response where
  out := unlines lines
  err := unlines (diagnostics.map (·.text))
  status := if diagnostics.isEmpty then .fine else .staticError

def showTokens (json : Bool) (text : String) : Response :=
  let items := scan text
  .listing ((items.filterMap Item.token?).map fun t => if json then t.json else t.text)
    ((items.filterMap Item.error?).map (·.diagnostic))

def showTrees (text : String) : Response :=
  let front := Front.ofText 0 text
  .listing (front.statements.map (·.text)) front.diagnostics

def statusOf (s : Session) : Status :=
  if s.reporter.hadRuntimeError then .runtimeError
  else if s.reporter.hadError then .staticError
  else .fine

def runSource (fuel : Nat) (text : String) (s : Session) : Option (Response × Session) :=
  let out := s.machine.output.written.size
  let err := s.reporter.stream.written.size
  (s.run fuel text).map fun s =>
    (⟨s.machine.output.since out, s.reporter.stream.since err, statusOf s⟩, s)

def respond (fuel : Nat) (mode : Mode) (text : String) (s : Session) :
    Option (Response × Session) :=
  match mode with
  | .run => runSource fuel text s
  | .tokens json => some (showTokens json text, s)
  | .ast => some (showTrees text, s)

end LoxLang.CommandLine

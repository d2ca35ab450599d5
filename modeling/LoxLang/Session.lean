import LoxLang.Evaluation
import LoxLang.Parsing.Stmt
import LoxLang.Reporter
import LoxLang.Token.Source

/-!
A session: sources run one after the other on one machine. A source with a static error is not run,
and while a static error is latched no source is. Global variables last from run to run.
-/
namespace LoxLang

structure Front where
  statements : List Stmt
  /-- Lexical errors first, then syntax errors, each in the order of the text. -/
  diagnostics : List Diagnostic
  nextId : ReferenceId

def Front.ofText (nextId : ReferenceId) (text : String) : Front :=
  let items := scan text
  let parsed := parse nextId (items.filterMap Item.token?)
  { statements := parsed.statements
    diagnostics :=
      (items.filterMap Item.error?).map (·.diagnostic) ++ parsed.errors.map (·.diagnostic)
    nextId := parsed.nextId }

structure Session where
  machine : Machine
  reporter : Reporter
  nextId : ReferenceId

namespace Session

def start (output diagnostics : Stream) (clock : Clock) : Session where
  machine := .start output clock
  reporter := .ofStream diagnostics
  nextId := 0

/-- Reports what reading and the static rules find wrong, and records distances. The result is the
program to be run, if nothing forbids to run it. -/
def prepare (s : Session) (text : String) : Option (List Stmt) × Session :=
  let front := Front.ofText s.nextId text
  let reporter := s.reporter.reportAll front.diagnostics
  if reporter.hadError then
    (none, { s with reporter := reporter, nextId := front.nextId })
  else
    let resolved := resolve s.machine.distances front.statements
    let reporter := reporter.reportAll (resolved.errors.map (·.diagnostic))
    let machine := { s.machine with distances := resolved.distances }
    (if reporter.hadError then none else some front.statements, ⟨machine, reporter, front.nextId⟩)

def runPrepared (fuel : Nat) (program : List Stmt) : Session → Option Session
  | ⟨machine, reporter, nextId⟩ =>
    match interpret fuel program machine with
    | (.exhausted, _) => none
    | (outcome, machine) => some ⟨machine, reporter.reportAll outcome.diagnostic?.toList, nextId⟩

def run (fuel : Nat) (text : String) (s : Session) : Option Session :=
  match s.prepare text with
  | (none, s) => some s
  | (some program, s) => s.runPrepared fuel program

def reset (s : Session) : Session := { s with reporter := s.reporter.reset }

/-- Fuel that no run on a real computer uses up. -/
def ampleFuel : Nat := Nat.pow 10 18

end Session

end LoxLang

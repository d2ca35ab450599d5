import LoxLang.Machine
import LoxLang.Operators

/-!
Running programs. Operands and arguments are evaluated from left to right, a function body in a new
scope inside of the environment that its declaration was made in. Fuel bounds how deep the running
nests, a round of a loop being nested in the round before; what ends within some fuel ends the same
way with more.
-/
namespace LoxLang

namespace Run

def callNative (paren : Token) (f : NativeFunction) (arguments : List Value) : Run Value := do
  orStop paren (checkArity f.arity arguments.length)
  orStop paren (f.result (← readClock) arguments)

def bindArguments : List Token → List Value → Run Unit
  | p :: ps, v :: vs => do
    define p.lexeme v
    bindArguments ps vs
  | _, _ => return

def callClosure (paren : Token) (f : Closure) (arguments : List Value)
    (runBody : List Stmt → Run Unit) : Run Value := do
  orStop paren (checkArity f.declaration.params.length arguments.length)
  catchReturn <| inNewScope f.environment do
    bindArguments f.declaration.params arguments
    runBody f.declaration.body

def call (paren : Token) (callee : Value) (arguments : List Value)
    (runBody : List Stmt → Run Unit) : Run Value :=
  match callee with
  | .native f => callNative paren f arguments
  | .function f => callClosure paren f arguments runBody
  | _ => stop paren .notCallable

end Run

open Run

mutual

def evaluate : Nat → Expr → Run Value
  | 0, _ => throw .exhausted
  | fuel + 1, e => do
    match e with
    | .literal value => return .ofLiteral value
    | .grouping inner => evaluate fuel inner
    | .unary operator right =>
      let right ← evaluate fuel right
      orStop operator (unaryResult operator.kind right)
    | .binary left operator right =>
      let left ← evaluate fuel left
      let right ← evaluate fuel right
      orStop operator (binaryResult operator.kind left right)
    | .logical left operator right =>
      let left ← evaluate fuel left
      if decides operator.kind left then return left else evaluate fuel right
    | .reference id name => Run.read id name
    | .assign id name value =>
      let v ← evaluate fuel value
      assign id name v
      return v
    | .call callee paren arguments =>
      let callee ← evaluate fuel callee
      let arguments ← evaluateAll fuel arguments
      call paren callee arguments (executeAll fuel)

def evaluateAll : Nat → List Expr → Run (List Value)
  | 0, _ => throw .exhausted
  | _, [] => return []
  | fuel + 1, e :: es => do
    let v ← evaluate fuel e
    return v :: (← evaluateAll fuel es)

def execute : Nat → Stmt → Run Unit
  | 0, _ => throw .exhausted
  | fuel + 1, s => do
    match s with
    | .expression e => let _ ← evaluate fuel e
    | .print e => Run.print (← evaluate fuel e).text
    | .declare name none => define name.lexeme .nil
    | .declare name (some e) => define name.lexeme (← evaluate fuel e)
    | .block body => inNewScope (← get).current (executeAll fuel body)
    | .ifThen condition thenBranch =>
      if (← evaluate fuel condition).isTruthy then execute fuel thenBranch
    | .ifElse condition thenBranch elseBranch =>
      if (← evaluate fuel condition).isTruthy then execute fuel thenBranch
      else execute fuel elseBranch
    | .whileLoop condition body =>
      if (← evaluate fuel condition).isTruthy then
        execute fuel body
        execute fuel s
    | .function name params body => define name.lexeme (← makeClosure ⟨name, params, body⟩)
    | .ret _ none => throw (.returned .nil)
    | .ret _ (some e) => throw (.returned (← evaluate fuel e))

def executeAll : Nat → List Stmt → Run Unit
  | 0, _ => throw .exhausted
  | _, [] => return
  | fuel + 1, s :: ss => do
    execute fuel s
    executeAll fuel ss

end

inductive Outcome
  | finished
  | runtime (e : RuntimeError)
  | output (f : Stream.Failure)
  /-- The fuel is used up: the program was not followed to its end. -/
  | exhausted

def Outcome.diagnostic? : Outcome → Option Diagnostic
  | finished | exhausted => none
  | runtime e => some e.diagnostic
  | output f => some (.output f.message)

def Machine.flush (m : Machine) : Outcome := if m.output.flushFails then .output .flush else .finished

/-- Runs a program up to its first error. A `return` outside of all functions ends it quietly. -/
def interpret (fuel : Nat) (program : List Stmt) (m : Machine) : Outcome × Machine :=
  match executeAll fuel program m with
  | .ok () m | .error (.returned _) m => (m.flush, m)
  | .error (.runtime e) m => (.runtime e, m)
  | .error (.output f) m => (.output f, m)
  | .error .exhausted m => (.exhausted, m)

end LoxLang

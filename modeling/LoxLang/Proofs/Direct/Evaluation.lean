import LoxLang.Proofs.Direct.Syntax
import LoxLang.Proofs.Lexical.Evaluation

/-!
What programs mean as they are written, over static scoping by name. A `for` runs its initializer once,
in a scope of its own, and then repeats: it asks for its condition, runs the body, and evaluates the
increment where the name of the initializer is in sight and the names of the body are not. All rounds
share the one location of that name. There is one more way to break off than in the reference: the
output may be full.
-/
namespace LoxLang.Direct

open Lexical (Location Names Env)

structure Closure where
  identity : Nat
  name : Token
  params : List Token
  body : List Declaration
  /-- The names in sight at the declaration, its own included. -/
  names : Names

instance : Callable Closure := ⟨Closure.identity, (·.name.lexeme)⟩

abbrev Value := ValueOf Closure

structure State where
  globals : Bindings Value
  locations : List (Option Value)
  nextFunction : Nat
  output : Stream
  clock : Clock
  readings : Nat

inductive Signal
  | returned (value : Value)
  | runtime (e : RuntimeError)
  | output (f : Stream.Failure)
  | exhausted

abbrev Eval := EStateM Signal State

namespace State

def start (output : Stream) (clock : Clock) : State where
  globals := Bindings.empty.insert "clock" (.native Machine.clockFunction)
  locations := []
  nextFunction := 0
  output := output
  clock := clock
  readings := 0

def read? (s : State) (names : Names) (x : String) : Option Value :=
  match names.find? x with
  | some l => s.locations[l]?.join
  | none => s.globals.find? x

def take (s : State) : State := { s with locations := s.locations ++ [none] }

def setLocation (s : State) (l : Location) (v : Value) : State :=
  { s with locations := s.locations.set l (some v) }

def setGlobal (s : State) (x : String) (v : Value) : State :=
  { s with globals := s.globals.insert x v }

def write (s : State) (names : Names) (x : String) (v : Value) : State :=
  match names.find? x with
  | some l => s.setLocation l v
  | none => s.setGlobal x v

end State

def stop (t : Token) (cause : RuntimeError.Cause) : Eval α := throw (.runtime (.atToken t cause))

def orStop (t : Token) (result : Except RuntimeError.Cause α) : Eval α :=
  match result with
  | .ok a => pure a
  | .error cause => stop t cause

def read (names : Names) (name : Token) : Eval Value := fun s =>
  match s.read? names name.lexeme with
  | some v => .ok v s
  | none => .error (.runtime (.undefined name)) s

def assign (names : Names) (name : Token) (v : Value) : Eval Unit := fun s =>
  if (s.read? names name.lexeme).isSome then .ok () (s.write names name.lexeme v)
  else .error (.runtime (.undefined name)) s

/-- Declares a name with the value that a step gives. Inside of a scope the name is in sight, without a
value, while the step runs. The result is the environment of what follows. -/
def declare (env : Env) (name : Token) (value : Names → Eval Value) : Eval Env :=
  match env with
  | .outermost => do
    let v ← value .empty
    modify (·.setGlobal name.lexeme v)
    return .outermost
  | .inside names => do
    let l := (← get).locations.length
    modify (·.take)
    let names := names.insert name.lexeme l
    let v ← value names
    modify (·.setLocation l v)
    return .inside names

def makeClosure (name : Token) (params : List Token) (body : List Declaration) (names : Names) :
    Eval Value := fun s =>
  .ok (.function ⟨s.nextFunction, name, params, body, names⟩)
    { s with nextFunction := s.nextFunction + 1 }

def print (text : String) : Eval Unit := fun s =>
  let line := text ++ "\n"
  let written := { s with output := s.output.write line }
  if s.output.fits line then .ok () written else .error (.output .full) written

def readClock : Eval (Except String Float) := fun s =>
  .ok (s.clock s.readings) { s with readings := s.readings + 1 }

def catchReturn (body : Eval Unit) : Eval Value := fun s =>
  match body s with
  | .ok () s => .ok .nil s
  | .error (.returned v) s => .ok v s
  | .error signal s => .error signal s

def repeatWhile : Nat → Eval Bool → Eval Unit → Eval Unit
  | 0, _, _ => throw .exhausted
  | fuel + 1, goesOn, round => do
    if ← goesOn then
      round
      repeatWhile fuel goesOn round

def callNative (paren : Token) (f : NativeFunction) (arguments : List Value) : Eval Value := do
  orStop paren (checkArity f.arity arguments.length)
  orStop paren (f.result (← readClock) arguments)

def bindArguments : Env → List Token → List Value → Eval Env
  | env, p :: ps, v :: vs => do
    let env ← declare env p fun _ => return v
    bindArguments env ps vs
  | env, _, _ => return env

def callClosure (paren : Token) (f : Closure) (arguments : List Value)
    (runBody : Env → List Declaration → Eval Unit) : Eval Value := do
  orStop paren (checkArity f.params.length arguments.length)
  catchReturn do
    let env ← bindArguments (.inside f.names) f.params arguments
    runBody env f.body

def call (paren : Token) (callee : Value) (arguments : List Value)
    (runBody : Env → List Declaration → Eval Unit) : Eval Value :=
  match callee with
  | .native f => callNative paren f arguments
  | .function f => callClosure paren f arguments runBody
  | _ => stop paren .notCallable

section

variable (evaluate : Names → Expr → Eval Value)

def declareVariable (env : Env) (name : Token) : Option Expr → Eval Env
  | none => declare env name fun _ => return .nil
  | some e => declare env name fun names => evaluate names e

def enterLoop (names : Names) : Option Initializer → Eval Names
  | none => return names
  | some (.declare name value) => do
    return (← declareVariable evaluate (.inside names) name value).names
  | some (.expression e) => do
    let _ ← evaluate names e
    return names

def goesOn (names : Names) : Option Expr → Eval Bool
  | none => return true
  | some e => do
    return (← evaluate names e).isTruthy

def advance (names : Names) : Option Expr → Eval Unit
  | none => return
  | some e => do
    let _ ← evaluate names e

def perform (execute : Names → Statement → Eval Unit) (env : Env) : Declaration → Eval Env
  | .declare name value => declareVariable evaluate env name value
  | .function name params body => declare env name (makeClosure name params body)
  | .statement s => do
    execute env.names s
    return env

end

mutual

def evaluate : Nat → Names → Expr → Eval Value
  | 0, _, _ => throw .exhausted
  | fuel + 1, names, e => do
    match e with
    | .literal value => return .ofLiteral value
    | .grouping inner => evaluate fuel names inner
    | .unary operator right =>
      let right ← evaluate fuel names right
      orStop operator (unaryResult operator.kind right)
    | .binary left operator right =>
      let left ← evaluate fuel names left
      let right ← evaluate fuel names right
      orStop operator (binaryResult operator.kind left right)
    | .logical left operator right =>
      let left ← evaluate fuel names left
      if decides operator.kind left then return left else evaluate fuel names right
    | .reference _ name => read names name
    | .assign _ name value =>
      let v ← evaluate fuel names value
      assign names name v
      return v
    | .call callee paren arguments =>
      let callee ← evaluate fuel names callee
      let arguments ← evaluateAll fuel names arguments
      call paren callee arguments (executeAll fuel)

def evaluateAll : Nat → Names → List Expr → Eval (List Value)
  | 0, _, _ => throw .exhausted
  | _, _, [] => return []
  | fuel + 1, names, e :: es => do
    let v ← evaluate fuel names e
    return v :: (← evaluateAll fuel names es)

def execute : Nat → Names → Statement → Eval Unit
  | 0, _, _ => throw .exhausted
  | fuel + 1, names, s => do
    match s with
    | .expression e => let _ ← evaluate fuel names e
    | .print e => print (← evaluate fuel names e).text
    | .block body => executeAll fuel (.inside names) body
    | .ifThen condition thenBranch =>
      if (← evaluate fuel names condition).isTruthy then execute fuel names thenBranch
    | .ifElse condition thenBranch elseBranch =>
      if (← evaluate fuel names condition).isTruthy then execute fuel names thenBranch
      else execute fuel names elseBranch
    | .whileLoop condition body =>
      repeatWhile fuel (goesOn (evaluate fuel) names (some condition)) (execute fuel names body)
    | .forLoop initializer condition increment body =>
      let names ← enterLoop (evaluate fuel) names initializer
      -- what the body declares is gone when the increment is evaluated
      repeatWhile fuel (goesOn (evaluate fuel) names condition) do
        execute fuel names body
        advance (evaluate fuel) names increment
    | .ret _ none => throw (.returned .nil)
    | .ret _ (some e) => throw (.returned (← evaluate fuel names e))

def executeAll : Nat → Env → List Declaration → Eval Unit
  | 0, _, _ => throw .exhausted
  | _, _, [] => return
  | fuel + 1, env, d :: ds => do
    let env ← perform (evaluate fuel) (execute fuel) env d
    executeAll fuel env ds

end

def State.flush (s : State) : Outcome := if s.output.flushFails then .output .flush else .finished

def interpret (fuel : Nat) (program : List Declaration) (s : State) : Outcome × State :=
  match executeAll fuel .outermost program s with
  | .ok () s | .error (.returned _) s => (s.flush, s)
  | .error (.runtime e) s => (.runtime e, s)
  | .error (.output f) s => (.output f, s)
  | .error .exhausted s => (.exhausted, s)

structure Session where
  state : State
  reporter : Reporter

namespace Session

def start (output diagnostics : Stream) (clock : Clock) : Session :=
  ⟨.start output clock, .ofStream diagnostics⟩

def run (fuel : Nat) (program : List Declaration) (s : Session) : Option Session :=
  match interpret fuel program s.state with
  | (.exhausted, _) => none
  | (outcome, state) => some ⟨state, s.reporter.reportAll outcome.diagnostic?.toList⟩

def runAll (fuel : Nat) : List (List Declaration) → Session → Option Session
  | [], s => some s
  | program :: programs, s => (s.run fuel program).bind (runAll fuel programs)

end Session

end LoxLang.Direct

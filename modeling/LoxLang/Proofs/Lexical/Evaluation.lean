import LoxLang.Session
import LoxLang.Proofs.Tree.Relabel

/-!
Static scoping, as a reference. An environment is an unchanging map from names to locations, together
with one global table that changes. Every declaration inside of a block or of a function body takes a
new location and extends the map for the rest of its scope; the location is taken before the
initializer is evaluated, and has no value until that is done. A function value keeps the map at its
declaration, its own name included. Ids of uses and distances play no part.
-/
namespace LoxLang.Lexical

abbrev Location := Nat

abbrev Names := Bindings Location

structure Closure where
  identity : Nat
  declaration : FunctionDecl
  names : Names

instance : Callable Closure := ⟨Closure.identity, (·.declaration.name.lexeme)⟩

abbrev Value := ValueOf Closure

inductive Env
  | outermost
  | inside (names : Names)

def Env.names : Env → Names
  | outermost => .empty
  | inside names => names

structure State where
  globals : Bindings Value
  /-- What the locations taken so far hold; a location without a value is not to be used yet. -/
  locations : List (Option Value)
  nextFunction : Nat
  output : ByteArray
  clock : Clock
  readings : Nat

inductive Signal
  | returned (value : Value)
  | runtime (e : RuntimeError)
  | exhausted

abbrev Eval := EStateM Signal State

namespace State

def start (clock : Clock) : State where
  globals := Bindings.empty.insert "clock" (.native Machine.clockFunction)
  locations := []
  nextFunction := 0
  output := ByteArray.empty
  clock := clock
  readings := 0

def valueAt? (s : State) (l : Location) : Option Value := s.locations[l]?.join

def read? (s : State) (env : Env) (x : String) : Option Value :=
  match env.names.find? x with
  | some l => s.valueAt? l
  | none => s.globals.find? x

def take (s : State) : State := { s with locations := s.locations ++ [none] }

def setLocation (s : State) (l : Location) (v : Value) : State :=
  { s with locations := s.locations.set l (some v) }

def setGlobal (s : State) (x : String) (v : Value) : State :=
  { s with globals := s.globals.insert x v }

def write (s : State) (env : Env) (x : String) (v : Value) : State :=
  match env.names.find? x with
  | some l => s.setLocation l v
  | none => s.setGlobal x v

end State

def stop (t : Token) (cause : RuntimeError.Cause) : Eval α := throw (.runtime (.atToken t cause))

def orStop (t : Token) (result : Except RuntimeError.Cause α) : Eval α :=
  match result with
  | .ok a => pure a
  | .error cause => stop t cause

def read (env : Env) (name : Token) : Eval Value := fun s =>
  match s.read? env name.lexeme with
  | some v => .ok v s
  | none => .error (.runtime (.undefined name)) s

def assign (env : Env) (name : Token) (v : Value) : Eval Unit := fun s =>
  if (s.read? env name.lexeme).isSome then .ok () (s.write env name.lexeme v)
  else .error (.runtime (.undefined name)) s

/-- Declares a name with the value that a step gives. Inside of a scope the name is in sight, without a
value, while the step runs. The result is the environment of what follows. -/
def declare (env : Env) (name : Token) (value : Env → Eval Value) : Eval Env :=
  match env with
  | .outermost => do
    let v ← value .outermost
    modify (·.setGlobal name.lexeme v)
    return .outermost
  | .inside names => do
    let l := (← get).locations.length
    modify (·.take)
    let env := Env.inside (names.insert name.lexeme l)
    let v ← value env
    modify (·.setLocation l v)
    return env

def makeClosure (declaration : FunctionDecl) (env : Env) : Eval Value := fun s =>
  .ok (.function ⟨s.nextFunction, declaration, env.names⟩)
    { s with nextFunction := s.nextFunction + 1 }

def print (text : String) : Eval Unit :=
  modify fun s => { s with output := s.output ++ (text ++ "\n").toUTF8 }

def readClock : Eval (Except String Float) := fun s =>
  .ok (s.clock s.readings) { s with readings := s.readings + 1 }

def catchReturn (body : Eval Env) : Eval Value := fun s =>
  match body s with
  | .ok _ s => .ok .nil s
  | .error (.returned v) s => .ok v s
  | .error signal s => .error signal s

def callNative (paren : Token) (f : NativeFunction) (arguments : List Value) : Eval Value := do
  orStop paren (checkArity f.arity arguments.length)
  orStop paren (f.result (← readClock) arguments)

def bindArguments : Env → List Token → List Value → Eval Env
  | env, p :: ps, v :: vs => do
    let env ← declare env p fun _ => return v
    bindArguments env ps vs
  | env, _, _ => return env

/-- Calls a function: the body, which is run by `runBody`, sees the names in sight at the declaration
and the parameters. -/
def callClosure (paren : Token) (f : Closure) (arguments : List Value)
    (runBody : Env → List Stmt → Eval Env) : Eval Value := do
  orStop paren (checkArity f.declaration.params.length arguments.length)
  catchReturn do
    let env ← bindArguments (.inside f.names) f.declaration.params arguments
    runBody env f.declaration.body

def call (paren : Token) (callee : Value) (arguments : List Value)
    (runBody : Env → List Stmt → Eval Env) : Eval Value :=
  match callee with
  | .native f => callNative paren f arguments
  | .function f => callClosure paren f arguments runBody
  | _ => stop paren .notCallable

mutual

def evaluate : Nat → Env → Expr → Eval Value
  | 0, _, _ => throw .exhausted
  | fuel + 1, env, e => do
    match e with
    | .literal value => return .ofLiteral value
    | .grouping inner => evaluate fuel env inner
    | .unary operator right =>
      let right ← evaluate fuel env right
      orStop operator (unaryResult operator.kind right)
    | .binary left operator right =>
      let left ← evaluate fuel env left
      let right ← evaluate fuel env right
      orStop operator (binaryResult operator.kind left right)
    | .logical left operator right =>
      let left ← evaluate fuel env left
      if decides operator.kind left then return left else evaluate fuel env right
    | .reference _ name => read env name
    | .assign _ name value =>
      let v ← evaluate fuel env value
      assign env name v
      return v
    | .call callee paren arguments =>
      let callee ← evaluate fuel env callee
      let arguments ← evaluateAll fuel env arguments
      call paren callee arguments (executeAll fuel)

def evaluateAll : Nat → Env → List Expr → Eval (List Value)
  | 0, _, _ => throw .exhausted
  | _, _, [] => return []
  | fuel + 1, env, e :: es => do
    let v ← evaluate fuel env e
    return v :: (← evaluateAll fuel env es)

def execute : Nat → Env → Stmt → Eval Env
  | 0, _, _ => throw .exhausted
  | fuel + 1, env, s => do
    match s with
    | .expression e =>
      let _ ← evaluate fuel env e
      return env
    | .print e =>
      print (← evaluate fuel env e).text
      return env
    | .declare name none => declare env name fun _ => return .nil
    | .declare name (some e) => declare env name fun env => evaluate fuel env e
    | .block body =>
      let _ ← executeAll fuel (.inside env.names) body
      return env
    | .ifThen condition thenBranch =>
      if (← evaluate fuel env condition).isTruthy then
        let _ ← execute fuel env thenBranch
      return env
    | .ifElse condition thenBranch elseBranch =>
      if (← evaluate fuel env condition).isTruthy then
        let _ ← execute fuel env thenBranch
        return env
      else
        let _ ← execute fuel env elseBranch
        return env
    | .whileLoop condition body =>
      if (← evaluate fuel env condition).isTruthy then
        let _ ← execute fuel env body
        execute fuel env s
      else
        return env
    | .function name params body => declare env name (makeClosure ⟨name, params, body⟩)
    | .ret _ none => throw (.returned .nil)
    | .ret _ (some e) => throw (.returned (← evaluate fuel env e))

def executeAll : Nat → Env → List Stmt → Eval Env
  | 0, _, _ => throw .exhausted
  | _, env, [] => return env
  | fuel + 1, env, s :: ss => do
    let env ← execute fuel env s
    executeAll fuel env ss

end

def interpret (fuel : Nat) (program : List Stmt) (s : State) : Outcome × State :=
  match executeAll fuel .outermost program s with
  | .ok _ s | .error (.returned _) s => (.finished, s)
  | .error (.runtime e) s => (.runtime e, s)
  | .error .exhausted s => (.exhausted, s)

/-- The program that a text is. Ids of uses mean nothing here and are forgotten. -/
def program (text : String) : List Stmt := (Front.ofText 0 text).statements.map Stmt.withoutIds

structure Session where
  state : State
  reporter : Reporter

namespace Session

def start (clock : Clock) : Session := ⟨.start clock, .ofStream .unlimited⟩

def run (fuel : Nat) (text : String) (s : Session) : Option Session :=
  match interpret fuel (program text) s.state with
  | (.exhausted, _) => none
  | (outcome, state) => some ⟨state, s.reporter.reportAll outcome.diagnostic?.toList⟩

end Session

end LoxLang.Lexical

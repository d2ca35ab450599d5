import LoxLang.Resolution
import LoxLang.Store
import LoxLang.Stream

/-!
The state of a running program and the steps that it is made of. A step gives a result or breaks off
with a signal; either way the state reached is kept. A scope is left again on every way out of it.
-/
namespace LoxLang

structure Machine where
  store : Store
  current : Environment
  /-- How far out the variable of a use stands; a use without a record is of a global one. -/
  distances : Distances
  nextFunction : Nat
  output : Stream
  clock : Clock
  readings : Nat

def Environment.globals : Environment := [0]

inductive Signal
  | returned (value : Value)
  | runtime (e : RuntimeError)
  | output (f : Stream.Failure)
  | exhausted

abbrev Run := EStateM Signal Machine

namespace Machine

def clockFunction : NativeFunction where
  name := "clock"
  arity := 0
  func
    | .ok seconds, _ => .ok (.literal (.number seconds))
    | .error reason, _ => .error ("Clock error: " ++ reason)

def start (output : Stream) (clock : Clock) : Machine where
  store := Store.empty.addTable.define .globals "clock" (.native clockFunction)
  current := .globals
  distances := ∅
  nextFunction := 0
  output := output
  clock := clock
  readings := 0

end Machine

namespace Run

def stop (t : Token) (cause : RuntimeError.Cause) : Run α := throw (.runtime (.atToken t cause))

def orStop (t : Token) (result : Except RuntimeError.Cause α) : Run α :=
  match result with
  | .ok a => pure a
  | .error cause => stop t cause

def define (x : String) (v : Value) : Run Unit :=
  modify fun m => { m with store := m.store.define m.current x v }

/-- Finds the table of the variable that is used: at the distance recorded for the use, or else among
the global variables. -/
def locate (id : ReferenceId) (name : Token) : Run Address := fun m =>
  let owner? :=
    match m.distances[id]? with
    | some distance => m.store.ownerAt? m.current distance name.lexeme
    | none => m.store.owner? .globals name.lexeme
  match owner? with
  | some a => .ok a m
  | none => .error (.runtime (.undefined name)) m

def read (id : ReferenceId) (name : Token) : Run Value := do
  let a ← locate id name
  match (← get).store.readTable a name.lexeme with
  | some v => return v
  | none => throw (.runtime (.undefined name))

def assign (id : ReferenceId) (name : Token) (v : Value) : Run Unit := do
  let a ← locate id name
  modify fun m => { m with store := m.store.writeTable a name.lexeme v }

/-- A function value of a declaration made here; no other value has its identity. -/
def makeClosure (declaration : FunctionDecl) : Run Value := fun m =>
  .ok (.function ⟨m.nextFunction, declaration, m.current⟩)
    { m with nextFunction := m.nextFunction + 1 }

/-- Writes a line of output. What there is no room for is lost, and the program breaks off. -/
def print (text : String) : Run Unit := fun m =>
  let line := text ++ "\n"
  -- asked first, so that the stream is then held only once and grows in place
  let fits := m.output.fits line
  let m := { m with output := m.output.write line }
  if fits then .ok () m else .error (.output .full) m

def readClock : Run (Except String Float) := fun m =>
  .ok (m.clock m.readings) { m with readings := m.readings + 1 }

def inEnvironment (e : Environment) (step : Run α) : Run α := fun m =>
  let outer := m.current
  match step { m with current := e } with
  | .ok a m => .ok a { m with current := outer }
  | .error signal m => .error signal { m with current := outer }

def inNewScope (outer : Environment) (step : Run α) : Run α := fun m =>
  let e := m.store.inside outer
  inEnvironment e step { m with store := m.store.addTable }

/-- What a function body gives: the value returned, or `nil` if it ends without. -/
def catchReturn (body : Run Unit) : Run Value := fun m =>
  match body m with
  | .ok () m => .ok .nil m
  | .error (.returned v) m => .ok v m
  | .error signal m => .error signal m

end Run

end LoxLang

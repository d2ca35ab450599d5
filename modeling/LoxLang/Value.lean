import LoxLang.RuntimeError
import LoxLang.Tree

/-!
The values of programs. What a function value is made of differs from semantics to semantics, so the
type of functions is a parameter; all else about values is the same for all of them. Two function
values are equal only if they stem from the same execution of a declaration, which is what their
identity tells.
-/
namespace LoxLang

/-- What the clock shows, reading by reading: the seconds since the epoch, or why there is no time. -/
abbrev Clock := Nat → Except String Float

inductive NativeFunction.Answer
  | literal (value : Literal)
  | argument (place : Nat)

/-- A function that is not written in the language. Values contain such functions, so it is not given
values: of an argument that is a function it sees nothing, and can only hand it on. -/
structure NativeFunction where
  name : String
  arity : Nat
  /-- What it makes of a reading of the clock and its arguments. -/
  func : Except String Float → List (Option Literal) → Except String NativeFunction.Answer

class Callable (F : Type) where
  /-- Differs from that of every other execution of a function declaration. -/
  identity : F → Nat
  name : F → String

inductive ValueOf (F : Type)
  | nil
  | bool (b : Bool)
  | number (x : Float)
  | string (s : String)
  | function (f : F)
  | native (f : NativeFunction)
  deriving Inhabited

namespace ValueOf

variable {F : Type}

def isTruthy : ValueOf F → Bool
  | nil => false
  | bool b => b
  | _ => true

/-- Numbers compare as numbers, so `nan` differs from itself; values of different types differ. -/
def same [Callable F] : ValueOf F → ValueOf F → Bool
  | nil, nil => true
  | bool a, bool b => a == b
  | number x, number y => x == y
  | string s, string t => s == t
  | function f, function g => Callable.identity f == Callable.identity g
  | native f, native g => f.name == g.name
  | _, _ => false

def text [Callable F] : ValueOf F → String
  | nil => "nil"
  | bool true => "true"
  | bool false => "false"
  | number x => Number.valueText x
  | string s => s
  | function f => "<fn " ++ Callable.name f ++ ">"
  | native _ => "<native fn>"

def ofLiteral : Literal → ValueOf F
  | .nil => nil
  | .bool b => bool b
  | .number x => number x
  | .string s => string s

def literal? : ValueOf F → Option Literal
  | nil => some .nil
  | bool b => some (.bool b)
  | number x => some (.number x)
  | string s => some (.string s)
  | function _ | native _ => none

end ValueOf

def NativeFunction.result {F : Type} (f : NativeFunction) (now : Except String Float)
    (arguments : List (ValueOf F)) : Except RuntimeError.Cause (ValueOf F) :=
  match f.func now (arguments.map ValueOf.literal?) with
  | .ok (.literal value) => .ok (.ofLiteral value)
  | .ok (.argument place) => .ok (arguments[place]?.getD .nil)
  | .error message => .error (.native message)

abbrev Address := Nat

abbrev Environment := List Address

structure Closure where
  identity : Nat
  declaration : FunctionDecl
  environment : Environment

instance : Callable Closure := ⟨Closure.identity, (·.declaration.name.lexeme)⟩

abbrev Value := ValueOf Closure

end LoxLang

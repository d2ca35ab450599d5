import LoxLang.Diagnostic

/-!
What can go wrong while a program runs, and the words for it.
-/
namespace LoxLang

inductive RuntimeError.Cause
  | operandNotNumber
  | operandsNotNumbers
  | invalidUnaryOperator
  | invalidBinaryOperator
  | undefinedVariable (name : String)
  | wrongArity (expected got : Nat)
  | notCallable
  | native (message : String)
  deriving DecidableEq, Repr

def RuntimeError.Cause.message : RuntimeError.Cause → String
  | operandNotNumber => "Operand must be a number."
  | operandsNotNumbers => "Operands must be a number."
  | invalidUnaryOperator => "Invalid unary operator."
  | invalidBinaryOperator => "Invalid binary operator."
  | undefinedVariable name => "Undefined variable '" ++ name ++ "'."
  | wrongArity expected got =>
    "Expected " ++ toString expected ++ " arguments but got " ++ toString got ++ "."
  | notCallable => "Can only call functions and classes."
  | native message => message

structure RuntimeError where
  line : Nat
  cause : RuntimeError.Cause
  deriving DecidableEq, Repr

namespace RuntimeError

def atToken (t : Token) (cause : Cause) : RuntimeError := ⟨t.line, cause⟩

def undefined (name : Token) : RuntimeError := atToken name (.undefinedVariable name.lexeme)

def message (e : RuntimeError) : String := e.cause.message

def diagnostic (e : RuntimeError) : Diagnostic := .runtime e.line e.message

end RuntimeError

end LoxLang

import LoxLang.Token

/-!
Programs as trees. Every use of a variable, read or written, has an id of its own, by which what is
known about that use can be looked up.
-/
namespace LoxLang

/-- Names one use of a variable among all trees of a session. -/
abbrev ReferenceId := Nat

inductive Literal
  | nil
  | bool (b : Bool)
  | number (x : Float)
  | string (s : String)

inductive Expr
  | literal (value : Literal)
  | grouping (inner : Expr)
  | unary (operator : Token) (right : Expr)
  | binary (left : Expr) (operator : Token) (right : Expr)
  /-- The right operand is evaluated only if the left one does not decide. -/
  | logical (left : Expr) (operator : Token) (right : Expr)
  | reference (id : ReferenceId) (name : Token)
  | assign (id : ReferenceId) (name : Token) (value : Expr)
  /-- Errors of the call are reported at its closing parenthesis. -/
  | call (callee : Expr) (paren : Token) (arguments : List Expr)

inductive Stmt
  | expression (e : Expr)
  | print (e : Expr)
  | declare (name : Token) (initializer : Option Expr)
  | block (body : List Stmt)
  | ifThen (condition : Expr) (thenBranch : Stmt)
  | ifElse (condition : Expr) (thenBranch elseBranch : Stmt)
  | whileLoop (condition : Expr) (body : Stmt)
  | function (name : Token) (params : List Token) (body : List Stmt)
  | ret (keyword : Token) (value : Option Expr)

structure FunctionDecl where
  name : Token
  params : List Token
  body : List Stmt

end LoxLang

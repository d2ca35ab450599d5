import LoxLang.Bindings
import LoxLang.Diagnostic
import LoxLang.Tree
import Std.Data.TreeMap.Basic

/-!
The static rules of scopes. A walk over a program keeps the scopes that are open at each point; it
records for each use of a local variable how many scopes out the variable stands, and reports what
breaks a rule. Blocks and function bodies open scopes; names outside of all scopes are global and
have no record.
-/
namespace LoxLang

inductive ResolutionError.Cause
  | alreadyDeclared (name : String)
  | ownInitializer
  | topLevelReturn
  deriving DecidableEq, Repr

def ResolutionError.Cause.message : ResolutionError.Cause → String
  | alreadyDeclared name => "Variable already exists '" ++ name ++ "' in this scope."
  | ownInitializer => "Can't read local variable in its own initializer."
  | topLevelReturn => "Can't return from top-level code."

structure ResolutionError where
  cause : ResolutionError.Cause
  token : Token

def ResolutionError.diagnostic (e : ResolutionError) : Diagnostic :=
  .atToken e.token e.cause.message

/-- How many scopes out the variable of a use stands, for each use of a local variable. -/
abbrev Distances := Std.TreeMap ReferenceId Nat

namespace Resolution

inductive Readiness
  | declared
  | defined
  deriving DecidableEq, Repr

structure State where
  /-- The names of the open scopes, the innermost scope first. -/
  scopes : List (Bindings Readiness)
  distances : Distances
  errors : Array ResolutionError

namespace State

def report (s : State) (cause : ResolutionError.Cause) (token : Token) : State :=
  { s with errors := s.errors.push ⟨cause, token⟩ }

def openScope (s : State) : State := { s with scopes := .empty :: s.scopes }

def closeScope (s : State) : State := { s with scopes := s.scopes.tail }

def mark (s : State) (readiness : Readiness) (name : Token) : State :=
  match s.scopes with
  | [] => s
  | scope :: outer => { s with scopes := scope.insert name.lexeme readiness :: outer }

def clashes (s : State) (name : Token) : Bool :=
  match s.scopes with
  | [] => false
  | scope :: _ => scope.contains name.lexeme

def declare (s : State) (name : Token) : State :=
  let declared := s.mark .declared name
  -- a name declared twice is declared afresh, and reported
  if s.clashes name then declared.report (.alreadyDeclared name.lexeme) name else declared

def define (s : State) (name : Token) : State := s.mark .defined name

def inOwnInitializer (s : State) (name : Token) : Bool :=
  match s.scopes with
  | [] => false
  | scope :: _ => scope.find? name.lexeme == some .declared

/-- Records how far out the scope is that has the name; a global name has no record. -/
def recordUse (s : State) (id : ReferenceId) (name : Token) : State :=
  match s.scopes.findIdx? (·.contains name.lexeme) with
  | some distance => { s with distances := s.distances.insert id distance }
  | none => s

def read (s : State) (id : ReferenceId) (name : Token) : State :=
  (if s.inOwnInitializer name then s.report .ownInitializer name else s).recordUse id name

end State

mutual

/-- Walks an expression, operands from left to right; a value is walked before its target. -/
def walkExpr (s : State) : Expr → State
  | .literal _ => s
  | .grouping inner => walkExpr s inner
  | .unary _ right => walkExpr s right
  | .binary left _ right | .logical left _ right => walkExpr (walkExpr s left) right
  | .reference id name => s.read id name
  | .assign id name value => (walkExpr s value).recordUse id name
  | .call callee _ arguments => walkExprs (walkExpr s callee) arguments

def walkExprs (s : State) : List Expr → State
  | [] => s
  | e :: es => walkExprs (walkExpr s e) es

end

def walkValue (s : State) : Option Expr → State
  | none => s
  | some e => walkExpr s e

def bindParams (s : State) (params : List Token) : State :=
  params.foldl (fun s p => (s.declare p).define p) s

mutual

/-- Walks a statement, which stands inside of a function or outside of all. A function's name is
defined before its body, so that it can call itself. -/
def walkStmt (inFunction : Bool) (s : State) : Stmt → State
  | .expression e | .print e => walkExpr s e
  | .declare name initializer => (walkValue (s.declare name) initializer).define name
  | .block body => (walkStmts inFunction s.openScope body).closeScope
  | .ifThen condition thenBranch => walkStmt inFunction (walkExpr s condition) thenBranch
  | .ifElse condition thenBranch elseBranch =>
    walkStmt inFunction (walkStmt inFunction (walkExpr s condition) thenBranch) elseBranch
  | .whileLoop condition body => walkStmt inFunction (walkExpr s condition) body
  | .function name params body =>
    (walkStmts true (bindParams ((s.declare name).define name).openScope params) body).closeScope
  | .ret keyword value =>
    walkValue (if inFunction then s else s.report .topLevelReturn keyword) value

def walkStmts (inFunction : Bool) (s : State) : List Stmt → State
  | [] => s
  | stmt :: rest => walkStmts inFunction (walkStmt inFunction s stmt) rest

end

end Resolution

structure Resolved where
  distances : Distances
  errors : List ResolutionError

open Resolution in
def resolve (distances : Distances) (program : List Stmt) : Resolved :=
  let s := walkStmts false ⟨[], distances, #[]⟩ program
  ⟨s.distances, s.errors.toList⟩

end LoxLang

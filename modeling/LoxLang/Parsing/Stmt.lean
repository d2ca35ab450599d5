import LoxLang.Parsing.Expr

/-!
Reading statements and declarations. A declaration with a syntax error is left out of the tree, the
error is recorded, and reading goes on at the next statement.
-/
namespace LoxLang.Parsing

def letDeclaration (fuel : Nat) : Parse Stmt := do
  let name ← expect isIdentifier .variableName
  let initializer ←
    if ← takesSymbol .equal then some <$> expression fuel else pure none
  let _ ← expectSymbol .semicolon .semicolonAfterDeclaration
  return .declare name initializer

def printStatement (fuel : Nat) : Parse Stmt := do
  let value ← expression fuel
  let _ ← expectSymbol .semicolon .semicolonAfterPrinted
  return .print value

def expressionStatement (fuel : Nat) : Parse Stmt := do
  let e ← expression fuel
  let _ ← expectSymbol .semicolon .semicolonAfterExpression
  return .expression e

def returnStatement (fuel : Nat) (keyword : Token) : Parse Stmt := do
  let value ←
    if ← seesSymbol .semicolon then pure none else some <$> expression fuel
  let _ ← expectSymbol .semicolon .semicolonAfterReturn
  return .ret keyword value

def ifStatement (fuel : Nat) (statement : Parse Stmt) : Parse Stmt := do
  let _ ← expectSymbol .leftParen .parenAfterIf
  let condition ← expression fuel
  let _ ← expectSymbol .rightParen .parenAfterIfCondition
  let thenBranch ← statement
  match ← take? (isKeyword .elseKw) with
  | some _ => return .ifElse condition thenBranch (← statement)
  | none => return .ifThen condition thenBranch

def whileStatement (fuel : Nat) (statement : Parse Stmt) : Parse Stmt := do
  let _ ← expectSymbol .leftParen .parenAfterWhile
  let condition ← expression fuel
  let _ ← expectSymbol .rightParen .parenAfterWhileCondition
  return .whileLoop condition (← statement)

/-- The loop that a `for` stands for: the increment ends the body, a missing condition is true, and
the initializer opens a scope of its own. -/
def forLoop (initializer : Option Stmt) (condition increment : Option Expr) (body : Stmt) : Stmt :=
  let body :=
    match increment with
    | some e => .block [body, .expression e]
    | none => body
  let loop := Stmt.whileLoop (condition.getD (.literal (.bool true))) body
  match initializer with
  | some s => .block [s, loop]
  | none => loop

def forInitializer (fuel : Nat) : Parse (Option Stmt) := do
  if ← takesSymbol .semicolon then
    return none
  else
    match ← take? (isKeyword .letKw) with
    | some _ => some <$> letDeclaration fuel
    | none => some <$> expressionStatement fuel

def forClause (fuel : Nat) (closing : Symbol) (cause : SyntaxError.Cause) :
    Parse (Option Expr) := do
  let clause ← if ← seesSymbol closing then pure none else some <$> expression fuel
  let _ ← expectSymbol closing cause
  return clause

def forStatement (fuel : Nat) (statement : Parse Stmt) : Parse Stmt := do
  let _ ← expectSymbol .leftParen .parenAfterFor
  let initializer ← forInitializer fuel
  let condition ← forClause fuel .semicolon .semicolonAfterLoopCondition
  let increment ← forClause fuel .rightParen .parenAfterForClauses
  return forLoop initializer condition increment (← statement)

def block (declaration : Recover (Option Stmt)) : Nat → Parse (List Stmt)
  | 0 => do
    let _ ← expectSymbol .rightBrace .braceAfterBlock
    return []
  | fuel + 1 => do
    if (← seesSymbol .rightBrace) || (← unstopped atEnd) then
      let _ ← expectSymbol .rightBrace .braceAfterBlock
      return []
    else
      let first ← unstopped declaration
      return first.toList ++ (← block declaration fuel)

def function (fuel : Nat) (declaration : Recover (Option Stmt)) : Parse Stmt := do
  let name ← expect isIdentifier .functionName
  let _ ← expectSymbol .leftParen .parenAfterFunctionName
  let params ← parenthesized (expect isIdentifier .parameterName) .tooManyParameters fuel
  let _ ← expectSymbol .rightParen .parenAfterParameters
  let _ ← expectSymbol .leftBrace .braceBeforeBody
  return .function name params (← block declaration fuel)

mutual

/-- Fuel: twice the number of tokens left, and one more. -/
def statement : Nat → Parse Stmt
  | 0 => fail .expression
  | fuel + 1 => do
    let t ← current
    match t.kind with
    | .keyword .forKw => advance; forStatement fuel (statement fuel)
    | .keyword .ifKw => advance; ifStatement fuel (statement fuel)
    | .keyword .whileKw => advance; whileStatement fuel (statement fuel)
    | .keyword .returnKw => advance; returnStatement fuel t
    | .symbol .leftBrace => advance; return .block (← block (declaration fuel) fuel)
    | .keyword .printKw => advance; printStatement fuel
    | _ => expressionStatement fuel

/-- A declaration or statement, unless it has a syntax error. Fuel: twice the number of tokens left,
and two more. -/
def declaration : Nat → Recover (Option Stmt)
  | 0 => recovering (fail .expression)
  | fuel + 1 => recovering do
    let t ← current
    match t.kind with
    | .keyword .funKw => advance; function fuel (declaration fuel)
    | .keyword .letKw => advance; letDeclaration fuel
    | _ => statement fuel

end

def program (declaration : Recover (Option Stmt)) : Nat → Recover (List Stmt)
  | 0 => return []
  | fuel + 1 => do
    if ← atEnd then
      return []
    else
      let first ← declaration
      return first.toList ++ (← program declaration fuel)

end Parsing

structure Parsed where
  /-- The declarations without a syntax error of their own. -/
  statements : List Stmt
  errors : List SyntaxError
  nextId : ReferenceId

open Parsing in
def parse (nextId : ReferenceId) (tokens : List Token) : Parsed :=
  let start := State.start nextId tokens
  -- a declaration hands on to a statement without a token, all other nesting takes one
  let fuel := 2 * start.rest.length + 2
  let (statements, s) := program (declaration fuel) fuel start
  ⟨statements, s.errors.toList, s.nextId⟩

end LoxLang

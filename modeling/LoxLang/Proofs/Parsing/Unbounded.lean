import LoxLang.Parsing.Stmt
import LoxLang.Reporter
import LoxLang.Proofs.Grammar.Basic

/-!
Reading without a bound. A cursor stands at a place in a list of tokens, which is not cut off at an
end-of-input token; loops go on until a token ends them, and the rules call each other freely. So a
reading need not have a result: it has none if it does not end, and none if the cursor looks at a place
where no token is. Errors wait at the cursor until they are handed to a reporter, after each declaration
of the outermost level.
-/
namespace LoxLang.Parsing

structure Cursor where
  tokens : List Token
  position : Nat
  passed : List Nat
  nextId : ReferenceId
  errors : Array SyntaxError

abbrev Read := ExceptT SyntaxError (StateT Cursor Option)

namespace Unbounded

def look (place : Cursor → Nat) : Read Token := fun c =>
  c.tokens[place c]?.map fun t => (.ok t, c)

def current : Read Token := look (·.position)

def previous : Read Token := look (·.position - 1)

def atEnd : Read Bool := return (← current).kind.isEof

def advance : Read Unit := do
  unless ← atEnd do
    modify fun c => { c with position := c.position + 1, passed := c.position :: c.passed }

def sees (right : TokenKind → Bool) : Read Bool := do
  if ← atEnd then
    return false
  else
    return right (← current).kind

def take? (right : TokenKind → Bool) : Read (Option Token) := do
  if ← sees right then
    advance
    return some (← previous)
  else
    return none

def errorHere (cause : SyntaxError.Cause) : Read SyntaxError := do
  return ⟨cause, ← current, (← get).position⟩

def fail (cause : SyntaxError.Cause) : Read α := do
  throw (← errorHere cause)

def record (e : SyntaxError) : Read Unit :=
  modify fun c => { c with errors := c.errors.push e }

def recordHere (cause : SyntaxError.Cause) : Read Unit := do
  record (← errorHere cause)

def expect (right : TokenKind → Bool) (cause : SyntaxError.Cause) : Read Token := do
  match ← take? right with
  | some t => return t
  | none => fail cause

def takesSymbol (s : Symbol) : Read Bool := return (← take? (isSymbol s)).isSome

def expectSymbol (s : Symbol) (cause : SyntaxError.Cause) : Read Token := expect (isSymbol s) cause

def freshId : Read ReferenceId :=
  modifyGet fun c => (c.nextId, { c with nextId := c.nextId + 1 })

def drain : Read (List SyntaxError) :=
  modifyGet fun c => (c.errors.toList, { c with errors := #[] })

/-- What there is to be read, with what has been read for it before. -/
inductive Rule : Type → Type 1
  | expression : Rule Expr
  | operators (level : Level) : Rule Expr
  | operand (level : Level) : Rule Expr
  | operations (level : Level) (left : Expr) : Rule Expr
  | signed : Rule Expr
  | called : Rule Expr
  | calls (callee : Expr) : Rule Expr
  | parenthesizedArguments : Rule (List Expr)
  | arguments (count : Nat) : Rule (List Expr)
  | primary : Rule Expr
  | letDeclaration : Rule Stmt
  | printStatement : Rule Stmt
  | expressionStatement : Rule Stmt
  | returnStatement (keyword : Token) : Rule Stmt
  | forInitializer : Rule (Option Stmt)
  | forClause (closing : Symbol) (cause : SyntaxError.Cause) : Rule (Option Expr)
  | forStatement : Rule Stmt
  | ifStatement : Rule Stmt
  | whileStatement : Rule Stmt
  | statement : Rule Stmt
  | block : Rule (List Stmt)
  | parenthesizedParameters : Rule (List Token)
  | parameters (count : Nat) : Rule (List Token)
  | function : Rule Stmt
  /-- A declaration or statement, which stops at its first error that is not about a length only. -/
  | declared : Rule Stmt
  | nextStatement : Rule Unit
  | resume : Rule Unit
  /-- A declaration or statement; after an error there is none, and the cursor is at the next one. -/
  | declaration : Rule (Option Stmt)
  | program (reporter : Reporter) : Rule (List Stmt × Reporter)

open Grammar (tighter?)

def Rule.read {α : Type} (rule : Rule α) : Read α :=
  match rule with
  | .expression => do
    let target ← Rule.operators .or |>.read
    -- anchored at the sign, though it is thrown only once the value has been read
    let invalid ← errorHere .assignmentTarget
    if ← takesSymbol .equal then
      let value ← Rule.expression |>.read
      match target with
      | .reference _ name => return .assign (← freshId) name value
      | _ => throw invalid
    else
      return target
  | .operators level => do
    let left ← Rule.operand level |>.read
    Rule.operations level left |>.read
  | .operand level =>
    match tighter? level with
    | some tighter => Rule.operators tighter |>.read
    | none => Rule.signed |>.read
  | .operations level left => do
    match ← take? level.holds with
    | some operator =>
      let right ← Rule.operand level |>.read
      Rule.operations level (level.build left operator right) |>.read
    | none => return left
  | .signed => do
    match ← take? isSign with
    | some operator =>
      let right ← Rule.signed |>.read
      return .unary operator right
    | none => Rule.called |>.read
  | .called => do
    let callee ← Rule.primary |>.read
    Rule.calls callee |>.read
  | .calls callee => do
    if ← takesSymbol .leftParen then
      let arguments ← Rule.parenthesizedArguments |>.read
      let paren ← expectSymbol .rightParen .parenAfterArguments
      Rule.calls (.call callee paren arguments) |>.read
    else
      return callee
  | .parenthesizedArguments => do
    if ← sees (isSymbol .rightParen) then
      return []
    else
      Rule.arguments 0 |>.read
  | .arguments count => do
    if maxArguments ≤ count then
      recordHere .tooManyArguments
    let first ← Rule.expression |>.read
    if ← takesSymbol .comma then
      let rest ← Rule.arguments (count + 1) |>.read
      return first :: rest
    else
      return [first]
  | .primary => do
    let t ← current
    match t.kind with
    | .keyword .falseKw => advance; return .literal (.bool false)
    | .keyword .trueKw => advance; return .literal (.bool true)
    | .keyword .nilKw => advance; return .literal .nil
    | .number x => advance; return .literal (.number x)
    | .string s => advance; return .literal (.string s)
    | .identifier => advance; return .reference (← freshId) t
    | .symbol .leftParen =>
      advance
      let inner ← Rule.expression |>.read
      let _ ← expectSymbol .rightParen .parenAfterExpression
      return .grouping inner
    | _ => fail .expression
  | .letDeclaration => do
    let name ← expect isIdentifier .variableName
    let initializer ← if ← takesSymbol .equal then some <$> (Rule.expression |>.read) else pure none
    let _ ← expectSymbol .semicolon .semicolonAfterDeclaration
    return .declare name initializer
  | .printStatement => do
    let value ← Rule.expression |>.read
    let _ ← expectSymbol .semicolon .semicolonAfterPrinted
    return .print value
  | .expressionStatement => do
    let e ← Rule.expression |>.read
    let _ ← expectSymbol .semicolon .semicolonAfterExpression
    return .expression e
  | .returnStatement keyword => do
    let value ←
      if ← sees (isSymbol .semicolon) then pure none else some <$> (Rule.expression |>.read)
    let _ ← expectSymbol .semicolon .semicolonAfterReturn
    return .ret keyword value
  | .forInitializer => do
    if ← takesSymbol .semicolon then
      return none
    else
      match ← take? (isKeyword .letKw) with
      | some _ => some <$> (Rule.letDeclaration |>.read)
      | none => some <$> (Rule.expressionStatement |>.read)
  | .forClause closing cause => do
    let clause ← if ← sees (isSymbol closing) then pure none else some <$> (Rule.expression |>.read)
    let _ ← expectSymbol closing cause
    return clause
  | .forStatement => do
    let _ ← expectSymbol .leftParen .parenAfterFor
    let initializer ← Rule.forInitializer |>.read
    let condition ← Rule.forClause .semicolon .semicolonAfterLoopCondition |>.read
    let increment ← Rule.forClause .rightParen .parenAfterForClauses |>.read
    let body ← Rule.statement |>.read
    return forLoop initializer condition increment body
  | .ifStatement => do
    let _ ← expectSymbol .leftParen .parenAfterIf
    let condition ← Rule.expression |>.read
    let _ ← expectSymbol .rightParen .parenAfterIfCondition
    let thenBranch ← Rule.statement |>.read
    match ← take? (isKeyword .elseKw) with
    | some _ =>
      let elseBranch ← Rule.statement |>.read
      return .ifElse condition thenBranch elseBranch
    | none => return .ifThen condition thenBranch
  | .whileStatement => do
    let _ ← expectSymbol .leftParen .parenAfterWhile
    let condition ← Rule.expression |>.read
    let _ ← expectSymbol .rightParen .parenAfterWhileCondition
    let body ← Rule.statement |>.read
    return .whileLoop condition body
  | .statement => do
    let t ← current
    match t.kind with
    | .keyword .forKw => advance; Rule.forStatement |>.read
    | .keyword .ifKw => advance; Rule.ifStatement |>.read
    | .keyword .whileKw => advance; Rule.whileStatement |>.read
    | .keyword .returnKw => advance; Rule.returnStatement t |>.read
    | .symbol .leftBrace =>
      advance
      let body ← Rule.block |>.read
      return .block body
    | .keyword .printKw => advance; Rule.printStatement |>.read
    | _ => Rule.expressionStatement |>.read
  | .block => do
    if (← sees (isSymbol .rightBrace)) || (← atEnd) then
      let _ ← expectSymbol .rightBrace .braceAfterBlock
      return []
    else
      let first ← Rule.declaration |>.read
      let rest ← Rule.block |>.read
      return first.toList ++ rest
  | .parenthesizedParameters => do
    if ← sees (isSymbol .rightParen) then
      return []
    else
      Rule.parameters 0 |>.read
  | .parameters count => do
    if maxArguments ≤ count then
      recordHere .tooManyParameters
    let first ← expect isIdentifier .parameterName
    if ← takesSymbol .comma then
      let rest ← Rule.parameters (count + 1) |>.read
      return first :: rest
    else
      return [first]
  | .function => do
    let name ← expect isIdentifier .functionName
    let _ ← expectSymbol .leftParen .parenAfterFunctionName
    let params ← Rule.parenthesizedParameters |>.read
    let _ ← expectSymbol .rightParen .parenAfterParameters
    let _ ← expectSymbol .leftBrace .braceBeforeBody
    let body ← Rule.block |>.read
    return .function name params body
  | .declared => do
    let t ← current
    match t.kind with
    | .keyword .funKw => advance; Rule.function |>.read
    | .keyword .letKw => advance; Rule.letDeclaration |>.read
    | _ => Rule.statement |>.read
  | .nextStatement => do
    if ← atEnd then
      return
    else if isSymbol .semicolon (← previous).kind || startsStatement (← current).kind then
      return
    else
      advance
      Rule.nextStatement |>.read
  | .resume => do
    advance
    Rule.nextStatement |>.read
  | .declaration => fun c => do
    match ← (Rule.declared |>.read).run.run c with
    | (.ok stmt, c) => return (.ok (some stmt), c)
    | (.error e, c) => (do record e; Rule.resume |>.read; return none : Read (Option Stmt)).run.run c
  | .program reporter => do
    if ← atEnd then
      return ([], reporter)
    else
      let first ← Rule.declaration |>.read
      let found ← drain
      let (rest, reporter) ← Rule.program (reporter.reportAll (found.map (·.diagnostic))) |>.read
      return (first.toList ++ rest, reporter)
partial_fixpoint

theorem Rule.read_arguments (count : Nat) : (Rule.arguments count).read = (do
    if maxArguments ≤ count then
      recordHere .tooManyArguments
    let first ← Rule.expression.read
    if ← takesSymbol .comma then
      return first :: (← (Rule.arguments (count + 1)).read)
    else
      return [first]) := by
  conv =>
    lhs
    rw [Rule.read]

theorem Rule.read_parameters (count : Nat) : (Rule.parameters count).read = (do
    if maxArguments ≤ count then
      recordHere .tooManyParameters
    let first ← expect isIdentifier .parameterName
    if ← takesSymbol .comma then
      return first :: (← (Rule.parameters (count + 1)).read)
    else
      return [first]) := by
  rw [Rule.read]

end Unbounded

end LoxLang.Parsing

import LoxLang.Diagnostic
import LoxLang.Tree

/-!
What reading a tree from tokens is made of: the tokens left, the errors found so far, and steps that
take tokens off the front. A step either gives a result or stops at a syntax error; errors that do
not stop it are only recorded. No step goes past the first end-of-input token.
-/
namespace LoxLang

inductive SyntaxError.Cause
  | functionName
  | parenAfterFunctionName
  | parameterName
  | parenAfterParameters
  | braceBeforeBody
  | variableName
  | semicolonAfterDeclaration
  | parenAfterFor
  | semicolonAfterLoopCondition
  | parenAfterForClauses
  | semicolonAfterPrinted
  | semicolonAfterExpression
  | parenAfterIf
  | parenAfterIfCondition
  | parenAfterWhile
  | parenAfterWhileCondition
  | semicolonAfterReturn
  | braceAfterBlock
  | parenAfterArguments
  | parenAfterExpression
  | expression
  | assignmentTarget
  | tooManyParameters
  | tooManyArguments
  deriving DecidableEq, Repr

namespace SyntaxError.Cause

def message : SyntaxError.Cause → String
  | functionName => "Expect function name."
  | parenAfterFunctionName => "Expect '(' after function name."
  | parameterName => "Expect parameter name."
  | parenAfterParameters => "Expect ')' after parameters."
  | braceBeforeBody => "Expect '\x7b' before function body."
  | variableName => "Expect variable name."
  | semicolonAfterDeclaration => "Expect ';' after variable declaration."
  | parenAfterFor => "Expect '(' after 'for'."
  | semicolonAfterLoopCondition => "Expect ';' after loop condition."
  | parenAfterForClauses => "Expect ')' after for clauses."
  | semicolonAfterPrinted => "Expect ';' after value."
  | semicolonAfterExpression => "Expect ';' after expression."
  | parenAfterIf => "Expect '(' after 'if'."
  | parenAfterIfCondition => "Expect ')' after if condition."
  | parenAfterWhile => "Expect '(' after 'while'."
  | parenAfterWhileCondition => "Expect ')' after condition."
  | semicolonAfterReturn => "Expect ';' after return value."
  | braceAfterBlock => "Expect '\x7d' after block."
  | parenAfterArguments => "Expect ')' after arguments."
  | parenAfterExpression => "Expect ')' after expression."
  | expression => "Expect expression."
  | assignmentTarget => "Invalid assignment target."
  | tooManyParameters => "Can't have more than 255 parameters."
  | tooManyArguments => "Can't have more than 255 arguments."

/-- Is it an error about a length only, after which reading goes on? -/
def isLimit : SyntaxError.Cause → Bool
  | tooManyParameters | tooManyArguments => true
  | _ => false

end SyntaxError.Cause

structure SyntaxError where
  cause : SyntaxError.Cause
  token : Token
  position : Nat

def SyntaxError.diagnostic (e : SyntaxError) : Diagnostic := .atToken e.token e.cause.message

namespace Parsing

def maxArguments : Nat := 255

structure State where
  /-- The tokens left before the end of the input. -/
  rest : List Token
  position : Nat
  last : Token
  nextId : ReferenceId
  errors : Array SyntaxError

namespace State

/-- Starts on a list of tokens. What follows the first end-of-input token does not count, and a
list without one ends on the line of its last token. -/
def start (nextId : ReferenceId) (tokens : List Token) : State where
  rest := tokens.takeWhile (!·.kind.isEof)
  position := 0
  last :=
    match tokens.dropWhile (!·.kind.isEof) with
    | t :: _ => t
    | [] => ⟨.eof, "", (tokens.getLast?.map (·.line)).getD 1⟩
  nextId := nextId
  errors := #[]

def current (s : State) : Token := s.rest.head?.getD s.last

def advance (s : State) : State :=
  match s.rest with
  | [] => s
  | _ :: rest => { s with rest := rest, position := s.position + 1 }

def errorHere (s : State) (cause : SyntaxError.Cause) : SyntaxError :=
  ⟨cause, s.current, s.position⟩

def record (s : State) (e : SyntaxError) : State := { s with errors := s.errors.push e }

end State

abbrev Parse := EStateM SyntaxError State

abbrev Recover := StateM State

def unstopped (step : Recover α) : Parse α := fun s =>
  let (a, s) := step s
  .ok a s

def atEnd : Recover Bool := fun s => (s.rest.isEmpty, s)

def current : Parse Token := fun s => .ok s.current s

def advance : Parse Unit := fun s => .ok () s.advance

def errorHere (cause : SyntaxError.Cause) : Parse SyntaxError := fun s =>
  .ok (s.errorHere cause) s

def fail (cause : SyntaxError.Cause) : Parse α := fun s => .error (s.errorHere cause) s

def recordHere (cause : SyntaxError.Cause) : Parse Unit := fun s =>
  .ok () (s.record (s.errorHere cause))

def take? (right : TokenKind → Bool) : Parse (Option Token) := fun s =>
  match s.rest with
  | [] => .ok none s
  | t :: _ => if right t.kind then .ok (some t) s.advance else .ok none s

def expect (right : TokenKind → Bool) (cause : SyntaxError.Cause) : Parse Token := do
  match ← take? right with
  | some t => return t
  | none => fail cause

def isSymbol (s : Symbol) : TokenKind → Bool
  | .symbol t => s == t
  | _ => false

def isIdentifier : TokenKind → Bool
  | .identifier => true
  | _ => false

def isKeyword (k : Keyword) : TokenKind → Bool
  | .keyword l => k == l
  | _ => false

def seesSymbol (s : Symbol) : Parse Bool := return isSymbol s (← current).kind

def takesSymbol (s : Symbol) : Parse Bool := return (← take? (isSymbol s)).isSome

def expectSymbol (s : Symbol) (cause : SyntaxError.Cause) : Parse Token := expect (isSymbol s) cause

def freshId : Parse ReferenceId := fun s => .ok s.nextId { s with nextId := s.nextId + 1 }

/-- One or more items with commas between them, `count` of them read before; every item beyond the
limit is recorded as an error. Fuel: the number of tokens left. -/
def commaSeparated (item : Parse α) (tooMany : SyntaxError.Cause) : Nat → Nat → Parse (List α)
  | 0, count => do
    if maxArguments ≤ count then
      recordHere tooMany
    return [← item]
  | fuel + 1, count => do
    if maxArguments ≤ count then
      recordHere tooMany
    let first ← item
    if ← takesSymbol .comma then
      return first :: (← commaSeparated item tooMany fuel (count + 1))
    else
      return [first]

def parenthesized (item : Parse α) (tooMany : SyntaxError.Cause) (fuel : Nat) :
    Parse (List α) := do
  if ← seesSymbol .rightParen then
    return []
  else
    commaSeparated item tooMany fuel 0

def startsStatement : TokenKind → Bool
  | .keyword .classKw | .keyword .funKw | .keyword .letKw | .keyword .forKw | .keyword .ifKw
  | .keyword .whileKw | .keyword .printKw | .keyword .returnKw => true
  | _ => false

/-- The tokens from the next statement on, and how many are passed over: a statement starts after a
semicolon or at a word that starts one. -/
def nextStatement (previous : Token) : List Token → List Token × Nat
  | [] => ([], 0)
  | t :: rest =>
    if isSymbol .semicolon previous.kind || startsStatement t.kind then
      (t :: rest, 0)
    else
      let (rest, skipped) := nextStatement t rest
      (rest, skipped + 1)

def State.resume (s : State) : State :=
  match s.rest with
  | [] => s
  | t :: rest =>
    let (rest, skipped) := nextStatement t rest
    { s with rest := rest, position := s.position + 1 + skipped }

def recovering (step : Parse α) : Recover (Option α) := fun s =>
  match step s with
  | .ok a s => (some a, s)
  | .error e s => (none, (s.record e).resume)

end Parsing

end LoxLang

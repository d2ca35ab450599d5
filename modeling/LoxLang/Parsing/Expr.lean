import LoxLang.Parsing.State

/-!
Reading expressions. Operators of one level group to the left; assignment, the loosest level, to the
right; the signs of an operand bind tighter than every operator between operands, and a call tighter
than a sign.
-/
namespace LoxLang.Parsing

inductive Level
  | or
  | and
  | equality
  | comparison
  | term
  | factor
  deriving DecidableEq, Repr

namespace Level

def holds : Level → TokenKind → Bool
  | or, .keyword .orKw => true
  | and, .keyword .andKw => true
  | equality, .symbol .bangEqual | equality, .symbol .equalEqual => true
  | comparison, .symbol .greater | comparison, .symbol .greaterEqual
  | comparison, .symbol .less | comparison, .symbol .lessEqual => true
  | term, .symbol .minus | term, .symbol .plus => true
  | factor, .symbol .star | factor, .symbol .slash => true
  | _, _ => false

def build : Level → Expr → Token → Expr → Expr
  | or, left, operator, right | and, left, operator, right => .logical left operator right
  | _, left, operator, right => .binary left operator right

end Level

def operations (level : Level) (operand : Parse Expr) : Nat → Expr → Parse Expr
  | 0, left => return left
  | fuel + 1, left => do
    match ← take? level.holds with
    | some operator =>
      let right ← operand
      operations level operand fuel (level.build left operator right)
    | none => return left

def chain (level : Level) (fuel : Nat) (operand : Parse Expr) : Parse Expr := do
  operations level operand fuel (← operand)

def isSign : TokenKind → Bool
  | .symbol .bang | .symbol .minus => true
  | _ => false

def signed (operand : Parse Expr) : Nat → Parse Expr
  | 0 => operand
  | fuel + 1 => do
    match ← take? isSign with
    | some operator => return .unary operator (← signed operand fuel)
    | none => operand

def primary (expression : Parse Expr) : Parse Expr := do
  let t ← current
  match t.kind with
  | .keyword .falseKw => advance; return .literal (.bool false)
  | .keyword .trueKw => advance; return .literal (.bool true)
  | .keyword .nilKw => advance; return .literal .nil
  | .number x => advance; return .literal (.number x)
  | .string s => advance; return .literal (.string s)
  | .identifier => advance; return .reference (← freshId) t
  | .symbol .leftParen =>
    advance
    let inner ← expression
    let _ ← expectSymbol .rightParen .parenAfterExpression
    return .grouping inner
  | _ => fail .expression

def calls (expression : Parse Expr) : Nat → Expr → Parse Expr
  | 0, callee => return callee
  | fuel + 1, callee => do
    if ← takesSymbol .leftParen then
      let arguments ← parenthesized expression .tooManyArguments fuel
      let paren ← expectSymbol .rightParen .parenAfterArguments
      calls expression fuel (.call callee paren arguments)
    else
      return callee

def called (expression : Parse Expr) (fuel : Nat) : Parse Expr := do
  calls expression fuel (← primary expression)

def operators (expression : Parse Expr) (fuel : Nat) : Parse Expr :=
  chain .or fuel <| chain .and fuel <| chain .equality fuel <| chain .comparison fuel <|
    chain .term fuel <| chain .factor fuel <| signed (called expression fuel) fuel

/-- An expression, `value` being what stands right of an assignment sign. Only a name can be
assigned to, which is found out after the value has been read. -/
def assignment (value target : Parse Expr) : Parse Expr := do
  let target ← target
  -- the error would stand at the sign, though it is known only after the value
  let invalid ← errorHere .assignmentTarget
  if ← takesSymbol .equal then
    let value ← value
    match target with
    | .reference _ name => return .assign (← freshId) name value
    | _ => throw invalid
  else
    return target

/-- Fuel: more than the number of tokens left, since every inner expression follows a token. -/
def expression : Nat → Parse Expr
  | 0 => fail .expression
  | fuel + 1 => assignment (expression fuel) (operators (expression fuel) fuel)

end LoxLang.Parsing

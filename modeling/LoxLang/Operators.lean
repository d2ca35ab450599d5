import LoxLang.Value

/-!
What operators make of values. A result is a value or what is wrong with the operands; the token to
blame for it is known to the caller.
-/
namespace LoxLang

variable {F : Type}

def unaryResult (operator : TokenKind) (right : ValueOf F) : Except RuntimeError.Cause (ValueOf F) :=
  match operator, right with
  | .symbol .minus, .number x => .ok (.number (-x))
  | .symbol .minus, _ => .error .operandNotNumber
  | .symbol .bang, v => .ok (.bool (!v.isTruthy))
  | _, _ => .error .invalidUnaryOperator

def onNumbers (left right : ValueOf F) (f : Float → Float → ValueOf F) :
    Except RuntimeError.Cause (ValueOf F) :=
  match left, right with
  | .number x, .number y => .ok (f x y)
  | _, _ => .error .operandsNotNumbers

def plusResult (left right : ValueOf F) : Except RuntimeError.Cause (ValueOf F) :=
  match left, right with
  | .string s, .string t => .ok (.string (s ++ t))
  | _, _ => onNumbers left right fun x y => .number (x + y)

def binaryResult [Callable F] (operator : TokenKind) (left right : ValueOf F) :
    Except RuntimeError.Cause (ValueOf F) :=
  match operator with
  | .symbol .plus => plusResult left right
  | .symbol .minus => onNumbers left right fun x y => .number (x - y)
  | .symbol .star => onNumbers left right fun x y => .number (x * y)
  | .symbol .slash => onNumbers left right fun x y => .number (x / y)
  | .symbol .greater => onNumbers left right fun x y => .bool (x > y)
  | .symbol .greaterEqual => onNumbers left right fun x y => .bool (x ≥ y)
  | .symbol .less => onNumbers left right fun x y => .bool (x < y)
  | .symbol .lessEqual => onNumbers left right fun x y => .bool (x ≤ y)
  | .symbol .equalEqual => .ok (.bool (left.same right))
  | .symbol .bangEqual => .ok (.bool (!left.same right))
  | _ => .error .invalidBinaryOperator

/-- Does the left operand of a logical operator decide? It does for `or` if it is truthy, and for
every other operator, which all act as `and`, if it is not. -/
def decides (operator : TokenKind) (left : ValueOf F) : Bool :=
  match operator with
  | .keyword .orKw => left.isTruthy
  | _ => !left.isTruthy

def checkArity (expected got : Nat) : Except RuntimeError.Cause Unit :=
  if expected = got then .ok () else .error (.wrongArity expected got)

end LoxLang

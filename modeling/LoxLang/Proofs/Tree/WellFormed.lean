import LoxLang.Parsing.Stmt

/-!
Trees in which each token is of the kind that its place asks for: operators are known operators, names are
identifiers, and calls are anchored at closing parentheses.
-/
namespace LoxLang

def binaryOperators : List Symbol :=
  [.plus, .minus, .star, .slash, .greater, .greaterEqual, .less, .lessEqual, .equalEqual, .bangEqual]

mutual

def Expr.WellFormed : Expr → Prop
  | .literal _ => True
  | .grouping inner => inner.WellFormed
  | .unary operator right =>
    (operator.kind = .symbol .bang ∨ operator.kind = .symbol .minus) ∧ right.WellFormed
  | .binary left operator right =>
    (∃ s ∈ binaryOperators, operator.kind = .symbol s) ∧ left.WellFormed ∧ right.WellFormed
  | .logical left operator right =>
    (operator.kind = .keyword .andKw ∨ operator.kind = .keyword .orKw) ∧ left.WellFormed ∧
      right.WellFormed
  | .reference _ name => name.kind = .identifier
  | .assign _ name value => name.kind = .identifier ∧ value.WellFormed
  | .call callee paren arguments =>
    paren.kind = .symbol .rightParen ∧ callee.WellFormed ∧ Expr.WellFormedAll arguments

def Expr.WellFormedAll : List Expr → Prop
  | [] => True
  | e :: es => e.WellFormed ∧ Expr.WellFormedAll es

end

mutual

def Stmt.WellFormed : Stmt → Prop
  | .expression e | .print e => e.WellFormed
  | .declare name initializer => name.kind = .identifier ∧ ∀ e ∈ initializer, e.WellFormed
  | .block body => Stmt.WellFormedAll body
  | .ifThen condition thenBranch => condition.WellFormed ∧ thenBranch.WellFormed
  | .ifElse condition thenBranch elseBranch =>
    condition.WellFormed ∧ thenBranch.WellFormed ∧ elseBranch.WellFormed
  | .whileLoop condition body => condition.WellFormed ∧ body.WellFormed
  | .function name params body =>
    name.kind = .identifier ∧ (∀ p ∈ params, p.kind = .identifier) ∧ Stmt.WellFormedAll body
  | .ret _ value => ∀ e ∈ value, e.WellFormed

def Stmt.WellFormedAll : List Stmt → Prop
  | [] => True
  | s :: ss => s.WellFormed ∧ Stmt.WellFormedAll ss

end

theorem Expr.wellFormedAll_iff {es : List Expr} :
    Expr.WellFormedAll es ↔ ∀ e ∈ es, e.WellFormed := by
  induction es with
  | nil => simp [Expr.WellFormedAll]
  | cons e es ih => simp [Expr.WellFormedAll, ih]

theorem Stmt.wellFormedAll_iff {ss : List Stmt} :
    Stmt.WellFormedAll ss ↔ ∀ s ∈ ss, s.WellFormed := by
  induction ss with
  | nil => simp [Stmt.WellFormedAll]
  | cons s ss ih => simp [Stmt.WellFormedAll, ih]

end LoxLang

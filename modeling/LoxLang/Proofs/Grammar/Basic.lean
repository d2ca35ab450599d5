import LoxLang.Parsing.Expr

/-!
The grammar of programs. Each rule is a relation between a list of tokens and the tree that a
derivation of the list builds; ids of uses of variables are free. Terminals are told by the kinds of
their tokens alone. The rules are ambiguous in one place: an `else` may belong to any `if` that is
still open. They are therefore stated twice in one: with `nearest` false they are the rules as they
are written down, and with `nearest` true an `else` belongs to the nearest open `if`.
-/
namespace LoxLang.Grammar

open Parsing (Level)

inductive OperatorOf : Level → TokenKind → Prop
  | or : OperatorOf .or (.keyword .orKw)
  | and : OperatorOf .and (.keyword .andKw)
  | bangEqual : OperatorOf .equality (.symbol .bangEqual)
  | equalEqual : OperatorOf .equality (.symbol .equalEqual)
  | greater : OperatorOf .comparison (.symbol .greater)
  | greaterEqual : OperatorOf .comparison (.symbol .greaterEqual)
  | less : OperatorOf .comparison (.symbol .less)
  | lessEqual : OperatorOf .comparison (.symbol .lessEqual)
  | minus : OperatorOf .term (.symbol .minus)
  | plus : OperatorOf .term (.symbol .plus)
  | slash : OperatorOf .factor (.symbol .slash)
  | star : OperatorOf .factor (.symbol .star)

def tighter? : Level → Option Level
  | .or => some .and
  | .and => some .equality
  | .equality => some .comparison
  | .comparison => some .term
  | .term => some .factor
  | .factor => none

def operation : Level → Expr → Token → Expr → Expr
  | .or, left, operator, right => .logical left operator right
  | .and, left, operator, right => .logical left operator right
  | _, left, operator, right => .binary left operator right

/-- Operators of one level group to the left. -/
def grouped (ℓ : Level) (first : Expr) (rest : List (Token × Expr)) : Expr :=
  rest.foldl (fun left o => operation ℓ left o.1 o.2) first

/-- Calls group to the left: what is called is all that stands before the arguments. -/
def applied (callee : Expr) (calls : List (Token × List Expr)) : Expr :=
  calls.foldl (fun callee c => .call callee c.1 c.2) callee

inductive LiteralOf : TokenKind → Literal → Prop
  | true : LiteralOf (.keyword .trueKw) (.bool .true)
  | false : LiteralOf (.keyword .falseKw) (.bool .false)
  | nil : LiteralOf (.keyword .nilKw) .nil
  | number (x : Float) : LiteralOf (.number x) (.number x)
  | string (s : String) : LiteralOf (.string s) (.string s)

def most : Nat := 255

mutual

/-- `expression → assignment` and `assignment → IDENT "=" assignment | logic_or` -/
inductive Expression : List Token → Expr → Prop
  | assign {name sign : Token} {ts : List Token} {value : Expr} (id : ReferenceId)
      (hname : name.kind = .identifier) (hsign : sign.kind = .symbol .equal)
      (hvalue : Expression ts value) : Expression (name :: sign :: ts) (.assign id name value)
  | operators {ts : List Token} {e : Expr} (h : Operators .or ts e) : Expression ts e

/-- `level → operand ( operator operand )*`, for the six levels from `logic_or` to `factor` -/
inductive Operators : Level → List Token → Expr → Prop
  | mk {ℓ : Level} {ts us : List Token} {first : Expr} {rest : List (Token × Expr)}
      (hfirst : Operand ℓ ts first) (hrest : Operations ℓ us rest) :
      Operators ℓ (ts ++ us) (grouped ℓ first rest)

/-- An operand of a level is of the next tighter level, and of the tightest one a `unary`. -/
inductive Operand : Level → List Token → Expr → Prop
  | level {ℓ ℓ' : Level} {ts : List Token} {e : Expr} (hℓ : tighter? ℓ = some ℓ')
      (h : Operators ℓ' ts e) : Operand ℓ ts e
  | unary {ℓ : Level} {ts : List Token} {e : Expr} (hℓ : tighter? ℓ = none)
      (h : Unary ts e) : Operand ℓ ts e

inductive Operations : Level → List Token → List (Token × Expr) → Prop
  | nil {ℓ : Level} : Operations ℓ [] []
  | cons {ℓ : Level} {operator : Token} {ts us : List Token} {e : Expr}
      {rest : List (Token × Expr)} (hoperator : OperatorOf ℓ operator.kind)
      (hfirst : Operand ℓ ts e) (hrest : Operations ℓ us rest) :
      Operations ℓ (operator :: (ts ++ us)) ((operator, e) :: rest)

/-- `unary → ( "!" | "-" ) unary | call` -/
inductive Unary : List Token → Expr → Prop
  | sign {operator : Token} {ts : List Token} {e : Expr}
      (hoperator : operator.kind = .symbol .bang ∨ operator.kind = .symbol .minus)
      (h : Unary ts e) : Unary (operator :: ts) (.unary operator e)
  | call {ts : List Token} {e : Expr} (h : Call ts e) : Unary ts e

/-- `call → primary ( "(" arguments? ")" )*` -/
inductive Call : List Token → Expr → Prop
  | mk {ts us : List Token} {callee : Expr} {calls : List (Token × List Expr)}
      (hcallee : Primary ts callee) (hcalls : Calls us calls) :
      Call (ts ++ us) (applied callee calls)

inductive Calls : List Token → List (Token × List Expr) → Prop
  | nil : Calls [] []
  | empty {opening closing : Token} {us : List Token} {rest : List (Token × List Expr)}
      (hopening : opening.kind = .symbol .leftParen)
      (hclosing : closing.kind = .symbol .rightParen) (hrest : Calls us rest) :
      Calls (opening :: closing :: us) ((closing, []) :: rest)
  | cons {opening closing : Token} {ts us : List Token} {es : List Expr}
      {rest : List (Token × List Expr)} (hopening : opening.kind = .symbol .leftParen)
      (harguments : Arguments ts es) (hmost : es.length ≤ most)
      (hclosing : closing.kind = .symbol .rightParen) (hrest : Calls us rest) :
      Calls (opening :: (ts ++ closing :: us)) ((closing, es) :: rest)

/-- `arguments → expression ( "," expression )*` -/
inductive Arguments : List Token → List Expr → Prop
  | one {ts : List Token} {e : Expr} (h : Expression ts e) : Arguments ts [e]
  | cons {comma : Token} {ts us : List Token} {e : Expr} {es : List Expr}
      (hfirst : Expression ts e) (hcomma : comma.kind = .symbol .comma)
      (hrest : Arguments us es) : Arguments (ts ++ comma :: us) (e :: es)

/-- `primary → NUMBER | STRING | "true" | "false" | "nil" | IDENT | "(" expression ")"` -/
inductive Primary : List Token → Expr → Prop
  | literal {t : Token} {value : Literal} (h : LiteralOf t.kind value) :
      Primary [t] (.literal value)
  | name {t : Token} (id : ReferenceId) (h : t.kind = .identifier) : Primary [t] (.reference id t)
  | grouping {opening closing : Token} {ts : List Token} {e : Expr}
      (hopening : opening.kind = .symbol .leftParen) (h : Expression ts e)
      (hclosing : closing.kind = .symbol .rightParen) :
      Primary (opening :: (ts ++ [closing])) (.grouping e)

end

inductive OptionalExpression : List Token → Option Expr → Prop
  | none : OptionalExpression [] none
  | some {ts : List Token} {e : Expr} (h : Expression ts e) : OptionalExpression ts (some e)

/-- `exprStmt → expression ";"` -/
inductive ExpressionStatement : List Token → Stmt → Prop
  | mk {ts : List Token} {semicolon : Token} {e : Expr} (h : Expression ts e)
      (hsemicolon : semicolon.kind = .symbol .semicolon) :
      ExpressionStatement (ts ++ [semicolon]) (.expression e)

/-- `letDecl → "let" IDENT ( "=" expression )? ";"` -/
inductive LetDeclaration : List Token → Stmt → Prop
  | plain {word name semicolon : Token} (hword : word.kind = .keyword .letKw)
      (hname : name.kind = .identifier) (hsemicolon : semicolon.kind = .symbol .semicolon) :
      LetDeclaration [word, name, semicolon] (.declare name none)
  | initialized {word name sign semicolon : Token} {ts : List Token} {e : Expr}
      (hword : word.kind = .keyword .letKw) (hname : name.kind = .identifier)
      (hsign : sign.kind = .symbol .equal) (h : Expression ts e)
      (hsemicolon : semicolon.kind = .symbol .semicolon) :
      LetDeclaration (word :: name :: sign :: (ts ++ [semicolon])) (.declare name (some e))

/-- The first clause of a `for`: `letDecl | exprStmt | ";"` -/
inductive ForInitializer : List Token → Option Stmt → Prop
  | declaration {ts : List Token} {s : Stmt} (h : LetDeclaration ts s) : ForInitializer ts (some s)
  | expression {ts : List Token} {s : Stmt} (h : ExpressionStatement ts s) :
      ForInitializer ts (some s)
  | none {semicolon : Token} (h : semicolon.kind = .symbol .semicolon) :
      ForInitializer [semicolon] none

/-- `parameters → IDENT ( "," IDENT )*` -/
inductive Parameters : List Token → List Token → Prop
  | one {name : Token} (h : name.kind = .identifier) : Parameters [name] [name]
  | cons {name comma : Token} {ts names : List Token} (hname : name.kind = .identifier)
      (hcomma : comma.kind = .symbol .comma) (hrest : Parameters ts names) :
      Parameters (name :: comma :: ts) (name :: names)

/-- `parameters?`, with at most 255 of them -/
inductive OptionalParameters : List Token → List Token → Prop
  | none : OptionalParameters [] []
  | some {ts names : List Token} (h : Parameters ts names) (hmost : names.length ≤ most) :
      OptionalParameters ts names

/-- The loop that `for ( initializer condition ; increment ) body` stands for:
`initializer while ( condition ) body increment`, the initializer and the loop in one block and the
body and the increment in another; a missing condition is `true`. -/
def whileForm (initializer : Option Stmt) (condition increment : Option Expr) (body : Stmt) : Stmt :=
  let condition := condition.getD (.literal (.bool true))
  match initializer, increment with
  | none, none => .whileLoop condition body
  | none, some e => .whileLoop condition (.block [body, .expression e])
  | some s, none => .block [s, .whileLoop condition body]
  | some s, some e => .block [s, .whileLoop condition (.block [body, .expression e])]

section

variable (nearest : Bool)

mutual

inductive Declarations : List Token → List Stmt → Prop
  | nil : Declarations [] []
  | cons {ts us : List Token} {s : Stmt} {ss : List Stmt} {isOpen : Bool}
      (hfirst : Declaration ts s isOpen) (hrest : Declarations us ss) :
      Declarations (ts ++ us) (s :: ss)

/-- `declaration → funDecl | letDecl | statement`; the flag tells whether the declaration ends in an
`if` to which an `else` could still be added. -/
inductive Declaration : List Token → Stmt → Bool → Prop
  /-- `funDecl → "fun" IDENT "(" parameters? ")" block` -/
  | function {word name opening closing : Token} {ts us params : List Token} {body : List Stmt}
      (hword : word.kind = .keyword .funKw) (hname : name.kind = .identifier)
      (hopening : opening.kind = .symbol .leftParen) (hparams : OptionalParameters ts params)
      (hclosing : closing.kind = .symbol .rightParen) (hbody : Block us body) :
      Declaration (word :: name :: opening :: (ts ++ closing :: us)) (.function name params body)
        false
  | letDeclaration {ts : List Token} {s : Stmt} (h : LetDeclaration ts s) : Declaration ts s false
  | statement {ts : List Token} {s : Stmt} {isOpen : Bool} (h : Statement ts s isOpen) :
      Declaration ts s isOpen

/-- `block → "{" declaration* "}"` -/
inductive Block : List Token → List Stmt → Prop
  | mk {opening closing : Token} {ts : List Token} {body : List Stmt}
      (hopening : opening.kind = .symbol .leftBrace) (hbody : Declarations ts body)
      (hclosing : closing.kind = .symbol .rightBrace) : Block (opening :: (ts ++ [closing])) body

/-- `statement → exprStmt | forStmt | ifStmt | printStmt | returnStmt | whileStmt | block` -/
inductive Statement : List Token → Stmt → Bool → Prop
  | expression {ts : List Token} {s : Stmt} (h : ExpressionStatement ts s) : Statement ts s false
  /-- `"for" "(" ( letDecl | exprStmt | ";" ) expression? ";" expression? ")" statement` -/
  | forLoop {word opening semicolon closing : Token} {ts us vs ws : List Token}
      {initializer : Option Stmt} {condition increment : Option Expr} {body : Stmt} {isOpen : Bool}
      (hword : word.kind = .keyword .forKw) (hopening : opening.kind = .symbol .leftParen)
      (hinitializer : ForInitializer ts initializer) (hcondition : OptionalExpression us condition)
      (hsemicolon : semicolon.kind = .symbol .semicolon)
      (hincrement : OptionalExpression vs increment)
      (hclosing : closing.kind = .symbol .rightParen) (hbody : Statement ws body isOpen) :
      Statement (word :: opening :: (ts ++ (us ++ semicolon :: (vs ++ closing :: ws))))
        (whileForm initializer condition increment body) isOpen
  /-- `"if" "(" expression ")" statement` -/
  | ifThen {word opening closing : Token} {ts us : List Token} {condition : Expr}
      {thenBranch : Stmt} {isOpen : Bool} (hword : word.kind = .keyword .ifKw)
      (hopening : opening.kind = .symbol .leftParen) (hcondition : Expression ts condition)
      (hclosing : closing.kind = .symbol .rightParen) (hthen : Statement us thenBranch isOpen) :
      Statement (word :: opening :: (ts ++ closing :: us)) (.ifThen condition thenBranch) true
  /-- `"if" "(" expression ")" statement "else" statement` -/
  | ifElse {word opening closing elseWord : Token} {ts us vs : List Token} {condition : Expr}
      {thenBranch elseBranch : Stmt} {thenOpen isOpen : Bool} (hword : word.kind = .keyword .ifKw)
      (hopening : opening.kind = .symbol .leftParen) (hcondition : Expression ts condition)
      (hclosing : closing.kind = .symbol .rightParen) (hthen : Statement us thenBranch thenOpen)
      (hnearest : nearest = true → thenOpen = false)
      (helse : elseWord.kind = .keyword .elseKw) (helseBranch : Statement vs elseBranch isOpen) :
      Statement (word :: opening :: (ts ++ closing :: (us ++ elseWord :: vs)))
        (.ifElse condition thenBranch elseBranch) isOpen
  /-- `"print" expression ";"` -/
  | print {word semicolon : Token} {ts : List Token} {e : Expr}
      (hword : word.kind = .keyword .printKw) (h : Expression ts e)
      (hsemicolon : semicolon.kind = .symbol .semicolon) :
      Statement (word :: (ts ++ [semicolon])) (.print e) false
  /-- `"return" expression? ";"` -/
  | ret {word semicolon : Token} {ts : List Token} {value : Option Expr}
      (hword : word.kind = .keyword .returnKw) (h : OptionalExpression ts value)
      (hsemicolon : semicolon.kind = .symbol .semicolon) :
      Statement (word :: (ts ++ [semicolon])) (.ret word value) false
  /-- `"while" "(" expression ")" statement` -/
  | whileLoop {word opening closing : Token} {ts us : List Token} {condition : Expr} {body : Stmt}
      {isOpen : Bool} (hword : word.kind = .keyword .whileKw)
      (hopening : opening.kind = .symbol .leftParen) (hcondition : Expression ts condition)
      (hclosing : closing.kind = .symbol .rightParen) (hbody : Statement us body isOpen) :
      Statement (word :: opening :: (ts ++ closing :: us)) (.whileLoop condition body) isOpen
  | block {ts : List Token} {body : List Stmt} (h : Block ts body) : Statement ts (.block body) false

end

/-- `program → declaration* EOF` -/
inductive Program : List Token → List Stmt → Prop
  | mk {ts : List Token} {last : Token} {ss : List Stmt} (h : Declarations nearest ts ss)
      (hlast : last.kind = .eof) : Program (ts ++ [last]) ss

end

end LoxLang.Grammar

import Mathlib.Data.List.Forall2
import LoxLang.Proofs.Grammar.Shape
import LoxLang.Proofs.Lexical.Evaluation

/-!
Programs that are the same but for the name of a local variable, which is `x` in the first and `y` in the
second. The local names in sight are paired, the innermost pair first, and two uses mean the same if the
innermost pair that has one of their names has both. The kinds and lines of tokens and the names of
functions and of global variables are the same on both sides; ids of uses play no part.
-/
namespace LoxLang.Lexical.Renaming

abbrev Pairs := List (String × String)

/-- The two names are a pair that no pair further in hides, or one name that is in no pair. -/
def Paired : Pairs → String → String → Prop
  | [], a, b => a = b
  | (p, q) :: Γ, a, b => a = p ∧ b = q ∨ a ≠ p ∧ b ≠ q ∧ Paired Γ a b

inductive Sight
  | outermost
  | inside (Γ : Pairs)

namespace Sight

def pairs : Sight → Pairs
  | outermost => []
  | inside Γ => Γ

def add (S : Sight) (name name' : Token) : Sight :=
  match S with
  | outermost => outermost
  | inside Γ => inside ((name.lexeme, name'.lexeme) :: Γ)

def after (S : Sight) (s s' : Stmt) : Sight :=
  match declaredName? s, declaredName? s' with
  | some name, some name' => S.add name name'
  | _, _ => S

end Sight

def withParams : Pairs → List Token → List Token → Pairs
  | Γ, p :: ps, p' :: ps' => withParams ((p.lexeme, p'.lexeme) :: Γ) ps ps'
  | Γ, _, _ => Γ

section

variable (x y : String)

def Respelled (t t' : Token) : Prop := t' = t ∨ t.lexeme = x ∧ t' = { t with lexeme := y }

structure UseAlike (Γ : Pairs) (name name' : Token) : Prop where
  paired : Paired Γ name.lexeme name'.lexeme
  respelled : Respelled x y name name'

structure NameAlike (S : Sight) (name name' : Token) : Prop where
  respelled : Respelled x y name name'
  outermost : S = .outermost → name' = name

/-- Two tokens of one kind that stand on one line; how they are spelled does not matter. -/
structure MarkAlike (t t' : Token) : Prop where
  kind : t'.kind = t.kind
  line : t'.line = t.line

inductive ExprAlike (Γ : Pairs) : Expr → Expr → Prop
  | literal (value : Literal) : ExprAlike Γ (.literal value) (.literal value)
  | grouping {e e' : Expr} (h : ExprAlike Γ e e') : ExprAlike Γ (.grouping e) (.grouping e')
  | unary {operator operator' : Token} {e e' : Expr} (hoperator : MarkAlike operator operator')
      (h : ExprAlike Γ e e') : ExprAlike Γ (.unary operator e) (.unary operator' e')
  | binary {operator operator' : Token} {l l' r r' : Expr} (hoperator : MarkAlike operator operator')
      (hleft : ExprAlike Γ l l') (hright : ExprAlike Γ r r') :
      ExprAlike Γ (.binary l operator r) (.binary l' operator' r')
  | logical {operator operator' : Token} {l l' r r' : Expr} (hoperator : MarkAlike operator operator')
      (hleft : ExprAlike Γ l l') (hright : ExprAlike Γ r r') :
      ExprAlike Γ (.logical l operator r) (.logical l' operator' r')
  | reference (id id' : ReferenceId) {name name' : Token} (h : UseAlike x y Γ name name') :
      ExprAlike Γ (.reference id name) (.reference id' name')
  | assign (id id' : ReferenceId) {name name' : Token} {e e' : Expr}
      (hname : UseAlike x y Γ name name') (hvalue : ExprAlike Γ e e') :
      ExprAlike Γ (.assign id name e) (.assign id' name' e')
  | call {paren paren' : Token} {callee callee' : Expr} {arguments arguments' : List Expr}
      (hparen : MarkAlike paren paren') (hcallee : ExprAlike Γ callee callee')
      (harguments : List.Forall₂ (ExprAlike Γ) arguments arguments') :
      ExprAlike Γ (.call callee paren arguments) (.call callee' paren' arguments')

mutual

inductive StmtAlike : Sight → Stmt → Stmt → Prop
  | expression {S : Sight} {e e' : Expr} (h : ExprAlike x y S.pairs e e') :
      StmtAlike S (.expression e) (.expression e')
  | print {S : Sight} {e e' : Expr} (h : ExprAlike x y S.pairs e e') :
      StmtAlike S (.print e) (.print e')
  | declare {S : Sight} {name name' : Token} (hname : NameAlike x y S name name') :
      StmtAlike S (.declare name none) (.declare name' none)
  | initialized {S : Sight} {name name' : Token} {e e' : Expr} (hname : NameAlike x y S name name')
      (h : ExprAlike x y (S.add name name').pairs e e') :
      StmtAlike S (.declare name (some e)) (.declare name' (some e'))
  | block {S : Sight} {body body' : List Stmt} (h : StmtsAlike (.inside S.pairs) body body') :
      StmtAlike S (.block body) (.block body')
  | ifThen {S : Sight} {c c' : Expr} {s s' : Stmt} (hcondition : ExprAlike x y S.pairs c c')
      (hthen : StmtAlike S s s') : StmtAlike S (.ifThen c s) (.ifThen c' s')
  | ifElse {S : Sight} {c c' : Expr} {s s' t t' : Stmt} (hcondition : ExprAlike x y S.pairs c c')
      (hthen : StmtAlike S s s') (helse : StmtAlike S t t') :
      StmtAlike S (.ifElse c s t) (.ifElse c' s' t')
  | whileLoop {S : Sight} {c c' : Expr} {s s' : Stmt} (hcondition : ExprAlike x y S.pairs c c')
      (hbody : StmtAlike S s s') : StmtAlike S (.whileLoop c s) (.whileLoop c' s')
  | function {S : Sight} (name : Token) {params params' : List Token} {body body' : List Stmt}
      (hparams : List.Forall₂ (Respelled x y) params params')
      (hbody : StmtsAlike (.inside (withParams (S.add name name).pairs params params')) body body') :
      StmtAlike S (.function name params body) (.function name params' body')
  | ret {S : Sight} (keyword keyword' : Token) :
      StmtAlike S (.ret keyword none) (.ret keyword' none)
  | retValue {S : Sight} (keyword keyword' : Token) {e e' : Expr}
      (h : ExprAlike x y S.pairs e e') :
      StmtAlike S (.ret keyword (some e)) (.ret keyword' (some e'))

inductive StmtsAlike : Sight → List Stmt → List Stmt → Prop
  | nil {S : Sight} : StmtsAlike S [] []
  | cons {S : Sight} {s s' : Stmt} {ss ss' : List Stmt} (hfirst : StmtAlike S s s')
      (hrest : StmtsAlike (S.after s s') ss ss') : StmtsAlike S (s :: ss) (s' :: ss')

end

end

end LoxLang.Lexical.Renaming

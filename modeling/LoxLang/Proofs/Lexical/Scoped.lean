import LoxLang.Resolution
import LoxLang.Proofs.Grammar.Shape

/-!
Trees that agree with their scopes: every use of a name is known to stand as far out as the innermost
scope that has the name, no scope gets a name twice, and branches and loop bodies declare nothing.
The scopes of a statement list grow from statement to statement; the relations thread them through.
-/
namespace LoxLang.Lexical

open Resolution (Readiness)

abbrev Scopes := List (Bindings Readiness)

/-- What is known of uses: how far out the variable of a use stands, or that it is global. -/
abbrev Known := ReferenceId → Option Nat → Prop

namespace Scopes

def distance? (σ : Scopes) (x : String) : Option Nat := σ.findIdx? (·.contains x)

def mark (σ : Scopes) (readiness : Readiness) (x : String) : Scopes :=
  match σ with
  | [] => []
  | scope :: outer => scope.insert x readiness :: outer

def Free (σ : Scopes) (x : String) : Prop := ∀ scope ∈ σ.head?, scope.contains x = false

/-- The name is not waiting for its initializer in the innermost scope. -/
def Ready (σ : Scopes) (x : String) : Prop := ∀ scope ∈ σ.head?, scope.find? x ≠ some .declared

def Settled (σ : Scopes) : Prop := ∀ scope ∈ σ, ∀ x, scope.find? x ≠ some .declared

theorem settled_nil : Settled [] := nofun

theorem Settled.open {σ : Scopes} (h : σ.Settled) : Settled (.empty :: σ) := by
  intro scope hscope x
  rcases List.mem_cons.mp hscope with rfl | hscope
  · simp
  · exact h scope hscope x

theorem Settled.insert {scope : Bindings Readiness} {outer : Scopes} (h : Settled (scope :: outer))
    (x : String) : Settled (scope.insert x .defined :: outer) := by
  intro scope' hscope y
  rcases List.mem_cons.mp hscope with rfl | hscope
  · rw [Bindings.find?_insert]
    split
    · nofun
    · exact h scope List.mem_cons_self y
  · exact h scope' (List.mem_cons_of_mem _ hscope) y

theorem Settled.mark {σ : Scopes} (h : σ.Settled) (x : String) : Settled (σ.mark .defined x) := by
  cases σ with
  | nil => exact settled_nil
  | cons scope outer => exact h.insert x

end Scopes

def Scopes.after (σ : Scopes) (s : Stmt) : Scopes :=
  match declaredName? s with
  | some name => σ.mark .defined name.lexeme
  | none => σ

theorem Scopes.after_of_none {σ : Scopes} {s : Stmt} (hnone : declaredName? s = none) :
    σ.after s = σ := by
  rw [Scopes.after, hnone]

def withParams (scope : Bindings Readiness) (params : List Token) : Bindings Readiness :=
  params.foldl (fun scope p => scope.insert p.lexeme .defined) scope

def FreeParams : Bindings Readiness → List Token → Prop
  | _, [] => True
  | scope, p :: ps => scope.contains p.lexeme = false ∧
    FreeParams (scope.insert p.lexeme .defined) ps

inductive ScopedExpr (known : Known) (σ : Scopes) : Expr → Prop
  | literal (value : Literal) : ScopedExpr known σ (.literal value)
  | grouping {inner : Expr} (h : ScopedExpr known σ inner) : ScopedExpr known σ (.grouping inner)
  | unary {operator : Token} {right : Expr} (h : ScopedExpr known σ right) :
      ScopedExpr known σ (.unary operator right)
  | binary {left right : Expr} {operator : Token} (hleft : ScopedExpr known σ left)
      (hright : ScopedExpr known σ right) : ScopedExpr known σ (.binary left operator right)
  | logical {left right : Expr} {operator : Token} (hleft : ScopedExpr known σ left)
      (hright : ScopedExpr known σ right) : ScopedExpr known σ (.logical left operator right)
  | reference {id : ReferenceId} {name : Token} (hknown : known id (σ.distance? name.lexeme))
      (hready : σ.Ready name.lexeme) : ScopedExpr known σ (.reference id name)
  | assign {id : ReferenceId} {name : Token} {value : Expr} (hvalue : ScopedExpr known σ value)
      (hknown : known id (σ.distance? name.lexeme)) : ScopedExpr known σ (.assign id name value)
  | call {callee : Expr} {paren : Token} {arguments : List Expr}
      (hcallee : ScopedExpr known σ callee) (harguments : ∀ a ∈ arguments, ScopedExpr known σ a) :
      ScopedExpr known σ (.call callee paren arguments)

mutual

inductive ScopedStmt (known : Known) : Scopes → Stmt → Prop
  | expression {σ : Scopes} {e : Expr} (h : ScopedExpr known σ e) :
      ScopedStmt known σ (.expression e)
  | print {σ : Scopes} {e : Expr} (h : ScopedExpr known σ e) : ScopedStmt known σ (.print e)
  | declare {σ : Scopes} {name : Token} (hfree : σ.Free name.lexeme) :
      ScopedStmt known σ (.declare name none)
  | initialized {σ : Scopes} {name : Token} {e : Expr} (hfree : σ.Free name.lexeme)
      (h : ScopedExpr known (σ.mark .declared name.lexeme) e) :
      ScopedStmt known σ (.declare name (some e))
  | block {σ : Scopes} {body : List Stmt} (h : ScopedStmts known (.empty :: σ) body) :
      ScopedStmt known σ (.block body)
  | ifThen {σ : Scopes} {condition : Expr} {thenBranch : Stmt}
      (hcondition : ScopedExpr known σ condition) (hthen : ScopedStmt known σ thenBranch)
      (hnone : declaredName? thenBranch = none) :
      ScopedStmt known σ (.ifThen condition thenBranch)
  | ifElse {σ : Scopes} {condition : Expr} {thenBranch elseBranch : Stmt}
      (hcondition : ScopedExpr known σ condition) (hthen : ScopedStmt known σ thenBranch)
      (helse : ScopedStmt known σ elseBranch) (hnone : declaredName? thenBranch = none)
      (hnone' : declaredName? elseBranch = none) :
      ScopedStmt known σ (.ifElse condition thenBranch elseBranch)
  | whileLoop {σ : Scopes} {condition : Expr} {body : Stmt}
      (hcondition : ScopedExpr known σ condition) (hbody : ScopedStmt known σ body)
      (hnone : declaredName? body = none) : ScopedStmt known σ (.whileLoop condition body)
  | function {σ : Scopes} {name : Token} {params : List Token} {body : List Stmt}
      (hfree : σ.Free name.lexeme) (hparams : FreeParams .empty params)
      (hbody : ScopedStmts known (withParams .empty params :: σ.mark .defined name.lexeme) body) :
      ScopedStmt known σ (.function name params body)
  | ret {σ : Scopes} {keyword : Token} : ScopedStmt known σ (.ret keyword none)
  | retValue {σ : Scopes} {keyword : Token} {e : Expr} (h : ScopedExpr known σ e) :
      ScopedStmt known σ (.ret keyword (some e))

inductive ScopedStmts (known : Known) : Scopes → List Stmt → Prop
  | nil {σ : Scopes} : ScopedStmts known σ []
  | cons {σ : Scopes} {s : Stmt} {ss : List Stmt} (hfirst : ScopedStmt known σ s)
      (hrest : ScopedStmts known (σ.after s) ss) : ScopedStmts known σ (s :: ss)

end

section

variable {known known' : Known}

/-- An expression that agrees with its scopes still does when more is known of uses. -/
theorem ScopedExpr.mono (le : ∀ id d, known id d → known' id d) {σ : Scopes} {e : Expr}
    (h : ScopedExpr known σ e) : ScopedExpr known' σ e := by
  induction h with
  | literal value => exact .literal value
  | grouping _ ih => exact .grouping ih
  | unary _ ih => exact .unary ih
  | binary _ _ ihl ihr => exact .binary ihl ihr
  | logical _ _ ihl ihr => exact .logical ihl ihr
  | reference hknown hready => exact .reference (le _ _ hknown) hready
  | assign _ hknown ih => exact .assign ih (le _ _ hknown)
  | call _ _ ih iha => exact .call ih iha

mutual

/-- A statement that agrees with its scopes still does when more is known of uses. -/
theorem ScopedStmt.mono (le : ∀ id d, known id d → known' id d) {σ : Scopes} {s : Stmt}
    (h : ScopedStmt known σ s) : ScopedStmt known' σ s := by
  match h with
  | .expression h => exact .expression (h.mono le)
  | .print h => exact .print (h.mono le)
  | .declare hfree => exact .declare hfree
  | .initialized hfree h => exact .initialized hfree (h.mono le)
  | .block h => exact .block (h.mono le)
  | .ifThen hcondition hthen hnone => exact .ifThen (hcondition.mono le) (hthen.mono le) hnone
  | .ifElse hcondition hthen helse hnone hnone' =>
    exact .ifElse (hcondition.mono le) (hthen.mono le) (helse.mono le) hnone hnone'
  | .whileLoop hcondition hbody hnone => exact .whileLoop (hcondition.mono le) (hbody.mono le) hnone
  | .function hfree hparams hbody => exact .function hfree hparams (hbody.mono le)
  | .ret => exact .ret
  | .retValue h => exact .retValue (h.mono le)

theorem ScopedStmts.mono (le : ∀ id d, known id d → known' id d) {σ : Scopes} {ss : List Stmt}
    (h : ScopedStmts known σ ss) : ScopedStmts known' σ ss := by
  match h with
  | .nil => exact .nil
  | .cons hfirst hrest => exact .cons (hfirst.mono le) (hrest.mono le)

end

end

end LoxLang.Lexical

import LoxLang.Proofs.Lexical.Sequence

/-!
A walk over a tree that agrees with its scopes reports nothing, so that agreeing with the scopes is what the
static rules ask for, apart from the place of `return`. Main statement: `errors_resolve_of_scoped`.
-/
namespace LoxLang.Lexical

open Resolution (walkExpr walkExprs walkValue bindParams walkStmt walkStmts)

section

variable {s : Resolution.State} {name : Token}

theorem errors_recordUse (s : Resolution.State) (id : ReferenceId) (name : Token) :
    (s.recordUse id name).errors = s.errors := by
  unfold Resolution.State.recordUse
  split <;> rfl

theorem errors_read (id : ReferenceId) (hready : Scopes.Ready s.scopes name.lexeme) :
    (s.read id name).errors = s.errors := by
  have hown : s.inOwnInitializer name = false := by
    unfold Resolution.State.inOwnInitializer
    cases hs : s.scopes with
    | nil => rfl
    | cons scope outer =>
      rw [hs] at hready
      exact beq_eq_false_iff_ne.mpr (hready scope rfl)
  rw [Resolution.State.read, hown, if_neg Bool.false_ne_true, errors_recordUse]

theorem errors_define (s : Resolution.State) (name : Token) :
    (s.define name).errors = s.errors := by
  unfold Resolution.State.define Resolution.State.mark
  split <;> rfl

/-- A name that is free in its scope is declared without a report. -/
theorem errors_declare (hfree : Scopes.Free s.scopes name.lexeme) :
    (s.declare name).errors = s.errors := by
  have hclash : s.clashes name = false := by
    unfold Resolution.State.clashes
    cases hs : s.scopes with
    | nil => rfl
    | cons scope outer =>
      rw [hs] at hfree
      exact hfree scope rfl
  have hmark : (s.mark .declared name).errors = s.errors := by
    unfold Resolution.State.mark
    split <;> rfl
  unfold Resolution.State.declare
  rw [hclash]
  exact hmark

/-- Parameters with different names are declared without a report. -/
theorem errors_bindParams (params : List Token) {scope : Bindings Resolution.Readiness}
    {outer : Scopes} (hs : s.scopes = scope :: outer) (h : FreeParams scope params) :
    (bindParams s params).errors = s.errors := by
  induction params generalizing s scope with
  | nil => rfl
  | cons p params ih =>
    obtain ⟨hfirst, hrest⟩ := h
    have hfree : Scopes.Free s.scopes p.lexeme := by
      intro scope' hscope
      rw [hs] at hscope
      cases hscope
      exact hfirst
    have hscopes := (walks_declare_define s p).1
    rw [hs] at hscopes
    calc
      (bindParams s (p :: params)).errors
        = ((s.declare p).define p).errors := ih hscopes hrest
      _ = (s.declare p).errors := errors_define _ p
      _ = s.errors := errors_declare hfree

end

section

variable {known : Known} {σ : Scopes}

theorem errors_walkExprs {es : List Expr}
    (h : ∀ e ∈ es, ∀ s : Resolution.State, s.scopes = σ → (walkExpr s e).errors = s.errors)
    (s : Resolution.State) (hs : s.scopes = σ) : (walkExprs s es).errors = s.errors := by
  induction es generalizing s with
  | nil => rfl
  | cons e es ih =>
    have hscopes := (walks_walkExpr e s).1.trans hs
    have hrest := ih (fun e' he' => h e' (List.mem_cons_of_mem _ he')) (walkExpr s e) hscopes
    exact hrest.trans (h e List.mem_cons_self s hs)

/-- An expression that agrees with its scopes is walked without a report. -/
theorem errors_walkExpr {e : Expr} (h : ScopedExpr known σ e) (s : Resolution.State)
    (hs : s.scopes = σ) : (walkExpr s e).errors = s.errors := by
  induction h generalizing s with
  | literal value => rfl
  | grouping _ ih => exact ih s hs
  | unary _ ih => exact ih s hs
  | @binary left _ _ _ _ ihl ihr | @logical left _ _ _ _ ihl ihr =>
    have hscopes := (walks_walkExpr left s).1.trans hs
    exact (ihr _ hscopes).trans (ihl s hs)
  | reference _ hready => exact errors_read _ (hs ▸ hready)
  | assign _ _ ih => exact (errors_recordUse _ _ _).trans (ih s hs)
  | @call callee _ _ _ _ ih iha =>
    have hscopes := (walks_walkExpr callee s).1.trans hs
    exact (errors_walkExprs iha _ hscopes).trans (ih s hs)

mutual

/-- Outside of functions there must be no `return`. -/
theorem errors_walkStmt {σ : Scopes} {stmt : Stmt} (hshaped : Shaped stmt)
    (h : ScopedStmt known σ stmt) (inFunction : Bool) (hreturns : inFunction = false → Returnless stmt)
    (s : Resolution.State) (hs : s.scopes = σ) :
    (walkStmt inFunction s stmt).errors = s.errors := by
  match stmt, h with
  | .expression e, .expression h => exact errors_walkExpr h s hs
  | .print e, .print h => exact errors_walkExpr h s hs
  | .declare name none, .declare hfree =>
    subst hs
    exact (errors_define _ name).trans (errors_declare hfree)
  | .declare name (some e), .initialized hfree h =>
    subst hs
    calc
      (walkStmt inFunction s (.declare name (some e))).errors
        = (walkExpr (s.declare name) e).errors := errors_define _ name
      _ = (s.declare name).errors := errors_walkExpr h _ (scopes_declare s name)
      _ = s.errors := errors_declare hfree
  | .block body, .block h =>
    have hopen : s.openScope.scopes = .empty :: σ := congrArg _ hs
    exact errors_walkStmts hshaped h inFunction hreturns s.openScope hopen
  | .ifThen condition thenBranch, .ifThen hcondition hthen _ =>
    have hscopes := (walks_walkExpr condition s).1.trans hs
    exact (errors_walkStmt hshaped.2 hthen inFunction hreturns _ hscopes).trans
      (errors_walkExpr hcondition s hs)
  | .ifElse condition thenBranch elseBranch, .ifElse hcondition hthen helse hnone _ =>
    obtain ⟨⟨-, hthenShaped⟩, -, helseShaped⟩ := hshaped
    have hscopes := (walks_walkExpr condition s).1.trans hs
    have hthenScopes :=
      (scopes_walkStmt_of_none hthenShaped hnone inFunction (walkExpr s condition)).trans hscopes
    calc
      (walkStmt inFunction s (.ifElse condition thenBranch elseBranch)).errors
        = (walkStmt inFunction (walkExpr s condition) thenBranch).errors :=
          errors_walkStmt helseShaped helse inFunction (fun hin => (hreturns hin).2) _ hthenScopes
      _ = (walkExpr s condition).errors :=
          errors_walkStmt hthenShaped hthen inFunction (fun hin => (hreturns hin).1) _ hscopes
      _ = s.errors := errors_walkExpr hcondition s hs
  | .whileLoop condition body, .whileLoop hcondition hbody _ =>
    have hscopes := (walks_walkExpr condition s).1.trans hs
    exact (errors_walkStmt hshaped.2 hbody inFunction hreturns _ hscopes).trans
      (errors_walkExpr hcondition s hs)
  | .function name params body, .function hfree hparams hbody =>
    subst hs
    have hinside := scopes_openFunction s name
    have hscopes := (walks_bindParams params hinside).1
    calc
      (walkStmt inFunction s (.function name params body)).errors
        = (bindParams ((s.declare name).define name).openScope params).errors :=
          errors_walkStmts hshaped hbody true nofun _ hscopes
      _ = ((s.declare name).define name).errors := errors_bindParams params hinside hparams
      _ = (s.declare name).errors := errors_define _ name
      _ = s.errors := errors_declare hfree
  | .ret keyword none, .ret =>
    cases inFunction with
    | true => rfl
    | false => exact absurd (hreturns rfl) id
  | .ret keyword (some e), .retValue h =>
    cases inFunction with
    | true => exact errors_walkExpr h s hs
    | false => exact absurd (hreturns rfl) id

/-- Statements that agree with their scopes are walked without a report, if no `return` is out of place. -/
theorem errors_walkStmts {σ : Scopes} {stmts : List Stmt} (hshaped : ShapedAll stmts)
    (h : ScopedStmts known σ stmts) (inFunction : Bool)
    (hreturns : inFunction = false → ReturnlessAll stmts) (s : Resolution.State)
    (hs : s.scopes = σ) : (walkStmts inFunction s stmts).errors = s.errors := by
  match stmts, h with
  | [], .nil => rfl
  | stmt :: stmts, .cons hfirst hrest =>
    have hscopes := (walks_walkStmt stmt hshaped.1 inFunction s).1
    rw [hs] at hscopes
    exact (errors_walkStmts hshaped.2 hrest inFunction (fun hin => (hreturns hin).2) _ hscopes).trans
      (errors_walkStmt hshaped.1 hfirst inFunction (fun hin => (hreturns hin).1) s hs)

end

/-- A program that agrees with its scopes, without a `return` outside of functions, breaks no rule. -/
theorem errors_resolve_of_scoped {program : List Stmt} (hshaped : ShapedAll program)
    (hreturnless : ReturnlessAll program) (h : ScopedStmts known [] program)
    (distances : Distances) : (resolve distances program).errors = [] := by
  have herrors := errors_walkStmts hshaped h false (fun _ => hreturnless) ⟨[], distances, #[]⟩ rfl
  exact congrArg Array.toList herrors

end

end LoxLang.Lexical

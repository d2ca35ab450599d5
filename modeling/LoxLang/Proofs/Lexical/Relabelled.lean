import LoxLang.Resolution
import LoxLang.Proofs.Tree.Relabel

/-!
What a walk reports does not depend on ids, nor on anything of a token but its text, and the distance
recorded for a use is the same whatever its id. Main statement: `resolve_relabel`.
-/
namespace LoxLang

def ResolutionError.relabel (g : Token → Token) (e : ResolutionError) : ResolutionError :=
  { e with token := g e.token }

namespace Resolution

def Learns (f : ReferenceId → ReferenceId) (D : Distances → Distances → Prop) : Prop :=
  ∀ d d' id distance, D d d' → D (d.insert id distance) (d'.insert (f id) distance)

structure Alike (D : Distances → Distances → Prop) (g : Token → Token) (s s' : State) : Prop where
  scopes : s'.scopes = s.scopes
  errors : s'.errors = s.errors.map (ResolutionError.relabel g)
  distances : D s.distances s'.distances

section

variable {D : Distances → Distances → Prop} {s s' : State} {f : ReferenceId → ReferenceId}
  {g : Token → Token}

theorem Alike.report (h : Alike D g s s') (cause : ResolutionError.Cause) (t : Token) :
    Alike D g (s.report cause t) (s'.report cause (g t)) :=
  ⟨h.scopes, by rw [State.report, State.report, h.errors, Array.map_push]; rfl, h.distances⟩

theorem Alike.openScope (h : Alike D g s s') : Alike D g s.openScope s'.openScope :=
  ⟨congrArg (Bindings.empty :: ·) h.scopes, h.errors, h.distances⟩

theorem Alike.closeScope (h : Alike D g s s') : Alike D g s.closeScope s'.closeScope :=
  ⟨congrArg List.tail h.scopes, h.errors, h.distances⟩

variable (hg : ∀ t, (g t).lexeme = t.lexeme)

include hg

theorem Alike.mark (h : Alike D g s s') (readiness : Readiness) (t : Token) :
    Alike D g (s.mark readiness t) (s'.mark readiness (g t)) := by
  obtain ⟨scopes, distances, errors⟩ := s
  obtain ⟨scopes', distances', errors'⟩ := s'
  obtain ⟨rfl, herrors, hdistances⟩ := h
  unfold State.mark
  rw [hg]
  cases scopes' with
  | nil => exact ⟨rfl, herrors, hdistances⟩
  | cons scope outer => exact ⟨rfl, herrors, hdistances⟩

theorem Alike.declare (h : Alike D g s s') (t : Token) :
    Alike D g (s.declare t) (s'.declare (g t)) := by
  have hclashes : s'.clashes (g t) = s.clashes t := by
    unfold State.clashes
    rw [h.scopes, hg]
  have hmark := h.mark hg .declared t
  unfold State.declare
  simp only [hclashes, hg]
  split
  · exact hmark.report _ t
  · exact hmark

theorem Alike.define (h : Alike D g s s') (t : Token) :
    Alike D g (s.define t) (s'.define (g t)) := h.mark hg .defined t

theorem Alike.bindParams (params : List Token) (h : Alike D g s s') :
    Alike D g (bindParams s params) (bindParams s' (params.map g)) := by
  induction params generalizing s s' with
  | nil => exact h
  | cons p params ih => exact ih ((h.declare hg p).define hg p)

variable (hD : Learns f D)

include hD

theorem Alike.recordUse (h : Alike D g s s') (id : ReferenceId) (t : Token) :
    Alike D g (s.recordUse id t) (s'.recordUse (f id) (g t)) := by
  unfold State.recordUse
  rw [h.scopes, hg]
  split
  · exact ⟨rfl, h.errors, hD _ _ _ _ h.distances⟩
  · exact h

theorem Alike.read (h : Alike D g s s') (id : ReferenceId) (t : Token) :
    Alike D g (s.read id t) (s'.read (f id) (g t)) := by
  have hown : s'.inOwnInitializer (g t) = s.inOwnInitializer t := by
    unfold State.inOwnInitializer
    rw [h.scopes, hg]
  unfold State.read
  rw [hown]
  split
  · exact (h.report _ t).recordUse hg hD id t
  · exact h.recordUse hg hD id t

omit hg hD

mutual

/-- Walking an expression with other labels does the same, and anchors errors at the other tokens. -/
theorem Alike.walkExpr (hg : ∀ t, (g t).lexeme = t.lexeme) (hD : Learns f D) (e : Expr)
    {s s' : State} (h : Alike D g s s') :
    Alike D g (walkExpr s e) (walkExpr s' (e.relabel f g)) := by
  match e with
  | .literal value => exact h
  | .grouping inner => exact Alike.walkExpr hg hD inner h
  | .unary _ right => exact Alike.walkExpr hg hD right h
  | .binary left _ right => exact Alike.walkExpr hg hD right (Alike.walkExpr hg hD left h)
  | .logical left _ right => exact Alike.walkExpr hg hD right (Alike.walkExpr hg hD left h)
  | .reference id name => exact h.read hg hD id name
  | .assign id name value => exact (Alike.walkExpr hg hD value h).recordUse hg hD id name
  | .call callee _ arguments => exact Alike.walkExprs hg hD arguments (Alike.walkExpr hg hD callee h)

theorem Alike.walkExprs (hg : ∀ t, (g t).lexeme = t.lexeme) (hD : Learns f D) (es : List Expr)
    {s s' : State} (h : Alike D g s s') :
    Alike D g (walkExprs s es) (walkExprs s' (Expr.relabelAll f g es)) := by
  match es with
  | [] => exact h
  | e :: es => exact Alike.walkExprs hg hD es (Alike.walkExpr hg hD e h)

end

mutual

/-- Walking a statement with other labels does the same, and anchors errors at the other tokens. -/
theorem Alike.walkStmt (hg : ∀ t, (g t).lexeme = t.lexeme) (hD : Learns f D) (inFunction : Bool)
    (stmt : Stmt) {s s' : State} (h : Alike D g s s') :
    Alike D g (walkStmt inFunction s stmt) (walkStmt inFunction s' (stmt.relabel f g)) := by
  match stmt with
  | .expression e => exact h.walkExpr hg hD e
  | .print e => exact h.walkExpr hg hD e
  | .declare name none => exact (h.declare hg name).define hg name
  | .declare name (some e) => exact ((h.declare hg name).walkExpr hg hD e).define hg name
  | .block body => exact (Alike.walkStmts hg hD inFunction body h.openScope).closeScope
  | .ifThen condition thenBranch =>
    exact Alike.walkStmt hg hD inFunction thenBranch (h.walkExpr hg hD condition)
  | .ifElse condition thenBranch elseBranch =>
    exact Alike.walkStmt hg hD inFunction elseBranch
      (Alike.walkStmt hg hD inFunction thenBranch (h.walkExpr hg hD condition))
  | .whileLoop condition body =>
    exact Alike.walkStmt hg hD inFunction body (h.walkExpr hg hD condition)
  | .function name params body =>
    have hname := (h.declare hg name).define hg name
    exact (Alike.walkStmts hg hD true body (hname.openScope.bindParams hg params)).closeScope
  | .ret keyword none =>
    cases inFunction with
    | true => exact h
    | false => exact h.report _ keyword
  | .ret keyword (some e) =>
    cases inFunction with
    | true => exact h.walkExpr hg hD e
    | false => exact (h.report _ keyword).walkExpr hg hD e

theorem Alike.walkStmts (hg : ∀ t, (g t).lexeme = t.lexeme) (hD : Learns f D) (inFunction : Bool)
    (stmts : List Stmt) {s s' : State} (h : Alike D g s s') :
    Alike D g (walkStmts inFunction s stmts)
      (walkStmts inFunction s' (Stmt.relabelAll f g stmts)) := by
  match stmts with
  | [] => exact h
  | stmt :: stmts => exact Alike.walkStmts hg hD inFunction stmts (Alike.walkStmt hg hD inFunction stmt h)

end

include hg hD

/-- Under other labels the same rules are broken, at the other tokens, and the same is recorded. -/
theorem resolve_relabel {distances distances' : Distances} (h : D distances distances')
    (program : List Stmt) :
    D (resolve distances program).distances
        (resolve distances' (program.map (Stmt.relabel f g))).distances ∧
      (resolve distances' (program.map (Stmt.relabel f g))).errors =
        (resolve distances program).errors.map (ResolutionError.relabel g) := by
  have hstart : Alike D g ⟨[], distances, #[]⟩ ⟨[], distances', #[]⟩ := ⟨rfl, by simp, h⟩
  have hwalk := hstart.walkStmts hg hD false program
  rw [Stmt.relabelAll_eq_map] at hwalk
  refine ⟨hwalk.distances, ?_⟩
  unfold resolve
  simp only [hwalk.errors, Array.toList_map]

omit hD in
/-- What is known before has no influence on the rules that are broken. -/
theorem errors_resolve_relabel_eq (distances distances' : Distances) (program : List Stmt) :
    (resolve distances' (program.map (Stmt.relabel f g))).errors =
      (resolve distances program).errors.map (ResolutionError.relabel g) := by
  have hlearns : Learns f fun _ _ => True := fun _ _ _ _ _ => trivial
  exact (@resolve_relabel (fun _ _ => True) f g hg hlearns distances distances' trivial program).2

omit hD in
/-- A program breaks a rule of scopes if and only if it does so under other labels. -/
theorem errors_resolve_relabel (distances distances' : Distances) (program : List Stmt) :
    (resolve distances' (program.map (Stmt.relabel f g))).errors = [] ↔
      (resolve distances program).errors = [] := by
  rw [errors_resolve_relabel_eq hg distances distances' program]
  exact List.map_eq_nil_iff

end

end Resolution

end LoxLang

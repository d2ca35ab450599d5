import LoxLang.Proofs.Lexical.Unreported
import LoxLang.Proofs.Lexical.Violations

/-!
What a walk reports are the violations of the static rules, in the order of the tree. After an error the
scopes are what they would be without it, so the rest is walked as if nothing had been reported. Main
statement: `reports_walkStmts`.
-/
namespace LoxLang.Lexical

open Resolution (Readiness walkExpr walkExprs walkValue bindParams walkStmt walkStmts)

inductive HasNames : Option (List String) → Scopes → Prop
  | outermost : HasNames none []
  | inside {names : List String} {scope : Bindings Readiness} {outer : Scopes}
      (h : ∀ x, scope.find? x = if x ∈ names then some .defined else none) :
      HasNames (some names) (scope :: outer)

section

variable {declared : Option (List String)} {σ : Scopes} {s s' : Resolution.State} {name : Token}

theorem hasNames_empty (σ : Scopes) : HasNames (some []) (.empty :: σ) := .inside fun _ => rfl

theorem HasNames.mark (h : HasNames declared σ) (x : String) :
    HasNames (declared.map (· ++ [x])) (σ.mark .defined x) := by
  cases h with
  | outermost => exact .outermost
  | inside h =>
    refine .inside fun y => ?_
    rw [Bindings.find?_insert, h y]
    by_cases hxy : x = y
    · simp [hxy]
    · simp [hxy, Ne.symm hxy]

theorem HasNames.after {a : Surroundings} (h : HasNames a.declared σ) (s : Stmt) :
    HasNames (a.after [s]).declared (σ.after s) := by
  unfold Surroundings.after Scopes.after
  cases hname : declaredName? s with
  | none => simpa [namesOf, hname] using h
  | some name => simpa [namesOf, hname] using h.mark name.lexeme

theorem HasNames.withParams {names : List String} {scope : Bindings Readiness} {outer : Scopes}
    (h : HasNames (some names) (scope :: outer)) (params : List Token) :
    HasNames (some (names ++ params.map (·.lexeme))) (withParams scope params :: outer) := by
  induction params generalizing names scope with
  | nil => rwa [List.map_nil, List.append_nil]
  | cons p params ih =>
    have hrest := ih (h.mark p.lexeme)
    rwa [List.append_assoc] at hrest

/-- A name clashes if it is among the names declared in its scope. -/
theorem HasNames.clashes (h : HasNames declared s.scopes) :
    s.clashes name = decide (name.lexeme ∈ declared.getD []) := by
  obtain ⟨scopes, distances, errors⟩ := s
  cases h with
  | outermost => rfl
  | @inside names _ _ h =>
    change Option.isSome (Bindings.find? _ _) = _
    rw [h name.lexeme]
    by_cases hname : name.lexeme ∈ names <;> simp [hname]

theorem HasNames.not_inOwnInitializer (h : HasNames declared s.scopes) :
    s.inOwnInitializer name = false := by
  obtain ⟨scopes, distances, errors⟩ := s
  cases h with
  | outermost => rfl
  | @inside names _ _ h =>
    change (Bindings.find? _ _ == _) = _
    rw [h name.lexeme]
    split <;> rfl

/-- Between its declaration and the end of its initializer the name is the only one that may not be
read. -/
theorem HasNames.inOwnInitializer (h : HasNames declared s.scopes) (use : Token)
    (hs : s'.scopes = Scopes.mark s.scopes .declared name.lexeme) :
    s'.inOwnInitializer use = (declared.isSome && use.lexeme == name.lexeme) := by
  obtain ⟨scopes, distances, errors⟩ := s
  obtain ⟨scopes', distances', errors'⟩ := s'
  subst hs
  cases h with
  | outermost => rfl
  | @inside names _ _ h =>
    change (Bindings.find? (Bindings.insert _ _ _) _ == _) = _
    rw [Bindings.find?_insert, h use.lexeme]
    by_cases hname : name.lexeme = use.lexeme
    · simp [hname]
    · have hne : (use.lexeme == name.lexeme) = false := beq_eq_false_iff_ne.mpr (Ne.symm hname)
      rw [if_neg hname, hne]
      split <;> rfl

end

section

variable {s s' : Resolution.State}

def early (s : Resolution.State) (names : List Token) : List ResolutionError :=
  (names.filter s.inOwnInitializer).map (⟨.ownInitializer, ·⟩)

theorem early_append (names names' : List Token) :
    early s (names ++ names') = early s names ++ early s names' := by
  rw [early, List.filter_append, List.map_append]
  rfl

theorem early_of_scopes (h : s'.scopes = s.scopes) (names : List Token) :
    early s' names = early s names := by
  have hown : s'.inOwnInitializer = s.inOwnInitializer := by
    funext name
    unfold Resolution.State.inOwnInitializer
    rw [h]
  rw [early, hown]
  rfl

/-- A read reports the use if the name is still waiting for its initializer. -/
theorem reports_read (s : Resolution.State) (id : ReferenceId) (name : Token) :
    (s.read id name).errors.toList = s.errors.toList ++ early s [name] := by
  rw [Resolution.State.read, errors_recordUse]
  cases hown : s.inOwnInitializer name with
  | true =>
    have hearly : early s [name] = [⟨.ownInitializer, name⟩] := by simp [early, hown]
    rw [if_pos rfl, hearly]
    exact Array.toList_push
  | false =>
    have hearly : early s [name] = [] := by simp [early, hown]
    rw [if_neg Bool.false_ne_true, hearly, List.append_nil]

end

mutual

/-- What an expression reports are its early reads, in the order of the expression. -/
theorem reports_walkExpr (e : Expr) (s : Resolution.State) :
    (walkExpr s e).errors.toList = s.errors.toList ++ early s e.reads := by
  match e with
  | .literal _ => exact (List.append_nil _).symm
  | .grouping inner => exact reports_walkExpr inner s
  | .unary _ right => exact reports_walkExpr right s
  | .binary left _ right | .logical left _ right =>
    have hscopes := (walks_walkExpr left s).1
    rw [walkExpr, Expr.reads, reports_walkExpr right, reports_walkExpr left, early_append,
      early_of_scopes hscopes, List.append_assoc]
  | .reference id name => exact reports_read s id name
  | .assign id name value =>
    rw [walkExpr, Expr.reads, errors_recordUse, reports_walkExpr value]
  | .call callee _ arguments =>
    have hscopes := (walks_walkExpr callee s).1
    rw [walkExpr, Expr.reads, reports_walkExprs arguments, reports_walkExpr callee, early_append,
      early_of_scopes hscopes, List.append_assoc]

theorem reports_walkExprs (es : List Expr) (s : Resolution.State) :
    (walkExprs s es).errors.toList = s.errors.toList ++ early s (Expr.readsAll es) := by
  match es with
  | [] => exact (List.append_nil _).symm
  | e :: es =>
    have hscopes := (walks_walkExpr e s).1
    rw [walkExprs, Expr.readsAll, reports_walkExprs es, reports_walkExpr e, early_append,
      early_of_scopes hscopes, List.append_assoc]

end

section

variable {declared : Option (List String)} {s : Resolution.State} {name : Token}

theorem reports_walkValue (value : Option Expr) (s : Resolution.State) :
    (walkValue s value).errors.toList = s.errors.toList ++ early s (Expr.readsOption value) := by
  cases value with
  | none => exact (List.append_nil _).symm
  | some e => exact reports_walkExpr e s

theorem HasNames.early (h : HasNames declared s.scopes) (names : List Token) :
    early s names = [] := by
  have hnone : names.filter s.inOwnInitializer = [] :=
    List.filter_eq_nil_iff.mpr fun _ _ => Bool.eq_false_iff.mp h.not_inOwnInitializer
  rw [Lexical.early, hnone]
  rfl

/-- Outside of initializers no expression breaks a rule. -/
theorem HasNames.errors_walkExpr (h : HasNames declared s.scopes) (e : Expr) :
    (walkExpr s e).errors = s.errors := by
  apply Array.toList_inj.mp
  rw [reports_walkExpr, h.early, List.append_nil]

theorem HasNames.errors_walkValue (h : HasNames declared s.scopes) (value : Option Expr) :
    (walkValue s value).errors = s.errors := by
  apply Array.toList_inj.mp
  rw [reports_walkValue, h.early, List.append_nil]

/-- A declaration reports its name if the scope has it already. -/
theorem reports_declare (h : HasNames declared s.scopes) (name : Token) :
    (s.declare name).errors.toList = s.errors.toList ++ clash declared name := by
  have hmark : (s.mark .declared name).errors = s.errors := by
    unfold Resolution.State.mark
    split <;> rfl
  unfold Resolution.State.declare clash
  simp only [h.clashes, decide_eq_true_eq]
  split
  · exact Array.toList_push.trans (by rw [hmark])
  · rw [hmark, List.append_nil]

/-- A variable reports its name if the scope has it, and the uses of itself in its own initializer. -/
theorem reports_initializer (h : HasNames declared s.scopes) (name : Token)
    (initializer : Option Expr) :
    (walkValue (s.declare name) initializer).errors.toList =
      s.errors.toList ++ (clash declared name ++ ownUses declared name initializer) := by
  have huses : early (s.declare name) (Expr.readsOption initializer) =
      ownUses declared name initializer := by
    have hown : (s.declare name).inOwnInitializer =
        fun use => declared.isSome && use.lexeme == name.lexeme :=
      funext fun use => h.inOwnInitializer use (scopes_declare s name)
    rw [early, ownUses, hown]
    cases declared <;> simp
  rw [reports_walkValue, reports_declare h, huses, List.append_assoc]

/-- Each parameter is held against the ones before it. -/
theorem reports_bindParams {names : List String} {scope : Bindings Readiness} {outer : Scopes}
    (hs : s.scopes = scope :: outer) (h : HasNames (some names) s.scopes) (params : List Token) :
    (bindParams s params).errors.toList = s.errors.toList ++ paramClashes names params := by
  induction params generalizing s scope names with
  | nil => exact (List.append_nil _).symm
  | cons p params ih =>
    have hscopes := (walks_declare_define s p).1
    have hmarked := h.mark p.lexeme
    rw [← hscopes] at hmarked
    rw [hs] at hscopes
    have hrest := ih hscopes hmarked
    rw [paramClashes, ← List.append_assoc, ← reports_declare h p, ← errors_define (s.declare p) p]
    exact hrest

end

mutual

/-- A walk adds the violations of its statement to what it has reported before. -/
theorem reports_walkStmt (stmt : Stmt) (hshaped : Shaped stmt) {a : Surroundings}
    {s : Resolution.State} (h : HasNames a.declared s.scopes) :
    (walkStmt a.inFunction s stmt).errors.toList = s.errors.toList ++ violations a stmt := by
  match stmt with
  | .expression e =>
    rw [walkStmt, h.errors_walkExpr, violations, List.append_nil]
  | .print e =>
    rw [walkStmt, h.errors_walkExpr, violations, List.append_nil]
  | .declare name initializer =>
    rw [walkStmt, errors_define, violations]
    exact reports_initializer h name initializer
  | .block body =>
    have hopen : HasNames (some []) s.openScope.scopes := hasNames_empty s.scopes
    exact reports_walkStmts body hshaped (a := ⟨a.inFunction, some []⟩) hopen
  | .ifThen condition thenBranch =>
    have hscopes := (walks_walkExpr condition s).1
    rw [walkStmt, violations, ← h.errors_walkExpr condition]
    exact reports_walkStmt thenBranch hshaped.2 (hscopes ▸ h)
  | .ifElse condition thenBranch elseBranch =>
    obtain ⟨⟨hnone, hthenShaped⟩, -, helseShaped⟩ := hshaped
    have hscopes := (walks_walkExpr condition s).1
    have hthenScopes :=
      (scopes_walkStmt_of_none hthenShaped hnone a.inFunction (walkExpr s condition)).trans hscopes
    calc
      (walkStmt a.inFunction s (.ifElse condition thenBranch elseBranch)).errors.toList
        = (walkStmt a.inFunction (walkExpr s condition) thenBranch).errors.toList ++
            violations a elseBranch := reports_walkStmt elseBranch helseShaped (hthenScopes ▸ h)
      _ = (walkExpr s condition).errors.toList ++ violations a thenBranch ++
            violations a elseBranch := by
          rw [reports_walkStmt thenBranch hthenShaped (hscopes ▸ h)]
      _ = s.errors.toList ++ violations a (.ifElse condition thenBranch elseBranch) := by
          rw [h.errors_walkExpr, violations, List.append_assoc]
  | .whileLoop condition body =>
    have hscopes := (walks_walkExpr condition s).1
    rw [walkStmt, violations, ← h.errors_walkExpr condition]
    exact reports_walkStmt body hshaped.2 (hscopes ▸ h)
  | .function name params body =>
    have hinside := hasNames_empty ((s.declare name).define name).scopes
    have hscopes := (@walks_bindParams params ((s.declare name).define name).openScope _ _ rfl).1
    have hbody := hinside.withParams params
    rw [← hscopes, List.nil_append] at hbody
    have hwalked := reports_walkStmts body hshaped (a := ⟨true, some (params.map (·.lexeme))⟩) hbody
    have hparams := @reports_bindParams ((s.declare name).define name).openScope _ _ _ rfl hinside
      params
    have hopened : ((s.declare name).define name).openScope.errors = (s.declare name).errors :=
      errors_define (s.declare name) name
    rw [hopened, reports_declare h] at hparams
    rw [hparams, List.append_assoc, List.append_assoc] at hwalked
    exact hwalked
  | .ret keyword value =>
    obtain ⟨inFunction, declared⟩ := a
    rw [walkStmt, violations]
    cases inFunction with
    | true =>
      rw [if_pos rfl, if_pos rfl, h.errors_walkValue, List.append_nil]
    | false =>
      have hreport : HasNames declared (s.report .topLevelReturn keyword).scopes := h
      rw [if_neg Bool.false_ne_true, if_neg Bool.false_ne_true, hreport.errors_walkValue]
      exact Array.toList_push

/-- A list of statements reports the violations of its statements, in order. -/
theorem reports_walkStmts (stmts : List Stmt) (hshaped : ShapedAll stmts) {a : Surroundings}
    {s : Resolution.State} (h : HasNames a.declared s.scopes) :
    (walkStmts a.inFunction s stmts).errors.toList = s.errors.toList ++ violationsAll a stmts := by
  match stmts with
  | [] => exact (List.append_nil _).symm
  | stmt :: stmts =>
    have hscopes := (walks_walkStmt stmt hshaped.1 a.inFunction s).1
    have hafter := h.after stmt
    rw [← hscopes] at hafter
    have hrest := reports_walkStmts stmts hshaped.2 (a := a.after [stmt]) hafter
    rw [walkStmts, violationsAll, ← List.append_assoc, ← reports_walkStmt stmt hshaped.1 h]
    exact hrest

end

end LoxLang.Lexical

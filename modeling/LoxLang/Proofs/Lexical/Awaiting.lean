import LoxLang.Proofs.Lexical.Sessions
import LoxLang.Proofs.Running.Tasks

/-!
Local variables without a value. In the course of a run every local variable in sight has a value,
except the one whose initializer is being evaluated: its table does not have the name yet. This holds
of a program that is ready to be run, and passes from each task to the tasks that it calls.
-/
namespace LoxLang.Lexical

open World

section

variable {W W' : World} {σ : Scopes} {e : Environment} {env : Env} {own : Option String}

/-- Of the names in sight only the one whose initializer is being evaluated, if there is one, is without
a value. It is a name of the innermost scope. -/
structure Awaits (W : World) (σ : Scopes) (e : Environment) (env : Env) (own : Option String) :
    Prop where
  settled : ∀ scope ∈ σ, ∀ x, scope.find? x = some .declared → own = some x
  unset : ∀ x, own = some x → ∃ scope outer a inner l, σ = scope :: outer ∧ e = a :: inner ∧
    scope.find? x = some .declared ∧ env.names.find? x = some l ∧ W.places[l]? = some ⟨a, x, false⟩

theorem awaits_none (h : σ.Settled) : Awaits W σ e env none where
  settled scope hscope x hx := absurd hx (h scope hscope x)
  unset _ hx := nomatch hx

theorem Awaits.keeps {A : Address → Prop} (h : Awaits W σ e env own) (hkeeps : Keeps A W W') :
    Awaits W' σ e env own where
  settled := h.settled
  unset x hx := by
    obtain ⟨scope, outer, a, inner, l, hσ, he, hdeclared, hl, hp⟩ := h.unset x hx
    exact ⟨scope, outer, a, inner, l, hσ, he, hdeclared, hl, hkeeps.place hp⟩

/-- A local name in sight has a value if it is not the awaited one. -/
theorem Awaits.isSome_iff {m : Machine} {r : State} (h : Awaits W σ m.current env own)
    (hfits : Fits W σ m.current env.names) (hrelated : Related W m r) {x : String} {d : Nat}
    (hd : σ.distance? x = some d) :
    ∃ a, m.current[d]? = some a ∧ ((m.store.readTable a x).isSome = true ↔ own ≠ some x) := by
  obtain ⟨l, a, b, hl, ha, hp, hset⟩ := hfits.inner x d hd
  refine ⟨a, ha, ?_⟩
  rw [(hrelated.value l _ hp).2]
  constructor
  · intro hb hown
    obtain ⟨scope, outer, a', inner, l', -, -, -, hl', hp'⟩ := h.unset x hown
    rw [hl] at hl'
    cases hl'
    rw [hp] at hp'
    cases hp'
    cases hb
  · intro hown
    obtain ⟨hlt, hcontains, -⟩ := List.findIdx?_eq_some_iff_getElem.mp hd
    have hscope : σ[d]? = some σ[d] := List.getElem?_eq_getElem hlt
    apply hset σ[d] hscope
    obtain ⟨readiness, hreadiness⟩ := Option.isSome_iff_exists.mp hcontains
    cases readiness with
    | declared => exact absurd (h.settled _ (List.getElem_mem hlt) x hreadiness) hown
    | defined => exact hreadiness

/-- A use with a record fails if and only if it is of the awaited variable. -/
theorem Awaits.locate {m : Machine} {r : State} (h : Awaits W σ m.current env own)
    (hfits : Fits W σ m.current env.names) (hrelated : Related W m r) {id : ReferenceId}
    {name : Token} (hknown : W.known id (σ.distance? name.lexeme)) {d : Nat}
    (hd : m.distances[id]? = some d) :
    (own = some name.lexeme → Run.locate id name m = .error (.runtime (.undefined name)) m) ∧
      (own ≠ some name.lexeme → ∃ a v, Run.locate id name m = .ok a m ∧
        m.store.readTable a name.lexeme = some v) := by
  have hdistance : σ.distance? name.lexeme = some d := by
    rw [← hrelated.known id _ hknown, ← hrelated.distances, hd]
  obtain ⟨a, ha, hsome⟩ := h.isSome_iff hfits hrelated hdistance
  have hlocate := locate_of_distance hd ha name
  constructor
  · intro hown
    rw [hlocate, if_neg fun hset => hsome.mp hset hown]
  · intro hown
    have hset := hsome.mpr hown
    obtain ⟨v, hv⟩ := Option.isSome_iff_exists.mp hset
    exact ⟨a, v, by rw [hlocate, if_pos hset], hv⟩

end

/-- A task in the course of a run: the machine is in a state of the reference, the tree agrees with its
scopes, and at most the variable whose initializer is being evaluated has no value. -/
inductive Holds : Task → Machine → Prop
  | expr {m : Machine} {own : Option String} {x : Expr} {W : World} {r : State} {σ : Scopes} {env : Env}
      (hrelated : Related W m r) (hsees : Sees W σ m.current env)
      (hawaits : Awaits W σ m.current env own) (hscoped : ScopedExpr W.known σ x) :
      Holds (.expr own x) m
  | exprs {m : Machine} {own : Option String} {xs : List Expr} {W : World} {r : State} {σ : Scopes}
      {env : Env} (hrelated : Related W m r) (hsees : Sees W σ m.current env)
      (hawaits : Awaits W σ m.current env own) (hscoped : ∀ x ∈ xs, ScopedExpr W.known σ x) :
      Holds (.exprs own xs) m
  | stmt {m : Machine} {s : Stmt} {W : World} {r : State} {σ : Scopes} {env : Env}
      (hrelated : Related W m r) (hwithin : Within W σ m.current env)
      (hscoped : ScopedStmt W.known σ s) : Holds (.stmt s) m
  | stmts {m : Machine} {ss : List Stmt} {W : World} {r : State} {σ : Scopes} {env : Env}
      (hrelated : Related W m r) (hwithin : Within W σ m.current env)
      (hscoped : ScopedStmts W.known σ ss) : Holds (.stmts ss) m

section

variable {n : Nat} {W : World} {m m' : Machine} {r : State} {σ : Scopes} {env : Env}
  {own : Option String}

theorem Ends.exists_of_ok {α β : Type} {A : Address → Prop} {e : Environment}
    {Q : World → α → β → Prop} {a : α} {y : EStateM.Result Signal State β}
    (h : Ends A W e Q (.ok a m') y) :
    ∃ W' r' b, Keeps A W W' ∧ Related W' m' r' ∧ m'.current = e ∧ Q W' a b := by
  cases h with
  | ok hkeeps hrelated hcurrent h => exact ⟨_, _, _, hkeeps, hrelated, hcurrent, h⟩

/-- What is known once an expression has its value. -/
theorem exists_of_evaluate {x : Expr} {v : LoxLang.Value} (hrelated : Related W m r)
    (hsees : Sees W σ m.current env) (hscoped : ScopedExpr W.known σ x)
    (h : LoxLang.evaluate n x m = .ok v m') :
    ∃ W' r' v', Keeps (fun _ => False) W W' ∧ Related W' m' r' ∧ m'.current = m.current ∧
      Same W' v v' := by
  have hends := (follows n).evaluate hsees hscoped m r hrelated rfl
  rw [h] at hends
  exact hends.exists_of_ok

/-- Once a part of an expression has its value, another part is evaluated. -/
theorem holds_after_expr {x y : Expr} {v : LoxLang.Value} (hrelated : Related W m r)
    (hsees : Sees W σ m.current env) (hawaits : Awaits W σ m.current env own)
    (hscoped : ScopedExpr W.known σ x) (h : LoxLang.evaluate n x m = .ok v m')
    (hscoped' : ScopedExpr W.known σ y) : Holds (.expr own y) m' := by
  obtain ⟨W', r', -, hkeeps, hrelated', hcurrent, -⟩ := exists_of_evaluate hrelated hsees hscoped h
  have hsees' := hsees.mono hkeeps.extends
  have hawaits' := hawaits.keeps hkeeps
  rw [← hcurrent] at hsees' hawaits'
  exact .expr hrelated' hsees' hawaits' (hscoped'.mono hkeeps.extends.known)

theorem holds_exprs_after_expr {x : Expr} {ys : List Expr} {v : LoxLang.Value}
    (hrelated : Related W m r) (hsees : Sees W σ m.current env)
    (hawaits : Awaits W σ m.current env own) (hscoped : ScopedExpr W.known σ x)
    (h : LoxLang.evaluate n x m = .ok v m') (hscoped' : ∀ y ∈ ys, ScopedExpr W.known σ y) :
    Holds (.exprs own ys) m' := by
  obtain ⟨W', r', -, hkeeps, hrelated', hcurrent, -⟩ := exists_of_evaluate hrelated hsees hscoped h
  have hsees' := hsees.mono hkeeps.extends
  have hawaits' := hawaits.keeps hkeeps
  rw [← hcurrent] at hsees' hawaits'
  exact .exprs hrelated' hsees' hawaits' fun y hy => (hscoped' y hy).mono hkeeps.extends.known

/-- Once the condition of a statement has its value, a part of the statement is run. -/
theorem holds_after_condition {x : Expr} {s : Stmt} {v : LoxLang.Value} (hrelated : Related W m r)
    (hwithin : Within W σ m.current env) (hscoped : ScopedExpr W.known σ x)
    (h : LoxLang.evaluate n x m = .ok v m') (hscoped' : ScopedStmt W.known σ s) :
    Holds (.stmt s) m' := by
  obtain ⟨W', r', -, hkeeps, hrelated', hcurrent, -⟩ :=
    exists_of_evaluate hrelated hwithin.toSees hscoped h
  have hwithin' := hwithin.keeps hkeeps
  rw [← hcurrent] at hwithin'
  exact .stmt hrelated' hwithin' (hscoped'.mono hkeeps.extends.known)

theorem holds_condition {x : Expr} (hrelated : Related W m r) (hwithin : Within W σ m.current env)
    (hscoped : ScopedExpr W.known σ x) : Holds (.expr none x) m :=
  .expr hrelated hwithin.toSees (awaits_none hwithin.settled) hscoped

/-- The initializer of a declaration. Outside of all scopes the name is in sight all the time; inside of
one it awaits its value. -/
theorem holds_initializer {name : Token} {x : Expr} (hrelated : Related W m r)
    (hwithin : Within W σ m.current env) (hfree : σ.Free name.lexeme)
    (hscoped : ScopedExpr W.known (σ.mark .declared name.lexeme) x) :
    Holds (.expr (m.ownName? name) x) m := by
  cases σ with
  | nil =>
    have hown : m.ownName? name = none := if_pos (hwithin.fits.outermost rfl)
    rw [hown]
    exact holds_condition hrelated hwithin hscoped
  | cons scope outer =>
    obtain ⟨a, inner, he, hpos, hlt, hplaces⟩ := hwithin.innermost scope outer rfl
    have hown : m.ownName? name = some name.lexeme := by
      apply if_neg
      intro hglobals
      have hlength := hwithin.fits.length
      rw [hglobals] at hlength
      simp [Environment.globals] at hlength
    -- the scope does not have the name yet, so neither does its table: the location is a new one
    have hnew : ∀ (l : Location) (p : Place), W.places[l]? = some p → p.address = a →
        p.name ≠ name.lexeme := by
      intro l p hp hpa hname
      have hcontains := hplaces l p hp hpa
      rw [hname, hfree scope rfl] at hcontains
      cases hcontains
    have hfits := hwithin.fits
    rw [he] at hfits
    have hdeclaring := declaring_inside hfits name.lexeme
    rw [hown]
    refine .expr (hrelated.push hpos hlt hnew) (he ▸ hdeclaring.declared) ⟨?_, ?_⟩
      (hscoped.mono hdeclaring.later.known)
    · intro scope' hscope' x hx
      rcases List.mem_cons.mp hscope' with rfl | hscope'
      · rw [Bindings.find?_insert] at hx
        split at hx
        · next hname => rw [hname]
        · exact absurd hx (hwithin.settled scope List.mem_cons_self x)
      · exact absurd hx (hwithin.settled scope' (List.mem_cons_of_mem _ hscope') x)
    · intro x hx
      cases hx
      refine ⟨_, outer, a, inner, W.places.length, rfl, he, Bindings.find?_insert_self .., ?_, ?_⟩
      · exact Bindings.find?_insert_self ..
      · exact place_push W a name.lexeme

theorem Related.enter (h : Related W m r) (e : Environment) :
    Related W.addTable (m.enter e) r ∧ (m.enter e).current = W.tables :: e := by
  constructor
  · exact h.addTable.setCurrent _
  · change m.store.tables.size :: e = _
    rw [h.tables]

/-- A function body sees what its closure sees, and the parameters, all of which have values. -/
theorem holds_body {W₁ : World} {m₁ m₂ : Machine} {r₁ : State} {f : LoxLang.Closure} {f' : Value}
    {vs : List LoxLang.Value} {vs' : List Value} (hrelated : Related W₁ m₁ r₁)
    (hcallee : Same W₁ (.function f) f') (hvs : SameAll W₁ vs vs')
    (harity : f.declaration.params.length = vs.length)
    (hbound : Run.bindArguments f.declaration.params vs (m₁.enter f.environment) = .ok () m₂) :
    Holds (.stmts f.declaration.body) m₂ := by
  cases hcallee with
  | function hfunction =>
    obtain @⟨identity, d, σ, e, names, hfits, hsettled, hscoped⟩ := hfunction
    have hwithin := Within.enter hfits hsettled hrelated
    obtain ⟨hentered, hinside⟩ := hrelated.enter e
    have hends := simulates_bindArguments (SameAll.mono hvs (extends_addTable W₁)) harity
      hscoped.params hwithin (m₁.enter e) r₁ hentered hinside
    rw [hbound] at hends
    obtain ⟨W₂, r₂, env, hkeeps, hrelated₂, hcurrent, hwithin₂⟩ := hends.exists_of_ok
    rw [← hcurrent] at hwithin₂
    exact .stmts hrelated₂ hwithin₂ (hscoped.body.mono fun id d hid => hkeeps.known ▸ hid)

/-- The body of a function that is called runs after the callee and the arguments have their values, and
what the arguments do to the state takes nothing from the callee. -/
theorem holds_called {callee : Expr} {arguments : List Expr} {f : LoxLang.Closure}
    {vs : List LoxLang.Value} {m₁ m₂ m₃ : Machine} (hrelated : Related W m r)
    (hsees : Sees W σ m.current env) (hcallee : ScopedExpr W.known σ callee)
    (harguments : ∀ x ∈ arguments, ScopedExpr W.known σ x)
    (h : LoxLang.evaluate n callee m = .ok (.function f) m₁)
    (hvs : LoxLang.evaluateAll n arguments m₁ = .ok vs m₂)
    (harity : f.declaration.params.length = vs.length)
    (hbound : Run.bindArguments f.declaration.params vs (m₂.enter f.environment) = .ok () m₃) :
    Holds (.stmts f.declaration.body) m₃ := by
  obtain ⟨W₁, r₁, f', hkeeps, hrelated₁, hcurrent, hf⟩ := exists_of_evaluate hrelated hsees hcallee h
  have harguments := fun x hx => (harguments x hx).mono hkeeps.extends.known
  have hends := (follows n).evaluateAll (hsees.mono hkeeps.extends) harguments _ r₁ hrelated₁ hcurrent
  rw [hvs] at hends
  obtain ⟨W₂, r₂, vs', hkeeps', hrelated₂, -, hsame⟩ := hends.exists_of_ok
  exact holds_body hrelated₂ (hf.mono hkeeps'.extends) hsame harity hbound

/-- A loop is run again in the environment of its first round, since its body declares nothing. -/
theorem holds_again {condition : Expr} {body : Stmt} {v : LoxLang.Value} {m₁ m₂ : Machine}
    (hrelated : Related W m r) (hwithin : Within W σ m.current env)
    (hcondition : ScopedExpr W.known σ condition) (hbody : ScopedStmt W.known σ body)
    (hnone : declaredName? body = none) (h : LoxLang.evaluate n condition m = .ok v m₁)
    (hround : LoxLang.execute n body m₁ = .ok () m₂) :
    Holds (.stmt (.whileLoop condition body)) m₂ := by
  obtain ⟨W₁, r₁, -, hkeeps, hrelated₁, hcurrent, -⟩ :=
    exists_of_evaluate hrelated hwithin.toSees hcondition h
  have hcondition₁ := hcondition.mono hkeeps.extends.known
  have hbody₁ := hbody.mono hkeeps.extends.known
  have hends := follows_branch (follows n) (hwithin.keeps hkeeps) hbody₁ hnone _ r₁ hrelated₁ hcurrent
  rw [hround] at hends
  obtain ⟨W₂, r₂, -, hkeeps', hrelated₂, hcurrent', hwithin₂⟩ := hends.exists_of_ok
  have hknown := hkeeps'.extends.known
  rw [← hcurrent'] at hwithin₂
  exact .stmt hrelated₂ hwithin₂ (.whileLoop (hcondition₁.mono hknown) (hbody₁.mono hknown) hnone)

/-- What an expression evaluates is evaluated in a state in which the same holds. -/
theorem holds_calls_expr {x : Expr} {t' : Task} (hrelated : Related W m r)
    (hsees : Sees W σ m.current env) (hawaits : Awaits W σ m.current env own)
    (hscoped : ScopedExpr W.known σ x) (hcalls : Calls n (.expr own x) m t' m') : Holds t' m' := by
  cases hcalls with
  | grouping =>
    cases hscoped with
    | grouping h => exact .expr hrelated hsees hawaits h
  | unary =>
    cases hscoped with
    | unary h => exact .expr hrelated hsees hawaits h
  | binaryLeft =>
    cases hscoped with
    | binary hleft _ => exact .expr hrelated hsees hawaits hleft
  | binaryRight h =>
    cases hscoped with
    | binary hleft hright => exact holds_after_expr hrelated hsees hawaits hleft h hright
  | logicalLeft =>
    cases hscoped with
    | logical hleft _ => exact .expr hrelated hsees hawaits hleft
  | logicalRight h _ =>
    cases hscoped with
    | logical hleft hright => exact holds_after_expr hrelated hsees hawaits hleft h hright
  | assigned =>
    cases hscoped with
    | assign hvalue _ => exact .expr hrelated hsees hawaits hvalue
  | callee =>
    cases hscoped with
    | call hcallee _ => exact .expr hrelated hsees hawaits hcallee
  | arguments h =>
    cases hscoped with
    | call hcallee harguments =>
      exact holds_exprs_after_expr hrelated hsees hawaits hcallee h harguments
  | body h hvs harity hbound =>
    cases hscoped with
    | call hcallee harguments =>
      exact holds_called hrelated hsees hcallee harguments h hvs harity hbound

/-- What a statement runs is run in a state in which the same holds, with the scopes that it opens. -/
theorem holds_calls_stmt {s : Stmt} {t' : Task} (hrelated : Related W m r)
    (hwithin : Within W σ m.current env) (hscoped : ScopedStmt W.known σ s)
    (hcalls : Calls n (.stmt s) m t' m') : Holds t' m' := by
  cases hcalls with
  | expression =>
    cases hscoped with
    | expression h => exact holds_condition hrelated hwithin h
  | print =>
    cases hscoped with
    | print h => exact holds_condition hrelated hwithin h
  | initializer =>
    cases hscoped with
    | initialized hfree h => exact holds_initializer hrelated hwithin hfree h
  | block =>
    cases hscoped with
    | block h =>
      have hwithin' := Within.enter hwithin.fits hwithin.settled hrelated
      obtain ⟨hentered, hinside⟩ := hrelated.enter m.current
      rw [← hinside] at hwithin'
      exact .stmts hentered hwithin' h
  | ifThenCondition =>
    cases hscoped with
    | ifThen h _ _ => exact holds_condition hrelated hwithin h
  | ifThenBranch h _ =>
    cases hscoped with
    | ifThen hcondition hthen _ => exact holds_after_condition hrelated hwithin hcondition h hthen
  | ifElseCondition =>
    cases hscoped with
    | ifElse h _ _ _ _ => exact holds_condition hrelated hwithin h
  | ifElseBranch h =>
    cases hscoped with
    | ifElse hcondition hthen helse _ _ =>
      refine holds_after_condition hrelated hwithin hcondition h ?_
      split
      · exact hthen
      · exact helse
  | whileCondition =>
    cases hscoped with
    | whileLoop h _ _ => exact holds_condition hrelated hwithin h
  | whileBody h _ =>
    cases hscoped with
    | whileLoop hcondition hbody _ => exact holds_after_condition hrelated hwithin hcondition h hbody
  | whileAgain h _ hround =>
    cases hscoped with
    | whileLoop hcondition hbody hnone =>
      exact holds_again hrelated hwithin hcondition hbody hnone h hround
  | returned =>
    cases hscoped with
    | retValue h => exact holds_condition hrelated hwithin h

/-- A later statement of a list sees the names of the earlier ones. -/
theorem holds_calls_stmts {ss : List Stmt} {t' : Task} (hrelated : Related W m r)
    (hwithin : Within W σ m.current env) (hscoped : ScopedStmts W.known σ ss)
    (hcalls : Calls n (.stmts ss) m t' m') : Holds t' m' := by
  cases hcalls with
  | firstStmt =>
    cases hscoped with
    | cons hfirst _ => exact .stmt hrelated hwithin hfirst
  | laterStmts h =>
    cases hscoped with
    | cons hfirst hrest =>
      have hends := (follows n).execute hwithin hfirst _ _ hrelated rfl
      rw [h] at hends
      obtain ⟨W', r', env', hkeeps, hrelated', hcurrent, hwithin'⟩ := hends.exists_of_ok
      rw [← hcurrent] at hwithin'
      exact .stmts hrelated' hwithin' (hrest.mono hkeeps.extends.known)

end

/-- What holds of a task holds of the tasks that it calls. -/
theorem holds_calls {n : Nat} {t t' : Task} {m m' : Machine} (h : Holds t m)
    (hcalls : Calls n t m t' m') : Holds t' m' := by
  cases h with
  | expr hrelated hsees hawaits hscoped =>
    exact holds_calls_expr hrelated hsees hawaits hscoped hcalls
  | exprs hrelated hsees hawaits hscoped =>
    cases hcalls with
    | firstExpr => exact .expr hrelated hsees hawaits (hscoped _ List.mem_cons_self)
    | laterExprs h =>
      exact holds_exprs_after_expr hrelated hsees hawaits (hscoped _ List.mem_cons_self) h
        fun y hy => hscoped y (List.mem_cons_of_mem _ hy)
  | stmt hrelated hwithin hscoped => exact holds_calls_stmt hrelated hwithin hscoped hcalls
  | stmts hrelated hwithin hscoped => exact holds_calls_stmts hrelated hwithin hscoped hcalls

theorem holds_begins {n k : Nat} {t t' : Task} {m m' : Machine} (h : Holds t m)
    (hbegins : Begins n t m k t' m') : Holds t' m' := by
  induction hbegins with
  | itself => exact h
  | call _ hcalls ih => exact holds_calls ih hcalls

/-- What holds of a program that is ready to be run. -/
theorem holds_program {output diagnostics : Stream} {s s' : LoxLang.Session} {text : String}
    {program : List Stmt} (hreachable : s.Reachable output diagnostics)
    (hready : s.prepare text = (some program, s')) : Holds (.stmts program) s'.machine := by
  have hlossy : false = true → output = .unlimited := fun h => absurd h Bool.false_ne_true
  obtain ⟨W, r, -, hmatches⟩ := exists_matches hreachable hlossy
  obtain ⟨W', -, hprepared, hscoped⟩ := hmatches.prepare text
  rw [hready] at hprepared hscoped
  have hwithin := within_outermost W'
  rw [← hprepared.current] at hwithin
  exact .stmts hprepared.related hwithin (hscoped program rfl)

end LoxLang.Lexical

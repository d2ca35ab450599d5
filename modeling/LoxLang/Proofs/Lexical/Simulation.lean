import LoxLang.Proofs.Lexical.Declarations

/-!
The machine does what the reference does. Main statement: `follows`, by induction on the fuel,
which both sides use up alike. A step of an expression takes locations at new tables only; a statement
may also take some at the innermost table, for names that its scope then has.
-/
namespace LoxLang.Lexical

open World

section

variable {A : Address → Prop} {W : World} {e : Environment} {v w : LoxLang.Value}
  {v' w' : Value}

theorem simulates_stop {α β : Type} {Q : World → α → β → Prop} (t : Token)
    (cause : RuntimeError.Cause) : Simulates A W e (Run.stop t cause) (stop t cause) Q :=
  .throw (.runtime _)

/-- A result that is the same on both sides has the same value, or it is the same error. -/
theorem simulates_orStop (t : Token) {result : Except RuntimeError.Cause LoxLang.Value}
    {result' : Except RuntimeError.Cause Value}
    (h : ValueOf.ResultAlike (SameFunction W) result result') :
    Simulates A W e (Run.orStop t result) (orStop t result') Same := by
  cases h with
  | ok hv => exact .pure hv
  | error cause => exact simulates_stop t cause

theorem simulates_checkArity (paren : Token) (expected : Nat) {got got' : Nat} (h : got = got') :
    Simulates A W e (Run.orStop paren (checkArity expected got))
      (orStop paren (checkArity expected got')) fun _ _ _ => expected = got := by
  subst h
  cases hresult : checkArity expected got with
  | ok u => exact .pure (checkArity_eq_ok_iff.mp hresult)
  | error cause => exact simulates_stop paren cause

theorem simulates_readClock :
    Simulates A W e Run.readClock readClock fun _ now now' => now = now' := by
  intro m r hrelated hcurrent
  refine .ok (.refl W) { hrelated with readings := ?_ } hcurrent ?_
  · rw [hrelated.readings]
  · rw [hrelated.clock, hrelated.readings]

theorem simulates_callNative (paren : Token) (f : NativeFunction) {vs : List LoxLang.Value}
    {vs' : List Value} (h : SameAll W vs vs') :
    Simulates A W e (Run.callNative paren f vs) (callNative paren f vs') Same := by
  refine .bind (simulates_checkArity paren _ h.length_eq) fun W₁ _ _ hkeeps _ => ?_
  refine .bind simulates_readClock fun W₂ now now' hkeeps' hnow => ?_
  subst hnow
  have hvs : SameAll W₂ vs vs' := SameAll.mono h (hkeeps.trans hkeeps').extends
  exact simulates_orStop paren (resultAlike_native f now hvs)

/-- Both sides print the same, or the machine breaks off because its output is full. -/
theorem simulates_print (text : String) :
    Simulates A W e (Run.print text) (print text) fun _ _ _ => True := by
  intro m r hrelated hcurrent
  simp only [Run.print]
  split
  · refine .ok (.refl W) { hrelated with output := fun hlossless => ?_ } hcurrent trivial
    obtain ⟨hwritten, hcapacity, hflush⟩ := hrelated.output hlossless
    refine ⟨?_, hcapacity, hflush⟩
    rw [Stream.written_write_of_capacity_eq_none hcapacity, hwritten]
  -- text that does not fit is text for a stream with a limit, of which the reference knows nothing
  · next hfull =>
    have hlossy : W.lossless = false := by
      refine Bool.eq_false_iff.mpr fun hlossless => hfull ?_
      rw [Stream.fits, (hrelated.output hlossless).2.1]
    have hrelated : Related W { m with output := m.output.write (text ++ "\n") } r :=
      { hrelated with output := fun hlossless => by rw [hlossy] at hlossless; cases hlossless }
    exact .broken (.refl W) hrelated hcurrent hlossy

theorem simulates_makeClosure {d : FunctionDecl} {env : Env}
    {Q : World → LoxLang.Value → Value → Prop}
    (h : ∀ identity, Q W (.function ⟨identity, d, e⟩)
      (.function ⟨identity, withoutIds d, env.names⟩)) :
    Simulates A W e (Run.makeClosure d) (makeClosure (withoutIds d) env) Q := by
  intro m r hrelated hcurrent
  subst hcurrent
  have hidentity := h m.nextFunction
  simp only [Run.makeClosure, makeClosure, ← hrelated.nextFunction]
  refine .ok (.refl W) { hrelated with nextFunction := rfl } rfl hidentity

end

structure Sees (W : World) (σ : Scopes) (e : Environment) (env : Env) : Prop where
  fits : Fits W σ e env.names
  outermost : σ = [] ↔ env = .outermost

structure Within (W : World) (σ : Scopes) (e : Environment) (env : Env) : Prop
    extends Sees W σ e env where
  innermost : Innermost W σ e
  settled : σ.Settled

section

variable {W W' : World} {σ outer : Scopes} {e : Environment} {env : Env}

theorem Sees.mono (h : Sees W σ e env) (le : Extends W W') : Sees W' σ e env :=
  ⟨h.fits.mono le, h.outermost⟩

theorem Within.keeps (h : Within W σ e env) (hkeeps : Keeps (fun _ => False) W W') :
    Within W' σ e env :=
  ⟨h.toSees.mono hkeeps.extends, h.innermost.keeps hkeeps, h.settled⟩

theorem Within.enter {m : Machine} {r : State} {names : Names} (h : Fits W σ e names)
    (hsettled : σ.Settled) (hrelated : Related W m r) :
    Within W.addTable (.empty :: σ) (W.tables :: e) (.inside names) where
  fits := h.open _ (extends_addTable W) _
  outermost := by simp
  innermost := innermost_addTable hrelated σ e
  settled := hsettled.open

structure Declaring (W W₁ : World) (σ : Scopes) (x : String) (e : Environment) (env₁ : Env)
    (done : World → World) : Prop where
  later : Extends W W₁
  known : W₁.known = W.known
  finishes : ∀ W, Extends W (done W)
  declared : Sees W₁ (σ.mark .declared x) e env₁
  defined : Sees (done W₁) (σ.mark .defined x) e env₁

theorem declaring_outermost (h : Sees W [] e env) (x : String) :
    Declaring W W [] x e env id where
  later := .refl W
  known := rfl
  finishes := .refl
  declared := h
  defined := h

theorem declaring_inside {scope : Bindings LoxLang.Resolution.Readiness} {a : Address}
    {inner : Environment} {names : Names} (h : Fits W (scope :: outer) (a :: inner) names)
    (x : String) :
    Declaring W (W.push a x) (scope :: outer) x (a :: inner)
      (.inside (names.insert x W.places.length)) (·.fill W.places.length) := by
  have hle : Extends W (W.push a x) := (keeps_push (A := (· = a)) rfl).extends
  have hle' := extends_fill (W.push a x) W.places.length
  have hp := place_push W a x
  refine ⟨hle, rfl, fun W' => extends_fill W' _, ⟨?_, by simp [Scopes.mark]⟩,
    ⟨?_, by simp [Scopes.mark]⟩⟩
  · exact h.insert hle hp nofun
  · exact h.insert (hle.trans hle') (place_fill hp) fun _ => rfl

/-- A declaration is the same on both sides, whatever gives the name its value. -/
theorem simulates_declare {name : Token} {p : Run LoxLang.Value} {q : Env → Eval Value}
    (h : Within W σ e env) (hfree : σ.Free name.lexeme)
    (hvalue : ∀ W₁ env₁ done, Declaring W W₁ σ name.lexeme e env₁ done →
      Simulates (fun _ => False) W₁ e p (q env₁) fun W₂ v v' => Same (done W₂) v v') :
    Simulates (· ∈ e.head?) W e (p >>= Run.define name.lexeme) (declare env name q)
      fun W' _ env' => Within W' (σ.mark .defined name.lexeme) e env' := by
  cases σ with
  | nil =>
    have houtermost := h.outermost.mp rfl
    have he := h.fits.outermost rfl
    have hdeclaring := declaring_outermost h.toSees name.lexeme
    subst houtermost he
    have hglobal := (hvalue W .outermost id hdeclaring).weaken (A := (· ∈ Environment.globals.head?))
    refine (simulates_declare_outermost hglobal).mono (fun a ha => .inr ha) ?_
    intro W' _ env' hkeeps henv
    subst henv
    exact ⟨h.toSees.mono hkeeps.extends, nofun, h.settled⟩
  | cons scope outer =>
    obtain ⟨a, inner, rfl, -⟩ := h.innermost scope outer rfl
    cases env with
    | outermost => exact absurd (h.outermost.mpr rfl) nofun
    | inside names =>
      have hlocal := simulates_declare_inside h.fits h.innermost (hfree scope rfl)
        (hvalue _ _ _ (declaring_inside h.fits name.lexeme))
      refine hlocal.mono (fun b hb => .inr (by rw [hb]; rfl)) ?_
      rintro W' _ _ - ⟨names', rfl, hfits, hinnermost⟩
      exact ⟨⟨hfits, by simp [Scopes.mark]⟩, hinnermost, h.settled.insert name.lexeme⟩

/-- Binding arguments declares one parameter after the other in a scope without them. -/
theorem simulates_bindArguments {scope : Bindings LoxLang.Resolution.Readiness}
    {params : List Token} {vs : List LoxLang.Value} {vs' : List Value} (hvs : SameAll W vs vs')
    (hlength : params.length = vs.length) (hparams : FreeParams scope params)
    (h : Within W (scope :: outer) e env) :
    Simulates (· ∈ e.head?) W e (Run.bindArguments params vs) (bindArguments env params vs')
      fun W' _ env' => Within W' (withParams scope params :: outer) e env' := by
  induction params generalizing W env scope vs vs' with
  | nil =>
    cases hvs with
    | nil => exact .pure h
    | cons => cases hlength
  | cons p params ih =>
    cases hvs with
    | nil => cases hlength
    | @cons v v' vs vs' hv hvs =>
      have hfree : Scopes.Free (scope :: outer) p.lexeme := by
        intro scope' hscope
        cases hscope
        exact hparams.1
      have hbound : Simulates (· ∈ e.head?) W e (Run.define p.lexeme v)
          (declare env p fun _ => Pure.pure v') _ :=
        simulates_declare (p := Pure.pure v) h hfree fun W₁ env₁ done hdeclaring =>
          .pure (hv.mono (hdeclaring.later.trans (hdeclaring.finishes W₁)))
      refine .bind hbound fun W' _ env' hkeeps hwithin => ?_
      exact ih (SameAll.mono hvs hkeeps.extends) (Nat.succ.inj hlength) hparams.2 hwithin

structure Follows (n : Nat) : Prop where
  evaluate : ∀ {W σ e env x}, Sees W σ e env → ScopedExpr W.known σ x →
    Simulates (fun _ => False) W e (LoxLang.evaluate n x) (evaluate n env x.withoutIds) Same
  evaluateAll : ∀ {W σ e env xs}, Sees W σ e env → (∀ x ∈ xs, ScopedExpr W.known σ x) →
    Simulates (fun _ => False) W e (LoxLang.evaluateAll n xs)
      (evaluateAll n env (xs.map Expr.withoutIds)) SameAll
  execute : ∀ {W σ e env s}, Within W σ e env → ScopedStmt W.known σ s →
    Simulates (· ∈ e.head?) W e (LoxLang.execute n s) (execute n env s.withoutIds)
      fun W' _ env' => Within W' (σ.after s) e env'
  executeAll : ∀ {W σ e env ss}, Within W σ e env → ScopedStmts W.known σ ss →
    Simulates (· ∈ e.head?) W e (LoxLang.executeAll n ss)
      (executeAll n env (ss.map Stmt.withoutIds)) fun _ _ _ => True

section

variable {n : Nat} {A : Address → Prop} {W : World} {σ : Scopes} {e : Environment} {env : Env}

/-- Statements in a new scope. -/
theorem follows_block (ih : Follows n) {names : Names} (hfits : Fits W σ e names)
    (hsettled : σ.Settled) {ss : List Stmt} (hscoped : ScopedStmts W.known (.empty :: σ) ss) (current : Environment) :
    Simulates A W current (Run.inNewScope e (LoxLang.executeAll n ss))
      (executeAll n (.inside names) (ss.map Stmt.withoutIds)) fun _ _ _ => True := by
  refine simulates_newScope fun m r hrelated => ?_
  have hwithin : Within W.addTable (.empty :: σ) (W.tables :: e) (.inside names) :=
    Within.enter hfits hsettled hrelated
  refine (ih.executeAll hwithin hscoped).mono (fun a ha => .inr ?_) fun _ _ _ _ h => h
  exact (Option.some.inj ha).symm

/-- A function body in a new scope that has the parameters. -/
theorem follows_body (ih : Follows n) {d : FunctionDecl} {outer : Environment} {names : Names}
    (hfits : Fits W σ outer names) (hsettled : σ.Settled) (hscoped : ScopedFunction W.known σ d)
    {vs : List LoxLang.Value} {vs' : List Value} (hvs : SameAll W vs vs')
    (harity : d.params.length = vs.length) :
    Simulates A W e
      (Run.inNewScope outer do
        Run.bindArguments d.params vs
        LoxLang.executeAll n d.body)
      (do
        let env ← bindArguments (.inside names) d.params vs'
        executeAll n env (d.body.map Stmt.withoutIds)) fun _ _ _ => True := by
  refine simulates_newScope fun m r hrelated => ?_
  have hwithin : Within W.addTable (.empty :: σ) (W.tables :: outer) (.inside names) :=
    Within.enter hfits hsettled hrelated
  have hargs := SameAll.mono hvs (extends_addTable W)
  have hbound := simulates_bindArguments hargs harity hscoped.params hwithin
  have hsteps := hbound.bind fun W' _ env' hkeeps hwithin' =>
    ih.executeAll hwithin' (hscoped.body.mono fun id d hid => hkeeps.known ▸ hid)
  refine hsteps.mono (fun a ha => .inr ?_) fun _ _ _ _ h => h
  exact (Option.some.inj ha).symm

/-- A call runs the body with one unit of fuel less, among the names at the declaration. -/
theorem follows_call (ih : Follows n) (paren : Token) {callee : LoxLang.Value} {callee' : Value}
    (hcallee : Same W callee callee') {vs : List LoxLang.Value} {vs' : List Value}
    (hvs : SameAll W vs vs') :
    Simulates A W e (Run.call paren callee vs (LoxLang.executeAll n))
      (call paren callee' vs' (executeAll n)) Same := by
  cases hcallee with
  | native f => exact simulates_callNative paren f hvs
  | function hfunction =>
    obtain ⟨identity, hfits, hsettled, hscoped⟩ := hfunction
    have hlength : vs.length = vs'.length := hvs.length_eq
    refine .bind (simulates_checkArity paren _ hlength) fun W' _ _ hkeeps harity =>
      simulates_catchReturn (Q := fun _ _ _ => True) ?_
    have hle := hkeeps.extends
    have hfits := hfits.mono hle
    exact follows_body ih hfits hsettled (hscoped.mono hle.known) (SameAll.mono hvs hle) harity
  | _ => exact simulates_stop paren _

theorem follows_zero : Follows 0 where
  evaluate _ _ := by
    rw [LoxLang.evaluate, evaluate]
    exact .throw .exhausted
  evaluateAll _ _ := by
    rw [LoxLang.evaluateAll, evaluateAll]
    exact .throw .exhausted
  execute _ _ := by
    rw [LoxLang.execute, execute]
    exact .throw .exhausted
  executeAll _ _ := by
    rw [LoxLang.executeAll, executeAll]
    exact .throw .exhausted

/-- One unit of fuel more for expressions, one case for each form. -/
theorem follows_evaluate (ih : Follows n) {x : Expr} (h : Sees W σ e env)
    (hx : ScopedExpr W.known σ x) :
    Simulates (fun _ => False) W e (LoxLang.evaluate (n + 1) x)
      (evaluate (n + 1) env x.withoutIds) Same := by
  cases hx with
  | literal value =>
    rw [LoxLang.evaluate, Expr.withoutIds_literal, evaluate]
    exact .pure (alike_ofLiteral value)
  | grouping hinner =>
    rw [LoxLang.evaluate, Expr.withoutIds_grouping, evaluate]
    exact ih.evaluate h hinner
  | unary hright =>
    rw [LoxLang.evaluate, Expr.withoutIds_unary, evaluate]
    exact .bind (ih.evaluate h hright) fun W' v v' hkeeps hv =>
      simulates_orStop _ (resultAlike_unaryResult _ hv)
  | binary hleft hright =>
    rw [LoxLang.evaluate, Expr.withoutIds_binary, evaluate]
    refine .bind (ih.evaluate h hleft) fun W₁ v v' hkeeps hv => ?_
    have hright := hright.mono hkeeps.extends.known
    refine .bind (ih.evaluate (h.mono hkeeps.extends) hright) fun W₂ w w' hkeeps' hw => ?_
    have hv₂ := hv.mono hkeeps'.extends
    exact simulates_orStop _ (resultAlike_binaryResult (lookalike_sameFunction W₂) _ hv₂ hw)
  | logical hleft hright =>
    rw [LoxLang.evaluate, Expr.withoutIds_logical, evaluate]
    refine .bind (ih.evaluate h hleft) fun W₁ v v' hkeeps hv => ?_
    have hright := hright.mono hkeeps.extends.known
    rw [decides_eq _ hv]
    split
    · exact .pure hv
    · exact ih.evaluate (h.mono hkeeps.extends) hright
  | reference hknown _ =>
    rw [LoxLang.evaluate, Expr.withoutIds_reference, evaluate]
    exact simulates_read h.fits hknown
  | assign hvalue hknown =>
    rw [LoxLang.evaluate, Expr.withoutIds_assign, evaluate]
    refine .bind (ih.evaluate h hvalue) fun W₁ v v' hkeeps hv => ?_
    have hfits := h.fits.mono hkeeps.extends
    have hknown := hkeeps.extends.known _ _ hknown
    refine .bind (simulates_assign hfits hknown hv) fun W₂ _ _ hkeeps' _ => ?_
    exact .pure (hv.mono hkeeps'.extends)
  | call hcallee harguments =>
    rw [LoxLang.evaluate, Expr.withoutIds_call, evaluate]
    refine .bind (ih.evaluate h hcallee) fun W₁ v v' hkeeps hv => ?_
    have harguments := fun x hx => (harguments x hx).mono hkeeps.extends.known
    refine .bind (ih.evaluateAll (h.mono hkeeps.extends) harguments) fun W₂ vs vs' hkeeps' hvs => ?_
    exact follows_call ih _ (hv.mono hkeeps'.extends) hvs

/-- One unit of fuel more for the arguments of a call. -/
theorem follows_evaluateAll (ih : Follows n) {xs : List Expr} (h : Sees W σ e env)
    (hxs : ∀ x ∈ xs, ScopedExpr W.known σ x) :
    Simulates (fun _ => False) W e (LoxLang.evaluateAll (n + 1) xs)
      (evaluateAll (n + 1) env (xs.map Expr.withoutIds)) SameAll := by
  cases xs with
  | nil =>
    rw [List.map_nil, LoxLang.evaluateAll, evaluateAll]
    · exact .pure .nil
    all_goals nofun
  | cons x xs =>
    rw [List.map_cons, LoxLang.evaluateAll, evaluateAll]
    refine .bind (ih.evaluate h (hxs x List.mem_cons_self)) fun W₁ v v' hkeeps hv => ?_
    have hrest := fun y hy =>
      (hxs y (List.mem_cons_of_mem x hy)).mono hkeeps.extends.known
    refine .bind (ih.evaluateAll (h.mono hkeeps.extends) hrest) fun W₂ vs vs' hkeeps' hvs => ?_
    exact .pure (.cons (hv.mono hkeeps'.extends) hvs)

/-- A branch or a loop body, which declares nothing, leaves the environment as it was. -/
theorem follows_branch (ih : Follows n) {s : Stmt} (h : Within W σ e env)
    (hs : ScopedStmt W.known σ s) (hnone : declaredName? s = none) :
    Simulates (· ∈ e.head?) W e (LoxLang.execute n s) (execute n env s.withoutIds)
      fun W' _ _ => Within W' σ e env := by
  have hsteps := ih.execute h hs
  rw [Scopes.after_of_none hnone] at hsteps
  exact hsteps.mono (fun _ => .inr) fun W' _ _ hkeeps h' =>
    ⟨h.toSees.mono hkeeps.extends, h'.innermost, h.settled⟩

/-- One unit of fuel more for statements, one case for each form. -/
theorem follows_execute (ih : Follows n) {s : Stmt} (h : Within W σ e env)
    (hs : ScopedStmt W.known σ s) :
    Simulates (· ∈ e.head?) W e (LoxLang.execute (n + 1) s) (execute (n + 1) env s.withoutIds)
      fun W' _ env' => Within W' (σ.after s) e env' := by
  cases hs with
  | expression hx =>
    rw [LoxLang.execute, Stmt.withoutIds_expression, execute]
    exact .bindEvaluated (ih.evaluate h.toSees hx) fun W₁ v v' hkeeps hv => .pure (h.keeps hkeeps)
  | print hx =>
    rw [LoxLang.execute, Stmt.withoutIds_print, execute]
    refine .bindEvaluated (ih.evaluate h.toSees hx) fun W₁ v v' hkeeps hv => ?_
    rw [hv.text_eq (lookalike_sameFunction W₁)]
    exact ((simulates_print _).discard fun W₂ _ _ hkeeps' _ =>
      (h.keeps hkeeps).keeps hkeeps').weaken
  | declare hfree =>
    rw [LoxLang.execute, Stmt.withoutIds_declare, Option.map_none, execute]
    exact simulates_declare (p := Pure.pure .nil) h hfree fun W₁ env₁ done hdeclaring =>
      .pure .nil
  | initialized hfree hx =>
    rw [LoxLang.execute, Stmt.withoutIds_declare, Option.map_some, execute]
    refine simulates_declare h hfree fun W₁ env₁ done hdeclaring => ?_
    refine (ih.evaluate hdeclaring.declared ?_).mono (fun _ => False.elim) ?_
    · exact hx.mono hdeclaring.later.known
    · exact fun W₂ v v' hkeeps hv => hv.mono (hdeclaring.finishes W₂)
  | block hbody =>
    rw [LoxLang.execute, Stmt.withoutIds_block, execute]
    intro m r hrelated hcurrent
    subst hcurrent
    have hblock := follows_block (A := fun _ => False) ih h.fits h.settled hbody m.current
    exact (hblock.discard fun W₁ _ _ hkeeps _ => h.keeps hkeeps).weaken m r hrelated rfl
  | ifThen hcondition hthen hnone =>
    rw [LoxLang.execute, Stmt.withoutIds_ifThen, execute]
    refine .bindEvaluated (ih.evaluate h.toSees hcondition) fun W₁ v v' hkeeps hv => ?_
    rw [hv.isTruthy_eq]
    have h₁ := h.keeps hkeeps
    have hthen := hthen.mono hkeeps.extends.known
    split
    · exact (follows_branch ih h₁ hthen hnone).discard fun _ _ _ _ h => h
    · exact .pure h₁
  | ifElse hcondition hthen helse hnone hnone' =>
    rw [LoxLang.execute, Stmt.withoutIds_ifElse, execute]
    refine .bindEvaluated (ih.evaluate h.toSees hcondition) fun W₁ v v' hkeeps hv => ?_
    rw [hv.isTruthy_eq]
    have h₁ := h.keeps hkeeps
    have hthen := hthen.mono hkeeps.extends.known
    have helse := helse.mono hkeeps.extends.known
    split
    · exact (follows_branch ih h₁ hthen hnone).discard fun _ _ _ _ h => h
    · exact (follows_branch ih h₁ helse hnone').discard fun _ _ _ _ h => h
  | @whileLoop _ condition body hcondition hbody hnone =>
    rw [LoxLang.execute, Stmt.withoutIds_whileLoop, execute]
    refine .bindEvaluated (ih.evaluate h.toSees hcondition) fun W₁ v v' hkeeps hv => ?_
    rw [hv.isTruthy_eq]
    have h₁ := h.keeps hkeeps
    have hbody₁ := hbody.mono hkeeps.extends.known
    split
    · refine .bind (follows_branch ih h₁ hbody₁ hnone) fun W₂ _ _ hkeeps' h₂ => ?_
      have hcondition₂ := (hcondition.mono hkeeps.extends.known).mono hkeeps'.extends.known
      exact ih.execute h₂ (.whileLoop hcondition₂ (hbody₁.mono hkeeps'.extends.known) hnone)
    · exact .pure h₁
  | function hfree hparams hbody =>
    rw [LoxLang.execute, Stmt.withoutIds_function, execute]
    refine simulates_declare h hfree fun W₁ env₁ done hdeclaring => ?_
    have hknown : ∀ id d, W.known id d → (done W₁).known id d :=
      (hdeclaring.later.trans (hdeclaring.finishes W₁)).known
    exact simulates_makeClosure fun identity =>
      .function (.mk identity hdeclaring.defined.fits (h.settled.mark _)
        ⟨hparams, hbody.mono hknown⟩)
  | ret =>
    rw [LoxLang.execute, Stmt.withoutIds_ret, Option.map_none, execute]
    exact .throw (.returned .nil)
  | retValue hx =>
    rw [LoxLang.execute, Stmt.withoutIds_ret, Option.map_some, execute]
    exact .bindEvaluated (ih.evaluate h.toSees hx) fun W₁ v v' hkeeps hv => .throw (.returned hv)

/-- The statements of a list are run in order, each among the names declared before it. -/
theorem follows_executeAll (ih : Follows n) {ss : List Stmt} (h : Within W σ e env)
    (hss : ScopedStmts W.known σ ss) :
    Simulates (· ∈ e.head?) W e (LoxLang.executeAll (n + 1) ss)
      (executeAll (n + 1) env (ss.map Stmt.withoutIds)) fun _ _ _ => True := by
  cases hss with
  | nil =>
    rw [List.map_nil, LoxLang.executeAll, executeAll]
    · exact .pure trivial
    all_goals nofun
  | cons hfirst hrest =>
    rw [List.map_cons, LoxLang.executeAll, executeAll]
    refine .bind (ih.execute h hfirst) fun W₁ _ env₁ hkeeps h₁ => ?_
    exact ih.executeAll h₁ (hrest.mono hkeeps.extends.known)

end

end

theorem follows (n : Nat) : Follows n := by
  -- on the fuel: every call in a body is made with less, whatever function it calls
  induction n with
  | zero => exact follows_zero
  | succ n ih =>
    exact ⟨follows_evaluate ih, follows_evaluateAll ih, follows_execute ih, follows_executeAll ih⟩

end LoxLang.Lexical

import LoxLang.Proofs.Renaming.Trees
import LoxLang.Proofs.Values

/-!
Programs that are the same but for the name of a local variable run alike: they write the same and end the
same way, but for the name that the error of an undefined variable quotes. The two runs go through
states that are the same up to the trees of functions and the names that these have in sight. Main
statement: `interpret_alike`.
-/
namespace LoxLang.Lexical.Renaming

/-- What two uses of one variable find in sight: one location, or the same global name. -/
def NamesAlike (Γ : Pairs) (ν ν' : Names) : Prop :=
  ∀ a b, Paired Γ a b → ν.find? a = ν'.find? b ∧ (ν.find? a = none → a = b)

inductive EnvAlike : Sight → Env → Env → Prop
  | outermost : EnvAlike .outermost .outermost .outermost
  | inside {Γ : Pairs} {ν ν' : Names} (h : NamesAlike Γ ν ν') :
      EnvAlike (.inside Γ) (.inside ν) (.inside ν')

section

variable (x y : String)

structure FunctionAlike (Γ : Pairs) (d d' : FunctionDecl) : Prop where
  name : d'.name = d.name
  params : List.Forall₂ (Respelled x y) d.params d'.params
  body : StmtsAlike x y (.inside (withParams Γ d.params d'.params)) d.body d'.body

inductive ClosureAlike : Closure → Closure → Prop
  | mk (identity : Nat) {Γ : Pairs} {d d' : FunctionDecl} {ν ν' : Names}
      (hnames : NamesAlike Γ ν ν') (hfunction : FunctionAlike x y Γ d d') :
      ClosureAlike ⟨identity, d, ν⟩ ⟨identity, d', ν'⟩

abbrev ValueAlike : Value → Value → Prop := ValueOf.Alike (ClosureAlike x y)

structure StateAlike (s s' : State) : Prop where
  globals : ∀ z, Option.Rel (ValueAlike x y) (s.globals.find? z) (s'.globals.find? z)
  locations : List.Forall₂ (Option.Rel (ValueAlike x y)) s.locations s'.locations
  nextFunction : s.nextFunction = s'.nextFunction
  output : s.output = s'.output
  clock : s.clock = s'.clock
  readings : s.readings = s'.readings

def ErrorAlike (e e' : RuntimeError) : Prop :=
  e' = e ∨ ∃ line, e = ⟨line, .undefinedVariable x⟩ ∧ e' = ⟨line, .undefinedVariable y⟩

inductive SignalAlike : Signal → Signal → Prop
  | returned {v v' : Value} (h : ValueAlike x y v v') : SignalAlike (.returned v) (.returned v')
  | runtime {e e' : RuntimeError} (h : ErrorAlike x y e e') : SignalAlike (.runtime e) (.runtime e')
  | exhausted : SignalAlike .exhausted .exhausted

inductive EndsAlike {α β : Type} (Q : α → β → Prop) :
    EStateM.Result Signal State α → EStateM.Result Signal State β → Prop
  | ok {a : α} {b : β} {s s' : State} (hstate : StateAlike x y s s') (h : Q a b) :
      EndsAlike Q (.ok a s) (.ok b s')
  | error {signal signal' : Signal} {s s' : State} (hstate : StateAlike x y s s')
      (h : SignalAlike x y signal signal') : EndsAlike Q (.error signal s) (.error signal' s')

def RunsAlike {α β : Type} (Q : α → β → Prop) (p : Eval α) (q : Eval β) : Prop :=
  ∀ s s', StateAlike x y s s' → EndsAlike x y Q (p s) (q s')

end

section

variable {x y : String} {Γ : Pairs} {ν ν' : Names}

theorem NamesAlike.empty : NamesAlike [] .empty .empty := by
  intro a b hab
  exact ⟨rfl, fun _ => hab⟩

/-- A pair with one location for both names hides what was in sight before. -/
theorem NamesAlike.insert (h : NamesAlike Γ ν ν') (p q : String) (l : Location) :
    NamesAlike ((p, q) :: Γ) (ν.insert p l) (ν'.insert q l) := by
  intro a b hab
  rcases hab with ⟨rfl, rfl⟩ | ⟨ha, hb, hab⟩
  · rw [Bindings.find?_insert_self, Bindings.find?_insert_self]
    exact ⟨rfl, nofun⟩
  · rw [Bindings.find?_insert_of_ne (Ne.symm ha), Bindings.find?_insert_of_ne (Ne.symm hb)]
    exact h a b hab

theorem EnvAlike.names {S : Sight} {env env' : Env} (h : EnvAlike S env env') :
    NamesAlike S.pairs env.names env'.names := by
  cases h with
  | outermost => exact .empty
  | inside h => exact h

theorem lookalike_closureAlike (x y : String) : Lookalike (ClosureAlike x y) where
  identity h := by
    cases h
    rfl
  name h := by
    obtain ⟨identity, hnames, hfunction⟩ := h
    exact congrArg Token.lexeme hfunction.name.symm

namespace StateAlike

variable {s s' : State} (h : StateAlike x y s s') {v v' : Value}

include h

theorem valueAt? (l : Location) : Option.Rel (ValueAlike x y) (s.valueAt? l) (s'.valueAt? l) := by
  have hlength := h.locations.length_eq
  unfold State.valueAt?
  by_cases hl : l < s.locations.length
  · have hvalue := h.locations.get hl (hlength ▸ hl)
    rw [List.getElem?_eq_getElem hl, List.getElem?_eq_getElem (hlength ▸ hl)]
    exact hvalue
  · rw [List.getElem?_eq_none (Nat.not_lt.mp hl),
      List.getElem?_eq_none (hlength ▸ Nat.not_lt.mp hl)]
    exact .none

theorem read? {S : Sight} {env env' : Env} (henv : EnvAlike S env env') {a b : String}
    (hab : Paired S.pairs a b) :
    Option.Rel (ValueAlike x y) (s.read? env a) (s'.read? env' b) := by
  obtain ⟨hfind, hglobal⟩ := henv.names a b hab
  unfold State.read?
  rw [← hfind]
  cases hl : env.names.find? a with
  | some l => exact h.valueAt? l
  | none =>
    obtain rfl := hglobal hl
    exact h.globals a

theorem setLocation (l : Location) (hv : ValueAlike x y v v') :
    StateAlike x y (s.setLocation l v) (s'.setLocation l v') := by
  have hset : List.Forall₂ (Option.Rel (ValueAlike x y)) (s.locations.set l (some v))
      (s'.locations.set l (some v')) := by
    have hlocations := h.locations
    generalize s.locations = ls at hlocations ⊢
    generalize s'.locations = ls' at hlocations ⊢
    induction hlocations generalizing l with
    | nil => exact .nil
    | cons hfirst hrest ih =>
      cases l with
      | zero => exact .cons (.some hv) hrest
      | succ l => exact .cons hfirst (ih l)
  exact { h with locations := hset }

theorem setGlobal (z : String) (hv : ValueAlike x y v v') :
    StateAlike x y (s.setGlobal z v) (s'.setGlobal z v') := by
  refine { h with globals := ?_ }
  intro z'
  unfold State.setGlobal
  rw [Bindings.find?_insert, Bindings.find?_insert]
  split
  · exact .some hv
  · exact h.globals z'

theorem take : StateAlike x y s.take s'.take :=
  { h with locations := List.rel_append h.locations (.cons .none .nil) }

/-- Writing to two uses of one variable changes it on both sides. -/
theorem write {S : Sight} {env env' : Env} (henv : EnvAlike S env env') {a b : String}
    (hab : Paired S.pairs a b) (hv : ValueAlike x y v v') :
    StateAlike x y (s.write env a v) (s'.write env' b v') := by
  obtain ⟨hfind, hglobal⟩ := henv.names a b hab
  unfold State.write
  rw [← hfind]
  cases hl : env.names.find? a with
  | some l => exact h.setLocation l hv
  | none =>
    obtain rfl := hglobal hl
    exact h.setGlobal a hv

end StateAlike

/-- A declaration inside of a scope: a location is taken first, and gets its value last. -/
theorem declare_inside_eq (ν : Names) (name : Token) (value : Env → Eval Value) (s : State) :
    declare (.inside ν) name value s =
      match value (.inside (ν.insert name.lexeme s.locations.length)) s.take with
      | .ok v s' => .ok (.inside (ν.insert name.lexeme s.locations.length))
          (s'.setLocation s.locations.length v)
      | .error signal s' => .error signal s' := by
  change EStateM.bind (value _) _ s.take = _
  rw [EStateM.bind]
  cases value (.inside (ν.insert name.lexeme s.locations.length)) s.take <;> rfl

namespace RunsAlike

variable {α β γ δ : Type} {P : α → β → Prop} {Q : γ → δ → Prop} {p : Eval α} {q : Eval β}
  {f : α → Eval γ} {g : β → Eval δ}

theorem pure {a : α} {b : β} (h : P a b) : RunsAlike x y P (Pure.pure a) (Pure.pure b) :=
  fun _ _ hstate => .ok hstate h

theorem throw {signal signal' : Signal} (h : SignalAlike x y signal signal') :
    RunsAlike x y P (MonadExcept.throw signal : Eval α) (MonadExcept.throw signal' : Eval β) :=
  fun _ _ hstate => .error hstate h

theorem stop {t t' : Token} (ht : MarkAlike t t') (cause : RuntimeError.Cause) :
    RunsAlike x y P (Lexical.stop t cause) (Lexical.stop t' cause) :=
  .throw (.runtime (.inl (congrArg (RuntimeError.mk · cause) ht.line)))

/-- Steps that run alike may be put one after the other. -/
theorem bind (hp : RunsAlike x y P p q) (hf : ∀ a b, P a b → RunsAlike x y Q (f a) (g b)) :
    RunsAlike x y Q (p >>= f) (q >>= g) := by
  intro s s' hstate
  have h := hp s s' hstate
  simp only [Bind.bind, EStateM.bind]
  generalize p s = r at h ⊢
  generalize q s' = r' at h ⊢
  cases h with
  | ok hstate h => exact hf _ _ h _ _ hstate
  | error hstate h => exact .error hstate h

theorem modified {u u' : State → State}
    (h : ∀ s s', StateAlike x y s s' → StateAlike x y (u s) (u' s')) :
    RunsAlike x y (fun _ _ => True) (modify u : Eval Unit) (modify u' : Eval Unit) :=
  fun s s' hstate => .ok (h s s' hstate) trivial

theorem ite {c c' : Prop} [Decidable c] [Decidable c'] {p' : Eval α} {q' : Eval β} (hc : c ↔ c')
    (hp : RunsAlike x y P p q) (hq : RunsAlike x y P p' q') :
    RunsAlike x y P (if c then p else p') (if c' then q else q') := by
  by_cases h : c
  · rw [if_pos h, if_pos (hc.mp h)]
    exact hp
  · rw [if_neg h, if_neg fun h' => h (hc.mpr h')]
    exact hq

end RunsAlike

theorem runsAlike_orStop {t t' : Token} (ht : MarkAlike t t')
    {r r' : Except RuntimeError.Cause Value} (h : ValueOf.ResultAlike (ClosureAlike x y) r r') :
    RunsAlike x y (ValueAlike x y) (orStop t r) (orStop t' r') := by
  cases h with
  | ok hv => exact .pure hv
  | error cause => exact .stop ht cause

section

variable {S : Sight} {env env' : Env} {name name' : Token}

/-- The errors of an undefined variable under its two names. -/
theorem errorAlike_undefined (h : Respelled x y name name') :
    ErrorAlike x y (.undefined name) (.undefined name') := by
  rcases h with rfl | ⟨rfl, rfl⟩
  · exact .inl rfl
  · exact .inr ⟨name.line, rfl, rfl⟩

variable (henv : EnvAlike S env env')

include henv

/-- Two uses of one variable read the same value, or fail with the same error up to the name. -/
theorem runsAlike_read (hname : UseAlike x y S.pairs name name') :
    RunsAlike x y (ValueAlike x y) (read env name) (read env' name') := by
  intro s s' hstate
  have hvalue := hstate.read? henv hname.paired
  unfold read
  generalize s.read? env name.lexeme = r at hvalue ⊢
  generalize s'.read? env' name'.lexeme = r' at hvalue ⊢
  cases hvalue with
  | none => exact .error hstate (.runtime (errorAlike_undefined hname.respelled))
  | some hv => exact .ok hstate hv

theorem runsAlike_assign (hname : UseAlike x y S.pairs name name') {v v' : Value}
    (hv : ValueAlike x y v v') :
    RunsAlike x y (fun _ _ => True) (assign env name v) (assign env' name' v') := by
  intro s s' hstate
  have hvalue := hstate.read? henv hname.paired
  have hwrite := hstate.write henv hname.paired hv
  unfold assign
  generalize s.read? env name.lexeme = r at hvalue ⊢
  generalize s'.read? env' name'.lexeme = r' at hvalue ⊢
  cases hvalue with
  | none => exact .error hstate (.runtime (errorAlike_undefined hname.respelled))
  | some _ => exact .ok hwrite trivial

/-- Inside of a scope both sides take one location, which the declared names are paired for. -/
theorem runsAlike_declare (hname : NameAlike x y S name name') {value value' : Env → Eval Value}
    (hvalue : ∀ env₁ env₁', EnvAlike (S.add name name') env₁ env₁' →
      RunsAlike x y (ValueAlike x y) (value env₁) (value' env₁')) :
    RunsAlike x y (EnvAlike (S.add name name')) (declare env name value)
      (declare env' name' value') := by
  cases henv with
  | outermost =>
    obtain rfl := hname.outermost rfl
    apply RunsAlike.bind (hvalue _ _ .outermost)
    intro v v' hv
    apply RunsAlike.bind (.modified fun s s' hstate => hstate.setGlobal name'.lexeme hv)
    intro _ _ _
    exact .pure .outermost
  | @inside Γ ν ν' hnames =>
    intro s s' hstate
    have hlength : s.locations.length = s'.locations.length := hstate.locations.length_eq
    have hinside : EnvAlike (.inside ((name.lexeme, name'.lexeme) :: Γ))
        (.inside (ν.insert name.lexeme s.locations.length))
        (.inside (ν'.insert name'.lexeme s.locations.length)) :=
      .inside (hnames.insert _ _ _)
    have hends := hvalue _ _ hinside s.take s'.take hstate.take
    rw [declare_inside_eq, declare_inside_eq, ← hlength]
    generalize value _ s.take = r at hends ⊢
    generalize value' _ s'.take = r' at hends ⊢
    -- even an initializer that breaks off has seen the location
    cases hends with
    | ok hstate hv => exact .ok (hstate.setLocation _ hv) hinside
    | error hstate h => exact .error hstate h

end

section

variable {v v' : Value} {vs vs' : List Value}

/-- Outside of all scopes there is no call that parameters could be declared for. -/
theorem runsAlike_bindArguments {Γ : Pairs} {ps ps' : List Token} {env env' : Env}
    (hparams : List.Forall₂ (Respelled x y) ps ps') (hvs : List.Forall₂ (ValueAlike x y) vs vs')
    (harity : ps.length = vs.length) (henv : EnvAlike (.inside Γ) env env') :
    RunsAlike x y (EnvAlike (.inside (withParams Γ ps ps'))) (bindArguments env ps vs)
      (bindArguments env' ps' vs') := by
  induction hparams generalizing Γ env env' vs vs' with
  | nil =>
    cases hvs with
    | nil => exact .pure henv
    | cons => cases harity
  | @cons p p' ps ps' hp _ ih =>
    cases hvs with
    | nil => cases harity
    | @cons v v' vs vs' hv hvs =>
      have hname : NameAlike x y (.inside Γ) p p' := ⟨hp, nofun⟩
      apply RunsAlike.bind (runsAlike_declare henv hname fun _ _ _ => .pure hv)
      intro env₁ env₁' henv₁
      exact ih hvs (Nat.succ.inj harity) henv₁

theorem runsAlike_makeClosure {S : Sight} {env env' : Env} {d d' : FunctionDecl}
    (henv : EnvAlike S env env') (hfunction : FunctionAlike x y S.pairs d d') :
    RunsAlike x y (ValueAlike x y) (makeClosure d env) (makeClosure d' env') := by
  intro s s' hstate
  unfold makeClosure
  rw [hstate.nextFunction]
  exact .ok { hstate with nextFunction := rfl } (.function (.mk _ henv.names hfunction))

theorem runsAlike_print (text : String) :
    RunsAlike x y (fun _ _ => True) (print text) (print text) := by
  apply RunsAlike.modified
  intro s s' hstate
  exact { hstate with output := congrArg (· ++ (text ++ "\n").toUTF8) hstate.output }

theorem runsAlike_readClock : RunsAlike x y Eq readClock readClock := by
  intro s s' hstate
  unfold readClock
  rw [hstate.clock, hstate.readings]
  exact .ok { hstate with clock := rfl, readings := rfl } rfl

theorem runsAlike_checkArity {paren paren' : Token} (hparen : MarkAlike paren paren')
    (expected got : Nat) :
    RunsAlike x y (fun _ _ => expected = got) (orStop paren (checkArity expected got))
      (orStop paren' (checkArity expected got)) := by
  cases h : checkArity expected got with
  | ok u => exact .pure (checkArity_eq_ok_iff.mp h)
  | error cause => exact .stop hparen cause

/-- A native function cannot tell the two programs apart. -/
theorem runsAlike_callNative {paren paren' : Token} (hparen : MarkAlike paren paren')
    (f : NativeFunction) (hvs : List.Forall₂ (ValueAlike x y) vs vs') :
    RunsAlike x y (ValueAlike x y) (callNative paren f vs) (callNative paren' f vs') := by
  have hlength : vs.length = vs'.length := hvs.length_eq
  unfold callNative
  rw [hlength]
  apply RunsAlike.bind (runsAlike_checkArity hparen _ _)
  intro _ _ _
  apply RunsAlike.bind runsAlike_readClock
  intro now now' hnow
  subst hnow
  exact runsAlike_orStop hparen (resultAlike_native f now hvs)

/-- A `return` gives the value of the call on both sides. -/
theorem runsAlike_catchReturn {Q : Env → Env → Prop} {body body' : Eval Env}
    (h : RunsAlike x y Q body body') :
    RunsAlike x y (ValueAlike x y) (catchReturn body) (catchReturn body') := by
  intro s s' hstate
  have h := h s s' hstate
  unfold catchReturn
  generalize body s = r at h ⊢
  generalize body' s' = r' at h ⊢
  cases h with
  | ok hstate _ => exact .ok hstate .nil
  | error hstate h =>
    cases h with
    | returned hv => exact .ok hstate hv
    | runtime h => exact .error hstate (.runtime h)
    | exhausted => exact .error hstate .exhausted

end

structure AllAlike (x y : String) (n : Nat) : Prop where
  evaluate : ∀ {S env env' e e'}, EnvAlike S env env' → ExprAlike x y S.pairs e e' →
    RunsAlike x y (ValueAlike x y) (evaluate n env e) (evaluate n env' e')
  evaluateAll : ∀ {S env env' es es'}, EnvAlike S env env' →
    List.Forall₂ (ExprAlike x y S.pairs) es es' →
    RunsAlike x y (List.Forall₂ (ValueAlike x y)) (evaluateAll n env es) (evaluateAll n env' es')
  execute : ∀ {S env env' s s'}, EnvAlike S env env' → StmtAlike x y S s s' →
    RunsAlike x y (EnvAlike (S.after s s')) (execute n env s) (execute n env' s')
  executeAll : ∀ {S env env' ss ss'}, EnvAlike S env env' → StmtsAlike x y S ss ss' →
    RunsAlike x y (fun _ _ => True) (executeAll n env ss) (executeAll n env' ss')

section

variable {n : Nat} {S : Sight} {env env' : Env}

theorem allAlike_zero : AllAlike x y 0 where
  evaluate _ _ := by
    rw [evaluate, evaluate]
    exact .throw .exhausted
  evaluateAll _ _ := by
    rw [evaluateAll, evaluateAll]
    exact .throw .exhausted
  execute _ _ := by
    rw [execute, execute]
    exact .throw .exhausted
  executeAll _ _ := by
    rw [executeAll, executeAll]
    exact .throw .exhausted

/-- A call of the same function runs alike with one unit of fuel less for the body. -/
theorem runsAlike_call (ih : AllAlike x y n) {paren paren' : Token}
    (hparen : MarkAlike paren paren') {v v' : Value} (hv : ValueAlike x y v v')
    {vs vs' : List Value} (hvs : List.Forall₂ (ValueAlike x y) vs vs') :
    RunsAlike x y (ValueAlike x y) (call paren v vs (executeAll n))
      (call paren' v' vs' (executeAll n)) := by
  cases hv with
  | native f => exact runsAlike_callNative hparen f hvs
  | function hclosure =>
    obtain @⟨identity, Γ, d, d', ν, ν', hnames, hfunction⟩ := hclosure
    have hlength : vs.length = vs'.length := hvs.length_eq
    have hparams : d.params.length = d'.params.length := hfunction.params.length_eq
    show RunsAlike x y _ (callClosure paren _ vs _) (callClosure paren' _ vs' _)
    unfold callClosure
    simp only
    rw [← hparams, ← hlength]
    apply RunsAlike.bind (runsAlike_checkArity hparen _ _)
    intro _ _ harity
    apply runsAlike_catchReturn (Q := fun _ _ => True)
    apply RunsAlike.bind (runsAlike_bindArguments hfunction.params hvs harity (.inside hnames))
    intro env env' henv
    exact ih.executeAll henv hfunction.body
  | _ => exact .stop hparen _

/-- One unit of fuel more for expressions, one case for each form. -/
theorem evaluate_alike (ih : AllAlike x y n) {e e' : Expr} (henv : EnvAlike S env env')
    (h : ExprAlike x y S.pairs e e') :
    RunsAlike x y (ValueAlike x y) (evaluate (n + 1) env e) (evaluate (n + 1) env' e') := by
  cases h with
  | literal value =>
    rw [evaluate, evaluate]
    exact .pure (alike_ofLiteral value)
  | grouping h =>
    rw [evaluate, evaluate]
    exact ih.evaluate henv h
  | @unary operator _ _ _ hoperator h =>
    rw [evaluate, evaluate]
    apply RunsAlike.bind (ih.evaluate henv h)
    intro v v' hv
    rw [hoperator.kind]
    exact runsAlike_orStop hoperator (resultAlike_unaryResult operator.kind hv)
  | @binary operator _ _ _ _ _ hoperator hleft hright =>
    rw [evaluate, evaluate]
    apply RunsAlike.bind (ih.evaluate henv hleft)
    intro v v' hv
    apply RunsAlike.bind (ih.evaluate henv hright)
    intro w w' hw
    rw [hoperator.kind]
    exact runsAlike_orStop hoperator
      (resultAlike_binaryResult (lookalike_closureAlike x y) operator.kind hv hw)
  | logical hoperator hleft hright =>
    rw [evaluate, evaluate]
    apply RunsAlike.bind (ih.evaluate henv hleft)
    intro v v' hv
    rw [hoperator.kind]
    exact .ite (by rw [decides_eq _ hv]) (.pure hv) (ih.evaluate henv hright)
  | reference id id' hname =>
    rw [evaluate, evaluate]
    exact runsAlike_read henv hname
  | assign id id' hname hvalue =>
    rw [evaluate, evaluate]
    apply RunsAlike.bind (ih.evaluate henv hvalue)
    intro v v' hv
    apply RunsAlike.bind (runsAlike_assign henv hname hv)
    intro _ _ _
    exact .pure hv
  | call hparen hcallee harguments =>
    rw [evaluate, evaluate]
    apply RunsAlike.bind (ih.evaluate henv hcallee)
    intro v v' hv
    apply RunsAlike.bind (ih.evaluateAll henv harguments)
    intro vs vs' hvs
    exact runsAlike_call ih hparen hv hvs

theorem evaluateAll_alike (ih : AllAlike x y n) {es es' : List Expr} (henv : EnvAlike S env env')
    (h : List.Forall₂ (ExprAlike x y S.pairs) es es') :
    RunsAlike x y (List.Forall₂ (ValueAlike x y)) (evaluateAll (n + 1) env es)
      (evaluateAll (n + 1) env' es') := by
  cases h with
  | nil =>
    rw [evaluateAll, evaluateAll]
    · exact .pure .nil
    all_goals nofun
  | cons hfirst hrest =>
    rw [evaluateAll, evaluateAll]
    apply RunsAlike.bind (ih.evaluate henv hfirst)
    intro v v' hv
    apply RunsAlike.bind (ih.evaluateAll henv hrest)
    intro vs vs' hvs
    exact .pure (.cons hv hvs)

/-- What is in sight after a branch or a loop body does not matter: it is in sight inside only. -/
theorem branch_alike (ih : AllAlike x y n) {s s' : Stmt} (henv : EnvAlike S env env')
    (h : StmtAlike x y S s s') : RunsAlike x y (EnvAlike S)
      (do let _ ← execute n env s; return env) (do let _ ← execute n env' s'; return env') := by
  apply RunsAlike.bind (ih.execute henv h)
  intro _ _ _
  exact .pure henv

/-- One unit of fuel more for statements, one case for each form. -/
theorem execute_alike (ih : AllAlike x y n) {s s' : Stmt} (henv : EnvAlike S env env')
    (h : StmtAlike x y S s s') :
    RunsAlike x y (EnvAlike (S.after s s')) (execute (n + 1) env s) (execute (n + 1) env' s') := by
  cases h with
  | expression h =>
    rw [execute, execute]
    apply RunsAlike.bind (ih.evaluate henv h)
    intro _ _ _
    exact .pure henv
  | print h =>
    rw [execute, execute]
    apply RunsAlike.bind (ih.evaluate henv h)
    intro v v' hv
    rw [hv.text_eq (lookalike_closureAlike x y)]
    apply RunsAlike.bind (runsAlike_print v'.text)
    intro _ _ _
    exact .pure henv
  | declare hname =>
    rw [execute, execute]
    exact runsAlike_declare henv hname fun _ _ _ => .pure .nil
  | initialized hname h =>
    rw [execute, execute]
    exact runsAlike_declare henv hname fun _ _ henv₁ => ih.evaluate henv₁ h
  | block h =>
    rw [execute, execute]
    apply RunsAlike.bind (ih.executeAll (.inside henv.names) h)
    intro _ _ _
    exact .pure henv
  | ifThen hcondition hthen =>
    rw [execute, execute]
    apply RunsAlike.bind (ih.evaluate henv hcondition)
    intro v v' hv
    have htruthy := hv.isTruthy_eq
    exact .ite (by rw [htruthy]) (branch_alike ih henv hthen) (.pure henv)
  | ifElse hcondition hthen helse =>
    rw [execute, execute]
    apply RunsAlike.bind (ih.evaluate henv hcondition)
    intro v v' hv
    have htruthy := hv.isTruthy_eq
    exact .ite (by rw [htruthy]) (branch_alike ih henv hthen) (branch_alike ih henv helse)
  | whileLoop hcondition hbody =>
    rw [execute, execute]
    apply RunsAlike.bind (ih.evaluate henv hcondition)
    intro v v' hv
    have htruthy := hv.isTruthy_eq
    apply RunsAlike.ite (by rw [htruthy])
    · apply RunsAlike.bind (ih.execute henv hbody)
      intro _ _ _
      exact ih.execute henv (.whileLoop hcondition hbody)
    · exact .pure henv
  | function name hparams hbody =>
    rw [execute, execute]
    have hname : NameAlike x y S name name := ⟨.inl rfl, fun _ => rfl⟩
    exact runsAlike_declare henv hname fun _ _ henv₁ =>
      runsAlike_makeClosure henv₁ ⟨rfl, hparams, hbody⟩
  | ret keyword keyword' =>
    rw [execute, execute]
    exact .throw (.returned .nil)
  | retValue keyword keyword' h =>
    rw [execute, execute]
    apply RunsAlike.bind (ih.evaluate henv h)
    intro v v' hv
    exact .throw (.returned hv)

/-- The statements of a list run alike, each with what is in sight after the ones before it. -/
theorem executeAll_alike (ih : AllAlike x y n) {ss ss' : List Stmt} (henv : EnvAlike S env env')
    (h : StmtsAlike x y S ss ss') :
    RunsAlike x y (fun _ _ => True) (executeAll (n + 1) env ss) (executeAll (n + 1) env' ss') := by
  cases h with
  | nil =>
    rw [executeAll, executeAll]
    · exact .pure trivial
    all_goals nofun
  | cons hfirst hrest =>
    rw [executeAll, executeAll]
    apply RunsAlike.bind (ih.execute henv hfirst)
    intro env₁ env₁' henv₁
    exact ih.executeAll henv₁ hrest

end

theorem allAlike (x y : String) (n : Nat) : AllAlike x y n := by
  -- on the fuel, which both runs use up alike
  induction n with
  | zero => exact allAlike_zero
  | succ n ih => exact ⟨evaluate_alike ih, evaluateAll_alike ih, execute_alike ih, executeAll_alike ih⟩

/-- Two outcomes that are the same but for the name that the error of an undefined variable quotes. -/
inductive OutcomeAlike (x y : String) : Outcome → Outcome → Prop
  | same (o : Outcome) : OutcomeAlike x y o o
  | runtime {e e' : RuntimeError} (h : ErrorAlike x y e e') :
      OutcomeAlike x y (.runtime e) (.runtime e')

/-- Before any program has run, the states on both sides are one. -/
theorem stateAlike_start (clock : Clock) : StateAlike x y (.start clock) (.start clock) where
  globals z := by
    unfold State.start
    rw [Bindings.find?_insert]
    split
    · exact .some (.native _)
    · exact .none
  locations := .nil
  nextFunction := rfl
  output := rfl
  clock := rfl
  readings := rfl

/-- Programs that are the same but for the name of a local variable end alike. -/
theorem interpret_alike {p p' : List Stmt} (h : StmtsAlike x y .outermost p p') (n : Nat)
    {s s' : State} (hstate : StateAlike x y s s') :
    OutcomeAlike x y (interpret n p s).1 (interpret n p' s').1 ∧
      StateAlike x y (interpret n p s).2 (interpret n p' s').2 := by
  have hends := (allAlike x y n).executeAll .outermost h s s' hstate
  unfold interpret
  generalize executeAll n .outermost p s = r at hends ⊢
  generalize executeAll n .outermost p' s' = r' at hends ⊢
  cases hends with
  | ok hstate _ => exact ⟨.same _, hstate⟩
  | error hstate h =>
    cases h with
    | returned _ => exact ⟨.same _, hstate⟩
    | runtime h => exact ⟨.runtime h, hstate⟩
    | exhausted => exact ⟨.same _, hstate⟩

end

end LoxLang.Lexical.Renaming

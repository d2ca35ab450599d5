import LoxLang.Proofs.Running.Tasks
import LoxLang.Proofs.Values

/-!
Where the error of an undefined variable comes from: a task that ends with it has on its way evaluated
a use of that variable, and it was there that the variable was not found. No other step of a program
has this error.
-/
namespace LoxLang

inductive Fails (n : Nat) (signal : Signal) : Task → Machine → Prop
  | expr {m m' : Machine} {own : Option String} {e : Expr} (h : evaluate n e m = .error signal m') :
      Fails n signal (.expr own e) m
  | exprs {m m' : Machine} {own : Option String} {es : List Expr}
      (h : evaluateAll n es m = .error signal m') : Fails n signal (.exprs own es) m
  | stmt {m m' : Machine} {s : Stmt} (h : execute n s m = .error signal m') :
      Fails n signal (.stmt s) m
  | stmts {m m' : Machine} {ss : List Stmt} (h : executeAll n ss m = .error signal m') :
      Fails n signal (.stmts ss) m

def IsUndefined (x : String) (signal : Signal) : Prop :=
  ∃ e : RuntimeError, signal = .runtime e ∧ e.cause = .undefinedVariable x

def FindsAll (p : Run α) : Prop :=
  ∀ m m' signal, p m = .error signal m' → ∀ x, ¬IsUndefined x signal

def OnlyFaults (p : Run α) : Prop :=
  ∀ m m' signal, p m = .error signal m' →
    ∃ e : RuntimeError, signal = .runtime e ∧ ∀ x, e.cause ≠ .undefinedVariable x

section

variable {α β : Type} {p : Run α} {f : α → Run β} {m m' : Machine} {signal : Signal}

theorem bind_eq_error (h : (p >>= f) m = .error signal m') :
    p m = .error signal m' ∨ ∃ a m₁, p m = .ok a m₁ ∧ f a m₁ = .error signal m' := by
  simp only [Bind.bind, EStateM.bind] at h
  cases hp : p m with
  | ok a m₁ =>
    rw [hp] at h
    exact .inr ⟨a, m₁, rfl, h⟩
  | error s m₁ =>
    rw [hp] at h
    cases h
    exact .inl rfl

theorem OnlyFaults.findsAll (h : OnlyFaults p) : FindsAll p := by
  intro m m' signal hp x hundefined
  obtain ⟨e, rfl, hcause⟩ := h m m' signal hp
  obtain ⟨_, ⟨⟩, hx⟩ := hundefined
  exact hcause x hx

theorem onlyFaults_pure (a : α) : OnlyFaults (pure a : Run α) := by
  intro m m' signal h
  cases h

theorem OnlyFaults.bind (hp : OnlyFaults p) (hf : ∀ a, OnlyFaults (f a)) : OnlyFaults (p >>= f) := by
  intro m m' signal h
  rcases bind_eq_error h with h | ⟨a, m₁, -, h⟩
  · exact hp m m' signal h
  · exact hf a m₁ m' signal h

theorem onlyFaults_stop (t : Token) {cause : RuntimeError.Cause}
    (h : ∀ x, cause ≠ .undefinedVariable x) : OnlyFaults (Run.stop t cause : Run α) := by
  intro m m' signal hstop
  cases hstop
  exact ⟨_, rfl, h⟩

theorem onlyFaults_readClock : OnlyFaults Run.readClock := by
  intro m m' signal h
  cases h

theorem onlyFaults_define (x : String) (v : Value) : OnlyFaults (Run.define x v) := by
  intro m m' signal h
  cases h

theorem onlyFaults_orStop (t : Token) {result : Except RuntimeError.Cause α}
    (h : ∀ cause, result = .error cause → ∀ x, cause ≠ .undefinedVariable x) :
    OnlyFaults (Run.orStop t result) := by
  cases result with
  | ok a => exact onlyFaults_pure a
  | error cause => exact onlyFaults_stop t (h cause rfl)

theorem onlyFaults_unaryResult (operator : Token) (right : Value) :
    OnlyFaults (Run.orStop operator (unaryResult operator.kind right)) := by
  refine onlyFaults_orStop operator fun cause h x => ?_
  rcases unaryResult_eq_error h with rfl | ⟨rfl, -⟩ <;> nofun

theorem onlyFaults_binaryResult (operator : Token) (left right : Value) :
    OnlyFaults (Run.orStop operator (binaryResult operator.kind left right)) := by
  refine onlyFaults_orStop operator fun cause h x => ?_
  rcases binaryResult_eq_error h with rfl | ⟨rfl, -⟩ <;> nofun

theorem onlyFaults_checkArity (paren : Token) (expected got : Nat) :
    OnlyFaults (Run.orStop paren (checkArity expected got)) := by
  refine onlyFaults_orStop paren fun cause h x => ?_
  rw [checkArity_eq_error h]
  nofun

theorem onlyFaults_callNative (paren : Token) (f : NativeFunction) (arguments : List Value) :
    OnlyFaults (Run.callNative paren f arguments) := by
  refine (onlyFaults_checkArity paren _ _).bind fun _ => onlyFaults_readClock.bind fun now => ?_
  refine onlyFaults_orStop paren fun cause h x => ?_
  obtain ⟨message, rfl, -⟩ := result_eq_error h
  nofun

theorem onlyFaults_bindArguments (params : List Token) (vs : List Value) :
    OnlyFaults (Run.bindArguments params vs) := by
  induction params generalizing vs with
  | nil => exact onlyFaults_pure _
  | cons p params ih =>
    cases vs with
    | nil => exact onlyFaults_pure _
    | cons v vs => exact (onlyFaults_define _ v).bind fun _ => ih vs

/-- A print breaks off because of the output only. -/
theorem findsAll_print (text : String) : FindsAll (Run.print text) := by
  intro m m' signal h x hundefined
  obtain ⟨e, rfl, -⟩ := hundefined
  simp only [Run.print] at h
  split at h <;> cases h

end

inductive Misses (n : Nat) (id : ReferenceId) (name : Token) : Expr → Machine → Prop
  | reference {m m' : Machine} (h : Run.read id name m = .error (.runtime (.undefined name)) m') :
      Misses n id name (.reference id name) m
  | assign {m m₁ m' : Machine} {value : Expr} {v : Value} (hvalue : evaluate n value m = .ok v m₁)
      (h : Run.assign id name v m₁ = .error (.runtime (.undefined name)) m') :
      Misses n id name (.assign id name value) m

def Arises (n : Nat) (t : Task) (m : Machine) (signal : Signal) : Prop :=
  ∃ k own e id name m', Begins n t m (k + 1) (.expr own e) m' ∧ Misses k id name e m' ∧
    signal = .runtime (.undefined name)

section

variable {n k : Nat} {t t' : Task} {m m' : Machine} {own : Option String} {signal : Signal}
  {x : String}

theorem Begins.trans (h : Begins n t m k t' m') {j : Nat} {t'' : Task} {m'' : Machine}
    (h' : Begins k t' m' j t'' m'') : Begins n t m j t'' m'' := by
  induction h' with
  | itself => exact h
  | call _ hcalls ih => exact ih.call hcalls

theorem Arises.of_calls (hcalls : Calls n t m t' m') (h : Arises n t' m' signal) :
    Arises (n + 1) t m signal := by
  obtain ⟨k, own, e, id, name, m'', hbegins, hmisses⟩ := h
  exact ⟨k, own, e, id, name, m'', (Begins.itself.call hcalls).trans hbegins, hmisses⟩

theorem signal_of_locate {id : ReferenceId} {name : Token}
    (h : Run.locate id name m = .error signal m') : signal = .runtime (.undefined name) := by
  unfold Run.locate at h
  simp only at h
  split at h
  · cases h
  · cases h
    rfl

/-- A read fails in one way only. -/
theorem signal_of_read {id : ReferenceId} {name : Token} (h : Run.read id name m = .error signal m') :
    signal = .runtime (.undefined name) := by
  rcases bind_eq_error h with h | ⟨a, m₁, -, h⟩
  · exact signal_of_locate h
  · rcases bind_eq_error h with h | ⟨m₂, m₃, -, h⟩
    · cases h
    · cases hv : m₂.store.readTable a name.lexeme with
      | some v =>
        rw [hv] at h
        cases h
      | none =>
        rw [hv] at h
        cases h
        rfl

theorem signal_of_assign {id : ReferenceId} {name : Token} {v : Value}
    (h : Run.assign id name v m = .error signal m') : signal = .runtime (.undefined name) := by
  rcases bind_eq_error h with h | ⟨a, m₁, -, h⟩
  · exact signal_of_locate h
  · cases h

theorem catchReturn_eq_error {body : Run Unit} (h : Run.catchReturn body m = .error signal m') :
    body m = .error signal m' := by
  simp only [Run.catchReturn] at h
  split at h
  · cases h
  · cases h
  · next signal' m₁ _ hbody =>
    rw [hbody]
    cases h
    rfl

theorem inNewScope_eq_error {α : Type} {outer : Environment} {step : Run α}
    (h : Run.inNewScope outer step m = .error signal m') :
    ∃ m₁, step (m.enter outer) = .error signal m₁ := by
  simp only [Run.inNewScope, Run.inEnvironment] at h
  split at h
  · cases h
  · next signal' m₁ hstep =>
    cases h
    exact ⟨m₁, hstep⟩

theorem eq_of_checkArity {paren : Token} {expected got : Nat} {u : Unit}
    (h : Run.orStop paren (checkArity expected got) m = .ok u m') : expected = got ∧ m' = m := by
  cases hresult : checkArity expected got with
  | ok u =>
    rw [hresult] at h
    cases h
    exact ⟨checkArity_eq_ok_iff.mp hresult, rfl⟩
  | error cause =>
    rw [hresult] at h
    cases h

/-- A statement breaks off where a task that it calls does, at a line that the output does not take, or
with the value of a `return`. -/
inductive BreaksOff (n : Nat) (signal : Signal) : Stmt → Machine → Prop
  | called {s : Stmt} {m m' : Machine} {t : Task} (hcalls : Calls n (.stmt s) m t m')
      (h : Fails n signal t m') : BreaksOff n signal s m
  | printed {m m₁ m' : Machine} {e : Expr} {text : String}
      (h : Run.print text m₁ = .error signal m') : BreaksOff n signal (.print e) m
  | returnedNil {m : Machine} {keyword : Token} (h : signal = .returned .nil) :
      BreaksOff n signal (.ret keyword none) m
  | returned {m m' : Machine} {keyword : Token} {e : Expr} {v : Value}
      (hvalue : evaluate n e m = .ok v m') (h : signal = .returned v) :
      BreaksOff n signal (.ret keyword (some e)) m

/-- The ways for a statement to break off are those of its parts, a line that does not fit, and a `return`.
-/
theorem breaksOff_of_execute {s : Stmt} (h : execute (n + 1) s m = .error signal m') :
    BreaksOff n signal s m := by
  cases s with
  | expression e =>
    rw [execute] at h
    rcases bind_eq_error h with h | ⟨v, m₁, -, h⟩
    · exact .called .expression (.expr h)
    · cases h
  | print e =>
    rw [execute] at h
    rcases bind_eq_error h with h | ⟨v, m₁, -, h⟩
    · exact .called .print (.expr h)
    · exact .printed h
  | declare name initializer =>
    cases initializer with
    | none =>
      rw [execute] at h
      cases h
    | some e =>
      rw [execute] at h
      rcases bind_eq_error h with h | ⟨v, m₁, -, h⟩
      · exact .called .initializer (.expr h)
      · cases h
  | block body =>
    rw [execute] at h
    rcases bind_eq_error h with h | ⟨m₁, m₂, hget, h⟩
    · cases h
    · cases hget
      obtain ⟨m₃, h⟩ := inNewScope_eq_error h
      exact .called .block (.stmts h)
  | ifThen condition thenBranch =>
    rw [execute] at h
    rcases bind_eq_error h with h | ⟨v, m₁, hcondition, h⟩
    · exact .called .ifThenCondition (.expr h)
    · split at h
      · next htruthy => exact .called (.ifThenBranch hcondition htruthy) (.stmt h)
      · cases h
  | ifElse condition thenBranch elseBranch =>
    rw [execute] at h
    rcases bind_eq_error h with h | ⟨v, m₁, hcondition, h⟩
    · exact .called .ifElseCondition (.expr h)
    · have hbranch : execute n (if v.isTruthy then thenBranch else elseBranch) m₁ =
          .error signal m' := by
        split at h
        · next htruthy => rw [if_pos htruthy, h]
        · next htruthy => rw [if_neg htruthy, h]
      exact .called (.ifElseBranch hcondition) (.stmt hbranch)
  | whileLoop condition body =>
    rw [execute] at h
    rcases bind_eq_error h with h | ⟨v, m₁, hcondition, h⟩
    · exact .called .whileCondition (.expr h)
    · split at h
      · next htruthy =>
        rcases bind_eq_error h with h | ⟨_, m₂, hbody, h⟩
        · exact .called (.whileBody hcondition htruthy) (.stmt h)
        · exact .called (.whileAgain hcondition htruthy hbody) (.stmt h)
      · cases h
  | function name params body =>
    rw [execute] at h
    rcases bind_eq_error h with h | ⟨v, m₁, -, h⟩ <;> cases h
  | ret keyword value =>
    cases value with
    | none =>
      rw [execute] at h
      cases h
      exact .returnedNil rfl
    | some e =>
      rw [execute] at h
      rcases bind_eq_error h with h | ⟨v, m₁, hvalue, h⟩
      · exact .called .returned (.expr h)
      · cases h
        exact .returned hvalue rfl

/-- A list of statements breaks off where one of them does. -/
theorem called_of_executeAll {ss : List Stmt} (h : executeAll (n + 1) ss m = .error signal m') :
    ∃ t m₁, Calls n (.stmts ss) m t m₁ ∧ Fails n signal t m₁ := by
  cases ss with
  | nil =>
    rw [executeAll] at h
    · cases h
    · nofun
  | cons s ss =>
    rw [executeAll] at h
    rcases bind_eq_error h with h | ⟨_, m₁, hfirst, h⟩
    · exact ⟨_, _, .firstStmt, .stmt h⟩
    · exact ⟨_, _, .laterStmts hfirst, .stmts h⟩

def Traces (x : String) (signal : Signal) (n : Nat) : Prop :=
  ∀ t m, Fails n signal t m → IsUndefined x signal → Arises n t m signal

/-- The error of a call is that of its callee, its arguments or its body. -/
theorem arises_call (ih : Traces x signal n) (hundefined : IsUndefined x signal) {callee : Expr}
    {paren : Token} {arguments : List Expr}
    (h : evaluate (n + 1) (.call callee paren arguments) m = .error signal m') :
    Arises (n + 1) (.expr own (.call callee paren arguments)) m signal := by
  rw [evaluate] at h
  rcases bind_eq_error h with h | ⟨f, m₁, hcallee, h⟩
  · exact (ih _ _ (.expr h) hundefined).of_calls .callee
  rcases bind_eq_error h with h | ⟨vs, m₂, harguments, h⟩
  · exact (ih _ _ (.exprs h) hundefined).of_calls (.arguments hcallee)
  have hcause : ∀ x, RuntimeError.Cause.notCallable ≠ .undefinedVariable x := fun x => nofun
  cases f with
  | native f => exact absurd hundefined ((onlyFaults_callNative paren f vs).findsAll m₂ m' signal h x)
  | function f =>
    rw [Run.call, Run.callClosure] at h
    rcases bind_eq_error h with h | ⟨_, m₃, hchecked, hcatch⟩
    · exact absurd hundefined ((onlyFaults_checkArity paren _ _).findsAll m₂ m' signal h x)
    -- a return is caught, so an error that leaves the call is one that left the body
    obtain ⟨harity, hm₃⟩ := eq_of_checkArity hchecked
    rw [hm₃] at hcatch
    obtain ⟨m₄, hscope⟩ := inNewScope_eq_error (catchReturn_eq_error hcatch)
    rcases bind_eq_error hscope with h | ⟨_, m₅, hbound, hbody⟩
    · exact absurd hundefined ((onlyFaults_bindArguments _ vs).findsAll _ _ signal h x)
    · exact (ih _ _ (.stmts hbody) hundefined).of_calls (.body hcallee harguments harity hbound)
  | _ => exact absurd hundefined ((onlyFaults_stop paren hcause).findsAll m₂ m' signal h x)

/-- One unit of fuel more for expressions; only uses of variables raise the error themselves. -/
theorem traces_expr (ih : Traces x signal n) (hundefined : IsUndefined x signal) {e : Expr}
    (h : evaluate (n + 1) e m = .error signal m') : Arises (n + 1) (.expr own e) m signal := by
  -- an error comes from a task that is called, or from the own step; of these only uses raise this one
  cases e with
  | literal value =>
    rw [evaluate] at h
    cases h
  | grouping inner =>
    rw [evaluate] at h
    exact (ih _ _ (.expr h) hundefined).of_calls .grouping
  | unary operator right =>
    rw [evaluate] at h
    rcases bind_eq_error h with h | ⟨v, m₁, -, h⟩
    · exact (ih _ _ (.expr h) hundefined).of_calls .unary
    · exact absurd hundefined ((onlyFaults_unaryResult operator v).findsAll m₁ m' signal h x)
  | binary left operator right =>
    rw [evaluate] at h
    rcases bind_eq_error h with h | ⟨v, m₁, hleft, h⟩
    · exact (ih _ _ (.expr h) hundefined).of_calls .binaryLeft
    rcases bind_eq_error h with h | ⟨w, m₂, -, h⟩
    · exact (ih _ _ (.expr h) hundefined).of_calls (.binaryRight hleft)
    · exact absurd hundefined ((onlyFaults_binaryResult operator v w).findsAll m₂ m' signal h x)
  | logical left operator right =>
    rw [evaluate] at h
    rcases bind_eq_error h with h | ⟨v, m₁, hleft, h⟩
    · exact (ih _ _ (.expr h) hundefined).of_calls .logicalLeft
    · split at h
      · cases h
      · next hdecides =>
        have hdecides := Bool.eq_false_iff.mpr hdecides
        exact (ih _ _ (.expr h) hundefined).of_calls (.logicalRight hleft hdecides)
  | reference id name =>
    rw [evaluate] at h
    have hsignal := signal_of_read h
    subst hsignal
    exact ⟨n, own, _, id, name, m, .itself, .reference h, rfl⟩
  | assign id name value =>
    rw [evaluate] at h
    rcases bind_eq_error h with h | ⟨v, m₁, hvalue, h⟩
    · exact (ih _ _ (.expr h) hundefined).of_calls .assigned
    rcases bind_eq_error h with h | ⟨_, m₂, -, h⟩
    · have hsignal := signal_of_assign h
      subst hsignal
      exact ⟨n, own, _, id, name, m, .itself, .assign hvalue h, rfl⟩
    · cases h
  | call callee paren arguments => exact arises_call ih hundefined h

theorem traces_exprs (ih : Traces x signal n) (hundefined : IsUndefined x signal) {es : List Expr}
    (h : evaluateAll (n + 1) es m = .error signal m') : Arises (n + 1) (.exprs own es) m signal := by
  cases es with
  | nil =>
    rw [evaluateAll] at h
    · cases h
    · nofun
  | cons e es =>
    rw [evaluateAll] at h
    rcases bind_eq_error h with h | ⟨v, m₁, hfirst, h⟩
    · exact (ih _ _ (.expr h) hundefined).of_calls .firstExpr
    rcases bind_eq_error h with h | ⟨vs, m₂, -, h⟩
    · exact (ih _ _ (.exprs h) hundefined).of_calls (.laterExprs hfirst)
    · cases h

theorem traces_stmt (ih : Traces x signal n) (hundefined : IsUndefined x signal) {s : Stmt}
    (h : execute (n + 1) s m = .error signal m') : Arises (n + 1) (.stmt s) m signal := by
  cases breaksOff_of_execute h with
  | called hcalls hfails => exact (ih _ _ hfails hundefined).of_calls hcalls
  | printed hprint => exact absurd hundefined (findsAll_print _ _ _ signal hprint x)
  | returnedNil hsignal | returned _ hsignal =>
    obtain ⟨e, he, -⟩ := hundefined
    cases hsignal.symm.trans he

theorem traces_stmts (ih : Traces x signal n) (hundefined : IsUndefined x signal) {ss : List Stmt}
    (h : executeAll (n + 1) ss m = .error signal m') : Arises (n + 1) (.stmts ss) m signal := by
  obtain ⟨t, m₁, hcalls, hfails⟩ := called_of_executeAll h
  exact (ih _ _ hfails hundefined).of_calls hcalls

end

/-- The error of an undefined variable arises at a use that does not find it. -/
theorem traces (x : String) (signal : Signal) (n : Nat) : Traces x signal n := by
  induction n with
  | zero =>
    intro t m h hundefined
    obtain ⟨e, rfl, -⟩ := hundefined
    cases h with
    | expr h =>
      rw [evaluate] at h
      cases h
    | exprs h =>
      rw [evaluateAll] at h
      cases h
    | stmt h =>
      rw [execute] at h
      cases h
    | stmts h =>
      rw [executeAll] at h
      cases h
  | succ n ih =>
    intro t m h hundefined
    cases h with
    | expr h => exact traces_expr ih hundefined h
    | exprs h => exact traces_exprs ih hundefined h
    | stmt h => exact traces_stmt ih hundefined h
    | stmts h => exact traces_stmts ih hundefined h

/-- A program that ends with a runtime error has been broken off by it. -/
theorem executeAll_of_interpret {fuel : Nat} {program : List Stmt} {m m' : Machine} {e : RuntimeError}
    (h : interpret fuel program m = (.runtime e, m')) :
    executeAll fuel program m = .error (.runtime e) m' := by
  have hflush (m₁ : Machine) : m₁.flush ≠ .runtime e := by
    unfold Machine.flush
    split <;> nofun
  unfold interpret at h
  split at h
  · exact absurd (Prod.mk.inj h).1 (hflush _)
  · exact absurd (Prod.mk.inj h).1 (hflush _)
  · next hrun =>
    cases h
    exact hrun
  · cases h
  · cases h

end LoxLang

import LoxLang.Proofs.Lexical.Evaluation
import LoxLang.Proofs.Lexical.Walk

/-!
Programs one after the other. The static rules keep `return` inside of functions, so a program that
they accept is not ended by one: it comes to its end, outside of all scopes, or to an error. What stands
after it is then run as if it stood alone. Main statement: `interpret_append`.
-/
namespace LoxLang

mutual

/-- No `return` stands outside of the functions in a statement. -/
def Returnless : Stmt → Prop
  | .block body => ReturnlessAll body
  | .ifThen _ thenBranch => Returnless thenBranch
  | .ifElse _ thenBranch elseBranch => Returnless thenBranch ∧ Returnless elseBranch
  | .whileLoop _ body => Returnless body
  | .ret _ _ => False
  | .expression _ | .print _ | .declare _ _ | .function _ _ _ => True

def ReturnlessAll : List Stmt → Prop
  | [] => True
  | s :: ss => Returnless s ∧ ReturnlessAll ss

end

section

variable {f : ReferenceId → ReferenceId} {g : Token → Token}

mutual

/-- Labels do not matter for where a `return` stands. -/
theorem Returnless.relabel {s : Stmt} (h : Returnless s) : Returnless (s.relabel f g) := by
  match s with
  | .expression _ | .print _ | .declare _ none | .declare _ (some _) | .function _ _ _ => trivial
  | .block body => exact ReturnlessAll.relabel h
  | .ifThen _ thenBranch =>
    have hthen : Returnless thenBranch := h
    exact hthen.relabel
  | .ifElse _ thenBranch elseBranch =>
    obtain ⟨hthen, helse⟩ : Returnless thenBranch ∧ Returnless elseBranch := h
    exact ⟨hthen.relabel, helse.relabel⟩
  | .whileLoop _ body =>
    have hbody : Returnless body := h
    exact hbody.relabel
  | .ret _ _ => exact absurd h id

theorem ReturnlessAll.relabel {ss : List Stmt} (h : ReturnlessAll ss) :
    ReturnlessAll (Stmt.relabelAll f g ss) := by
  match ss with
  | [] => exact h
  | s :: ss =>
    obtain ⟨hfirst, hrest⟩ : Returnless s ∧ ReturnlessAll ss := h
    exact ⟨hfirst.relabel, hrest.relabel⟩

end

end

open Resolution (walkExpr walkValue walkStmt walkStmts)

open Lexical

mutual

/-- A walk outside of all functions reports every `return`. -/
theorem returnless_of_walkStmt (stmt : Stmt) (hshaped : Shaped stmt) (s : Resolution.State)
    (h : (walkStmt false s stmt).errors.size = s.errors.size) : Returnless stmt := by
  match stmt with
  | .expression _ | .print _ | .declare _ _ | .function _ _ _ => trivial
  | .block body =>
    rw [walkStmt] at h
    exact returnless_of_walkStmts body hshaped s.openScope h
  | .ifThen condition thenBranch =>
    rw [walkStmt] at h
    have hcondition := (walks_walkExpr condition s).2.errors
    have hthen := (walks_walkStmt thenBranch hshaped.2 false (walkExpr s condition)).2.errors
    exact returnless_of_walkStmt thenBranch hshaped.2 (walkExpr s condition) (by omega)
  | .ifElse condition thenBranch elseBranch =>
    rw [walkStmt] at h
    obtain ⟨⟨-, hthenShaped⟩, -, helseShaped⟩ := hshaped
    have hcondition := (walks_walkExpr condition s).2.errors
    generalize walkExpr s condition = s₁ at h hcondition
    have hthen := (walks_walkStmt thenBranch hthenShaped false s₁).2.errors
    have helse := (walks_walkStmt elseBranch helseShaped false (walkStmt false s₁ thenBranch)).2.errors
    exact ⟨returnless_of_walkStmt thenBranch hthenShaped s₁ (by omega),
      returnless_of_walkStmt elseBranch helseShaped (walkStmt false s₁ thenBranch) (by omega)⟩
  | .whileLoop condition body =>
    rw [walkStmt] at h
    have hcondition := (walks_walkExpr condition s).2.errors
    have hbody := (walks_walkStmt body hshaped.2 false (walkExpr s condition)).2.errors
    exact returnless_of_walkStmt body hshaped.2 (walkExpr s condition) (by omega)
  | .ret keyword value =>
    rw [walkStmt] at h
    have hvalue := (walks_walkValue value (s.report .topLevelReturn keyword)).2.errors
    have hreport : (s.report .topLevelReturn keyword).errors.size = s.errors.size + 1 :=
      Array.size_push ..
    simp only [Bool.false_eq_true, if_false] at h
    omega

/-- A walk outside of all functions that reports nothing has met no `return`. -/
theorem returnless_of_walkStmts (stmts : List Stmt) (hshaped : ShapedAll stmts)
    (s : Resolution.State) (h : (walkStmts false s stmts).errors.size = s.errors.size) :
    ReturnlessAll stmts := by
  match stmts with
  | [] => trivial
  | stmt :: stmts =>
    rw [walkStmts] at h
    have hfirst := (walks_walkStmt stmt hshaped.1 false s).2.errors
    have hrest := (walks_walkStmts stmts hshaped.2 false (walkStmt false s stmt)).2.errors
    exact ⟨returnless_of_walkStmt stmt hshaped.1 s (by omega),
      returnless_of_walkStmts stmts hshaped.2 (walkStmt false s stmt) (by omega)⟩

end

theorem returnless_of_resolve {distances : Distances} {program : List Stmt}
    (hshaped : ShapedAll program) (h : (resolve distances program).errors = []) :
    ReturnlessAll program := by
  refine returnless_of_walkStmts program hshaped ⟨[], distances, #[]⟩ ?_
  have hlength := congrArg List.length h
  simpa [resolve] using hlength

namespace Lexical

/-- The step is not ended by a `return`, and its result, if it has one, satisfies a condition. -/
def Settles {α : Type} (a : Eval α) (p : α → Prop) : Prop := ∀ s,
  match a s with
  | .ok x _ => p x
  | .error (.returned _) _ => False
  | .error _ _ => True

namespace Settles

variable {α β : Type} {p : α → Prop} {q : β → Prop}

theorem pure {x : α} (h : p x) : Settles (Pure.pure x) p := fun _ => h

theorem stop (t : Token) (cause : RuntimeError.Cause) : Settles (stop t cause) p := fun _ => trivial

theorem exhausted : Settles (throw .exhausted) p := fun _ => trivial

theorem modify (f : State → State) : Settles (modify f) fun _ => True := fun _ => trivial

/-- Steps that no `return` ends may be put one after the other. -/
theorem bind {a : Eval α} {f : α → Eval β} (h : Settles a p) (hf : ∀ x, p x → Settles (f x) q) :
    Settles (a >>= f) q := by
  intro s
  have hstep := h s
  simp only [Bind.bind, EStateM.bind]
  generalize a s = x at hstep
  cases x with
  | ok x s => exact hf x hstep s
  | error signal s => cases signal <;> exact hstep

theorem mono {a : Eval α} {p' : α → Prop} (h : Settles a p) (le : ∀ x, p x → p' x) :
    Settles a p' := by
  intro s
  have hstep := h s
  generalize a s = x at hstep
  cases x with
  | ok x s => exact le x hstep
  | error signal s => cases signal <;> exact hstep

theorem ite {c : Prop} [Decidable c] {a b : Eval α} (ha : Settles a p) (hb : Settles b p) :
    Settles (if c then a else b) p := by
  split
  · exact ha
  · exact hb

/-- A call takes up every `return` of its body. -/
theorem catchReturn (body : Eval Env) : Settles (catchReturn body) fun _ => True := by
  intro s
  unfold Lexical.catchReturn
  generalize body s = x
  cases x with
  | ok x s => exact trivial
  | error signal s => cases signal <;> exact trivial

end Settles

abbrev Stays (env env' : Env) : Prop := env = .outermost → env' = .outermost

theorem settles_read (env : Env) (name : Token) : Settles (read env name) fun _ => True := by
  intro s
  unfold read
  cases s.read? env name.lexeme <;> exact trivial

theorem settles_assign (env : Env) (name : Token) (v : Value) :
    Settles (assign env name v) fun _ => True := by
  intro s
  unfold assign
  cases (s.read? env name.lexeme).isSome <;> exact trivial

theorem settles_orStop {α : Type} (t : Token) (result : Except RuntimeError.Cause α) :
    Settles (orStop t result) fun _ => True := by
  cases result with
  | ok v => exact .pure trivial
  | error cause => exact .stop t cause

theorem settles_declare (env : Env) (name : Token) {value : Env → Eval Value}
    (h : ∀ env, Settles (value env) fun _ => True) : Settles (declare env name value) (Stays env) := by
  cases env with
  | outermost => exact .bind (h _) fun _ _ => .bind (.modify _) fun _ _ => .pure id
  | inside names =>
    have hget : Settles (get : Eval State) fun _ => True := fun _ => trivial
    refine .bind hget fun s _ => .bind (.modify _) fun _ _ => ?_
    exact .bind (h _) fun _ _ => .bind (.modify _) fun _ _ => .pure nofun

theorem settles_call (paren : Token) (callee : Value) (vs : List Value)
    (runBody : Env → List Stmt → Eval Env) :
    Settles (call paren callee vs runBody) fun _ => True := by
  cases callee with
  | native f =>
    have hclock : Settles readClock fun _ => True := fun _ => trivial
    exact .bind (settles_orStop paren _) fun _ _ => .bind hclock fun _ _ => settles_orStop paren _
  | function f => exact .bind (settles_orStop paren _) fun _ _ => .catchReturn _
  | _ => exact .stop _ _

section

variable {n : Nat} (he : ∀ env e, Settles (evaluate n env e) fun _ => True)
  (hes : ∀ env es, Settles (evaluateAll n env es) fun _ => True)
  (hs : ∀ env s, Returnless s → Settles (execute n env s) (Stays env))
  (hss : ∀ env ss, ReturnlessAll ss → Settles (executeAll n env ss) (Stays env))

include he hes in
/-- Bodies of functions are left out, since a call takes up what they return. -/
theorem settles_evaluate (env : Env) (e : Expr) :
    Settles (evaluate (n + 1) env e) fun _ => True := by
  cases e <;> rw [evaluate]
  case literal => exact .pure trivial
  case grouping => exact he _ _
  case unary => exact .bind (he _ _) fun _ _ => settles_orStop _ _
  case binary => exact .bind (he _ _) fun _ _ => .bind (he _ _) fun _ _ => settles_orStop _ _
  case logical => exact .bind (he _ _) fun _ _ => .ite (.pure trivial) (he _ _)
  case reference => exact settles_read _ _
  case assign =>
    exact .bind (he _ _) fun _ _ => .bind (settles_assign _ _ _) fun _ _ => .pure trivial
  case call => exact .bind (he _ _) fun _ _ => .bind (hes _ _) fun _ _ => settles_call _ _ _ _

include he hes in
theorem settles_evaluateAll (env : Env) (es : List Expr) :
    Settles (evaluateAll (n + 1) env es) fun _ => True := by
  cases es <;> simp only [evaluateAll]
  case nil => exact .pure trivial
  case cons => exact .bind (he _ _) fun _ _ => .bind (hes _ _) fun _ _ => .pure trivial

include he hs hss in
/-- A statement without a `return` is not ended by one, and outside of all scopes it stays there. -/
theorem settles_execute (env : Env) (s : Stmt) (h : Returnless s) :
    Settles (execute (n + 1) env s) (Stays env) := by
  rcases s with _ | _ | ⟨_, _ | _⟩ | _ | _ | _ | _ | _ | ⟨_, _ | _⟩ <;> rw [execute]
  case expression => exact .bind (he _ _) fun _ _ => .pure id
  case print =>
    have hprint (text : String) : Settles (print text) fun _ => True := fun _ => trivial
    exact .bind (he _ _) fun _ _ => .bind (hprint _) fun _ _ => .pure id
  case declare.none => exact settles_declare _ _ fun _ => .pure trivial
  case declare.some => exact settles_declare _ _ fun _ => he _ _
  case block => exact .bind (hss _ _ h) fun _ _ => .pure id
  case ifThen =>
    exact .bind (he _ _) fun _ _ => .ite (.bind (hs _ _ h) fun _ _ => .pure id) (.pure id)
  case ifElse =>
    exact .bind (he _ _) fun _ _ => .ite (.bind (hs _ _ h.1) fun _ _ => .pure id)
      (.bind (hs _ _ h.2) fun _ _ => .pure id)
  case whileLoop =>
    exact .bind (he _ _) fun _ _ => .ite (.bind (hs _ _ h) fun _ _ => hs _ _ h) (.pure id)
  case function =>
    have hclosure (d : FunctionDecl) (env : Env) :
        Settles (makeClosure d env) fun _ => True := fun _ => trivial
    exact settles_declare _ _ (hclosure _)
  case ret.none | ret.some => exact absurd h id

include hs hss in
theorem settles_executeAll (env : Env) (ss : List Stmt) (h : ReturnlessAll ss) :
    Settles (executeAll (n + 1) env ss) (Stays env) := by
  cases ss <;> simp only [executeAll]
  case nil => exact .pure id
  case cons s ss =>
    refine .bind (hs _ _ h.1) fun env' hfirst => ?_
    exact (hss env' ss h.2).mono fun env'' hrest houter => hrest (hfirst houter)

end

/-- Outside of the functions of a program without a stray `return`, nothing is ended by one. -/
theorem settles_run (n : Nat) :
    (∀ env e, Settles (evaluate n env e) fun _ => True) ∧
    (∀ env es, Settles (evaluateAll n env es) fun _ => True) ∧
    (∀ env s, Returnless s → Settles (execute n env s) (Stays env)) ∧
    (∀ env ss, ReturnlessAll ss → Settles (executeAll n env ss) (Stays env)) := by
  induction n with
  | zero =>
    refine ⟨fun _ _ => ?_, fun _ _ => ?_, fun _ _ _ => ?_, fun _ _ _ => ?_⟩
    all_goals
      simp only [evaluate, evaluateAll, execute, executeAll]
      exact .exhausted
  | succ n ih =>
    obtain ⟨he, hes, hs, hss⟩ := ih
    exact ⟨settles_evaluate he hes, settles_evaluateAll he hes, settles_execute he hs hss,
      settles_executeAll hs hss⟩

/-- A list of statements is run like its two parts, one after the other. -/
theorem executeAll_append (n : Nat) (env : Env) (ss ss' : List Stmt) :
    executeAll (n + ss.length) env (ss ++ ss') =
      executeAll (n + ss.length) env ss >>= fun env => executeAll n env ss' := by
  -- by induction on the first part: each of its statements takes one unit of fuel on both sides
  induction ss generalizing env with
  | nil =>
    cases n with
    | zero => simp only [List.length_nil, List.nil_append, executeAll, Nat.add_zero]; rfl
    | succ n => simp only [List.length_nil, List.nil_append, executeAll, Nat.add_zero, pure_bind]
  | cons s ss ih =>
    rw [List.cons_append, List.length_cons, ← Nat.add_assoc, executeAll, executeAll, bind_assoc]
    exact congrArg _ (funext ih)

/-- If a program of the static rules ends without an error, what stands after it is run as if it stood
alone, from the state that is reached. -/
theorem interpret_append {n : Nat} {p q : List Stmt} {r r' : State} (hp : ReturnlessAll p)
    (h : interpret (n + p.length) p r = (.finished, r')) :
    interpret (n + p.length) (p ++ q) r = interpret n q r' := by
  have hsettles := (settles_run (n + p.length)).2.2.2 .outermost p hp r
  unfold interpret at h ⊢
  rw [executeAll_append]
  simp only [Bind.bind, EStateM.bind]
  generalize executeAll (n + p.length) .outermost p r = x at h hsettles
  cases x with
  | ok env r₁ =>
    obtain rfl : env = .outermost := hsettles rfl
    obtain rfl : r₁ = r' := congrArg Prod.snd h
    rfl
  | error signal r₁ =>
    cases signal with
    | returned v => exact absurd hsettles id
    | _ => cases h

end Lexical

end LoxLang

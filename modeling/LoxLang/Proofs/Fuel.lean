import LoxLang.Session

/-!
More fuel changes nothing that has ended. Main statements: statements that do not run out of fuel do the
same with any larger amount (`executeAll_of_le`), and so does the run of a source in a session (`run_of_le`).
-/
namespace LoxLang

namespace Run

/-- Where the first step does not run out of fuel, the second one does the same. -/
def Refines {α : Type} (a b : Run α) : Prop :=
  ∀ m, (∃ m', a m = .error .exhausted m') ∨ a m = b m

namespace Refines

variable {α β : Type}

theorem refl (a : Run α) : Refines a a := fun _ => .inr rfl

theorem exhausted (b : Run α) : Refines (throw .exhausted) b := fun m => .inl ⟨m, rfl⟩

theorem trans {a b c : Run α} (hab : Refines a b) (hbc : Refines b c) : Refines a c := by
  intro m
  rcases hab m with h | h
  · exact .inl h
  · rw [h]
    exact hbc m

/-- Refinement is kept by sequencing. -/
theorem bind {a b : Run α} {f g : α → Run β} (h : Refines a b) (k : ∀ x, Refines (f x) (g x)) :
    Refines (a >>= f) (b >>= g) := by
  intro m
  simp only [Bind.bind, EStateM.bind]
  rcases h m with ⟨m', e⟩ | e
  · exact .inl ⟨m', by rw [e]⟩
  · rw [e]
    cases b m with
    | ok x m' => exact k x m'
    | error s m' => exact .inr rfl

theorem inEnvironment {a b : Run α} (h : Refines a b) (e : Environment) :
    Refines (inEnvironment e a) (inEnvironment e b) := by
  intro m
  unfold Run.inEnvironment
  rcases h { m with current := e } with ⟨m', eq⟩ | eq
  · exact .inl ⟨_, by simp only [eq]; rfl⟩
  · simp only [eq]
    exact .inr trivial

theorem inNewScope {a b : Run α} (h : Refines a b) (e : Environment) :
    Refines (inNewScope e a) (inNewScope e b) := fun m =>
  h.inEnvironment (m.store.inside e) { m with store := m.store.addTable }

theorem catchReturn {a b : Run Unit} (h : Refines a b) :
    Refines (catchReturn a) (catchReturn b) := by
  intro m
  unfold Run.catchReturn
  rcases h m with ⟨m', e⟩ | e
  · exact .inl ⟨m', by rw [e]⟩
  · exact .inr (by rw [e])

theorem call {p q : List Stmt → Run Unit} (h : ∀ body, Refines (p body) (q body))
    (paren : Token) (callee : Value) (arguments : List Value) :
    Refines (call paren callee arguments p) (call paren callee arguments q) := by
  unfold Run.call callClosure
  split
  · exact refl _
  · exact bind (refl _) fun _ => catchReturn (inNewScope (bind (refl _) fun _ => h _) _)
  · exact refl _

/-- A step that ends without running out of fuel ends the same way refined. -/
theorem eq_of_ends {a b : Run α} (h : Refines a b) {m : Machine}
    (ends : ∀ m', a m ≠ .error .exhausted m') : b m = a m := by
  rcases h m with ⟨m', e⟩ | e
  · exact absurd e (ends m')
  · exact e.symm

end Refines

end Run

open Run

section

variable {n : Nat} (he : ∀ e, Refines (evaluate n e) (evaluate (n + 1) e))
  (hes : ∀ es, Refines (evaluateAll n es) (evaluateAll (n + 1) es))
  (hs : ∀ s, Refines (execute n s) (execute (n + 1) s))
  (hss : ∀ ss, Refines (executeAll n ss) (executeAll (n + 1) ss))

include he hes hss in
/-- An expression with one more unit of fuel does the same, unless the fuel runs out. -/
theorem refines_evaluate (e : Expr) : Refines (evaluate (n + 1) e) (evaluate (n + 1 + 1) e) := by
  cases e <;> rw [evaluate, evaluate]
  case literal => exact .refl _
  case grouping inner => exact he inner
  case unary => exact .bind (he _) fun _ => .refl _
  case binary => exact .bind (he _) fun _ => .bind (he _) fun _ => .refl _
  case logical =>
    refine .bind (he _) fun v => ?_
    split
    · exact .refl _
    · exact he _
  case reference => exact .refl _
  case assign => exact .bind (he _) fun _ => .refl _
  case call => exact .bind (he _) fun _ => .bind (hes _) fun _ => .call hss _ _ _

include he hes in
theorem refines_evaluateAll (es : List Expr) :
    Refines (evaluateAll (n + 1) es) (evaluateAll (n + 1 + 1) es) := by
  cases es <;> rw [evaluateAll, evaluateAll]
  case nil => exact .refl _
  case cons => exact .bind (he _) fun _ => .bind (hes _) fun _ => .refl _
  all_goals simp

include he hs hss in
/-- A statement with one more unit of fuel does the same, unless the fuel runs out. -/
theorem refines_execute (s : Stmt) : Refines (execute (n + 1) s) (execute (n + 1 + 1) s) := by
  rcases s with _ | _ | ⟨_, _ | _⟩ | _ | _ | _ | _ | _ | ⟨_, _ | _⟩ <;> rw [execute, execute]
  case expression => exact .bind (he _) fun _ => .refl _
  case print => exact .bind (he _) fun _ => .refl _
  case declare.none => exact .refl _
  case declare.some => exact .bind (he _) fun _ => .refl _
  case block => exact .bind (.refl _) fun _ => .inNewScope (hss _) _
  case ifThen =>
    refine .bind (he _) fun v => ?_
    split
    · exact hs _
    · exact .refl _
  case ifElse =>
    refine .bind (he _) fun v => ?_
    split <;> exact hs _
  case whileLoop =>
    refine .bind (he _) fun v => ?_
    split
    · exact .bind (hs _) fun _ => hs _
    · exact .refl _
  case function => exact .refl _
  case ret.none => exact .refl _
  case ret.some => exact .bind (he _) fun _ => .refl _

include hs hss in
theorem refines_executeAll (ss : List Stmt) :
    Refines (executeAll (n + 1) ss) (executeAll (n + 1 + 1) ss) := by
  cases ss <;> rw [executeAll, executeAll]
  case nil => exact .refl _
  case cons => exact .bind (hs _) fun _ => hss _
  all_goals simp

end

/-- One more unit of fuel changes nothing that has ended. -/
theorem refines_succ (n : Nat) :
    (∀ e, Refines (evaluate n e) (evaluate (n + 1) e)) ∧
    (∀ es, Refines (evaluateAll n es) (evaluateAll (n + 1) es)) ∧
    (∀ s, Refines (execute n s) (execute (n + 1) s)) ∧
    (∀ ss, Refines (executeAll n ss) (executeAll (n + 1) ss)) := by
  induction n with
  | zero =>
    refine ⟨fun _ => ?_, fun _ => ?_, fun _ => ?_, fun _ => ?_⟩
    all_goals
      simp only [evaluate, evaluateAll, execute, executeAll]
      exact .exhausted _
  | succ n ih =>
    obtain ⟨he, hes, hs, hss⟩ := ih
    exact ⟨refines_evaluate he hes hss, refines_evaluateAll he hes, refines_execute he hs hss,
      refines_executeAll hs hss⟩

section

variable {n k : Nat}

theorem executeAll_refines (h : n ≤ k) (ss : List Stmt) :
    Refines (executeAll n ss) (executeAll k ss) := by
  induction h with
  | refl => exact .refl _
  | step _ ih => exact ih.trans ((refines_succ _).2.2.2 ss)

theorem executeAll_of_le (h : n ≤ k) {ss : List Stmt} {m : Machine}
    (ends : ∀ m', executeAll n ss m ≠ .error .exhausted m') :
    executeAll k ss m = executeAll n ss m :=
  (executeAll_refines h ss).eq_of_ends ends

/-- A program that is followed to its end has the same outcome with more fuel. -/
theorem interpret_of_le (h : n ≤ k) {program : List Stmt} {m : Machine}
    (ends : ∀ m', interpret n program m ≠ (.exhausted, m')) :
    interpret k program m = interpret n program m := by
  unfold interpret at ends ⊢
  rw [executeAll_of_le h fun m' e => ends m' (by rw [e])]

/-- A source whose run has a result has the same result with more fuel. -/
theorem run_of_le (h : n ≤ k) {text : String} {s s' : Session} (runs : s.run n text = some s') :
    s.run k text = some s' := by
  unfold Session.run at runs ⊢
  split at runs
  · exact runs
  · rename_i program t _
    rcases t with ⟨machine, reporter, nextId⟩
    simp only [Session.runPrepared] at runs ⊢
    rw [interpret_of_le h]
    · exact runs
    · intro m' e
      rw [e] at runs
      cases runs

end

end LoxLang

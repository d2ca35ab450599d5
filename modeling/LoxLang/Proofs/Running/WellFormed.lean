import LoxLang.Proofs.Running.Terms

/-!
Well-formed programs on machines whose functions are well-formed. No operator of such a program is unknown, and
the functions that it leaves behind are well-formed too, so that they can be called by later programs. Main
statement: `operating`.
-/
namespace LoxLang

def Closure.WellFormed (f : Closure) : Prop :=
  (Stmt.function f.declaration.name f.declaration.params f.declaration.body).WellFormed

def Terms.wellFormed : Terms where
  function := Closure.WellFormed
  count _ := True
  error e := ¬e.BlamesOperator
  lenient _ h := h

open Terms

def Machine.WellFormed (m : Machine) : Prop :=
  ∀ a x v, m.store.readTable a x = some v → wellFormed.Allows v

theorem Machine.WellFormed.holds {m : Machine} (h : m.WellFormed) : wellFormed.Holds m := ⟨h, trivial⟩

theorem Terms.Holds.wellFormed {m : Machine} (h : wellFormed.Holds m) : m.WellFormed := h.stored

theorem keeps_makeClosure_of_wellFormed {d : FunctionDecl}
    (h : (Stmt.function d.name d.params d.body).WellFormed) :
    wellFormed.Keeps wellFormed.Allows (Run.makeClosure d) := fun _ hm => ⟨h, hm.stored, trivial⟩

structure Operating (n : Nat) : Prop where
  evaluate : ∀ e : Expr, e.WellFormed → wellFormed.Keeps wellFormed.Allows (evaluate n e)
  evaluateAll : ∀ es, Expr.WellFormedAll es →
    wellFormed.Keeps (fun vs => ∀ v ∈ vs, wellFormed.Allows v) (evaluateAll n es)
  execute : ∀ s : Stmt, s.WellFormed → wellFormed.Keeps (fun _ => True) (execute n s)
  executeAll : ∀ ss, Stmt.WellFormedAll ss → wellFormed.Keeps (fun _ => True) (executeAll n ss)

section

variable {n : Nat}

theorem operating_zero : Operating 0 where
  evaluate e _ := by
    rw [evaluate]
    exact keeps_exhausted
  evaluateAll es _ := by
    rw [evaluateAll]
    exact keeps_exhausted
  execute s _ := by
    rw [execute]
    exact keeps_exhausted
  executeAll ss _ := by
    rw [executeAll]
    exact keeps_exhausted

/-- The body of a function that is called has been declared in a well-formed tree, however long ago. -/
theorem operating_call (ih : Operating n) (paren : Token) {callee : Value}
    (hcallee : wellFormed.Allows callee) {vs : List Value} (hvs : ∀ v ∈ vs, wellFormed.Allows v) :
    wellFormed.Keeps wellFormed.Allows (Run.call paren callee vs (executeAll n)) := by
  cases callee with
  | native f => exact keeps_callNative paren hcallee hvs
  | function f =>
    refine (keeps_checkArity paren f.declaration.params.length vs.length).bind fun _ _ => ?_
    refine Keeps.catchReturn (Keeps.inNewScope ?_ f.environment)
    refine (keeps_bindArguments f.declaration.params hvs).bind fun _ _ => ?_
    exact ih.executeAll f.declaration.body hcallee.2.2
  | _ => exact keeps_stop (error_notCallable _ paren)

/-- A well-formed expression is evaluated without an unknown operator. -/
theorem operating_evaluate (ih : Operating n) (e : Expr) (h : e.WellFormed) :
    wellFormed.Keeps wellFormed.Allows (evaluate (n + 1) e) := by
  cases e with
  | literal value =>
    rw [evaluate]
    exact keeps_pure (allows_ofLiteral _ value)
  | grouping inner =>
    rw [evaluate]
    exact ih.evaluate inner h
  | unary operator right =>
    rw [evaluate]
    refine (ih.evaluate right h.2).bind fun v _ => keeps_unaryResult ?_ v
    exact h.1.imp_right .inl
  | binary left operator right =>
    obtain ⟨hoperator, hleft, hright⟩ := h
    rw [evaluate]
    refine (ih.evaluate left hleft).bind fun v _ => ?_
    exact (ih.evaluate right hright).bind fun w _ => keeps_binaryResult (.inl hoperator) v w
  | logical left operator right =>
    obtain ⟨-, hleft, hright⟩ := h
    rw [evaluate]
    refine (ih.evaluate left hleft).bind fun v hv => ?_
    exact .ite (keeps_pure hv) (ih.evaluate right hright)
  | reference id name =>
    rw [evaluate]
    exact keeps_read id name
  | assign id name value =>
    rw [evaluate]
    refine (ih.evaluate value h.2).bind fun v hv => ?_
    exact (keeps_assign id name hv).bind fun _ _ => keeps_pure hv
  | call callee paren arguments =>
    obtain ⟨-, hcallee, harguments⟩ := h
    rw [evaluate]
    refine (ih.evaluate callee hcallee).bind fun v hv => ?_
    exact (ih.evaluateAll arguments harguments).bind fun vs hvs => operating_call ih paren hv hvs

theorem operating_evaluateAll (ih : Operating n) (es : List Expr) (h : Expr.WellFormedAll es) :
    wellFormed.Keeps (fun vs => ∀ v ∈ vs, wellFormed.Allows v) (evaluateAll (n + 1) es) := by
  cases es with
  | nil =>
    rw [evaluateAll]
    · exact keeps_pure (List.forall_mem_nil _)
    · exact Nat.succ_ne_zero n
  | cons e es =>
    rw [evaluateAll]
    refine (ih.evaluate e h.1).bind fun v hv => ?_
    exact (ih.evaluateAll es h.2).bind fun vs hvs => keeps_pure (List.forall_mem_cons.mpr ⟨hv, hvs⟩)

/-- A well-formed statement is run without an unknown operator. -/
theorem operating_execute (ih : Operating n) (s : Stmt) (h : s.WellFormed) :
    wellFormed.Keeps (fun _ => True) (execute (n + 1) s) := by
  cases s with
  | expression e =>
    rw [execute]
    exact (ih.evaluate e h).bind fun _ _ => keeps_pure trivial
  | print e =>
    rw [execute]
    exact (ih.evaluate e h).bind fun v _ => keeps_print v.text
  | declare name initializer =>
    cases initializer with
    | none =>
      rw [execute]
      exact keeps_define name.lexeme trivial
    | some e =>
      rw [execute]
      exact (ih.evaluate e (h.2 e rfl)).bind fun _ hv => keeps_define name.lexeme hv
  | block body =>
    rw [execute]
    exact keeps_get.bind fun m _ => (ih.executeAll body h).inNewScope m.current
  | ifThen condition thenBranch =>
    rw [execute]
    refine (ih.evaluate condition h.1).bind fun v _ => ?_
    exact .ite (ih.execute thenBranch h.2) (keeps_pure trivial)
  | ifElse condition thenBranch elseBranch =>
    rw [execute]
    refine (ih.evaluate condition h.1).bind fun v _ => ?_
    exact .ite (ih.execute thenBranch h.2.1) (ih.execute elseBranch h.2.2)
  | whileLoop condition body =>
    rw [execute]
    refine (ih.evaluate condition h.1).bind fun v _ => ?_
    have hagain := ih.execute (.whileLoop condition body) h
    exact .ite ((ih.execute body h.2).bind fun _ _ => hagain) (keeps_pure trivial)
  | function name params body =>
    rw [execute]
    exact (keeps_makeClosure_of_wellFormed h).bind fun _ hv => keeps_define name.lexeme hv
  | ret keyword value =>
    cases value with
    | none =>
      rw [execute]
      exact keeps_throw trivial
    | some e =>
      rw [execute]
      exact (ih.evaluate e (h e rfl)).bind fun _ hv => keeps_throw hv

theorem operating_executeAll (ih : Operating n) (ss : List Stmt) (h : Stmt.WellFormedAll ss) :
    wellFormed.Keeps (fun _ => True) (executeAll (n + 1) ss) := by
  cases ss with
  | nil =>
    rw [executeAll]
    · exact keeps_pure trivial
    · exact Nat.succ_ne_zero n
  | cons s ss =>
    rw [executeAll]
    exact (ih.execute s h.1).bind fun _ _ => ih.executeAll ss h.2

end

/-- Well-formed trees are run without an unknown operator. -/
theorem operating (n : Nat) : Operating n := by
  -- on the fuel: a function body is run with less than its call
  induction n with
  | zero => exact operating_zero
  | succ n ih =>
    exact ⟨operating_evaluate ih, operating_evaluateAll ih, operating_execute ih,
      operating_executeAll ih⟩

section

variable {α : Type} {P : α → Prop} {a : Run α} {m m' : Machine}

theorem Terms.Keeps.not_blamesOperator (h : wellFormed.Keeps P a) (hm : m.WellFormed)
    {e : RuntimeError} (herror : a m = .error (.runtime e) m') : ¬e.BlamesOperator := by
  have hend := h m hm.holds
  rw [herror] at hend
  exact hend.1

theorem Terms.Keeps.wellFormed_reached (h : wellFormed.Keeps P a) (hm : m.WellFormed) :
    (reached (a m)).WellFormed := (h m hm.holds).holds.wellFormed

end

end LoxLang

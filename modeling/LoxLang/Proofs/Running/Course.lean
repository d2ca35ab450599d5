import LoxLang.Proofs.Running.Undefined

/-!
The course of a run, moment by moment. All that is begun in the course of a task is listed in the order in which
it is begun, so that two executions of one declaration are two moments of the list. Main statements:
`mem_calls` and `mem_moments`.
-/
namespace LoxLang

section

variable {α β : Type}

def followed (r : EStateM.Result Signal Machine α) (next : α → Machine → List β) : List β :=
  match r with
  | .ok x m => next x m
  | .error _ _ => []

theorem mem_followed {r : EStateM.Result Signal Machine α} {next : α → Machine → List β} {y : β} :
    y ∈ followed r next ↔ ∃ x m, r = .ok x m ∧ y ∈ next x m := by
  cases r with
  | ok x m =>
    constructor
    · exact fun h => ⟨x, m, rfl, h⟩
    · rintro ⟨_, _, ⟨⟩, h⟩
      exact h
  | error signal m => simp [followed]

end

def calledBody (callee : Value) (vs : List Value) (m : Machine) : List (Task × Machine) :=
  match callee with
  | .function f =>
    if f.declaration.params.length = vs.length then
      followed (Run.bindArguments f.declaration.params vs (m.enter f.environment)) fun _ m' =>
        [(.stmts f.declaration.body, m')]
    else []
  | _ => []

/-- The tasks that a task calls, in order, each with the machine that it is begun on. -/
def Task.calls (n : Nat) : Task → Machine → List (Task × Machine)
  | .expr _ (.literal _), _ | .expr _ (.reference _ _), _ => []
  | .expr own (.grouping inner), m => [(.expr own inner, m)]
  | .expr own (.unary _ right), m => [(.expr own right, m)]
  | .expr own (.binary left _ right), m =>
    (.expr own left, m) :: followed (evaluate n left m) fun _ m' => [(.expr own right, m')]
  | .expr own (.logical left operator right), m =>
    (.expr own left, m) :: followed (evaluate n left m) fun v m' =>
      if decides operator.kind v then [] else [(.expr own right, m')]
  | .expr own (.assign _ _ value), m => [(.expr own value, m)]
  | .expr own (.call callee _ arguments), m =>
    (.expr own callee, m) :: followed (evaluate n callee m) fun v m₁ =>
      (.exprs own arguments, m₁) :: followed (evaluateAll n arguments m₁) (calledBody v)
  | .exprs _ [], _ => []
  | .exprs own (e :: es), m =>
    (.expr own e, m) :: followed (evaluate n e m) fun _ m' => [(.exprs own es, m')]
  | .stmt (.expression e), m | .stmt (.print e), m | .stmt (.ret _ (some e)), m => [(.expr none e, m)]
  | .stmt (.declare name (some e)), m => [(.expr (m.ownName? name) e, m)]
  | .stmt (.declare _ none), _ | .stmt (.function _ _ _), _ | .stmt (.ret _ none), _ => []
  | .stmt (.block body), m => [(.stmts body, m.enter m.current)]
  | .stmt (.ifThen condition thenBranch), m =>
    (.expr none condition, m) :: followed (evaluate n condition m) fun v m' =>
      if v.isTruthy then [(.stmt thenBranch, m')] else []
  | .stmt (.ifElse condition thenBranch elseBranch), m =>
    (.expr none condition, m) :: followed (evaluate n condition m) fun v m' =>
      if v.isTruthy then [(.stmt thenBranch, m')] else [(.stmt elseBranch, m')]
  | .stmt (.whileLoop condition body), m =>
    (.expr none condition, m) :: followed (evaluate n condition m) fun v m₁ =>
      if v.isTruthy then
        (.stmt body, m₁) :: followed (execute n body m₁) fun _ m₂ =>
          [(.stmt (.whileLoop condition body), m₂)]
      else []
  | .stmts [], _ => []
  | .stmts (s :: ss), m => (.stmt s, m) :: followed (execute n s m) fun _ m' => [(.stmts ss, m')]

/-- A call comes to its body if it is one of a function, with the right number of arguments. -/
theorem mem_calledBody {callee : Value} {vs : List Value} {m m' : Machine} {t' : Task} :
    (t', m') ∈ calledBody callee vs m ↔ ∃ f, callee = .function f ∧
      f.declaration.params.length = vs.length ∧ t' = .stmts f.declaration.body ∧
      Run.bindArguments f.declaration.params vs (m.enter f.environment) = .ok () m' := by
  cases callee with
  | function f =>
    by_cases harity : f.declaration.params.length = vs.length
    · simp only [calledBody, if_pos harity, mem_followed, List.mem_singleton]
      constructor
      · rintro ⟨_, _, hbound, ⟨⟩⟩
        exact ⟨f, rfl, harity, rfl, hbound⟩
      · rintro ⟨_, ⟨⟩, -, rfl, hbound⟩
        exact ⟨(), m', hbound, rfl⟩
    · simp only [calledBody, if_neg harity, List.not_mem_nil, false_iff]
      rintro ⟨_, ⟨⟩, hlength, -⟩
      exact harity hlength
  | _ => simp [calledBody]

section

variable {n : Nat} {m m' : Machine} {t t' : Task}

/-- Each task listed for an expression is called by it. -/
theorem calls_of_mem_expr {own : Option String} {e : Expr} (h : (t', m') ∈ (Task.expr own e).calls n m) :
    Calls n (.expr own e) m t' m' := by
  cases e with
  | literal value => cases h
  | reference id name => cases h
  | grouping inner =>
    cases List.mem_singleton.mp h
    exact .grouping
  | unary operator right =>
    cases List.mem_singleton.mp h
    exact .unary
  | assign id name value =>
    cases List.mem_singleton.mp h
    exact .assigned
  | binary left operator right =>
    rcases List.mem_cons.mp h with ⟨⟨⟩⟩ | h
    · exact .binaryLeft
    · obtain ⟨v, m₁, hleft, h⟩ := mem_followed.mp h
      cases List.mem_singleton.mp h
      exact .binaryRight hleft
  | logical left operator right =>
    rcases List.mem_cons.mp h with ⟨⟨⟩⟩ | h
    · exact .logicalLeft
    · obtain ⟨v, m₁, hleft, h⟩ := mem_followed.mp h
      split at h
      · cases h
      · next hdecides =>
        cases List.mem_singleton.mp h
        exact .logicalRight hleft (Bool.eq_false_iff.mpr hdecides)
  | call callee paren arguments =>
    rcases List.mem_cons.mp h with ⟨⟨⟩⟩ | h
    · exact .callee
    obtain ⟨v, m₁, hcallee, h⟩ := mem_followed.mp h
    rcases List.mem_cons.mp h with ⟨⟨⟩⟩ | h
    · exact .arguments hcallee
    · obtain ⟨vs, m₂, harguments, h⟩ := mem_followed.mp h
      obtain ⟨f, rfl, harity, rfl, hbound⟩ := mem_calledBody.mp h
      exact .body hcallee harguments harity hbound

theorem calls_of_mem_exprs {own : Option String} {es : List Expr}
    (h : (t', m') ∈ (Task.exprs own es).calls n m) : Calls n (.exprs own es) m t' m' := by
  cases es with
  | nil => cases h
  | cons e es =>
    rcases List.mem_cons.mp h with ⟨⟨⟩⟩ | h
    · exact .firstExpr
    · obtain ⟨v, m₁, hfirst, h⟩ := mem_followed.mp h
      cases List.mem_singleton.mp h
      exact .laterExprs hfirst

/-- Each task listed for a statement is called by it. -/
theorem calls_of_mem_stmt {s : Stmt} (h : (t', m') ∈ (Task.stmt s).calls n m) :
    Calls n (.stmt s) m t' m' := by
  cases s with
  | expression e =>
    cases List.mem_singleton.mp h
    exact .expression
  | print e =>
    cases List.mem_singleton.mp h
    exact .print
  | declare name initializer =>
    cases initializer with
    | none => cases h
    | some e =>
      cases List.mem_singleton.mp h
      exact .initializer
  | block body =>
    cases List.mem_singleton.mp h
    exact .block
  | ifThen condition thenBranch =>
    rcases List.mem_cons.mp h with ⟨⟨⟩⟩ | h
    · exact .ifThenCondition
    · obtain ⟨v, m₁, hcondition, h⟩ := mem_followed.mp h
      split at h
      · next htruthy =>
        cases List.mem_singleton.mp h
        exact .ifThenBranch hcondition htruthy
      · cases h
  | ifElse condition thenBranch elseBranch =>
    rcases List.mem_cons.mp h with ⟨⟨⟩⟩ | h
    · exact .ifElseCondition
    · obtain ⟨v, m₁, hcondition, h⟩ := mem_followed.mp h
      have hbranch := @Calls.ifElseBranch n m m₁ condition thenBranch elseBranch v hcondition
      split at h
      · next htruthy =>
        cases List.mem_singleton.mp h
        rwa [if_pos htruthy] at hbranch
      · next hfalsy =>
        cases List.mem_singleton.mp h
        rwa [if_neg hfalsy] at hbranch
  | whileLoop condition body =>
    rcases List.mem_cons.mp h with ⟨⟨⟩⟩ | h
    · exact .whileCondition
    obtain ⟨v, m₁, hcondition, h⟩ := mem_followed.mp h
    split at h
    · next htruthy =>
      rcases List.mem_cons.mp h with ⟨⟨⟩⟩ | h
      · exact .whileBody hcondition htruthy
      · obtain ⟨u, m₂, hbody, h⟩ := mem_followed.mp h
        cases List.mem_singleton.mp h
        exact .whileAgain hcondition htruthy hbody
    · cases h
  | function name params body => cases h
  | ret keyword value =>
    cases value with
    | none => cases h
    | some e =>
      cases List.mem_singleton.mp h
      exact .returned

theorem calls_of_mem_stmts {ss : List Stmt} (h : (t', m') ∈ (Task.stmts ss).calls n m) :
    Calls n (.stmts ss) m t' m' := by
  cases ss with
  | nil => cases h
  | cons s ss =>
    rcases List.mem_cons.mp h with ⟨⟨⟩⟩ | h
    · exact .firstStmt
    · obtain ⟨u, m₁, hfirst, h⟩ := mem_followed.mp h
      cases List.mem_singleton.mp h
      exact .laterStmts hfirst

/-- The list has the tasks that are called and no others. -/
theorem mem_calls : (t', m') ∈ t.calls n m ↔ Calls n t m t' m' := by
  constructor
  · intro h
    cases t with
    | expr own e => exact calls_of_mem_expr h
    | exprs own es => exact calls_of_mem_exprs h
    | stmt s => exact calls_of_mem_stmt h
    | stmts ss => exact calls_of_mem_stmts h
  · intro h
    cases h with
    | body hcallee harguments harity hbound =>
      refine List.mem_cons_of_mem _ (mem_followed.mpr ⟨_, _, hcallee, List.mem_cons_of_mem _ ?_⟩)
      refine mem_followed.mpr ⟨_, _, harguments, mem_calledBody.mpr ?_⟩
      exact ⟨_, rfl, harity, rfl, hbound⟩
    | ifElseBranch hcondition =>
      refine List.mem_cons_of_mem _ (mem_followed.mpr ⟨_, _, hcondition, ?_⟩)
      split <;> exact List.mem_singleton_self _
    | _ => simp_all [Task.calls, followed]

end

structure Moment where
  fuel : Nat
  task : Task
  machine : Machine

def moments : Nat → Task → Machine → List Moment
  | 0, t, m => [⟨0, t, m⟩]
  | n + 1, t, m => ⟨n + 1, t, m⟩ :: (t.calls n m).flatMap fun c => moments n c.1 c.2

section

variable {n k : Nat} {t t' : Task} {m m' : Machine}

theorem mem_moments_self (n : Nat) (t : Task) (m : Machine) : ⟨n, t, m⟩ ∈ moments n t m := by
  cases n <;> exact List.mem_cons_self

/-- What is begun in the course of a task that is begun is begun in the course of the whole. -/
theorem moments_subset (h : ⟨k, t', m'⟩ ∈ moments n t m) : moments k t' m' ⊆ moments n t m := by
  induction n generalizing t m with
  | zero =>
    cases List.mem_singleton.mp h
    exact List.Subset.refl _
  | succ n ih =>
    rcases List.mem_cons.mp h with ⟨⟨⟩⟩ | h
    · exact List.Subset.refl _
    · obtain ⟨c, hc, h⟩ := List.mem_flatMap.mp h
      intro moment hmoment
      exact List.mem_cons_of_mem _ (List.mem_flatMap.mpr ⟨c, hc, ih h hmoment⟩)

/-- The list has what is begun in the course of the task and nothing else. -/
theorem mem_moments : ⟨k, t', m'⟩ ∈ moments n t m ↔ Begins n t m k t' m' := by
  constructor
  · intro h
    -- on the fuel: what is begun after the task itself is begun in the course of a task that it calls
    induction n generalizing t m with
    | zero =>
      cases List.mem_singleton.mp h
      exact .itself
    | succ n ih =>
      rcases List.mem_cons.mp h with ⟨⟨⟩⟩ | h
      · exact .itself
      · obtain ⟨c, hc, h⟩ := List.mem_flatMap.mp h
        exact (Begins.itself.call (mem_calls.mp hc)).trans (ih h)
  · intro h
    induction h with
    | itself => exact mem_moments_self n t m
    | call _ hcalls ih =>
      refine moments_subset ih (List.mem_cons_of_mem _ (List.mem_flatMap.mpr ?_))
      exact ⟨_, mem_calls.mpr hcalls, mem_moments_self _ _ _⟩

end

end LoxLang

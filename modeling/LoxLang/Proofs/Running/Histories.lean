import LoxLang.Proofs.Running.Course
import LoxLang.Proofs.Running.Terms

/-!
Histories: all functions that have been made, in the order of the executions of declarations that have made
them. The place of a function in the history is its identity, and there are no functions but those of the
history. Main statements: `recounting` and `holds_of_moments`.
-/
namespace LoxLang

def Machine.closure (m : Machine) (declaration : FunctionDecl) : Closure :=
  ⟨m.nextFunction, declaration, m.current⟩

def Moment.made? : Moment → Option Closure
  | ⟨_ + 1, .stmt (.function name params body), m⟩ => some (m.closure ⟨name, params, body⟩)
  | _ => none

theorem Moment.made?_eq_some {moment : Moment} {f : Closure} :
    moment.made? = some f ↔ ∃ k name params body m,
      moment = ⟨k + 1, .stmt (.function name params body), m⟩ ∧ f = m.closure ⟨name, params, body⟩ := by
  constructor
  · intro h
    unfold Moment.made? at h
    split at h
    · next k name params body m =>
      cases h
      exact ⟨k, name, params, body, m, rfl, rfl⟩
    · cases h
  · rintro ⟨k, name, params, body, m, rfl, rfl⟩
    rfl

def made (n : Nat) (t : Task) (m : Machine) : List Closure := (moments n t m).filterMap Moment.made?

def madeByAll (n : Nat) (calls : List (Task × Machine)) : List Closure :=
  calls.flatMap fun c => made n c.1 c.2

/-- The places of functions in the history are their identities. -/
def Numbered (history : List Closure) : Prop := ∀ (i : Nat) (f : Closure), history[i]? = some f → f.identity = i

def Terms.ofHistory (history : List Closure) : Terms where
  function f := f ∈ history
  count next := next = history.length ∧ Numbered history
  error _ := True
  lenient _ _ := trivial

open Terms

theorem numbered_nil : Numbered [] := fun i f h => by
  rw [List.getElem?_nil] at h
  cases h

/-- A function with the next identity keeps identities and places in step. -/
theorem Numbered.append_singleton {history : List Closure} (h : Numbered history) {f : Closure}
    (hf : f.identity = history.length) : Numbered (history ++ [f]) := by
  intro i g hget
  rcases Nat.lt_trichotomy i history.length with hlt | rfl | hgt
  · rw [List.getElem?_append_left hlt] at hget
    exact h i g hget
  · rw [List.getElem?_concat_length] at hget
    cases hget
    exact hf
  · rw [List.getElem?_append_right (Nat.le_of_lt hgt)] at hget
    obtain ⟨d, hd⟩ := Nat.exists_eq_add_of_lt hgt
    rw [show i - history.length = d + 1 by omega] at hget
    cases hget

/-- What was allowed is allowed as the history goes on. -/
theorem allows_append {history : List Closure} {v : Value} (h : (ofHistory history).Allows v)
    (later : List Closure) : (ofHistory (history ++ later)).Allows v := by
  cases v with
  | function f => exact List.mem_append_left later h
  | native f => exact fun _ _ _ _ _ => trivial
  | _ => trivial

def Recounted {α : Type} (n : Nat) (t : Task) (P : Terms → α → Prop) (a : Run α) : Prop :=
  ∀ history m, (ofHistory history).Holds m →
    (ofHistory (history ++ made n t m)).Ends (P (ofHistory (history ++ made n t m))) (a m)

def Begun (n : Nat) (history : List Closure) : List (Task × Machine) → Prop
  | [] => True
  | (t, m) :: calls => (ofHistory history).Holds m ∧ Begun n (history ++ made n t m) calls

/-- A step in whose course these tasks are called has ended, and nothing was made but by them. -/
structure Recounts {α : Type} (n : Nat) (history : List Closure) (calls : List (Task × Machine))
    (P : Terms → α → Prop) (r : EStateM.Result Signal Machine α) : Prop where
  begun : Begun n history calls
  ends : (ofHistory (history ++ madeByAll n calls)).Ends
    (P (ofHistory (history ++ madeByAll n calls))) r

section

variable {α β : Type} {n : Nat} {t : Task} {history : List Closure} {calls calls' : List (Task × Machine)}
  {P : Terms → α → Prop} {Q : Terms → β → Prop} {a b : Run α} {f : α → Run β} {m : Machine}

@[simp] theorem madeByAll_nil : madeByAll n [] = [] := rfl

@[simp] theorem madeByAll_cons :
    madeByAll n ((t, m) :: calls) = made n t m ++ madeByAll n calls := rfl

theorem recounts_of_keeps (ha : (ofHistory history).Keeps (P (ofHistory history)) a)
    (hm : (ofHistory history).Holds m) : Recounts n history [] P (a m) where
  begun := trivial
  ends := by
    rw [madeByAll_nil, List.append_nil]
    exact ha m hm

/-- Without a task being called, a step is done, and then tasks are called if it has not broken off. -/
theorem Recounts.silentFirst {next : α → Machine → List (Task × Machine)}
    (ha : (ofHistory history).Keeps (P (ofHistory history)) a) (hm : (ofHistory history).Holds m)
    (hf : ∀ x m', P (ofHistory history) x → (ofHistory history).Holds m' →
      Recounts n history (next x m') Q (f x m')) :
    Recounts n history (followed (a m) next) Q ((a >>= f) m) := by
  have hend := ha m hm
  cases hcase : a m with
  | ok x m' =>
    rw [hcase] at hend
    rw [bind_of_ok hcase]
    exact hf x m' hend.1 hend.2
  | error signal m' =>
    rw [hcase] at hend
    rw [bind_of_error hcase]
    refine ⟨trivial, ?_⟩
    rw [followed, madeByAll_nil, List.append_nil]
    exact hend

/-- A task is called, and then other tasks if it has not broken off. -/
theorem Recounted.first {next : α → Machine → List (Task × Machine)} (ha : Recounted n t P a)
    (hm : (ofHistory history).Holds m)
    (hf : ∀ x m', P (ofHistory (history ++ made n t m)) x →
      (ofHistory (history ++ made n t m)).Holds m' →
      Recounts n (history ++ made n t m) (next x m') Q (f x m')) :
    Recounts n history ((t, m) :: followed (a m) next) Q ((a >>= f) m) := by
  have hend := ha history m hm
  cases hcase : a m with
  | ok x m' =>
    rw [hcase] at hend
    rw [bind_of_ok hcase]
    have hrest := hf x m' hend.1 hend.2
    refine ⟨⟨hm, hrest.begun⟩, ?_⟩
    rw [madeByAll_cons, ← List.append_assoc]
    exact hrest.ends
  | error signal m' =>
    rw [hcase] at hend
    rw [bind_of_error hcase]
    refine ⟨⟨hm, trivial⟩, ?_⟩
    rw [followed, madeByAll_cons, madeByAll_nil, List.append_nil]
    exact hend

/-- A task is called, and nothing is made afterwards. -/
theorem Recounted.last (ha : Recounted n t P a) (hm : (ofHistory history).Holds m)
    (hf : ∀ x, P (ofHistory (history ++ made n t m)) x →
      (ofHistory (history ++ made n t m)).Keeps (Q (ofHistory (history ++ made n t m))) (f x)) :
    Recounts n history [(t, m)] Q ((a >>= f) m) := by
  have hlast : Recounts n history ((t, m) :: followed (a m) fun _ _ => []) Q ((a >>= f) m) :=
    ha.first hm fun x _ hx hm' => recounts_of_keeps (hf x hx) hm'
  have hnone : followed (a m) (fun _ _ => ([] : List (Task × Machine))) = [] := by
    cases a m <;> rfl
  rwa [hnone] at hlast

/-- A task is called, and that is all. -/
theorem Recounted.only (ha : Recounted n t P a) (hm : (ofHistory history).Holds m) :
    Recounts n history [(t, m)] P (a m) where
  begun := ⟨hm, trivial⟩
  ends := by
    rw [madeByAll_cons, madeByAll_nil, List.append_nil]
    exact ha history m hm

theorem Recounts.ite {c : Prop} [Decidable c] (ha : Recounts n history calls P (a m))
    (hb : Recounts n history calls' P (b m)) :
    Recounts n history (if c then calls else calls') P ((if c then a else b) m) := by
  split
  · exact ha
  · exact hb

theorem Recounts.inNewScope {outer : Environment} (h : Recounts n history calls P (a (m.enter outer))) :
    Recounts n history calls P (Run.inNewScope outer a m) := ⟨h.begun, h.ends.inNewScope⟩

theorem Recounts.catchReturn {body : Run Unit}
    (h : Recounts n history calls (fun _ _ => True) (body m)) :
    Recounts n history calls Allows (Run.catchReturn body m) := ⟨h.begun, h.ends.catchReturn⟩

end

structure Recounting (n : Nat) : Prop where
  evaluate : ∀ own e, Recounted n (.expr own e) Allows (evaluate n e)
  evaluateAll : ∀ own es, Recounted n (.exprs own es) (fun T vs => ∀ v ∈ vs, T.Allows v) (evaluateAll n es)
  execute : ∀ s, Recounted n (.stmt s) (fun _ _ => True) (execute n s)
  executeAll : ∀ ss, Recounted n (.stmts ss) (fun _ _ => True) (executeAll n ss)

section

variable {n : Nat} {history : List Closure} {m : Machine}

theorem made_zero (t : Task) (m : Machine) : made 0 t m = [] := by
  cases t <;> rfl

theorem recounted_zero {α : Type} {P : Terms → α → Prop} (t : Task) :
    Recounted 0 t P (throw .exhausted : Run α) := by
  intro history m hm
  rw [made_zero, List.append_nil]
  exact keeps_exhausted m hm

theorem recounting_zero : Recounting 0 where
  evaluate own e := by
    rw [evaluate]
    exact recounted_zero (.expr own e)
  evaluateAll own es := by
    rw [evaluateAll]
    exact recounted_zero (.exprs own es)
  execute s := by
    rw [execute]
    exact recounted_zero (.stmt s)
  executeAll ss := by
    rw [executeAll]
    exact recounted_zero (.stmts ss)

/-- A function body makes what it makes, whenever the function itself was made. -/
theorem recounts_call (ih : Recounting n) (hm : (ofHistory history).Holds m) (paren : Token)
    {callee : Value} {vs : List Value} (hvs : ∀ v ∈ vs, (ofHistory history).Allows v) :
    Recounts n history (calledBody callee vs m) Allows (Run.call paren callee vs (executeAll n) m) := by
  cases callee with
  | native f => exact recounts_of_keeps (keeps_callNative paren (fun _ _ _ _ _ => trivial) hvs) hm
  | function f =>
    by_cases harity : f.declaration.params.length = vs.length
    · have hcheck : checkArity f.declaration.params.length vs.length = .ok () := if_pos harity
      simp only [Run.call, Run.callClosure, hcheck, Run.orStop, calledBody, if_pos harity, pure_bind]
      refine .catchReturn (.inNewScope ?_)
      have hbound := keeps_bindArguments f.declaration.params hvs
      refine .silentFirst (P := fun _ _ => True) hbound (hm.enter f.environment) fun _ m' _ hm' => ?_
      exact (ih.executeAll f.declaration.body).only hm'
    · have hcheck : checkArity f.declaration.params.length vs.length =
          .error (.wrongArity f.declaration.params.length vs.length) := if_neg harity
      simp only [Run.call, Run.callClosure, hcheck, Run.orStop, calledBody, if_neg harity]
      have hstop : (ofHistory history).Keeps (fun _ : Unit => False)
          (Run.stop paren (.wrongArity f.declaration.params.length vs.length)) := keeps_stop trivial
      exact recounts_of_keeps (hstop.bind fun _ => False.elim) hm
  | _ => exact recounts_of_keeps (keeps_stop trivial) hm

/-- An expression makes the functions of what it evaluates, in order. -/
theorem recounts_evaluate (ih : Recounting n) (hm : (ofHistory history).Holds m) (own : Option String)
    (e : Expr) :
    Recounts n history ((Task.expr own e).calls n m) Allows (evaluate (n + 1) e m) := by
  cases e with
  | literal value =>
    rw [evaluate]
    exact recounts_of_keeps (keeps_pure (allows_ofLiteral _ value)) hm
  | grouping inner =>
    rw [evaluate]
    exact (ih.evaluate own inner).only hm
  | unary operator right =>
    rw [evaluate]
    exact (ih.evaluate own right).last hm fun v _ => keeps_unaryResult (.inr (.inr trivial)) v
  | binary left operator right =>
    rw [evaluate]
    refine (ih.evaluate own left).first hm fun v m₁ _ hm₁ => ?_
    exact (ih.evaluate own right).last hm₁ fun w _ => keeps_binaryResult (.inr trivial) v w
  | logical left operator right =>
    rw [evaluate]
    refine (ih.evaluate own left).first hm fun v m₁ hv hm₁ => ?_
    exact .ite (recounts_of_keeps (keeps_pure hv) hm₁) ((ih.evaluate own right).only hm₁)
  | reference id name =>
    rw [evaluate]
    exact recounts_of_keeps (keeps_read id name) hm
  | assign id name value =>
    rw [evaluate]
    refine (ih.evaluate own value).last hm fun v hv => ?_
    exact (keeps_assign id name hv).bind fun _ _ => keeps_pure hv
  | call callee paren arguments =>
    rw [evaluate]
    refine (ih.evaluate own callee).first hm fun v m₁ _ hm₁ => ?_
    exact (ih.evaluateAll own arguments).first hm₁ fun vs m₂ hvs hm₂ => recounts_call ih hm₂ paren hvs

theorem recounts_evaluateAll (ih : Recounting n) (hm : (ofHistory history).Holds m)
    (own : Option String) (es : List Expr) :
    Recounts n history ((Task.exprs own es).calls n m) (fun T vs => ∀ v ∈ vs, T.Allows v)
      (evaluateAll (n + 1) es m) := by
  cases es with
  | nil =>
    rw [evaluateAll]
    · exact recounts_of_keeps (keeps_pure (List.forall_mem_nil _)) hm
    · exact Nat.succ_ne_zero n
  | cons e es =>
    rw [evaluateAll]
    refine (ih.evaluate own e).first hm fun v m₁ hv hm₁ => ?_
    refine (ih.evaluateAll own es).last hm₁ fun vs hvs => keeps_pure ?_
    -- the first value has waited while the others were evaluated
    exact List.forall_mem_cons.mpr ⟨allows_append hv _, hvs⟩

/-- A statement that makes no function itself calls tasks that do. -/
theorem recounts_execute (ih : Recounting n) (hm : (ofHistory history).Holds m) (s : Stmt)
    (hs : Moment.made? ⟨n + 1, .stmt s, m⟩ = none) :
    Recounts n history ((Task.stmt s).calls n m) (fun _ _ => True) (execute (n + 1) s m) := by
  cases s with
  | expression e =>
    rw [execute]
    exact (ih.evaluate none e).last hm fun _ _ => keeps_pure trivial
  | print e =>
    rw [execute]
    exact (ih.evaluate none e).last hm fun v _ => keeps_print v.text
  | declare name initializer =>
    cases initializer with
    | none =>
      rw [execute]
      exact recounts_of_keeps (keeps_define name.lexeme trivial) hm
    | some e =>
      rw [execute]
      exact (ih.evaluate (m.ownName? name) e).last hm fun _ hv => keeps_define name.lexeme hv
  | block body =>
    rw [execute]
    exact .inNewScope ((ih.executeAll body).only (hm.enter m.current))
  | ifThen condition thenBranch =>
    rw [execute]
    refine (ih.evaluate none condition).first hm fun v m₁ _ hm₁ => ?_
    exact .ite ((ih.execute thenBranch).only hm₁) (recounts_of_keeps (keeps_pure trivial) hm₁)
  | ifElse condition thenBranch elseBranch =>
    rw [execute]
    refine (ih.evaluate none condition).first hm fun v m₁ _ hm₁ => ?_
    exact .ite ((ih.execute thenBranch).only hm₁) ((ih.execute elseBranch).only hm₁)
  | whileLoop condition body =>
    rw [execute]
    refine (ih.evaluate none condition).first hm fun v m₁ _ hm₁ => ?_
    refine .ite ?_ (recounts_of_keeps (keeps_pure trivial) hm₁)
    refine (ih.execute body).first hm₁ fun _ m₂ _ hm₂ => ?_
    exact (ih.execute (.whileLoop condition body)).only hm₂
  | function name params body => cases hs
  | ret keyword value =>
    cases value with
    | none =>
      rw [execute]
      exact recounts_of_keeps (keeps_throw trivial) hm
    | some e =>
      rw [execute]
      exact (ih.evaluate none e).last hm fun _ hv => keeps_throw hv

/-- A list of statements makes the functions of its statements, in order. -/
theorem recounts_executeAll (ih : Recounting n) (hm : (ofHistory history).Holds m) (ss : List Stmt) :
    Recounts n history ((Task.stmts ss).calls n m) (fun _ _ => True) (executeAll (n + 1) ss m) := by
  cases ss with
  | nil =>
    rw [executeAll]
    · exact recounts_of_keeps (keeps_pure trivial) hm
    · exact Nat.succ_ne_zero n
  | cons s ss =>
    rw [executeAll]
    refine (ih.execute s).first hm fun _ m₁ _ hm₁ => ?_
    exact (ih.executeAll ss).only hm₁

/-- What is made in the course of a task that is no declaration of a function is made by the tasks it calls. -/
theorem made_succ {t : Task} (h : Moment.made? ⟨n + 1, t, m⟩ = none) :
    made (n + 1) t m = madeByAll n (t.calls n m) := by
  rw [made, moments, List.filterMap_cons_none h, List.filterMap_flatMap]
  rfl

/-- Executing a declaration makes one function, which gets the next place of the history. -/
theorem recounted_function (n : Nat) (name : Token) (params : List Token) (body : List Stmt) :
    Recounted (n + 1) (.stmt (.function name params body)) (fun _ _ => True)
      (execute (n + 1) (.function name params body)) := by
  intro history m hm
  let f := m.closure ⟨name, params, body⟩
  have hmade : made (n + 1) (.stmt (.function name params body)) m = [f] := rfl
  obtain ⟨hcount, hnumbered⟩ := hm.count
  have hmachine : (ofHistory (history ++ [f])).Holds { m with nextFunction := m.nextFunction + 1 } := by
    constructor
    · exact fun a x v hread => allows_append (hm.stored a x v hread) [f]
    · refine ⟨?_, hnumbered.append_singleton hcount⟩
      rw [List.length_append, List.length_singleton, hcount]
  have hmember : (ofHistory (history ++ [f])).Allows (.function f) :=
    List.mem_append_right history (List.mem_singleton_self f)
  have hclosure : Run.makeClosure ⟨name, params, body⟩ m =
    .ok (.function f) { m with nextFunction := m.nextFunction + 1 } := rfl
  rw [hmade, execute, bind_of_ok hclosure]
  exact keeps_define name.lexeme hmember _ hmachine

end

/-- Every tree goes on with every history by the functions made in its course. -/
theorem recounting (n : Nat) : Recounting n := by
  -- on the fuel: a function body is run with less than its call
  induction n with
  | zero => exact recounting_zero
  | succ n ih =>
    constructor
    · intro own e history m hm
      rw [made_succ rfl]
      exact (recounts_evaluate ih hm own e).ends
    · intro own es history m hm
      rw [made_succ rfl]
      exact (recounts_evaluateAll ih hm own es).ends
    · intro s history m hm
      cases hmade : Moment.made? ⟨n + 1, .stmt s, m⟩ with
      | none =>
        rw [made_succ hmade]
        exact (recounts_execute ih hm s hmade).ends
      | some f =>
        obtain ⟨_, name, params, body, _, ⟨⟩, -⟩ := Moment.made?_eq_some.mp hmade
        exact recounted_function n name params body history m hm
    · intro ss history m hm
      rw [made_succ rfl]
      exact (recounts_executeAll ih hm ss).ends

/-- What is made in the course of a task is what the declarations that are executed in its course make. -/
theorem mem_made {n : Nat} {t : Task} {m : Machine} {f : Closure} :
    f ∈ made n t m ↔ ∃ k name params body m',
      Begins n t m (k + 1) (.stmt (.function name params body)) m' ∧
        f = m'.closure ⟨name, params, body⟩ := by
  rw [made, List.mem_filterMap]
  constructor
  · rintro ⟨moment, hmoment, hmade⟩
    obtain ⟨k, name, params, body, m', rfl, rfl⟩ := Moment.made?_eq_some.mp hmade
    exact ⟨k, name, params, body, m', mem_moments.mp hmoment, rfl⟩
  · rintro ⟨k, name, params, body, m', hbegins, rfl⟩
    exact ⟨_, mem_moments.mpr hbegins, rfl⟩

/-- At each of the moments, all functions are those of the history and those made at the moments before it. -/
def Recalled (history : List Closure) : List Moment → Prop
  | [] => True
  | moment :: later =>
    (ofHistory history).Holds moment.machine ∧ Recalled (history ++ moment.made?.toList) later

/-- Moments after others are held against the history that those have left. -/
theorem recalled_append {history : List Closure} {ms ms' : List Moment} :
    Recalled history (ms ++ ms') ↔
      Recalled history ms ∧ Recalled (history ++ ms.filterMap Moment.made?) ms' := by
  induction ms generalizing history with
  | nil => simp [Recalled]
  | cons moment ms ih =>
    have hmade : (moment :: ms).filterMap Moment.made? =
        moment.made?.toList ++ ms.filterMap Moment.made? := by
      cases h : moment.made? with
      | none => rw [List.filterMap_cons_none h, Option.toList_none, List.nil_append]
      | some f => rw [List.filterMap_cons_some h, Option.toList_some, List.singleton_append]
    rw [List.cons_append, Recalled, Recalled, ih, hmade, List.append_assoc, and_assoc]

section

variable {n : Nat} {history : List Closure} {t : Task} {m : Machine}

/-- Each task that is called begins with the functions made before it. -/
theorem begun_calls (hm : (ofHistory history).Holds m) : Begun n history (t.calls n m) := by
  have hsteps := recounting n
  cases t with
  | expr own e => exact (recounts_evaluate hsteps hm own e).begun
  | exprs own es => exact (recounts_evaluateAll hsteps hm own es).begun
  | stmt s =>
    cases hmade : Moment.made? ⟨n + 1, .stmt s, m⟩ with
    | none => exact (recounts_execute hsteps hm s hmade).begun
    | some f =>
      obtain ⟨_, name, params, body, _, ⟨⟩, -⟩ := Moment.made?_eq_some.mp hmade
      exact trivial
  | stmts ss => exact (recounts_executeAll hsteps hm ss).begun

theorem recalled_flatMap
    (h : ∀ {history t m}, (ofHistory history).Holds m → Recalled history (moments n t m))
    {calls : List (Task × Machine)} (hbegun : Begun n history calls) :
    Recalled history (calls.flatMap fun c => moments n c.1 c.2) := by
  induction calls generalizing history with
  | nil => exact trivial
  | cons c calls ih =>
    obtain ⟨hm, hbegun⟩ := hbegun
    rw [List.flatMap_cons, recalled_append]
    exact ⟨h hm, ih hbegun⟩

/-- At every moment of a task, all functions are those made until then. -/
theorem recalled_moments (hm : (ofHistory history).Holds m) : Recalled history (moments n t m) := by
  induction n generalizing history t m with
  | zero => exact ⟨hm, trivial⟩
  | succ n ih =>
    refine ⟨hm, ?_⟩
    cases hmade : Moment.made? ⟨n + 1, t, m⟩ with
    | none =>
      rw [Option.toList_none, List.append_nil]
      exact recalled_flatMap ih (begun_calls hm)
    | some f =>
      obtain ⟨_, name, params, body, _, ⟨⟩, -⟩ := Moment.made?_eq_some.mp hmade
      exact trivial

/-- At a moment in the course of a task, the history has come as far as the moments before have brought it. -/
theorem holds_of_moments (hm : (ofHistory history).Holds m) {before after : List Moment} {moment : Moment}
    (h : moments n t m = before ++ moment :: after) :
    (ofHistory (history ++ before.filterMap Moment.made?)).Holds moment.machine := by
  have hrecalled : Recalled history (before ++ moment :: after) := h ▸ recalled_moments hm
  exact (recalled_append.mp hrecalled).2.1

end

end LoxLang

import LoxLang.Evaluation
import LoxLang.Proofs.Commutes
import LoxLang.Proofs.Tree.Lines
import LoxLang.Proofs.Values

/-!
Running does not look at lines. If the lines of a program and of all functions that a machine holds are
changed in the same way, the run is the same but for the lines of functions and of the error that it
may end with. Main statement: `interpret_mapLines`.
-/
namespace LoxLang

namespace Bindings

variable {α β : Type}

def map (f : α → β) (t : Bindings α) : Bindings β := ⟨t.entries.map (Prod.map id f)⟩

/-- Changing values does not change under which name they are found. -/
theorem find?_map (f : α → β) (t : Bindings α) (x : String) :
    (t.map f).find? x = (t.find? x).map f := by
  obtain ⟨entries⟩ := t
  change findIn x (entries.map (Prod.map id f)) = (findIn x entries).map f
  induction entries with
  | nil => rfl
  | cons e rest ih =>
    rw [List.map_cons, Prod.map, findIn, findIn, id]
    split
    · rfl
    · exact ih

theorem insert_map (f : α → β) (t : Bindings α) (x : String) (a : α) :
    (t.map f).insert x (f a) = (t.insert x a).map f := by
  obtain ⟨entries⟩ := t
  refine congrArg Bindings.mk (?_ : insertIn x (f a) (entries.map (Prod.map id f)) =
    (insertIn x a entries).map (Prod.map id f))
  induction entries with
  | nil => rfl
  | cons e rest ih =>
    rw [List.map_cons, Prod.map, insertIn, insertIn, id]
    split
    · rfl
    · rw [ih, List.map_cons]
      rfl

end Bindings

section

variable (g : Nat → Nat)

def FunctionDecl.mapLines (d : FunctionDecl) : FunctionDecl where
  name := d.name.mapLine g
  params := d.params.map (Token.mapLine g)
  body := d.body.map (Stmt.mapLines g)

def Closure.mapLines (f : Closure) : Closure := { f with declaration := f.declaration.mapLines g }

abbrev Value.mapLines : Value → Value := ValueOf.map (Closure.mapLines g)

def Store.mapLines (s : Store) : Store := ⟨s.tables.map (Bindings.map (Value.mapLines g))⟩

def Machine.mapLines (m : Machine) : Machine := { m with store := m.store.mapLines g }

def RuntimeError.mapLine (e : RuntimeError) : RuntimeError := { e with line := g e.line }

def Signal.mapLines : Signal → Signal
  | .returned v => .returned (v.mapLines g)
  | .runtime e => .runtime (e.mapLine g)
  | s => s

end

section

variable (g h : Nat → Nat)

theorem Closure.mapLines_comp : Closure.mapLines h ∘ Closure.mapLines g = Closure.mapLines (h ∘ g) := by
  have hbody : Stmt.mapLines h ∘ Stmt.mapLines g = Stmt.mapLines (h ∘ g) :=
    funext (Stmt.mapLines_mapLines g h)
  funext f
  simp only [Function.comp, mapLines, FunctionDecl.mapLines, List.map_map, Token.mapLine_comp, hbody]
  rfl

theorem Closure.mapLines_id : Closure.mapLines id = id := by
  have hbody : Stmt.mapLines id = id := funext Stmt.mapLines_id
  have hparams : Token.mapLine id = id := rfl
  funext f
  simp only [mapLines, FunctionDecl.mapLines, hbody, hparams, List.map_id, id]

theorem Value.mapLines_mapLines (v : Value) : (v.mapLines g).mapLines h = v.mapLines (h ∘ g) := by
  rw [Value.mapLines, Value.mapLines, map_map, Closure.mapLines_comp]

theorem Value.mapLines_id (v : Value) : v.mapLines id = v := by
  rw [Value.mapLines, Closure.mapLines_id, map_id]

theorem Bindings.map_map {α β γ : Type} (f : α → β) (f' : β → γ) (t : Bindings α) :
    (t.map f).map f' = t.map (f' ∘ f) := by
  simp only [map, List.map_map]
  rfl

theorem Bindings.map_id {α : Type} (t : Bindings α) : t.map id = t := by
  simp only [map, Prod.map_id, List.map_id]

theorem Machine.mapLines_mapLines (m : Machine) :
    (m.mapLines g).mapLines h = m.mapLines (h ∘ g) := by
  have hvalues : Value.mapLines h ∘ Value.mapLines g = Value.mapLines (h ∘ g) :=
    funext (Value.mapLines_mapLines g h)
  have htables : Bindings.map (Value.mapLines h) ∘ Bindings.map (Value.mapLines g) =
      Bindings.map (Value.mapLines (h ∘ g)) := by
    funext t
    rw [Function.comp, Bindings.map_map, hvalues]
  simp only [mapLines, Store.mapLines, Array.map_map, htables]

theorem Machine.mapLines_id (m : Machine) : m.mapLines id = m := by
  have hvalues : Value.mapLines id = id := funext Value.mapLines_id
  have htables : Bindings.map (Value.mapLines id) = id := by
    funext t
    rw [hvalues, Bindings.map_id, id]
  simp only [mapLines, Store.mapLines, htables, Array.map_id]

end

section

variable {g : Nat → Nat}

theorem lookalike_mapLines (g : Nat → Nat) : Lookalike fun f f' => Closure.mapLines g f = f' where
  identity h := by
    subst h
    rfl
  name h := by
    subst h
    rfl

namespace Store

@[simp] theorem readTable_mapLines (s : Store) (a : Address) (x : String) :
    (s.mapLines g).readTable a x = (s.readTable a x).map (Value.mapLines g) := by
  unfold readTable mapLines
  rw [Array.getElem?_map]
  cases s.tables[a]? with
  | none => rfl
  | some t => exact Bindings.find?_map _ t x

/-- Writing does the same to a store whose functions are on other lines. -/
theorem writeTable_mapLines (s : Store) (a : Address) (x : String) (v : Value) :
    (s.mapLines g).writeTable a x (v.mapLines g) = (s.writeTable a x v).mapLines g := by
  refine congrArg Store.mk (Array.ext_getElem? fun i => ?_)
  simp only [mapLines, writeTable, Array.getElem?_modify, Array.getElem?_map]
  by_cases h : a = i
  · simp only [if_pos h]
    cases s.tables[i]? with
    | none => rfl
    | some t => exact congrArg some (Bindings.insert_map _ t x v)
  · simp only [if_neg h]

theorem addTable_mapLines (s : Store) : (s.mapLines g).addTable = s.addTable.mapLines g := by
  simp only [addTable, mapLines, Array.map_push]
  rfl

@[simp] theorem inside_mapLines (s : Store) (e : Environment) :
    (s.mapLines g).inside e = s.inside e := by
  simp only [inside, mapLines, Array.size_map]

@[simp] theorem binds_mapLines (s : Store) : (s.mapLines g).binds = s.binds := by
  funext x a
  simp only [binds, readTable_mapLines, Option.isSome_map]

theorem define_mapLines (s : Store) (e : Environment) (x : String) (v : Value) :
    (s.mapLines g).define e x (v.mapLines g) = (s.define e x v).mapLines g := by
  cases e with
  | nil => rfl
  | cons a e => exact writeTable_mapLines s a x v

end Store

abbrev Moved {α : Type} (g : Nat → Nat) (onResult : α → α) (a a' : Run α) : Prop :=
  Commutes (Machine.mapLines g) (Signal.mapLines g) onResult a a'

namespace Run

theorem moved_stop {α : Type} {onResult : α → α} (t : Token) (cause : RuntimeError.Cause) :
    Moved g onResult (stop t cause) (stop (t.mapLine g) cause) := .throw _

theorem moved_define (x : String) (v : Value) :
    Moved g id (define x v) (define x (v.mapLines g)) := by
  intro m
  refine congrArg (EStateM.Result.ok ()) (?_ : Machine.mk _ _ _ _ _ _ _ = Machine.mk _ _ _ _ _ _ _)
  rw [← Store.define_mapLines]
  rfl

/-- Where a variable is does not depend on lines. -/
theorem moved_locate (i : ReferenceId) (name : Token) :
    Moved g id (locate i name) (locate i (name.mapLine g)) := by
  intro m
  have howner (x : String) : (m.store.mapLines g).owner? .globals x = m.store.owner? .globals x := by
    rw [Store.owner?, Store.owner?, Store.binds_mapLines]
  have hownerAt (d : Nat) (x : String) :
      (m.store.mapLines g).ownerAt? m.current d x = m.store.ownerAt? m.current d x := by
    rw [Store.ownerAt?, Store.ownerAt?, Store.binds_mapLines]
  unfold locate
  simp only [Machine.mapLines, howner, hownerAt, Token.lexeme_mapLine]
  split <;> rfl

theorem moved_read (i : ReferenceId) (name : Token) :
    Moved g (Value.mapLines g) (read i name) (read i (name.mapLine g)) := by
  refine .bind (moved_locate i name) fun a m => ?_
  have hread : (m.mapLines g).store.readTable a name.lexeme = _ :=
    Store.readTable_mapLines m.store a name.lexeme
  have hget (m : Machine) : (get : Run Machine) m = .ok m m := rfl
  simp only [Bind.bind, EStateM.bind, hget, Token.lexeme_mapLine, id, hread]
  cases m.store.readTable a name.lexeme <;> rfl

theorem moved_assign (i : ReferenceId) (name : Token) (v : Value) :
    Moved g id (Run.assign i name v) (Run.assign i (name.mapLine g) (v.mapLines g)) := by
  refine .bind (moved_locate i name) fun a m => ?_
  refine congrArg (EStateM.Result.ok ()) (?_ : Machine.mk _ _ _ _ _ _ _ = Machine.mk _ _ _ _ _ _ _)
  rw [← Store.writeTable_mapLines]
  rfl

theorem moved_makeClosure (d : FunctionDecl) :
    Moved g (Value.mapLines g) (makeClosure d) (makeClosure (d.mapLines g)) := fun _ => rfl

theorem moved_print (text : String) : Moved g id (Run.print text) (Run.print text) := by
  intro m
  unfold Run.print
  change (if m.output.fits (text ++ "\n") then _ else _) =
    Changed _ _ _ (if m.output.fits (text ++ "\n") then _ else _)
  split <;> rfl

theorem moved_inEnvironment {α : Type} {onResult : α → α} {a a' : Run α} (h : Moved g onResult a a')
    (e : Environment) : Moved g onResult (inEnvironment e a) (inEnvironment e a') := by
  intro m
  have hstep := h { m with current := e }
  unfold inEnvironment
  simp only
  change a' { m.mapLines g with current := e } = _ at hstep
  rw [hstep]
  cases a { m with current := e } <;> rfl

theorem moved_inNewScope {α : Type} {onResult : α → α} {a a' : Run α} (h : Moved g onResult a a')
    (e : Environment) : Moved g onResult (inNewScope e a) (inNewScope e a') := by
  intro m
  have hstep := moved_inEnvironment h (m.store.inside e) { m with store := m.store.addTable }
  change _ = Changed _ _ _ (inEnvironment (m.store.inside e) a { m with store := m.store.addTable })
  rw [← hstep]
  unfold inNewScope
  simp only [Machine.mapLines, Store.inside_mapLines, Store.addTable_mapLines]

theorem moved_catchReturn {a a' : Run Unit} (h : Moved g id a a') :
    Moved g (Value.mapLines g) (catchReturn a) (catchReturn a') := by
  intro m
  unfold catchReturn
  rw [h m]
  cases a m with
  | ok _ m => rfl
  | error signal m => cases signal <;> rfl

theorem moved_orStop {α : Type} {onResult : α → α} (t : Token)
    {result result' : Except RuntimeError.Cause α} (h : result' = result.map onResult) :
    Moved g onResult (orStop t result) (orStop (t.mapLine g) result') := by
  subst h
  cases result with
  | ok a => exact .pure a
  | error cause => exact moved_stop t cause

theorem moved_checkArity (paren : Token) (expected got : Nat) :
    Moved g id (orStop paren (checkArity expected got))
      (orStop (paren.mapLine g) (checkArity expected got)) :=
  moved_orStop paren (by cases checkArity expected got <;> rfl)

theorem moved_callNative (paren : Token) (f : NativeFunction) (vs : List Value) :
    Moved g (Value.mapLines g) (callNative paren f vs)
      (callNative (paren.mapLine g) f (vs.map (Value.mapLines g))) := by
  have hclock : Moved g id readClock readClock := fun _ => rfl
  unfold callNative
  rw [List.length_map]
  refine .bind (moved_checkArity paren _ _) fun _ => .bind hclock fun now => ?_
  exact moved_orStop paren (result_map _ f now vs)

theorem moved_bindArguments (ps : List Token) (vs : List Value) : Moved g id (bindArguments ps vs)
    (bindArguments (ps.map (Token.mapLine g)) (vs.map (Value.mapLines g))) := by
  induction ps generalizing vs with
  | nil => exact .pure ()
  | cons p ps ih =>
    cases vs with
    | nil => exact .pure ()
    | cons v vs => exact .bind (moved_define p.lexeme v) fun _ => ih vs

/-- A call does the same on other lines if its body does. -/
theorem moved_call {run run' : List Stmt → Run Unit}
    (hrun : ∀ body, Moved g id (run body) (run' (body.map (Stmt.mapLines g)))) (paren : Token)
    (callee : Value) (vs : List Value) : Moved g (Value.mapLines g) (Run.call paren callee vs run)
      (Run.call (paren.mapLine g) (callee.mapLines g) (vs.map (Value.mapLines g)) run') := by
  cases callee with
  | native f => exact moved_callNative paren f vs
  | function f =>
    unfold Run.call callClosure
    simp only [Value.mapLines, ValueOf.map, Closure.mapLines, FunctionDecl.mapLines, List.length_map]
    refine .bind (moved_checkArity paren _ _) fun _ => ?_
    exact moved_catchReturn (moved_inNewScope
      (.bind (moved_bindArguments f.declaration.params vs) fun _ => hrun f.declaration.body) _)
  | _ => exact moved_stop paren _

end Run

open Run

section

variable {n : Nat} (he : ∀ e, Moved g (Value.mapLines g) (evaluate n e) (evaluate n (e.mapLines g)))
  (hes : ∀ es, Moved g (List.map (Value.mapLines g)) (evaluateAll n es)
    (evaluateAll n (es.map (Expr.mapLines g))))
  (hs : ∀ s, Moved g id (execute n s) (execute n (s.mapLines g)))
  (hss : ∀ ss, Moved g id (executeAll n ss) (executeAll n (ss.map (Stmt.mapLines g))))

include he hes hss in
/-- Expressions do the same on other lines. -/
theorem moved_evaluate (e : Expr) :
    Moved g (Value.mapLines g) (evaluate (n + 1) e) (evaluate (n + 1) (e.mapLines g)) := by
  cases e <;> simp only [Expr.mapLines_literal, Expr.mapLines_grouping, Expr.mapLines_unary,
    Expr.mapLines_binary, Expr.mapLines_logical, Expr.mapLines_reference, Expr.mapLines_assign,
    Expr.mapLines_call, evaluate]
  case literal v =>
    have hpure : Moved g (Value.mapLines g) (pure (.ofLiteral v))
      (pure (Value.mapLines g (.ofLiteral v))) := .pure _
    rw [Value.mapLines, map_ofLiteral] at hpure
    exact hpure
  case grouping inner => exact he inner
  case unary operator _ =>
    refine .bind (he _) fun v => moved_orStop operator ?_
    rw [Token.kind_mapLine]
    exact unaryResult_map _ v operator.kind
  case binary operator _ =>
    refine .bind (he _) fun v => .bind (he _) fun w => moved_orStop operator ?_
    rw [Token.kind_mapLine]
    exact binaryResult_map _ v w (lookalike_mapLines g) operator.kind
  case logical =>
    refine .bind (he _) fun v => ?_
    rw [Token.kind_mapLine, Value.mapLines, decides_map]
    exact .ite Iff.rfl (.pure v) (he _)
  case reference => exact moved_read _ _
  case assign => exact .bind (he _) fun v => .bind (moved_assign _ _ v) fun _ => .pure v
  case call => exact .bind (he _) fun f => .bind (hes _) fun vs => moved_call hss _ f vs

include he hes in
theorem moved_evaluateAll (es : List Expr) : Moved g (List.map (Value.mapLines g))
    (evaluateAll (n + 1) es) (evaluateAll (n + 1) (es.map (Expr.mapLines g))) := by
  cases es <;> simp only [List.map_nil, List.map_cons, evaluateAll]
  case nil => exact .pure []
  case cons => exact .bind (he _) fun v => .bind (hes _) fun vs => .pure (v :: vs)

include he hs hss in
/-- Statements do the same on other lines. -/
theorem moved_execute (s : Stmt) :
    Moved g id (execute (n + 1) s) (execute (n + 1) (s.mapLines g)) := by
  rcases s with _ | _ | ⟨_, _ | _⟩ | _ | _ | _ | _ | _ | ⟨_, _ | _⟩ <;>
    simp only [Stmt.mapLines_expression, Stmt.mapLines_print, Stmt.mapLines_declare,
      Stmt.mapLines_block, Stmt.mapLines_ifThen, Stmt.mapLines_ifElse, Stmt.mapLines_whileLoop,
      Stmt.mapLines_function, Stmt.mapLines_ret, Option.map_none, Option.map_some, execute]
  case expression => exact .bind (he _) fun _ => .pure ()
  case print =>
    refine .bind (he _) fun v => ?_
    rw [Value.mapLines, text_map _ v (lookalike_mapLines g)]
    exact moved_print _
  case declare.none => exact moved_define _ .nil
  case declare.some => exact .bind (he _) fun v => moved_define _ v
  case block => exact fun m => moved_inNewScope (hss _) m.current m
  case ifThen =>
    refine .bind (he _) fun v => ?_
    rw [isTruthy_map]
    exact .ite Iff.rfl (hs _) (.pure ())
  case ifElse =>
    refine .bind (he _) fun v => ?_
    rw [isTruthy_map]
    exact .ite Iff.rfl (hs _) (hs _)
  case whileLoop condition body =>
    refine .bind (he _) fun v => ?_
    rw [isTruthy_map]
    have hagain := hs (.whileLoop condition body)
    rw [Stmt.mapLines_whileLoop] at hagain
    exact .ite Iff.rfl (.bind (hs _) fun _ => hagain) (.pure ())
  case function => exact .bind (moved_makeClosure _) fun v => moved_define _ v
  case ret.none => exact .throw _
  case ret.some => exact .bind (he _) fun v => .throw (Signal.returned v)

include hs hss in
theorem moved_executeAll (ss : List Stmt) :
    Moved g id (executeAll (n + 1) ss) (executeAll (n + 1) (ss.map (Stmt.mapLines g))) := by
  cases ss <;> simp only [List.map_nil, List.map_cons, executeAll]
  case nil => exact .pure ()
  case cons => exact .bind (hs _) fun _ => hss _

end

/-- Running a program on other lines is the same running on other lines. -/
theorem moved_run (g : Nat → Nat) (n : Nat) :
    (∀ e, Moved g (Value.mapLines g) (evaluate n e) (evaluate n (e.mapLines g))) ∧
    (∀ es, Moved g (List.map (Value.mapLines g)) (evaluateAll n es)
      (evaluateAll n (es.map (Expr.mapLines g)))) ∧
    (∀ s, Moved g id (execute n s) (execute n (s.mapLines g))) ∧
    (∀ ss, Moved g id (executeAll n ss) (executeAll n (ss.map (Stmt.mapLines g)))) := by
  induction n with
  | zero =>
    refine ⟨fun e => ?_, fun es => ?_, fun s => ?_, fun ss => ?_⟩
    all_goals
      simp only [evaluate, evaluateAll, execute, executeAll]
      exact .throw Signal.exhausted
  | succ n ih =>
    obtain ⟨he, hes, hs, hss⟩ := ih
    exact ⟨moved_evaluate he hes hss, moved_evaluateAll he hes, moved_execute he hs hss,
      moved_executeAll hs hss⟩

def Outcome.mapLine (g : Nat → Nat) : Outcome → Outcome
  | .runtime e => .runtime (e.mapLine g)
  | outcome => outcome

/-- A program on other lines ends in the same way, on the other line if it ends with an error. -/
theorem interpret_mapLines (g : Nat → Nat) (n : Nat) (program : List Stmt) (m : Machine) :
    interpret n (program.map (Stmt.mapLines g)) (m.mapLines g) =
      ((interpret n program m).1.mapLine g, (interpret n program m).2.mapLines g) := by
  unfold interpret
  rw [(moved_run g n).2.2.2 program m]
  have hflush (m : Machine) : (m.mapLines g).flush = m.flush.mapLine g := by
    unfold Machine.flush
    change (if m.output.flushFails then _ else _) = _
    split <;> rfl
  cases executeAll n program m with
  | ok _ m =>
    simp only [Changed]
    rw [hflush]
  | error signal m =>
    cases signal with
    | returned v =>
      simp only [Changed, Signal.mapLines]
      rw [hflush]
    | _ => rfl

end

end LoxLang

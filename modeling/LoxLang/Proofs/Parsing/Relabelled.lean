import Mathlib.Data.List.TakeWhile
import LoxLang.Proofs.Commutes
import LoxLang.Proofs.Parsing.Sound
import LoxLang.Proofs.Tree.Relabel

/-!
Reading looks at the kinds of tokens and at nothing else. If the tokens are replaced by others of the
same kinds, if more of them were taken before, if the first free id is a larger one and if other errors
were found before, the tree, the ids and the errors are those of before with the new tokens, places and
ids in their places. Main statement: `parse_relabel`.
-/
namespace LoxLang

def SyntaxError.relabel (g : Token → Token) (e : SyntaxError) : SyntaxError :=
  { e with token := g e.token }

namespace Parsing

/-- What may differ between two readings that take the same steps. -/
structure Relabelling where
  token : Token → Token
  kind_token : ∀ t, (token t).kind = t.kind
  ids : Nat
  places : Nat
  found : Array SyntaxError

variable (C : Relabelling)

def Relabelling.onError (e : SyntaxError) : SyntaxError :=
  { e with token := C.token e.token, position := e.position + C.places }

def State.relabel (s : State) : State where
  rest := s.rest.map C.token
  position := s.position + C.places
  last := C.token s.last
  nextId := s.nextId + C.ids
  errors := C.found ++ s.errors.map C.onError

abbrev Relabels {α : Type} (onResult : α → α) (p p' : Parse α) : Prop :=
  Commutes (State.relabel C) C.onError onResult p p'

abbrev Relabelling.onExpr : Expr → Expr := Expr.relabel (· + C.ids) C.token

abbrev Relabelling.onStmt : Stmt → Stmt := Stmt.relabel (· + C.ids) C.token

section

variable {C} {α : Type} {onResult : α → α}

theorem current_relabel (s : State) : (s.relabel C).current = C.token s.current := by
  unfold State.current State.relabel
  cases s.rest <;> rfl

theorem advance_relabel (s : State) : (s.relabel C).advance = s.advance.relabel C := by
  obtain ⟨rest, position, last, nextId, errors⟩ := s
  cases rest with
  | nil => rfl
  | cons t rest => simp only [State.relabel, State.advance, List.map_cons, Nat.add_right_comm]

theorem errorHere_relabel (s : State) (cause : SyntaxError.Cause) :
    (s.relabel C).errorHere cause = C.onError (s.errorHere cause) := by
  unfold State.errorHere
  rw [current_relabel]
  rfl

theorem record_relabel (s : State) (e : SyntaxError) :
    (s.relabel C).record (C.onError e) = (s.record e).relabel C := by
  unfold State.record State.relabel
  rw [Array.map_push, Array.append_push]

theorem relabels_current : Relabels C C.token current current := fun s =>
  congrArg (fun t => EStateM.Result.ok t (s.relabel C)) (current_relabel s)

theorem relabels_advance : Relabels C id advance advance := fun s =>
  congrArg (EStateM.Result.ok ()) (advance_relabel s)

theorem relabels_errorHere (cause : SyntaxError.Cause) :
    Relabels C C.onError (errorHere cause) (errorHere cause) := fun s =>
  congrArg (fun e => EStateM.Result.ok e (s.relabel C)) (errorHere_relabel s cause)

theorem relabels_fail (cause : SyntaxError.Cause) :
    Relabels C onResult (fail cause) (fail cause) := fun s =>
  congrArg (fun e => EStateM.Result.error e (s.relabel C)) (errorHere_relabel s cause)

theorem relabels_recordHere (cause : SyntaxError.Cause) :
    Relabels C id (recordHere cause) (recordHere cause) := by
  intro s
  refine congrArg (EStateM.Result.ok ()) ?_
  rw [errorHere_relabel, record_relabel]

theorem relabels_freshId : Relabels C (· + C.ids) freshId freshId := by
  intro s
  refine congrArg (EStateM.Result.ok (s.nextId + C.ids)) ?_
  unfold State.relabel
  rw [Nat.add_right_comm]

theorem relabels_take? (right : TokenKind → Bool) :
    Relabels C (Option.map C.token) (take? right) (take? right) := by
  rintro ⟨rest, position, last, nextId, errors⟩
  cases rest with
  | nil => rfl
  | cons t rest =>
    change (if right (C.token t).kind then _ else _) = Changed _ _ _ (if right t.kind then _ else _)
    rw [C.kind_token, advance_relabel]
    split <;> rfl

theorem relabels_expect (right : TokenKind → Bool) (cause : SyntaxError.Cause) :
    Relabels C C.token (expect right cause) (expect right cause) := by
  refine .bind (relabels_take? right) fun t => ?_
  cases t with
  | none => exact relabels_fail cause
  | some t => exact .pure t

theorem relabels_expectSymbol (s : Symbol) (cause : SyntaxError.Cause) :
    Relabels C C.token (expectSymbol s cause) (expectSymbol s cause) := relabels_expect _ cause

theorem relabels_seesSymbol (s : Symbol) : Relabels C id (seesSymbol s) (seesSymbol s) := by
  refine .bind relabels_current fun t => ?_
  rw [C.kind_token]
  exact .pure (isSymbol s t.kind)

theorem relabels_takesSymbol (s : Symbol) : Relabels C id (takesSymbol s) (takesSymbol s) := by
  refine .bind (relabels_take? (isSymbol s)) fun t => ?_
  rw [Option.isSome_map]
  exact .pure t.isSome

theorem relabels_limited {β : Type} {onResult' : β → β} {q q' : Parse β}
    (h : Relabels C onResult' q q') (tooMany : SyntaxError.Cause) (count : Nat) :
    Relabels C onResult'
      (do
        if maxArguments ≤ count then
          recordHere tooMany
        q)
      (do
        if maxArguments ≤ count then
          recordHere tooMany
        q') :=
  .ite Iff.rfl (.bind (relabels_recordHere tooMany) fun _ => h) h

theorem relabels_commaSeparated {item item' : Parse α} (h : Relabels C onResult item item')
    (tooMany : SyntaxError.Cause) (fuel count : Nat) :
    Relabels C (List.map onResult) (commaSeparated item tooMany fuel count)
      (commaSeparated item' tooMany fuel count) := by
  induction fuel generalizing count with
  | zero => exact relabels_limited (.bind h fun a => .pure [a]) tooMany count
  | succ fuel ih =>
    refine relabels_limited (.bind h fun a => .bind (relabels_takesSymbol .comma) fun more => ?_)
      tooMany count
    exact .ite Iff.rfl (.bind (ih (count + 1)) fun rest => .pure (a :: rest)) (.pure [a])

theorem relabels_parenthesized {item item' : Parse α} (h : Relabels C onResult item item')
    (tooMany : SyntaxError.Cause) (fuel : Nat) :
    Relabels C (List.map onResult) (parenthesized item tooMany fuel)
      (parenthesized item' tooMany fuel) :=
  .bind (relabels_seesSymbol .rightParen) fun _ =>
    .ite Iff.rfl (.pure []) (relabels_commaSeparated h tooMany fuel 0)

section

variable {level : Level} {operand operand' : Parse Expr}
  (h : Relabels C C.onExpr operand operand') (fuel : Nat)

include h

/-- Operators are read alike under other labels. -/
theorem relabels_operations (left : Expr) : Relabels C C.onExpr
    (operations level operand fuel left)
    (operations level operand' fuel (C.onExpr left)) := by
  induction fuel generalizing left with
  | zero => exact .pure left
  | succ fuel ih =>
    refine .bind (relabels_take? level.holds) fun operator => ?_
    cases operator with
    | none => exact .pure left
    | some operator =>
      refine .bind h fun right => ?_
      have hbuild : level.build (C.onExpr left) (C.token operator) (C.onExpr right) =
          C.onExpr (level.build left operator right) := by cases level <;> rfl
      rw [hbuild]
      exact ih (level.build left operator right)

theorem relabels_chain :
    Relabels C C.onExpr (chain level fuel operand) (chain level fuel operand') :=
  .bind h fun left => relabels_operations h fuel left

theorem relabels_signed :
    Relabels C C.onExpr (signed operand fuel) (signed operand' fuel) := by
  induction fuel with
  | zero => exact h
  | succ fuel ih =>
    refine .bind (relabels_take? isSign) fun operator => ?_
    cases operator with
    | none => exact h
    | some operator => exact .bind ih fun right => .pure (Expr.unary operator right)

theorem relabels_primary : Relabels C C.onExpr (primary operand) (primary operand') := by
  refine .bind relabels_current fun t => ?_
  rw [C.kind_token]
  split
  case h_6 =>
    exact .bind relabels_advance fun _ => .bind relabels_freshId fun i => .pure (Expr.reference i t)
  case h_7 =>
    exact .bind relabels_advance fun _ => .bind h fun inner =>
      .bind (relabels_expectSymbol _ _) fun _ => .pure (Expr.grouping inner)
  case h_8 => exact relabels_fail _
  all_goals exact .bind relabels_advance fun _ => .pure (Expr.literal _)

/-- Argument lists are read alike under other labels. -/
theorem relabels_calls (callee : Expr) : Relabels C C.onExpr (calls operand fuel callee)
    (calls operand' fuel (C.onExpr callee)) := by
  induction fuel generalizing callee with
  | zero => exact .pure callee
  | succ fuel ih =>
    refine .bind (relabels_takesSymbol .leftParen) fun _ => .ite Iff.rfl ?_ (.pure callee)
    refine .bind (relabels_parenthesized h _ fuel) fun arguments =>
      .bind (relabels_expectSymbol _ _) fun paren => ?_
    have hcall : Expr.call (C.onExpr callee) (C.token paren) (arguments.map C.onExpr) =
        C.onExpr (.call callee paren arguments) := by
      rw [Relabelling.onExpr, Expr.relabel, Expr.relabelAll_eq_map]
    rw [hcall]
    exact ih (.call callee paren arguments)

theorem relabels_called :
    Relabels C C.onExpr (called operand fuel) (called operand' fuel) :=
  .bind (relabels_primary h) fun callee => relabels_calls h fuel callee

theorem relabels_operators :
    Relabels C C.onExpr (operators operand fuel) (operators operand' fuel) :=
  relabels_chain (relabels_chain (relabels_chain (relabels_chain (relabels_chain
    (relabels_chain (relabels_signed (relabels_called h fuel) fuel) fuel) fuel) fuel) fuel)
    fuel) fuel

theorem relabels_assignment {target target' : Parse Expr}
    (htarget : Relabels C C.onExpr target target') :
    Relabels C C.onExpr (assignment operand target) (assignment operand' target') := by
  refine .bind htarget fun target => .bind (relabels_errorHere _) fun invalid =>
    .bind (relabels_takesSymbol .equal) fun _ => .ite Iff.rfl (.bind h fun value => ?_)
      (.pure target)
  cases target with
  | reference i name => exact .bind relabels_freshId fun i => .pure (Expr.assign i name value)
  | _ => exact .throw invalid

end

theorem relabels_expression (fuel : Nat) :
    Relabels C C.onExpr (expression fuel) (expression fuel) := by
  induction fuel with
  | zero => exact relabels_fail _
  | succ fuel ih => exact relabels_assignment ih (relabels_operators ih fuel)

section

variable (fuel : Nat) {statement statement' : Parse Stmt}
  {declaration declaration' : Recover (Option Stmt)}

theorem relabels_optional : Relabels C (Option.map C.onExpr) (some <$> expression fuel)
    (some <$> expression fuel) := .map (relabels_expression fuel) fun _ => rfl

theorem relabels_letDeclaration :
    Relabels C C.onStmt (letDeclaration fuel) (letDeclaration fuel) := by
  have hrest (name : Token) (initializer : Option Expr) : Relabels C C.onStmt
      (do
        let _ ← expectSymbol .semicolon .semicolonAfterDeclaration
        return .declare name initializer)
      (do
        let _ ← expectSymbol .semicolon .semicolonAfterDeclaration
        return .declare (C.token name) (initializer.map C.onExpr)) := by
    refine .bind (relabels_expectSymbol _ _) fun _ => ?_
    cases initializer <;> exact .pure _
  exact .bind (relabels_expect _ _) fun name => .bind (relabels_takesSymbol _) fun _ =>
    .ite Iff.rfl (.bind (relabels_optional fuel) fun e => hrest name e) (hrest name none)

theorem relabels_printStatement :
    Relabels C C.onStmt (printStatement fuel) (printStatement fuel) :=
  .bind (relabels_expression fuel) fun e => .bind (relabels_expectSymbol _ _) fun _ =>
    .pure (Stmt.print e)

theorem relabels_expressionStatement :
    Relabels C C.onStmt (expressionStatement fuel) (expressionStatement fuel) :=
  .bind (relabels_expression fuel) fun e => .bind (relabels_expectSymbol _ _) fun _ =>
    .pure (Stmt.expression e)

theorem relabels_returnStatement (keyword : Token) :
    Relabels C C.onStmt (returnStatement fuel keyword)
      (returnStatement fuel (C.token keyword)) := by
  have hrest (value : Option Expr) : Relabels C C.onStmt
      (do
        let _ ← expectSymbol .semicolon .semicolonAfterReturn
        return .ret keyword value)
      (do
        let _ ← expectSymbol .semicolon .semicolonAfterReturn
        return .ret (C.token keyword) (value.map C.onExpr)) := by
    refine .bind (relabels_expectSymbol _ _) fun _ => ?_
    cases value <;> exact .pure _
  exact .bind (relabels_seesSymbol _) fun _ =>
    .ite Iff.rfl (hrest none) (.bind (relabels_optional fuel) fun e => hrest e)

theorem relabels_forInitializer : Relabels C (Option.map C.onStmt) (forInitializer fuel)
    (forInitializer fuel) := by
  refine .bind (relabels_takesSymbol _) fun _ => .ite Iff.rfl (.pure none) ?_
  refine .bind (relabels_take? _) fun keyword => ?_
  cases keyword with
  | none => exact .map (relabels_expressionStatement fuel) fun _ => rfl
  | some keyword => exact .map (relabels_letDeclaration fuel) fun _ => rfl

theorem relabels_forClause (closing : Symbol) (cause : SyntaxError.Cause) :
    Relabels C (Option.map C.onExpr) (forClause fuel closing cause)
      (forClause fuel closing cause) := by
  have hrest (clause : Option Expr) : Relabels C (Option.map C.onExpr)
      (do
        let _ ← expectSymbol closing cause
        return clause)
      (do
        let _ ← expectSymbol closing cause
        return clause.map C.onExpr) := .bind (relabels_expectSymbol _ _) fun _ => .pure clause
  exact .bind (relabels_seesSymbol _) fun _ =>
    .ite Iff.rfl (hrest none) (.bind (relabels_optional fuel) fun e => hrest e)

theorem forLoop_relabel (initializer : Option Stmt) (condition increment : Option Expr)
    (body : Stmt) :
    forLoop (initializer.map C.onStmt) (condition.map C.onExpr)
        (increment.map C.onExpr) (C.onStmt body) =
      C.onStmt (forLoop initializer condition increment body) := by
  cases initializer <;> cases condition <;> cases increment <;> rfl

section

variable (h : Relabels C C.onStmt statement statement')

include h

theorem relabels_ifStatement :
    Relabels C C.onStmt (ifStatement fuel statement) (ifStatement fuel statement') := by
  refine .bind (relabels_expectSymbol _ _) fun _ => .bind (relabels_expression fuel)
    fun condition => .bind (relabels_expectSymbol _ _) fun _ => .bind h fun thenBranch =>
    .bind (relabels_take? _) fun keyword => ?_
  cases keyword with
  | none => exact .pure (Stmt.ifThen condition thenBranch)
  | some keyword => exact .bind h fun elseBranch => .pure (Stmt.ifElse condition thenBranch elseBranch)

theorem relabels_whileStatement :
    Relabels C C.onStmt (whileStatement fuel statement) (whileStatement fuel statement') :=
  .bind (relabels_expectSymbol _ _) fun _ => .bind (relabels_expression fuel) fun condition =>
    .bind (relabels_expectSymbol _ _) fun _ => .bind h fun body =>
    .pure (Stmt.whileLoop condition body)

theorem relabels_forStatement :
    Relabels C C.onStmt (forStatement fuel statement) (forStatement fuel statement') := by
  refine .bind (relabels_expectSymbol _ _) fun _ => .bind (relabels_forInitializer fuel)
    fun initializer => .bind (relabels_forClause fuel _ _) fun condition =>
    .bind (relabels_forClause fuel _ _) fun increment => .bind h fun body => ?_
  rw [forLoop_relabel]
  exact .pure (forLoop initializer condition increment body)

end

theorem relabels_atEnd : Relabels C id (unstopped atEnd) (unstopped atEnd) := by
  intro s
  refine congrArg (fun b => EStateM.Result.ok b (s.relabel C)) ?_
  exact List.isEmpty_map

section

variable (h : Relabels C (Option.map C.onStmt) (unstopped declaration)
  (unstopped declaration'))

include h

theorem relabels_block (n : Nat) :
    Relabels C (List.map C.onStmt) (block declaration n) (block declaration' n) := by
  induction n with
  | zero => exact .bind (relabels_expectSymbol _ _) fun _ => .pure []
  | succ n ih =>
    refine .bind (relabels_seesSymbol _) fun _ => .bind relabels_atEnd fun _ =>
      .ite Iff.rfl (.bind (relabels_expectSymbol _ _) fun _ => .pure []) ?_
    refine .bind h fun first => .bind ih fun rest => ?_
    rw [Option.toList_map, ← List.map_append]
    exact .pure (first.toList ++ rest)

theorem relabels_function :
    Relabels C C.onStmt (function fuel declaration) (function fuel declaration') := by
  refine .bind (relabels_expect _ _) fun name => .bind (relabels_expectSymbol _ _) fun _ =>
    .bind (relabels_parenthesized (relabels_expect _ _) _ fuel) fun params =>
    .bind (relabels_expectSymbol _ _) fun _ => .bind (relabels_expectSymbol _ _) fun _ =>
    .bind (relabels_block h fuel) fun body => ?_
  have hfunction : Stmt.function (C.token name) (params.map C.token) (body.map C.onStmt) =
      C.onStmt (.function name params body) := by
    rw [Relabelling.onStmt, Stmt.relabel, Stmt.relabelAll_eq_map]
  rw [hfunction]
  exact .pure (Stmt.function name params body)

end

end

theorem nextStatement_map (previous : Token) (ts : List Token) :
    nextStatement (C.token previous) (ts.map C.token) =
      ((nextStatement previous ts).1.map C.token, (nextStatement previous ts).2) := by
  induction ts generalizing previous with
  | nil => rfl
  | cons t rest ih =>
    rw [List.map_cons, nextStatement, nextStatement, C.kind_token, C.kind_token, ih]
    split <;> rfl

theorem resume_relabel (s : State) : (s.relabel C).resume = s.resume.relabel C := by
  obtain ⟨rest, position, last, nextId, errors⟩ := s
  cases rest with
  | nil => rfl
  | cons t rest =>
    unfold State.resume State.relabel
    simp only [List.map_cons, nextStatement_map, Nat.add_right_comm]

/-- Going on after an error does not depend on labels. -/
theorem relabels_recovering {step step' : Parse α} (h : Relabels C onResult step step') :
    Relabels C (Option.map onResult) (unstopped (recovering step))
      (unstopped (recovering step')) := by
  intro s
  unfold unstopped recovering
  rw [h s]
  cases step s with
  | ok a s => rfl
  | error e s =>
    simp only [Changed]
    rw [record_relabel, resume_relabel]
    rfl

/-- Statements and declarations are read alike under other labels, by induction on the fuel. -/
theorem relabels_statement_declaration (fuel : Nat) :
    Relabels C C.onStmt (statement fuel) (statement fuel) ∧
      Relabels C (Option.map C.onStmt) (unstopped (declaration fuel))
        (unstopped (declaration fuel)) := by
  induction fuel with
  | zero => exact ⟨relabels_fail _, relabels_recovering (relabels_fail _)⟩
  | succ fuel ih =>
    obtain ⟨hstatement, hdeclaration⟩ := ih
    constructor
    · refine .bind relabels_current fun t => ?_
      rw [C.kind_token]
      split
      · exact .bind relabels_advance fun _ => relabels_forStatement fuel hstatement
      · exact .bind relabels_advance fun _ => relabels_ifStatement fuel hstatement
      · exact .bind relabels_advance fun _ => relabels_whileStatement fuel hstatement
      · exact .bind relabels_advance fun _ => relabels_returnStatement fuel t
      · refine .bind relabels_advance fun _ => .bind (relabels_block hdeclaration fuel)
          fun body => ?_
        have hblock : Stmt.block (body.map C.onStmt) = C.onStmt (.block body) := by
          rw [Relabelling.onStmt, Stmt.relabel, Stmt.relabelAll_eq_map]
        rw [hblock]
        exact .pure (Stmt.block body)
      · exact .bind relabels_advance fun _ => relabels_printStatement fuel
      · exact relabels_expressionStatement fuel
    · refine relabels_recovering (.bind relabels_current fun t => ?_)
      rw [C.kind_token]
      split
      · exact .bind relabels_advance fun _ => relabels_function fuel hdeclaration
      · exact .bind relabels_advance fun _ => relabels_letDeclaration fuel
      · exact hstatement

/-- Programs are read alike under other labels. -/
theorem relabels_program {declaration declaration' : Recover (Option Stmt)}
    (h : Relabels C (Option.map C.onStmt) (unstopped declaration) (unstopped declaration'))
    (n : Nat) : Relabels C (List.map C.onStmt) (unstopped (program declaration n))
      (unstopped (program declaration' n)) := by
  induction n with
  | zero => exact .pure []
  | succ n ih =>
    have hsteps : Relabels C (List.map C.onStmt)
        (unstopped declaration >>= fun first =>
          unstopped (program declaration n) >>= fun rest => pure (first.toList ++ rest))
        (unstopped declaration' >>= fun first =>
          unstopped (program declaration' n) >>= fun rest => pure (first.toList ++ rest)) := by
      refine .bind h fun first => .bind ih fun rest => ?_
      rw [Option.toList_map, ← List.map_append]
      exact .pure (first.toList ++ rest)
    intro s
    by_cases hrest : s.rest = []
    · have hrest' : (s.relabel C).rest = [] := List.map_eq_nil_iff.mpr hrest
      rw [unstopped, unstopped, program_of_rest_eq_nil hrest, program_of_rest_eq_nil hrest']
      rfl
    · have hrest' : (s.relabel C).rest ≠ [] := mt List.map_eq_nil_iff.mp hrest
      have hs := hsteps s
      rw [unstopped, unstopped, program_of_rest_ne_nil hrest, program_of_rest_ne_nil hrest']
      exact hs

end

section

variable {g : Token → Token} (hg : ∀ t, (g t).kind = t.kind) (k : Nat)

def labels : Relabelling := ⟨g, hg, k, 0, #[]⟩

/-- The end of the input is one of the tokens, so that no other line is made up for it. -/
theorem start_map (nextId : ReferenceId) {tokens : List Token} (h : ∃ t ∈ tokens, t.kind = .eof) :
    State.start (nextId + k) (tokens.map g) = (State.start nextId tokens).relabel (labels hg k) := by
  have hkinds : (fun t : Token => !t.kind.isEof) ∘ g = fun t => !t.kind.isEof := by
    funext t
    simp only [Function.comp, hg]
  have hdrop : tokens.dropWhile (!·.kind.isEof) ≠ [] := by
    obtain ⟨t, ht, heof⟩ := h
    intro hnil
    have hnone := List.dropWhile_eq_nil_iff.mp hnil t ht
    rw [heof] at hnone
    cases hnone
  obtain ⟨last, rest, hlast⟩ := List.exists_cons_of_ne_nil hdrop
  unfold State.start State.relabel
  simp only [List.takeWhile_map, List.dropWhile_map, hkinds, hlast, List.map_cons, labels,
    List.map_toArray, List.map_nil, Array.append_empty, Nat.add_zero]

end

end Parsing

open Parsing in
/-- Tokens of the same kinds are read as the same program with the new tokens and ids in their places,
and with the same errors at the new tokens. -/
theorem parse_relabel {g : Token → Token} (hg : ∀ t, (g t).kind = t.kind) (k : Nat)
    (nextId : ReferenceId) {tokens : List Token} (h : ∃ t ∈ tokens, t.kind = .eof) :
    parse (nextId + k) (tokens.map g) =
      { statements := (parse nextId tokens).statements.map (Stmt.relabel (· + k) g)
        errors := (parse nextId tokens).errors.map (SyntaxError.relabel g)
        nextId := (parse nextId tokens).nextId + k } := by
  have hfuel : (State.start (nextId + k) (tokens.map g)).rest.length =
      (State.start nextId tokens).rest.length := by
    rw [start_map hg k nextId h]
    exact List.length_map ..
  unfold parse
  simp only [hfuel]
  generalize 2 * (State.start nextId tokens).rest.length + 2 = fuel
  have hprogram := relabels_program (C := labels hg k) (relabels_statement_declaration fuel).2 fuel
    (State.start nextId tokens)
  rw [← start_map hg k nextId h] at hprogram
  obtain ⟨hstatements, hstate⟩ := EStateM.Result.ok.inj hprogram
  refine Eq.trans (congrArg₂ (fun statements (s : State) =>
    Parsed.mk statements s.errors.toList s.nextId) hstatements hstate) ?_
  simp only [State.relabel, Array.toList_append, Array.toList_map]
  rfl

end LoxLang

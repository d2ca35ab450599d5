import LoxLang.Proofs.Parsing.Sound
import LoxLang.Proofs.Tree.WellFormed

/-!
Whatever tokens are read, with or without errors, the trees read are well-formed: each step that puts a token
into a tree has looked at its kind. Main statement: `wellFormed_parse`.
-/
namespace LoxLang.Parsing

def Builds {α : Type} (p : Parse α) (P : α → Prop) : Prop := ∀ s a s', p s = .ok a s' → P a

namespace Builds

variable {α β : Type} {p q : Parse α} {f : α → Parse β} {P P' : α → Prop} {Q : β → Prop}

theorem bind (hp : Builds p P) (hf : ∀ a, P a → Builds (f a) Q) : Builds (p >>= f) Q := by
  intro s b s' h
  obtain ⟨a, s₁, ha, hb⟩ := bind_eq_ok h
  exact hf a (hp s a s₁ ha) s₁ b s' hb

theorem any (p : Parse α) : Builds p fun _ => True := fun _ _ _ _ => trivial

/-- Nothing need be known of a step whose result is of no account. -/
theorem after (hf : ∀ a, Builds (f a) Q) : Builds (p >>= f) Q := (any p).bind fun a _ => hf a

theorem mono (hp : Builds p P) (le : ∀ a, P a → P' a) : Builds p P' := fun s a s' h =>
  le a (hp s a s' h)

theorem pure {a : α} (h : P a) : Builds (Pure.pure a) P := by
  intro s b s' hb
  cases hb
  exact h

theorem map {g : α → β} (hp : Builds p fun a => Q (g a)) : Builds (g <$> p) Q :=
  bind hp fun _ h => pure h

theorem fail (cause : SyntaxError.Cause) : Builds (Parsing.fail cause) P := fun _ _ _ => nofun

theorem throw (e : SyntaxError) : Builds (throw e : Parse α) P := fun _ _ _ => nofun

theorem ite {c : Prop} [Decidable c] (hp : Builds p P) (hq : Builds q P) :
    Builds (if c then p else q) P := by
  split
  · exact hp
  · exact hq

theorem take? (right : TokenKind → Bool) :
    Builds (Parsing.take? right) fun o => ∀ t ∈ o, right t.kind = true := by
  intro s o s' h t ht
  unfold Parsing.take? at h
  split at h
  · cases h
    cases ht
  · split at h
    · next hright =>
      cases h
      cases ht
      exact hright
    · cases h
      cases ht

theorem expect (right : TokenKind → Bool) (cause : SyntaxError.Cause) :
    Builds (Parsing.expect right cause) fun t => right t.kind = true := by
  refine (take? right).bind fun o ho => ?_
  cases o with
  | none => exact fail cause
  | some t => exact pure (ho t rfl)

theorem expectIdentifier (cause : SyntaxError.Cause) :
    Builds (Parsing.expect isIdentifier cause) fun t => t.kind = .identifier :=
  (expect isIdentifier cause).mono fun _ => kind_of_isIdentifier

end Builds

open Builds

section

variable {α : Type} {item : Parse α} {P : α → Prop}

theorem builds_limited {β : Type} {f : α → Parse β} {Q : β → Prop} (h : Builds item P)
    (hf : ∀ a, P a → Builds (f a) Q) (tooMany : SyntaxError.Cause) (count : Nat) :
    Builds (do
      if maxArguments ≤ count then
        recordHere tooMany
      let first ← item
      f first) Q :=
  .ite (after fun _ => h.bind hf) (h.bind hf)

/-- All items of a list are as each item is when it is read. -/
theorem builds_commaSeparated (h : Builds item P) (tooMany : SyntaxError.Cause) (fuel count : Nat) :
    Builds (commaSeparated item tooMany fuel count) fun as => ∀ a ∈ as, P a := by
  have hone (a : α) (ha : P a) : ∀ b ∈ [a], P b := List.forall_mem_singleton.mpr ha
  induction fuel generalizing count with
  | zero => exact builds_limited h (fun a ha => pure (hone a ha)) tooMany count
  | succ fuel ih =>
    refine builds_limited h (fun first hfirst => ?_) tooMany count
    refine after fun _ => .ite ?_ (pure (hone first hfirst))
    refine (ih (count + 1)).bind fun rest hrest => pure ?_
    exact List.forall_mem_cons.mpr ⟨hfirst, hrest⟩

theorem builds_parenthesized (h : Builds item P) (tooMany : SyntaxError.Cause) (fuel : Nat) :
    Builds (parenthesized item tooMany fuel) fun as => ∀ a ∈ as, P a :=
  after fun _ => .ite (pure (List.forall_mem_nil P)) (builds_commaSeparated h tooMany fuel 0)

end

section

variable {operand : Parse Expr} {level : Level}

/-- The operators of a level fit the tree that the level builds. -/
theorem wellFormed_build {operator : Token} (hoperator : level.holds operator.kind = true)
    {left right : Expr} (hleft : left.WellFormed) (hright : right.WellFormed) :
    (level.build left operator right).WellFormed := by
  cases level with
  | or =>
    refine ⟨.inr ?_, hleft, hright⟩
    unfold Level.holds at hoperator
    split at hoperator <;> simp_all
  | and =>
    refine ⟨.inl ?_, hleft, hright⟩
    unfold Level.holds at hoperator
    split at hoperator <;> simp_all
  | equality | comparison | term | factor =>
    refine ⟨?_, hleft, hright⟩
    unfold Level.holds at hoperator
    split at hoperator <;> simp_all [binaryOperators]

/-- Operators of a level are put between well-formed operands only. -/
theorem builds_operations (h : Builds operand Expr.WellFormed) (fuel : Nat) {left : Expr}
    (hleft : left.WellFormed) : Builds (operations level operand fuel left) Expr.WellFormed := by
  induction fuel generalizing left with
  | zero => exact pure hleft
  | succ fuel ih =>
    refine (Builds.take? level.holds).bind fun o ho => ?_
    cases o with
    | none => exact pure hleft
    | some operator => exact h.bind fun right hright => ih (wellFormed_build (ho operator rfl) hleft hright)

theorem builds_chain (h : Builds operand Expr.WellFormed) (fuel : Nat) :
    Builds (chain level fuel operand) Expr.WellFormed :=
  h.bind fun _ hfirst => builds_operations h fuel hfirst

theorem kind_of_isSign {k : TokenKind} (h : isSign k = true) :
    k = .symbol .bang ∨ k = .symbol .minus := by
  unfold isSign at h
  split at h <;> simp_all

theorem builds_signed (h : Builds operand Expr.WellFormed) (fuel : Nat) :
    Builds (signed operand fuel) Expr.WellFormed := by
  induction fuel with
  | zero => exact h
  | succ fuel ih =>
    refine (Builds.take? isSign).bind fun o ho => ?_
    cases o with
    | none => exact h
    | some operator => exact ih.bind fun right hright => pure ⟨kind_of_isSign (ho operator rfl), hright⟩

theorem builds_primary (h : Builds operand Expr.WellFormed) :
    Builds (primary operand) Expr.WellFormed := by
  refine after fun t => ?_
  split
  case h_6 hname => exact after fun _ => after fun id => pure hname
  case h_7 => exact after fun _ => h.bind fun inner hinner => after fun _ => pure hinner
  case h_8 => exact Builds.fail _
  all_goals exact after fun _ => pure trivial

/-- Arguments of a well-formed call are well-formed. -/
theorem builds_calls (h : Builds operand Expr.WellFormed) (fuel : Nat) {callee : Expr}
    (hcallee : callee.WellFormed) : Builds (calls operand fuel callee) Expr.WellFormed := by
  induction fuel generalizing callee with
  | zero => exact pure hcallee
  | succ fuel ih =>
    refine after fun _ => .ite ?_ (pure hcallee)
    refine (builds_parenthesized h .tooManyArguments fuel).bind fun arguments harguments => ?_
    refine (Builds.expect _ _).bind fun paren hparen => ih ?_
    exact ⟨kind_of_isSymbol hparen, hcallee, Expr.wellFormedAll_iff.mpr harguments⟩

theorem builds_assignment {value target : Parse Expr} (hvalue : Builds value Expr.WellFormed)
    (htarget : Builds target Expr.WellFormed) :
    Builds (assignment value target) Expr.WellFormed := by
  refine htarget.bind fun target htarget => after fun invalid => after fun _ => .ite ?_ (pure htarget)
  refine hvalue.bind fun value hvalue => ?_
  split
  · exact after fun id => pure ⟨htarget, hvalue⟩
  · exact Builds.throw invalid

/-- Expressions are read as well-formed trees. -/
theorem builds_expression (fuel : Nat) : Builds (expression fuel) Expr.WellFormed := by
  induction fuel with
  | zero => exact Builds.fail _
  | succ fuel ih =>
    have hcalled : Builds (called (expression fuel) fuel) Expr.WellFormed :=
      (builds_primary ih).bind fun _ hcallee => builds_calls ih fuel hcallee
    refine builds_assignment ih ?_
    exact builds_chain (builds_chain (builds_chain (builds_chain (builds_chain (builds_chain
      (builds_signed hcalled fuel) fuel) fuel) fuel) fuel) fuel) fuel

end

section

variable (fuel : Nat) {statement : Parse Stmt} {declaration : Recover (Option Stmt)}

theorem builds_optional :
    Builds (some <$> expression fuel) fun o => ∀ e ∈ o, e.WellFormed := by
  refine map ((builds_expression fuel).mono fun e he => ?_)
  rintro _ ⟨⟩
  exact he

theorem builds_none {α : Type} {P : α → Prop} : Builds (Pure.pure none) fun o => ∀ a ∈ o, P a :=
  pure nofun

theorem builds_letDeclaration : Builds (letDeclaration fuel) Stmt.WellFormed := by
  refine (expectIdentifier _).bind fun name hname => after fun _ => .ite ?_ ?_
  · exact (builds_optional fuel).bind fun _ hinitializer => after fun _ => pure ⟨hname, hinitializer⟩
  · exact builds_none.bind fun _ hinitializer => after fun _ => pure ⟨hname, hinitializer⟩

theorem builds_expressionStatement : Builds (expressionStatement fuel) Stmt.WellFormed :=
  (builds_expression fuel).bind fun _ he => after fun _ => pure he

theorem builds_printStatement : Builds (printStatement fuel) Stmt.WellFormed :=
  (builds_expression fuel).bind fun _ he => after fun _ => pure he

theorem builds_returnStatement (keyword : Token) :
    Builds (returnStatement fuel keyword) Stmt.WellFormed := by
  refine after fun _ => .ite ?_ ?_
  · exact builds_none.bind fun _ hvalue => after fun _ => pure hvalue
  · exact (builds_optional fuel).bind fun _ hvalue => after fun _ => pure hvalue

theorem builds_ifStatement (h : Builds statement Stmt.WellFormed) :
    Builds (ifStatement fuel statement) Stmt.WellFormed := by
  refine after fun _ => (builds_expression fuel).bind fun condition hcondition => after fun _ =>
    h.bind fun thenBranch hthen => after fun o => ?_
  cases o with
  | none => exact pure ⟨hcondition, hthen⟩
  | some _ => exact h.bind fun elseBranch helse => pure ⟨hcondition, hthen, helse⟩

theorem builds_whileStatement (h : Builds statement Stmt.WellFormed) :
    Builds (whileStatement fuel statement) Stmt.WellFormed :=
  after fun _ => (builds_expression fuel).bind fun _ hcondition => after fun _ =>
    h.bind fun _ hbody => pure ⟨hcondition, hbody⟩

theorem builds_forInitializer :
    Builds (forInitializer fuel) fun o => ∀ s ∈ o, s.WellFormed := by
  have hsome {s : Stmt} (hs : s.WellFormed) : ∀ s' ∈ some s, s'.WellFormed := by
    rintro _ ⟨⟩
    exact hs
  refine after fun _ => .ite builds_none (after fun o => ?_)
  cases o with
  | none => exact map ((builds_expressionStatement fuel).mono fun s hs => hsome hs)
  | some _ => exact map ((builds_letDeclaration fuel).mono fun s hs => hsome hs)

theorem builds_forClause (closing : Symbol) (cause : SyntaxError.Cause) :
    Builds (forClause fuel closing cause) fun o => ∀ e ∈ o, e.WellFormed := by
  refine after fun _ => .ite ?_ ?_
  · exact builds_none.bind fun _ hclause => after fun _ => pure hclause
  · exact (builds_optional fuel).bind fun _ hclause => after fun _ => pure hclause

/-- The loop that a `for` stands for is well-formed if its clauses and its body are. -/
theorem wellFormed_forLoop {initializer : Option Stmt} {condition increment : Option Expr}
    {body : Stmt} (hinitializer : ∀ s ∈ initializer, s.WellFormed)
    (hcondition : ∀ e ∈ condition, e.WellFormed) (hincrement : ∀ e ∈ increment, e.WellFormed)
    (hbody : body.WellFormed) : (forLoop initializer condition increment body).WellFormed := by
  have htest : (condition.getD (.literal (.bool true))).WellFormed := by
    cases condition with
    | none => exact trivial
    | some e => exact hcondition e rfl
  cases increment with
  | none =>
    cases initializer with
    | none => exact ⟨htest, hbody⟩
    | some s => exact ⟨hinitializer s rfl, ⟨htest, hbody⟩, trivial⟩
  | some e =>
    have hround : (Stmt.block [body, .expression e]).WellFormed := ⟨hbody, hincrement e rfl, trivial⟩
    cases initializer with
    | none => exact ⟨htest, hround⟩
    | some s => exact ⟨hinitializer s rfl, ⟨htest, hround⟩, trivial⟩

theorem builds_forStatement (h : Builds statement Stmt.WellFormed) :
    Builds (forStatement fuel statement) Stmt.WellFormed :=
  after fun _ => (builds_forInitializer fuel).bind fun _ hinitializer =>
    (builds_forClause fuel _ _).bind fun _ hcondition =>
    (builds_forClause fuel _ _).bind fun _ hincrement => h.bind fun _ hbody =>
    pure (wellFormed_forLoop hinitializer hcondition hincrement hbody)

/-- A declaration that has been dropped because of an error is no declaration of the list. -/
theorem wellFormedAll_append {first : Option Stmt} (hfirst : ∀ s ∈ first, s.WellFormed)
    {rest : List Stmt} (hrest : Stmt.WellFormedAll rest) :
    Stmt.WellFormedAll (first.toList ++ rest) := by
  cases first with
  | none => exact hrest
  | some s => exact ⟨hfirst s rfl, hrest⟩

theorem builds_block (h : Builds (unstopped declaration) fun o => ∀ s ∈ o, s.WellFormed) (n : Nat) :
    Builds (block declaration n) Stmt.WellFormedAll := by
  induction n with
  | zero => exact after fun _ => pure trivial
  | succ n ih =>
    refine after fun _ => after fun _ => .ite (after fun _ => pure trivial) ?_
    exact h.bind fun first hfirst => ih.bind fun rest hrest => pure (wellFormedAll_append hfirst hrest)

theorem builds_function (h : Builds (unstopped declaration) fun o => ∀ s ∈ o, s.WellFormed) :
    Builds (function fuel declaration) Stmt.WellFormed := by
  have hparams := builds_parenthesized (expectIdentifier .parameterName) .tooManyParameters fuel
  exact (expectIdentifier _).bind fun _ hname => after fun _ => hparams.bind fun _ hparams =>
    after fun _ => after fun _ => (builds_block h fuel).bind fun _ hbody =>
    pure ⟨hname, hparams, hbody⟩

end

/-- A declaration that is left in the tree has had no error of its own. -/
theorem builds_recovering {step : Parse Stmt} (h : Builds step Stmt.WellFormed) :
    Builds (unstopped (recovering step)) fun o => ∀ s ∈ o, s.WellFormed := by
  intro s o s' hstep
  simp only [unstopped, recovering] at hstep
  cases hs : step s with
  | ok a s₁ =>
    rw [hs] at hstep
    cases hstep
    intro a' ha
    cases ha
    exact h s a _ hs
  | error e s₁ =>
    rw [hs] at hstep
    cases hstep
    intro a ha
    cases ha

/-- Statements and declarations are read as well-formed trees, by induction on the fuel. -/
theorem builds_statement_declaration (fuel : Nat) :
    Builds (statement fuel) Stmt.WellFormed ∧
      Builds (unstopped (declaration fuel)) fun o => ∀ s ∈ o, s.WellFormed := by
  induction fuel with
  | zero => exact ⟨Builds.fail _, builds_recovering (Builds.fail _)⟩
  | succ fuel ih =>
    obtain ⟨hstatement, hdeclaration⟩ := ih
    constructor
    · refine after fun t => ?_
      split
      · exact after fun _ => builds_forStatement fuel hstatement
      · exact after fun _ => builds_ifStatement fuel hstatement
      · exact after fun _ => builds_whileStatement fuel hstatement
      · exact after fun _ => builds_returnStatement fuel t
      · exact after fun _ => (builds_block hdeclaration fuel).bind fun _ hbody => pure hbody
      · exact after fun _ => builds_printStatement fuel
      · exact builds_expressionStatement fuel
    · refine builds_recovering (after fun t => ?_)
      split
      · exact after fun _ => builds_function fuel hdeclaration
      · exact after fun _ => builds_letDeclaration fuel
      · exact hstatement

/-- A program is read as well-formed statements, whatever errors there are. -/
theorem wellFormed_program {declaration : Recover (Option Stmt)}
    (h : Builds (unstopped declaration) fun o => ∀ s ∈ o, s.WellFormed) (n : Nat) (s : State) :
    Stmt.WellFormedAll (program declaration n s).1 := by
  induction n generalizing s with
  | zero => exact trivial
  | succ n ih =>
    by_cases hrest : s.rest = []
    · rw [program_of_rest_eq_nil hrest]
      exact trivial
    · rw [program_of_rest_ne_nil hrest]
      exact wellFormedAll_append (h s _ _ rfl) (ih _)

/-- The trees that are read are well-formed, also if there have been errors. -/
theorem wellFormed_parse (nextId : ReferenceId) (tokens : List Token) :
    Stmt.WellFormedAll (parse nextId tokens).statements :=
  let fuel := 2 * (State.start nextId tokens).rest.length + 2
  wellFormed_program (builds_statement_declaration fuel).2 fuel (State.start nextId tokens)

end LoxLang.Parsing

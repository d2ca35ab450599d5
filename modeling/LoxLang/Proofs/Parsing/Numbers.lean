import LoxLang.Proofs.Parsing.Sound
import LoxLang.Proofs.Tree.Ids

/-!
Every use of a variable is read with an id of its own: the ids of what is read lie between the next id
before and the next id after, and none occurs twice. Main statement: `fresh_parse`.
-/
namespace LoxLang.Parsing

section

variable {α β : Type}

/-- If the ids given are fresh, so are those of the result, which are given ones or new. -/
def Numbers (given : List Nat) (p : Parse α) (ids : α → List Nat) : Prop :=
  ∀ (s : State) (m : Nat), m ≤ s.nextId → Fresh m s.nextId given →
    match p s with
    | .ok a s' => s.nextId ≤ s'.nextId ∧ Fresh m s'.nextId (ids a)
    | .error _ s' => s.nextId ≤ s'.nextId

namespace Numbers

variable {given : List Nat} {p : Parse α} {f : α → Parse β} {ids : α → List Nat}
  {ids' : β → List Nat}

/-- The ids of the second step are new after those of the first. -/
theorem bind (hp : Numbers given p ids) (hf : ∀ a, Numbers (ids a) (f a) ids') :
    Numbers given (p >>= f) ids' := by
  intro s m hm hgiven
  have h := hp s m hm hgiven
  simp only [Bind.bind, EStateM.bind]
  cases hps : p s with
  | error e s₁ => simpa only [hps] using h
  | ok a s₁ =>
    rw [hps] at h
    obtain ⟨hle, hfresh⟩ := h
    have hle : s.nextId ≤ s₁.nextId := hle
    have h := hf a s₁ m (Nat.le_trans hm hle) hfresh
    simp only
    cases hfs : f a s₁ with
    | error e s₂ =>
      rw [hfs] at h
      exact Nat.le_trans hle h
    | ok b s₂ =>
      rw [hfs] at h
      exact ⟨Nat.le_trans hle h.1, h.2⟩

theorem mono (h : Numbers given p ids) {ids'' : α → List Nat}
    (hcount : ∀ a id, (ids'' a).count id ≤ (ids a).count id) : Numbers given p ids'' := by
  intro s m hm hgiven
  have h := h s m hm hgiven
  cases hps : p s with
  | error e s₁ => simpa only [hps] using h
  | ok a s₁ =>
    rw [hps] at h
    exact ⟨h.1, h.2.mono (hcount a)⟩

/-- A step that is given nothing finds ids that are new. -/
theorem frame (h : Numbers [] p ids) (given : List Nat) :
    Numbers given p fun a => given ++ ids a := by
  intro s m hm hgiven
  have h := h s s.nextId (Nat.le_refl _) (.nil _ _)
  cases hps : p s with
  | error e s₁ => simpa only [hps] using h
  | ok a s₁ =>
    rw [hps] at h
    exact ⟨h.1, hgiven.append h.2 hm h.1⟩

theorem bindNew (hp : Numbers [] p ids) (hf : ∀ a, Numbers (given ++ ids a) (f a) ids') :
    Numbers given (p >>= f) ids' := bind (hp.frame given) hf

theorem pure {a : α} (hcount : ∀ id, (ids a).count id ≤ given.count id) :
    Numbers given (Pure.pure a) ids := fun _ _ _ hgiven =>
  ⟨Nat.le_refl _, hgiven.mono hcount⟩

theorem map {g : α → β} (h : Numbers given p fun a => ids' (g a)) : Numbers given (g <$> p) ids' :=
  bind h fun _ => pure fun _ => Nat.le_refl _

theorem fail (cause : SyntaxError.Cause) : Numbers given (Parsing.fail cause) ids := fun _ _ _ _ =>
  Nat.le_refl _

theorem throw (e : SyntaxError) : Numbers given (throw e : Parse α) ids := fun _ _ _ _ =>
  Nat.le_refl _

theorem ite {c : Prop} [Decidable c] {q : Parse α} (hp : c → Numbers given p ids)
    (hq : ¬c → Numbers given q ids) : Numbers given (if c then p else q) ids := by
  split
  · exact hp ‹_›
  · exact hq ‹_›

theorem freshId (given : List Nat) : Numbers given Parsing.freshId fun id => given ++ [id] := by
  intro s m hm hgiven
  exact ⟨Nat.le_succ _, hgiven.append (Fresh.singleton s.nextId) hm (Nat.le_succ _)⟩

def Quiet (p : Parse α) : Prop :=
  ∀ s, match p s with
    | .ok _ s' | .error _ s' => s'.nextId = s.nextId

theorem quiet (h : Quiet p) (given : List Nat) : Numbers given p fun _ => given := by
  intro s m hm hgiven
  have h := h s
  cases hps : p s with
  | error e s₁ =>
    rw [hps] at h
    exact Nat.le_of_eq h.symm
  | ok a s₁ =>
    rw [hps] at h
    have h : s₁.nextId = s.nextId := h
    exact ⟨Nat.le_of_eq h.symm, by rwa [h]⟩

/-- A step before another one, of which nothing but its effect on the tokens matters. -/
theorem after (hp : Quiet p) (hf : ∀ a, Numbers given (f a) ids') :
    Numbers given (p >>= f) ids' := bind (quiet hp given) hf

end Numbers

namespace Numbers.Quiet

theorem current : Quiet current := fun _ => rfl

theorem errorHere (cause : SyntaxError.Cause) : Quiet (errorHere cause) := fun _ => rfl

theorem advance : Quiet advance := by
  intro s
  simp only [Parsing.advance, State.advance]
  split <;> rfl

theorem recordHere (cause : SyntaxError.Cause) : Quiet (recordHere cause) := fun _ => rfl

theorem atEnd : Quiet (unstopped atEnd) := fun _ => rfl

theorem take? (right : TokenKind → Bool) : Quiet (take? right) := by
  intro s
  unfold Parsing.take? State.advance
  cases hs : s.rest with
  | nil => rfl
  | cons t rest => cases hright : right t.kind <;> simp [hright]

theorem bind {p : Parse α} {f : α → Parse β} (hp : Quiet p) (hf : ∀ a, Quiet (f a)) :
    Quiet (p >>= f) := by
  intro s
  have h := hp s
  simp only [Bind.bind, EStateM.bind]
  cases hps : p s with
  | error e s₁ => simpa only [hps] using h
  | ok a s₁ =>
    rw [hps] at h
    have h : s₁.nextId = s.nextId := h
    have h' := hf a s₁
    simp only
    cases hfs : f a s₁ with
    | error e s₂ =>
      rw [hfs] at h'
      exact Eq.trans h' h
    | ok b s₂ =>
      rw [hfs] at h'
      exact Eq.trans h' h

theorem pure (a : α) : Quiet (Pure.pure a) := fun _ => rfl

theorem expect (right : TokenKind → Bool) (cause : SyntaxError.Cause) :
    Quiet (expect right cause) := by
  refine bind (take? right) fun o => ?_
  cases o with
  | none => exact fun _ => rfl
  | some t => exact pure t

theorem seesSymbol (sym : Symbol) : Quiet (seesSymbol sym) := bind current fun _ => pure _

theorem takesSymbol (sym : Symbol) : Quiet (takesSymbol sym) := bind (take? _) fun _ => pure _

end Numbers.Quiet

end

open Numbers Numbers.Quiet

section

variable {given : List Nat} {operand : Parse Expr} {level : Level}

theorem count_build (level : Level) (left right : Expr) (operator : Token) (id : Nat) :
    (level.build left operator right).ids.count id = left.ids.count id + right.ids.count id := by
  cases level <;> simp [Level.build, Expr.ids]

/-- Operators behind an operand keep its ids and add new ones. -/
theorem numbers_operations (h : Numbers [] operand Expr.ids) (fuel : Nat) (left : Expr) :
    Numbers left.ids (operations level operand fuel left) Expr.ids := by
  induction fuel generalizing left with
  | zero => exact .pure fun _ => Nat.le_refl _
  | succ fuel ih =>
    refine .after (.take? _) fun o => ?_
    cases o with
    | none => exact .pure fun _ => Nat.le_refl _
    | some operator =>
      refine .bindNew h fun right => ?_
      intro s m hm hgiven
      refine ih (level.build left operator right) s m hm (hgiven.mono fun id => ?_)
      exact Nat.le_of_eq (by rw [count_build, List.count_append])

theorem numbers_chain (h : Numbers [] operand Expr.ids) (fuel : Nat) :
    Numbers [] (chain level fuel operand) Expr.ids :=
  .bind h fun first => numbers_operations h fuel first

theorem numbers_signed (h : Numbers [] operand Expr.ids) (fuel : Nat) :
    Numbers [] (signed operand fuel) Expr.ids := by
  induction fuel with
  | zero => exact h
  | succ fuel ih =>
    refine .after (.take? _) fun o => ?_
    cases o with
    | none => exact h
    | some operator => exact .bind ih fun right => .pure fun _ => Nat.le_refl _

theorem numbers_limited {α β : Type} {item : Parse α} {ids : α → List Nat} {f : α → Parse β}
    {ids' : β → List Nat} (h : Numbers [] item ids) (hf : ∀ a, Numbers (ids a) (f a) ids')
    (tooMany : SyntaxError.Cause) (count : Nat) :
    Numbers [] (do
      if maxArguments ≤ count then
        recordHere tooMany
      let first ← item
      f first) ids' :=
  .ite (fun _ => .after (.recordHere _) fun _ => .bind h hf) fun _ => .bind h hf

/-- Lists of items that hold ids. -/
theorem numbers_commaSeparated {α : Type} {item : Parse α} {ids : α → List Nat}
    {all : List α → List Nat} (hnil : all [] = []) (hcons : ∀ a as, all (a :: as) = ids a ++ all as)
    (h : Numbers [] item ids) (tooMany : SyntaxError.Cause) (fuel count : Nat) :
    Numbers [] (commaSeparated item tooMany fuel count) all := by
  have hone (a : α) (id : Nat) : (all [a]).count id ≤ (ids a).count id := by simp [hcons, hnil]
  induction fuel generalizing count with
  | zero => exact numbers_limited h (fun a => .pure (hone a)) tooMany count
  | succ fuel ih =>
    refine numbers_limited h (fun first => ?_) tooMany count
    refine .after (.takesSymbol _) fun _ => .ite (fun _ => ?_) fun _ => .pure (hone first)
    refine .bindNew (ih (count + 1)) fun rest => .pure fun id => ?_
    exact Nat.le_of_eq (by rw [hcons])

theorem numbers_parenthesized {α : Type} {item : Parse α} {ids : α → List Nat}
    {all : List α → List Nat} (hnil : all [] = []) (hcons : ∀ a as, all (a :: as) = ids a ++ all as)
    (h : Numbers [] item ids) (tooMany : SyntaxError.Cause) (fuel : Nat) :
    Numbers [] (parenthesized item tooMany fuel) all := by
  refine .after (.seesSymbol _) fun _ => .ite (fun _ => ?_) fun _ => ?_
  · exact .pure fun _ => Nat.le_of_eq (by rw [hnil])
  · exact numbers_commaSeparated hnil hcons h tooMany fuel 0

theorem numbers_primary (h : Numbers [] operand Expr.ids) :
    Numbers [] (primary operand) Expr.ids := by
  refine .after .current fun t => ?_
  split
  case h_6 => exact .after .advance fun _ => .bind (.freshId []) fun id => .pure fun _ => Nat.le_refl _
  case h_7 =>
    exact .after .advance fun _ => .bind h fun inner => .after (.expect _ _) fun _ =>
      .pure fun _ => Nat.le_refl _
  case h_8 => exact .fail _
  all_goals exact .after .advance fun _ => .pure fun _ => Nat.le_refl _

theorem numbers_calls (h : Numbers [] operand Expr.ids) (fuel : Nat) (callee : Expr) :
    Numbers callee.ids (calls operand fuel callee) Expr.ids := by
  induction fuel generalizing callee with
  | zero => exact .pure fun _ => Nat.le_refl _
  | succ fuel ih =>
    refine .after (.takesSymbol _) fun _ => .ite (fun _ => ?_) fun _ => .pure fun _ => Nat.le_refl _
    have harguments : Numbers [] (parenthesized operand .tooManyArguments fuel) Expr.idsAll :=
      numbers_parenthesized rfl (fun _ _ => rfl) h .tooManyArguments fuel
    exact .bindNew harguments fun arguments => .after (.expect _ _) fun paren =>
      ih (.call callee paren arguments)

theorem numbers_assignment {value target : Parse Expr} (hvalue : Numbers [] value Expr.ids)
    (htarget : Numbers [] target Expr.ids) : Numbers [] (assignment value target) Expr.ids := by
  refine .bind htarget fun target => .after (.errorHere _) fun invalid =>
    .after (.takesSymbol _) fun _ => .ite (fun _ => ?_) fun _ => .pure fun _ => Nat.le_refl _
  refine .bindNew hvalue fun value => ?_
  split
  · refine .bind (.freshId _) fun id => .pure fun i => ?_
    simp only [Expr.ids, List.count_append, List.count_cons, List.count_nil]
    omega
  · exact .throw _

/-- All uses in an expression have different ids. -/
theorem numbers_expression (fuel : Nat) : Numbers [] (expression fuel) Expr.ids := by
  induction fuel with
  | zero => exact .fail _
  | succ fuel ih =>
    refine numbers_assignment ih ?_
    have hcalled : Numbers [] (called (expression fuel) fuel) Expr.ids :=
      .bind (numbers_primary ih) fun callee => numbers_calls ih fuel callee
    exact numbers_chain (numbers_chain (numbers_chain (numbers_chain (numbers_chain (numbers_chain
      (numbers_signed hcalled fuel) fuel) fuel) fuel) fuel) fuel) fuel

end

section

variable (fuel : Nat) {statement : Parse Stmt} {declaration : Recover (Option Stmt)}

abbrev idsOfOption (o : Option Stmt) : List Nat := Stmt.idsAll o.toList

theorem numbers_optional (given : List Nat) :
    Numbers given (some <$> expression fuel) fun o => given ++ Expr.idsOption o :=
  .map ((numbers_expression fuel).frame given)

theorem numbers_none : Numbers [] (pure none) Expr.idsOption := .pure fun _ => Nat.le_refl _

theorem numbers_letDeclaration : Numbers [] (letDeclaration fuel) Stmt.ids := by
  refine .after (.expect _ _) fun name => .after (.takesSymbol _) fun _ => .ite (fun _ => ?_) fun _ => ?_
  · exact .bind (numbers_optional fuel []) fun _ => .after (.expect _ _) fun _ =>
      .pure fun _ => Nat.le_refl _
  · exact .bind numbers_none fun _ => .after (.expect _ _) fun _ => .pure fun _ => Nat.le_refl _

theorem numbers_expressionStatement : Numbers [] (expressionStatement fuel) Stmt.ids :=
  .bind (numbers_expression fuel) fun _ => .after (.expect _ _) fun _ =>
    .pure fun _ => Nat.le_refl _

theorem numbers_printStatement : Numbers [] (printStatement fuel) Stmt.ids :=
  .bind (numbers_expression fuel) fun _ => .after (.expect _ _) fun _ =>
    .pure fun _ => Nat.le_refl _

theorem numbers_returnStatement (keyword : Token) :
    Numbers [] (returnStatement fuel keyword) Stmt.ids := by
  refine .after (.seesSymbol _) fun _ => .ite (fun _ => ?_) fun _ => ?_
  · exact .bind numbers_none fun _ => .after (.expect _ _) fun _ => .pure fun _ => Nat.le_refl _
  · exact .bind (numbers_optional fuel []) fun _ => .after (.expect _ _) fun _ =>
      .pure fun _ => Nat.le_refl _

theorem numbers_ifStatement (h : Numbers [] statement Stmt.ids) :
    Numbers [] (ifStatement fuel statement) Stmt.ids := by
  refine .after (.expect _ _) fun _ => .bind (numbers_expression fuel) fun condition =>
    .after (.expect _ _) fun _ => .bindNew h fun thenBranch => .after (.take? _) fun o => ?_
  cases o with
  | none => exact .pure fun _ => Nat.le_refl _
  | some _ => exact .bindNew h fun elseBranch => .pure fun _ => Nat.le_refl _

theorem numbers_whileStatement (h : Numbers [] statement Stmt.ids) :
    Numbers [] (whileStatement fuel statement) Stmt.ids :=
  .after (.expect _ _) fun _ => .bind (numbers_expression fuel) fun _ =>
    .after (.expect _ _) fun _ => .bindNew h fun _ => .pure fun _ => Nat.le_refl _

theorem numbers_forInitializer : Numbers [] (forInitializer fuel) idsOfOption := by
  refine .after (.takesSymbol _) fun _ => .ite (fun _ => .pure fun _ => Nat.le_refl _) fun _ =>
    .after (.take? _) fun o => ?_
  cases o with
  | none =>
    exact .map ((numbers_expressionStatement fuel).mono fun s id => by simp [idsOfOption, Stmt.idsAll])
  | some _ =>
    exact .map ((numbers_letDeclaration fuel).mono fun s id => by simp [idsOfOption, Stmt.idsAll])

theorem numbers_forClause (closing : Symbol) (cause : SyntaxError.Cause) :
    Numbers [] (forClause fuel closing cause) Expr.idsOption := by
  refine .after (.seesSymbol _) fun _ => .ite (fun _ => ?_) fun _ => ?_
  · exact .bind numbers_none fun _ => .after (.expect _ _) fun _ => .pure fun _ => Nat.le_refl _
  · exact .bind (numbers_optional fuel []) fun _ => .after (.expect _ _) fun _ =>
      .pure fun _ => Nat.le_refl _

theorem count_forLoop (i : Option Stmt) (c e : Option Expr) (b : Stmt) (id : Nat) :
    (forLoop i c e b).ids.count id = (idsOfOption i).count id + (Expr.idsOption c).count id +
      (Expr.idsOption e).count id + b.ids.count id := by
  cases i <;> cases c <;> cases e <;>
    simp [forLoop, Stmt.ids, Stmt.idsAll, Expr.ids, Expr.idsOption, idsOfOption] <;> omega

theorem numbers_forStatement (h : Numbers [] statement Stmt.ids) :
    Numbers [] (forStatement fuel statement) Stmt.ids := by
  refine .after (.expect _ _) fun _ => .bind (numbers_forInitializer fuel) fun initializer =>
    .bindNew (numbers_forClause fuel _ _) fun _ =>
    .bindNew (numbers_forClause fuel _ _) fun increment => .bindNew h fun _ => .pure fun id => ?_
  exact Nat.le_of_eq
    (by rw [count_forLoop, List.count_append, List.count_append, List.count_append])

theorem numbers_block (h : Numbers [] (unstopped declaration) idsOfOption) (n : Nat) :
    Numbers [] (block declaration n) Stmt.idsAll := by
  induction n with
  | zero => exact .after (.expect _ _) fun _ => .pure fun _ => Nat.le_refl _
  | succ n ih =>
    refine .after (.seesSymbol _) fun _ => .after .atEnd fun _ => .ite (fun _ => ?_) fun _ => ?_
    · exact .after (.expect _ _) fun _ => .pure fun _ => Nat.le_refl _
    · refine .bind h fun first => .bindNew ih fun rest => .pure fun id => ?_
      exact Nat.le_of_eq (by rw [Stmt.idsAll_append])

theorem numbers_function (h : Numbers [] (unstopped declaration) idsOfOption) :
    Numbers [] (function fuel declaration) Stmt.ids := by
  have hparam : Numbers [] (expect isIdentifier .parameterName) fun _ => [] :=
    quiet (.expect _ _) []
  have hparams : Numbers [] (parenthesized (expect isIdentifier .parameterName)
      .tooManyParameters fuel) fun _ => [] :=
    numbers_parenthesized rfl (fun _ _ => rfl) hparam .tooManyParameters fuel
  exact .after (.expect _ _) fun name => .after (.expect _ _) fun _ => .bind hparams fun params =>
    .after (.expect _ _) fun _ => .after (.expect _ _) fun _ => .bind (numbers_block h fuel) fun body =>
    .pure fun _ => Nat.le_refl _

end

theorem nextId_resume (s : State) : s.resume.nextId = s.nextId := by
  unfold State.resume
  split <;> rfl

/-- An error drops what has been read, and no id is used again. -/
theorem numbers_recovering {step : Parse Stmt} (h : Numbers [] step Stmt.ids) :
    Numbers [] (unstopped (recovering step)) idsOfOption := by
  intro s m hm hgiven
  have h := h s m hm hgiven
  simp only [unstopped, recovering]
  cases hs : step s with
  | ok a s₁ =>
    rw [hs] at h
    refine ⟨h.1, ?_⟩
    simpa [idsOfOption, Stmt.idsAll] using h.2
  | error e s₁ =>
    rw [hs] at h
    have hnext : (s₁.record e).resume.nextId = s₁.nextId := nextId_resume _
    refine ⟨?_, .nil _ _⟩
    rw [hnext]
    exact h

/-- All uses in a statement have different ids, by induction on the fuel. -/
theorem numbers_statement_declaration (fuel : Nat) :
    Numbers [] (statement fuel) Stmt.ids ∧
      Numbers [] (unstopped (declaration fuel)) idsOfOption := by
  induction fuel with
  | zero => exact ⟨.fail _, numbers_recovering (.fail _)⟩
  | succ fuel ih =>
    obtain ⟨hstatement, hdeclaration⟩ := ih
    constructor
    · refine .after .current fun t => ?_
      split
      · exact .after .advance fun _ => numbers_forStatement fuel hstatement
      · exact .after .advance fun _ => numbers_ifStatement fuel hstatement
      · exact .after .advance fun _ => numbers_whileStatement fuel hstatement
      · exact .after .advance fun _ => numbers_returnStatement fuel t
      · exact .after .advance fun _ => .bind (numbers_block hdeclaration fuel) fun body =>
          .pure fun _ => Nat.le_refl _
      · exact .after .advance fun _ => numbers_printStatement fuel
      · exact numbers_expressionStatement fuel
    · refine numbers_recovering (.after .current fun t => ?_)
      split
      · exact .after .advance fun _ => numbers_function fuel hdeclaration
      · exact .after .advance fun _ => numbers_letDeclaration fuel
      · exact hstatement

/-- All uses in a program have different ids. -/
theorem numbers_program {declaration : Recover (Option Stmt)}
    (h : Numbers [] (unstopped declaration) idsOfOption) (n : Nat) :
    Numbers [] (unstopped (program declaration n)) Stmt.idsAll := by
  induction n with
  | zero => exact .pure fun _ => Nat.le_refl _
  | succ n ih =>
    have hsteps : Numbers [] (unstopped declaration >>= fun first =>
        unstopped (program declaration n) >>= fun rest => pure (first.toList ++ rest))
        Stmt.idsAll := by
      refine .bind h fun first => .bindNew ih fun rest => .pure fun id => ?_
      exact Nat.le_of_eq (by rw [Stmt.idsAll_append])
    intro s m hm hgiven
    by_cases hrest : s.rest = []
    · rw [unstopped, program_of_rest_eq_nil hrest]
      exact ⟨Nat.le_refl _, .nil _ _⟩
    · have h := hsteps s m hm hgiven
      rw [unstopped, program_of_rest_ne_nil hrest]
      exact h

/-- The ids of a program are new, and no two uses share one. -/
theorem fresh_parse (nextId : ReferenceId) (tokens : List Token) :
    nextId ≤ (parse nextId tokens).nextId ∧
      Fresh nextId (parse nextId tokens).nextId (Stmt.idsAll (parse nextId tokens).statements) :=
  let fuel := 2 * (State.start nextId tokens).rest.length + 2
  numbers_program (numbers_statement_declaration fuel).2 fuel (State.start nextId tokens) nextId
    (Nat.le_refl _) (.nil _ _)

end LoxLang.Parsing

import LoxLang.Proofs.Parsing.Mirrored

/-!
Reading statements within a bound and reading them without one are the same. Blocks need that each of
their declarations takes a token, or the bound would not last. Main statement: `mirrors_declaration`.
-/
namespace LoxLang.Parsing

open Unbounded (Rule)

section

variable {F : Frame} {s : State} {c : Cursor}

/-- Both sides look for the next statement token by token, and stop at the same one. -/
theorem Tracks.toNextStatement (h : Tracks F s c) {previous : Token}
    (hprevious : c.tokens[c.position - 1]? = some previous) :
    ∃ c', Rule.nextStatement.read c = some (.ok (), c') ∧
      Tracks F { s with
        rest := (nextStatement previous s.rest).1
        position := s.position + (nextStatement previous s.rest).2 } c' := by
  generalize hrest : s.rest = ts
  -- on the tokens left: each round moves over one, which is the previous one of the next round
  induction ts generalizing s c previous with
  | nil =>
    have hsame : { s with
        rest := (nextStatement previous []).1
        position := s.position + (nextStatement previous []).2 } = s := by
      rw [nextStatement, ← hrest]
      rfl
    refine ⟨c, ?_, by rwa [hsame]⟩
    rw [Rule.read, read_bind_of_ok h.atEnd, hrest]
    rfl
  | cons t ts ih =>
    have hlook : (Unbounded.previous : Read Token) c = some (.ok previous, c) := by
      simp only [Unbounded.previous, Unbounded.look, hprevious, Option.map_some]
    have hcurrent : s.current = t := current_of_rest hrest
    rw [Rule.read, read_bind_of_ok h.atEnd, hrest, List.isEmpty_cons,
      if_neg Bool.false_ne_true, read_bind_of_ok hlook, read_bind_of_ok h.current, hcurrent, nextStatement]
    split
    · refine ⟨c, rfl, ?_⟩
      have hsame : { s with rest := t :: ts, position := s.position + 0 } = s := by
        rw [← hrest]
        rfl
      rwa [hsame]
    · rw [read_bind_of_ok (h.advance hrest)]
      have hget := h.getElem?_position
      rw [hcurrent] at hget
      have hprevious' : c.tokens[c.position + 1 - 1]? = some t := by
        rw [Nat.add_sub_cancel]
        exact hget
      obtain ⟨c', hnext, htracks⟩ := ih (h.step hrest) hprevious' (by rw [advance_of_rest hrest])
      refine ⟨c', hnext, ?_⟩
      rw [advance_of_rest hrest] at htracks
      simpa only [Nat.add_assoc, Nat.add_comm 1] using htracks

/-- Both sides go on after an error at the same place. -/
theorem Tracks.resume (h : Tracks F s c) :
    ∃ c', Rule.resume.read c = some (.ok (), c') ∧ Tracks F s.resume c' := by
  cases hrest : s.rest with
  | nil =>
    refine ⟨c, ?_, by rwa [resume_of_rest_nil hrest]⟩
    rw [Rule.read, read_bind_of_ok (h.advance_end hrest), Rule.read,
      read_bind_of_ok h.atEnd, hrest]
    rfl
  | cons t rest =>
    have hget := h.getElem?_position
    rw [current_of_rest hrest] at hget
    have hprevious : c.tokens[c.position + 1 - 1]? = some t := by
      rw [Nat.add_sub_cancel]
      exact hget
    obtain ⟨c', hnext, htracks⟩ := (h.step hrest).toNextStatement hprevious
    refine ⟨c', ?_, ?_⟩
    · rw [Rule.read, read_bind_of_ok (h.advance hrest), hnext]
    · rw [resume_of_rest hrest]
      rwa [advance_of_rest hrest] at htracks

end

section

variable {n fuel : Nat}

/-- At the end of the input there is no expression. -/
theorem expression_of_rest_eq_nil {s : State} (hrest : s.rest = []) (hlast : s.last.kind = .eof)
    (fuel : Nat) : expression fuel s = .error (s.errorHere .expression) s := by
  obtain ⟨rest, position, ⟨kind, lexeme, line⟩, nextId, errors⟩ := s
  obtain rfl : rest = [] := hrest
  obtain rfl : kind = .eof := hlast
  cases fuel with
  | zero => rfl
  | succ fuel => cases fuel <;> rfl

theorem mirrors_expression_end : Mirrors 1 (expression fuel) Rule.expression.read := by
  intro F s c hs hlt
  have hrest : s.rest = [] := List.length_eq_zero_iff.mp (Nat.lt_one_iff.mp hlt)
  have hone := mirrors_expression (Nat.le_refl 1) hs hlt
  rw [expression_of_rest_eq_nil hrest hs.last] at hone ⊢
  exact hone

section

variable (h : Mirrors n (expression fuel) Rule.expression.read)

include h

theorem mirrors_letDeclaration : Mirrors n (letDeclaration fuel) Rule.letDeclaration.read := by
  rw [Rule.read]
  refine .bind (.expect isIdentifier _) fun name => .bind (.takesSymbol .equal) fun assigns => .ite ?_ ?_
  · exact .bind (h.map some) fun initializer => .bind (.expectSymbol .semicolon _) fun _ => .pure _
  · exact .bind (.pure none) fun initializer => .bind (.expectSymbol .semicolon _) fun _ => .pure _

theorem mirrors_printStatement : Mirrors n (printStatement fuel) Rule.printStatement.read := by
  rw [Rule.read]
  exact .bind h fun _ => .bind (.expectSymbol .semicolon _) fun _ => .pure _

theorem mirrors_expressionStatement :
    Mirrors n (expressionStatement fuel) Rule.expressionStatement.read := by
  rw [Rule.read]
  exact .bind h fun _ => .bind (.expectSymbol .semicolon _) fun _ => .pure _

theorem mirrors_returnStatement (keyword : Token) :
    Mirrors n (returnStatement fuel keyword) (Rule.returnStatement keyword).read := by
  rw [Rule.read]
  refine .bind (.seesSymbol .semicolon) fun ends => .ite ?_ ?_
  · exact .bind (.pure none) fun value => .bind (.expectSymbol .semicolon _) fun _ => .pure _
  · exact .bind (h.map some) fun value => .bind (.expectSymbol .semicolon _) fun _ => .pure _

theorem mirrors_forInitializer : Mirrors n (forInitializer fuel) Rule.forInitializer.read := by
  rw [Rule.read]
  refine .bind (.takesSymbol .semicolon) fun absent => .ite (.pure none) ?_
  refine .bind (.take? (isKeyword .letKw)) fun word => ?_
  cases word with
  | some word => exact (mirrors_letDeclaration h).map some
  | none => exact (mirrors_expressionStatement h).map some

theorem mirrors_forClause (closing : Symbol) (cause : SyntaxError.Cause) :
    Mirrors n (forClause fuel closing cause) (Rule.forClause closing cause).read := by
  rw [Rule.read]
  refine .bind (.seesSymbol closing) fun absent => .ite ?_ ?_
  · exact .bind (.pure none) fun clause => .bind (.expectSymbol closing cause) fun _ => .pure _
  · exact .bind (h.map some) fun clause => .bind (.expectSymbol closing cause) fun _ => .pure _

variable {inner : Parse Stmt} (hinner : Mirrors n inner Rule.statement.read)

include hinner

theorem mirrors_forStatement : Mirrors n (forStatement fuel inner) Rule.forStatement.read := by
  rw [Rule.read]
  exact .bind (.expectSymbol .leftParen _) fun _ => .bind (mirrors_forInitializer h) fun initializer =>
    .bind (mirrors_forClause h .semicolon _) fun condition =>
    .bind (mirrors_forClause h .rightParen _) fun increment => .bind hinner fun body => .pure _

theorem mirrors_ifStatement : Mirrors n (ifStatement fuel inner) Rule.ifStatement.read := by
  rw [Rule.read]
  refine .bind (.expectSymbol .leftParen _) fun _ => .bind h fun condition =>
    .bind (.expectSymbol .rightParen _) fun _ => .bind hinner fun thenBranch =>
    .bind (.take? (isKeyword .elseKw)) fun word => ?_
  cases word with
  | some word => exact .bind hinner fun elseBranch => .pure _
  | none => exact .pure _

theorem mirrors_whileStatement : Mirrors n (whileStatement fuel inner) Rule.whileStatement.read := by
  rw [Rule.read]
  exact .bind (.expectSymbol .leftParen _) fun _ => .bind h fun condition =>
    .bind (.expectSymbol .rightParen _) fun _ => .bind hinner fun body => .pure _

end

section

variable {item : Recover (Option Stmt)}

/-- Fewer tokens are left after a declaration. -/
theorem Proceeds.length_rest_lt (h : Proceeds item) {s : State} (hs : s.last.kind = .eof)
    (hrest : s.rest ≠ []) : (item s).2.rest.length < s.rest.length := by
  obtain ⟨ts, es, hmoves, hne, -⟩ := h s hs hrest
  have hpos := List.length_pos_iff.mpr hne
  rw [hmoves.rest, List.length_append]
  omega

/-- Blocks are read alike, one declaration after the other. -/
theorem mirrors_block (hproceeds : Proceeds item) (h : Mirrors n (unstopped item) Rule.declaration.read)
    (hfuel : n ≤ fuel + 1) : Mirrors n (block item fuel) Rule.block.read := by
  have closes {n : Nat} : Mirrors n (do
      let _ ← expectSymbol .rightBrace .braceAfterBlock
      return []) (do
      let _ ← Unbounded.expectSymbol .rightBrace .braceAfterBlock
      return ([] : List Stmt)) :=
    .bind (.expectSymbol .rightBrace _) fun _ => .pure []
  induction fuel generalizing n with
  | zero =>
    intro F s c hs hlt
    have hrest : s.rest = [] := List.length_eq_zero_iff.mp (by omega)
    rw [Rule.read, read_bind_of_ok (hs.sees _), read_bind_of_ok hs.atEnd]
    have hends : (s.rest.head?.any (fun t => isSymbol .rightBrace t.kind) || s.rest.isEmpty) = true := by
      simp [hrest]
    rw [if_pos hends]
    exact closes hs hlt
  | succ fuel ih =>
    intro F s c hs hlt
    have hcurrent : (s.rest.head?.any fun t => isSymbol .rightBrace t.kind) =
        isSymbol .rightBrace s.current.kind := by
      rw [State.current]
      cases s.rest with
      | nil => simp [hs.last, isSymbol]
      | cons t rest => rfl
    rw [block_succ, Rule.read, read_bind_of_ok (hs.sees _), read_bind_of_ok hs.atEnd, hcurrent]
    split
    · exact closes hs hlt
    · next hmore =>
      have hrest : s.rest ≠ [] := by
        intro hrest
        simp [hrest] at hmore
      have hless := hproceeds.length_rest_lt hs.last hrest
      have hfirst : unstopped item s = .ok (item s).1 (item s).2 := rfl
      have hagrees := h hs hlt
      rw [hfirst] at hagrees
      rw [bind_of_ok hfirst]
      generalize hread : Rule.declaration.read c = x at hagrees
      obtain ⟨htracks, -⟩ := hagrees
      rw [read_bind_of_ok hread]
      have hblock' := ih (n := n - 1) (h.mono (Nat.sub_le _ _)) (by omega)
      refine Agrees.mono ?_ (Nat.le_of_lt hless)
      exact Mirrors.bind hblock' (fun rest => .pure _) htracks (by omega)

theorem mirrors_function (hproceeds : Proceeds item)
    (h : Mirrors n (unstopped item) Rule.declaration.read) (hfuel : n ≤ fuel + 1) :
    Mirrors n (function fuel item) Rule.function.read := by
  have hparameters : Mirrors n
      (parenthesized (expect isIdentifier .parameterName) .tooManyParameters fuel)
      Rule.parenthesizedParameters.read := by
    rw [Rule.read]
    refine .bind (.seesSymbol .rightParen) fun _ => .ite (.pure []) ?_
    exact mirrors_commaSeparated Rule.read_parameters (.expect _ _) hfuel 0
  rw [Rule.read]
  exact .bind (.expect isIdentifier _) fun name => .bind (.expectSymbol .leftParen _) fun _ =>
    .bind hparameters fun params => .bind (.expectSymbol .rightParen _) fun _ =>
    .bind (.expectSymbol .leftBrace _) fun _ => .bind (mirrors_block hproceeds h hfuel) fun body => .pure _

end

theorem declaration_of_ok {c c' : Cursor} {stmt : Stmt}
    (h : Rule.declared.read c = some (.ok stmt, c')) :
    Rule.declaration.read c = some (.ok (some stmt), c') := by
  rw [Rule.read]
  change (Rule.declared.read c).bind _ = _
  rw [h]
  rfl

theorem declaration_of_error {c c' : Cursor} {e : SyntaxError}
    (h : Rule.declared.read c = some (.error e, c')) :
    Rule.declaration.read c =
      (do Unbounded.record e; Rule.resume.read; return none : Read (Option Stmt)) c' := by
  conv =>
    lhs
    rw [Rule.read]
  change (Rule.declared.read c).bind _ = _
  rw [h]
  rfl

/-- A declaration with an error is passed over alike. -/
theorem mirrors_recovering {p : Parse Stmt} (h : Mirrors n p Rule.declared.read) :
    Mirrors n (unstopped (recovering p)) Rule.declaration.read := by
  intro F s c hs hlt
  have hagrees := h hs hlt
  generalize hread : Rule.declared.read c = x at hagrees
  generalize hp : p s = y at hagrees
  cases hagrees with
  | @ok stmt s₁ c₁ htracks hle =>
    have hok : unstopped (recovering p) s = .ok (some stmt) s₁ := by
      simp only [unstopped, recovering, hp]
    rw [hok, declaration_of_ok hread]
    exact .ok htracks hle
  | @error e s₁ c₁ htracks hle =>
    have hok : unstopped (recovering p) s = .ok none (s₁.record e).resume := by
      simp only [unstopped, recovering, hp]
    obtain ⟨c₂, hresume, htracks'⟩ := (htracks.record e).resume
    obtain ⟨us, hmoves, -⟩ := moves_resume (s₁.record e)
    have hrecord : (Unbounded.record e : Read Unit) c₁ =
        some (.ok (), { c₁ with errors := c₁.errors.push e }) := rfl
    have hle' : (s₁.record e).resume.rest.length ≤ s₁.rest.length := by
      have hrest : s₁.rest = us ++ (s₁.record e).resume.rest := hmoves.rest
      rw [hrest, List.length_append]
      exact Nat.le_add_left _ _
    rw [hok, declaration_of_error hread, read_bind_of_ok hrecord, read_bind_of_ok hresume]
    exact .ok htracks' (Nat.le_trans hle' hle)

theorem mirrors_expressionStatement_of_le {n fuel : Nat} (hfuel : 2 * n ≤ fuel) :
    Mirrors (n + 1) (expressionStatement fuel) Rule.expressionStatement.read := by
  cases n with
  | zero => exact mirrors_expressionStatement mirrors_expression_end
  | succ n => exact mirrors_expressionStatement (mirrors_expression (by omega))

/-- A statement chooses by its first token; what it holds has fewer tokens left. -/
theorem mirrors_statement_succ {n fuel : Nat} (hfuel : 2 * n ≤ fuel)
    (hinner : Mirrors n (statement fuel) Rule.statement.read)
    (hblock : Mirrors n (block (declaration fuel) fuel) Rule.block.read) :
    Mirrors (n + 1) (statement (fuel + 1)) Rule.statement.read := by
  have hexpression : Mirrors n (expression fuel) Rule.expression.read := mirrors_expression (by omega)
  have hread := mirrors_expressionStatement_of_le hfuel
  rw [Rule.read]
  refine .current fun t => ?_
  obtain ⟨kind, lexeme, line⟩ := t
  cases kind with
  | keyword k =>
    cases k with
    | forKw => exact .inr ⟨by simp, _, _, rfl, rfl, mirrors_forStatement hexpression hinner⟩
    | ifKw => exact .inr ⟨by simp, _, _, rfl, rfl, mirrors_ifStatement hexpression hinner⟩
    | whileKw => exact .inr ⟨by simp, _, _, rfl, rfl, mirrors_whileStatement hexpression hinner⟩
    | returnKw => exact .inr ⟨by simp, _, _, rfl, rfl, mirrors_returnStatement hexpression _⟩
    | printKw => exact .inr ⟨by simp, _, _, rfl, rfl, mirrors_printStatement hexpression⟩
    | _ => exact .inl hread
  | symbol s =>
    cases s with
    | leftBrace => exact .inr ⟨by simp, _, _, rfl, rfl, .bind hblock fun body => .pure _⟩
    | _ => exact .inl hread
  | _ => exact .inl hread

/-- A declaration chooses by its first token, and may be a statement. -/
theorem mirrors_declaration_succ {n fuel : Nat} (hfuel : n ≤ fuel)
    (hinner : Mirrors n (unstopped (declaration fuel)) Rule.declaration.read)
    (hstatement : Mirrors (n + 1) (statement fuel) Rule.statement.read) :
    Mirrors (n + 1) (unstopped (declaration (fuel + 1))) Rule.declaration.read := by
  have hexpression : Mirrors n (expression fuel) Rule.expression.read := mirrors_expression hfuel
  refine mirrors_recovering ?_
  rw [Rule.read]
  refine .current fun t => ?_
  obtain ⟨kind, lexeme, line⟩ := t
  cases kind with
  | keyword k =>
    cases k with
    | funKw =>
      exact .inr ⟨by simp, _, _, rfl, rfl,
        mirrors_function (starts_statement_declaration fuel).2 hinner (Nat.le_succ_of_le hfuel)⟩
    | letKw => exact .inr ⟨by simp, _, _, rfl, rfl, mirrors_letDeclaration hexpression⟩
    | _ => exact .inl hstatement
  | _ => exact .inl hstatement

/-- Statements and declarations are read alike, by induction on the fuel. -/
theorem mirrors_statement_declaration (fuel : Nat) :
    (∀ n, 2 * n ≤ fuel + 1 → Mirrors n (statement fuel) Rule.statement.read) ∧
    ∀ n, 2 * n ≤ fuel → Mirrors n (unstopped (declaration fuel)) Rule.declaration.read := by
  induction fuel with
  | zero =>
    refine ⟨fun n hn => ?_, fun n hn => ?_⟩
    · obtain rfl : n = 0 := by omega
      exact .zero
    · obtain rfl : n = 0 := by omega
      exact .zero
  | succ fuel ih =>
    obtain ⟨hstatement, hdeclaration⟩ := ih
    constructor
    · intro n hn
      cases n with
      | zero => exact .zero
      | succ n =>
        have hinner := hdeclaration n (by omega)
        exact mirrors_statement_succ (by omega) (hstatement n (by omega))
          (mirrors_block (starts_statement_declaration fuel).2 hinner (by omega))
    · intro n hn
      cases n with
      | zero => exact mirrors_recovering .zero
      | succ n =>
        exact mirrors_declaration_succ (by omega) (hdeclaration n (by omega))
          (hstatement (n + 1) (by omega))

/-- With fuel for twice the tokens left, and two more, a declaration is read as without a bound. -/
theorem mirrors_declaration {n fuel : Nat} (h : 2 * n ≤ fuel) :
    Mirrors n (unstopped (declaration fuel)) Rule.declaration.read :=
  (mirrors_statement_declaration fuel).2 n h

end

end LoxLang.Parsing

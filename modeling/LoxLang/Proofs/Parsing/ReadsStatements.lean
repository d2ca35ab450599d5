import LoxLang.Proofs.Parsing.ReadsExpressions

/-!
Statements and whole programs that the grammar derives are read without an error, and as the tree of
the derivation in which each `else` belongs to its nearest open `if`. A statement that ends with an open
`if` is read to its end if no `else` comes after it. Main statement: `parse_of_declarations`.
-/
namespace LoxLang.Parsing

open Grammar

abbrev SameStmt (stmt : Stmt) : Stmt → Prop := fun stmt' => stmt'.withoutIds = stmt.withoutIds

abbrev SameOption (e : Option Expr) : Option Expr → Prop := fun e' =>
  e'.map Expr.withoutIds = e.map Expr.withoutIds

abbrev SameAll (stmts : List Stmt) : List Stmt → Prop := fun stmts' =>
  stmts'.map Stmt.withoutIds = stmts.map Stmt.withoutIds

abbrev SameSome (stmt : Stmt) : Option Stmt → Prop := fun o => ∃ stmt', o = some stmt' ∧
  stmt'.withoutIds = stmt.withoutIds

theorem withoutIds_whileForm {i i' : Option Stmt} {c c' e e' : Option Expr} {b b' : Stmt}
    (hi : i'.map Stmt.withoutIds = i.map Stmt.withoutIds) (hc : SameOption c c')
    (he : SameOption e e') (hb : b'.withoutIds = b.withoutIds) :
    (whileForm i' c' e' b').withoutIds = (whileForm i c e b).withoutIds := by
  have hcondition : (c'.getD (.literal (.bool true))).withoutIds =
      (c.getD (.literal (.bool true))).withoutIds := by
    cases c <;> cases c' <;> simp_all [SameOption]
  cases i <;> cases i' <;> cases e <;> cases e' <;> simp_all [whileForm, SameOption]

section

variable {fuel : Nat} {s : State} {k ts : List Token} {t : Token}

theorem reads_closed {e : Expr} {sym : Symbol} (h : Expression ts e) (ht : t.kind = .symbol sym)
    (hsym : sym = .rightParen ∨ sym = .semicolon ∨ sym = .comma) (hs : s.rest = ts ++ t :: k)
    (hfuel : (ts ++ t :: k).length < fuel) : Reads (expression fuel) s (t :: k) (Same e) :=
  reads_expression h hs (stopsExpression_symbol ht hsym) hfuel

theorem reads_expressionStatement {stmt : Stmt} (h : ExpressionStatement ts stmt)
    (hs : s.rest = ts ++ k) (hfuel : (ts ++ k).length < fuel) :
    Reads (expressionStatement fuel) s k (SameStmt stmt) := by
  obtain @⟨us, semicolon, e, h, hsemicolon⟩ := h
  rw [List.append_assoc, List.singleton_append] at hs hfuel
  refine .bind (reads_closed h hsemicolon (.inr (.inl rfl)) hs hfuel) fun e' s₁ he hs₁ _ =>
    .bind (.expectSymbol hs₁ hsemicolon) ?_
  rintro _ s₂ rfl hs₂ -
  refine .pure hs₂ ?_
  simp only [SameStmt, Stmt.withoutIds_expression, he]

theorem reads_printStatement {e : Expr} (h : Expression ts e) (ht : t.kind = .symbol .semicolon)
    (hs : s.rest = ts ++ t :: k) (hfuel : (ts ++ t :: k).length < fuel) :
    Reads (printStatement fuel) s k (SameStmt (.print e)) := by
  refine .bind (reads_closed h ht (.inr (.inl rfl)) hs hfuel) fun e' s₁ he hs₁ _ =>
    .bind (.expectSymbol hs₁ ht) ?_
  rintro _ s₂ rfl hs₂ -
  refine .pure hs₂ ?_
  simp only [SameStmt, Stmt.withoutIds_print, he]

/-- Where an expression may be missing, the closing symbol tells. -/
theorem reads_optional {value : Option Expr} {sym : Symbol} (h : OptionalExpression ts value)
    (ht : t.kind = .symbol sym) (hsym : sym = .rightParen ∨ sym = .semicolon ∨ sym = .comma)
    (hs : s.rest = ts ++ t :: k) (hfuel : (ts ++ t :: k).length < fuel) {β : Type}
    {f : Option Expr → Parse β} {r : List Token} {Q : β → Prop}
    (hf : ∀ value' s', SameOption value value' → s'.rest = t :: k → Reads (f value') s' r Q) :
    Reads (do
      let value ← if ← seesSymbol sym then pure none else some <$> expression fuel
      f value) s r Q := by
  cases h with
  | none =>
    refine .bind (.seesSymbol hs ht) ?_
    rintro _ s₁ rfl hs₁ -
    exact .bind (.pure hs₁ (P := (· = none)) rfl) fun _ s₂ hnone hs₂ _ =>
      hf _ s₂ (by rw [hnone]) hs₂
  | @some ts e h =>
    obtain ⟨t', us, hts, ht'⟩ := h.first
    have hs' : s.rest = t' :: (us ++ t :: k) := by rw [hs, hts, List.cons_append]
    have hne : startsExpression (.symbol sym) = false := by
      rcases hsym with rfl | rfl | rfl <;> rfl
    refine .bind (.seesNoSymbol hs' (startsExpression_ne ht' sym hne)) ?_
    rintro _ s₁ rfl hs₁ -
    have hs₁ : s₁.rest = ts ++ t :: k := by rw [hs₁, ← hs', hs]
    have hsome : Reads (some <$> expression fuel) s₁ (t :: k) (SameOption (some e)) :=
      .map ((reads_closed h ht hsym hs₁ hfuel).mono fun e' he => congrArg some he)
    exact .bind hsome fun value s₂ hvalue hs₂ _ => hf value s₂ hvalue hs₂

theorem reads_returnStatement {word : Token} {value : Option Expr} (h : OptionalExpression ts value)
    (ht : t.kind = .symbol .semicolon) (hs : s.rest = ts ++ t :: k)
    (hfuel : (ts ++ t :: k).length < fuel) :
    Reads (returnStatement fuel word) s k (SameStmt (.ret word value)) := by
  refine reads_optional h ht (.inr (.inl rfl)) hs hfuel fun value' s₁ hvalue hs₁ =>
    .bind (.expectSymbol hs₁ ht) ?_
  rintro _ s₂ rfl hs₂ -
  refine .pure hs₂ ?_
  simp only [SameStmt, Stmt.withoutIds_ret, hvalue]

theorem reads_forClause {clause : Option Expr} {sym : Symbol} {cause : SyntaxError.Cause}
    (h : OptionalExpression ts clause) (ht : t.kind = .symbol sym)
    (hsym : sym = .rightParen ∨ sym = .semicolon ∨ sym = .comma) (hs : s.rest = ts ++ t :: k)
    (hfuel : (ts ++ t :: k).length < fuel) :
    Reads (forClause fuel sym cause) s k (SameOption clause) := by
  refine reads_optional h ht hsym hs hfuel fun clause' s₁ hclause hs₁ =>
    .bind (.expectSymbol hs₁ ht) ?_
  rintro _ s₂ rfl hs₂ -
  exact .pure hs₂ hclause

/-- What follows `let` is read as the declaration. -/
theorem reads_letDeclaration {stmt : Stmt} (h : LetDeclaration (t :: ts) stmt)
    (hs : s.rest = ts ++ k) (hfuel : (ts ++ k).length < fuel) :
    Reads (letDeclaration fuel) s k (SameStmt stmt) := by
  cases h with
  | @plain _ name semicolon hword hname hsemicolon =>
    refine .bind (.expectIdentifier hs hname) ?_
    rintro _ s₁ rfl hs₁ -
    refine .bind (.takesNoSymbol hs₁ ?_) ?_
    · rintro _ ⟨⟩
      rw [hsemicolon]
      nofun
    rintro _ s₂ rfl hs₂ -
    refine .bind (.pure hs₂ (P := (· = none)) rfl) ?_
    rintro _ s₃ rfl hs₃ -
    refine .bind (.expectSymbol hs₃ hsemicolon) ?_
    rintro _ s₄ rfl hs₄ -
    exact .pure hs₄ rfl
  | @initialized _ name sign semicolon us e hword hname hsign h hsemicolon =>
    simp only [List.cons_append, List.append_assoc, List.nil_append] at hs hfuel
    refine .bind (.expectIdentifier hs hname) ?_
    rintro _ s₁ rfl hs₁ -
    refine .bind (.takesSymbol hs₁ hsign) ?_
    rintro _ s₂ rfl hs₂ -
    have hlen : (us ++ semicolon :: k).length < fuel :=
      Nat.lt_of_succ_lt (Nat.lt_of_succ_lt hfuel)
    have hsome : Reads (some <$> expression fuel) s₂ (semicolon :: k) (SameOption (some e)) :=
      .map ((reads_closed h hsemicolon (.inr (.inl rfl)) hs₂ hlen).mono fun e' he =>
        congrArg some he)
    refine .bind hsome fun initializer s₃ hinitializer hs₃ _ => ?_
    refine .bind (.expectSymbol hs₃ hsemicolon) ?_
    rintro _ s₄ rfl hs₄ -
    refine .pure hs₄ ?_
    simp only [SameStmt, Stmt.withoutIds_declare, hinitializer]

/-- The first clause of a `for` is read in each of its three forms. -/
theorem reads_forInitializer {initializer : Option Stmt} (h : ForInitializer ts initializer)
    (hs : s.rest = ts ++ k) (hfuel : (ts ++ k).length < fuel) :
    Reads (forInitializer fuel) s k fun i => i.map Stmt.withoutIds =
      initializer.map Stmt.withoutIds := by
  cases h with
  | none h =>
    refine .bind (.takesSymbol hs h) ?_
    rintro _ s₁ rfl hs₁ -
    exact .pure hs₁ rfl
  | declaration h =>
    obtain ⟨word, us, rfl, hword⟩ := h.first
    refine .bind (.takesNoSymbol hs ?_) ?_
    · rintro _ ⟨⟩
      rw [hword]
      nofun
    rintro _ s₁ rfl hs₁ -
    refine .bind (.take hs₁ (isKeyword_iff.mpr hword)) ?_
    rintro _ s₂ rfl hs₂ -
    refine .map ((reads_letDeclaration h hs₂ (Nat.lt_of_succ_lt hfuel)).mono fun stmt hstmt => ?_)
    exact congrArg some hstmt
  | expression h =>
    obtain ⟨word, us, rfl, hword⟩ := h.first
    refine .bind (.takesNoSymbol hs ?_) ?_
    · rintro _ ⟨⟩
      exact startsExpression_ne hword .semicolon
    rintro _ s₁ rfl hs₁ -
    refine .bind (.takeNone hs₁ ?_) ?_
    · rintro _ ⟨⟩
      refine Bool.eq_false_iff.mpr fun h => ?_
      rw [isKeyword_iff.mp h] at hword
      cases hword
    rintro _ s₂ rfl hs₂ -
    refine .map ((reads_expressionStatement h hs₂ hfuel).mono fun stmt hstmt => ?_)
    exact congrArg some hstmt

/-- Parameters are read in order, up to the limit. -/
theorem reads_parameters {names : List Token} {tooMany : SyntaxError.Cause} {n count : Nat}
    (h : Parameters ts names) (ht : t.kind = .symbol .rightParen) (hs : s.rest = ts ++ t :: k)
    (hn : (ts ++ t :: k).length ≤ n) (hmost : count + names.length ≤ most) :
    Reads (commaSeparated (expect isIdentifier .parameterName) tooMany n count) s (t :: k)
      (· = names) := by
  induction h generalizing s n count with
  | @one name h =>
    refine .commaOne (.expectIdentifier hs h) (by simp [ht]) hmost ?_
    rintro _ rfl
    rfl
  | @cons name comma ts names hname hcomma _ ih =>
    cases n with
    | zero => cases hn
    | succ n =>
      rw [List.length_cons] at hmost
      have hcount : count < most := by omega
      refine .commaCons (.expectIdentifier hs hname) hcomma hcount (fun s' hs' =>
        ih hs' (Nat.le_of_succ_le (Nat.le_of_succ_le_succ hn)) (by omega)) ?_
      rintro _ _ rfl rfl
      rfl

theorem reads_optionalParameters {names : List Token} {tooMany : SyntaxError.Cause} {n : Nat}
    (h : OptionalParameters ts names) (ht : t.kind = .symbol .rightParen)
    (hs : s.rest = ts ++ t :: k) (hn : (ts ++ t :: k).length ≤ n) :
    Reads (parenthesized (expect isIdentifier .parameterName) tooMany n) s (t :: k)
      (· = names) := by
  cases h with
  | none => exact .parenthesizedNone hs ht
  | some h hmost =>
    obtain ⟨name, us, hts, hname⟩ := h.first
    have hs' : s.rest = name :: (us ++ t :: k) := by rw [hs, hts, List.cons_append]
    refine .parenthesizedSome hs' (by rw [hname]; nofun) fun s' hs'' => ?_
    exact reads_parameters h ht (hs''.trans (hs'.symm.trans hs)) hn (by rwa [Nat.zero_add])

/-- A condition between parentheses, and what is read with it after them. -/
theorem reads_condition {condition : Expr} {opening closing : Token} {cause cause' : SyntaxError.Cause}
    (hopening : opening.kind = .symbol .leftParen) (h : Expression ts condition)
    (hclosing : closing.kind = .symbol .rightParen) (hs : s.rest = opening :: (ts ++ closing :: k))
    (hfuel : (ts ++ closing :: k).length < fuel) {β : Type} {f : Expr → Parse β} {r : List Token}
    {Q : β → Prop}
    (hf : ∀ condition' s', Same condition condition' → s'.rest = k → Reads (f condition') s' r Q) :
    Reads (do
      let _ ← expectSymbol .leftParen cause
      let condition ← expression fuel
      let _ ← expectSymbol .rightParen cause'
      f condition) s r Q := by
  refine .bind (.expectSymbol hs hopening) ?_
  rintro _ s₁ rfl hs₁ -
  refine .bind (reads_closed h hclosing (.inl rfl) hs₁ hfuel) fun condition' s₂ hcondition hs₂ _ =>
    .bind (.expectSymbol hs₂ hclosing) ?_
  rintro _ s₃ rfl hs₃ -
  exact hf condition' s₃ hcondition hs₃

section

variable {opening closing : Token} {condition : Expr} {us : List Token} {p : Parse Stmt}

theorem reads_whileStatement {body : Stmt} (hopening : opening.kind = .symbol .leftParen)
    (hcondition : Expression ts condition) (hclosing : closing.kind = .symbol .rightParen)
    (hs : s.rest = opening :: (ts ++ closing :: us)) (hfuel : (ts ++ closing :: us).length < fuel)
    (hbody : ∀ s', s'.rest = us → Reads p s' k (SameStmt body)) :
    Reads (whileStatement fuel p) s k (SameStmt (.whileLoop condition body)) := by
  refine reads_condition hopening hcondition hclosing hs hfuel fun condition' s₁ hcondition hs₁ =>
    .bind (hbody s₁ hs₁) fun body' s₂ hbody hs₂ _ => .pure hs₂ ?_
  simp only [SameStmt, Stmt.withoutIds_whileLoop, hcondition, hbody]

/-- An `if` without an `else` is read where no `else` follows. -/
theorem reads_ifThen {thenBranch : Stmt} (hopening : opening.kind = .symbol .leftParen)
    (hcondition : Expression ts condition) (hclosing : closing.kind = .symbol .rightParen)
    (hs : s.rest = opening :: (ts ++ closing :: us)) (hfuel : (ts ++ closing :: us).length < fuel)
    (hthen : ∀ s', s'.rest = us → Reads p s' k (SameStmt thenBranch))
    (hk : ∀ t ∈ k.head?, t.kind ≠ .keyword .elseKw) :
    Reads (ifStatement fuel p) s k (SameStmt (.ifThen condition thenBranch)) := by
  have hnone : ∀ t ∈ k.head?, isKeyword .elseKw t.kind = false := fun t ht =>
    Bool.eq_false_iff.mpr fun helse => hk t ht (isKeyword_iff.mp helse)
  refine reads_condition hopening hcondition hclosing hs hfuel fun condition' s₁ hcondition hs₁ =>
    .bind (hthen s₁ hs₁) fun thenBranch' s₂ hthen hs₂ _ => .bind (.takeNone hs₂ hnone) ?_
  rintro _ s₃ rfl hs₃ -
  refine .pure hs₃ ?_
  simp only [SameStmt, Stmt.withoutIds_ifThen, hcondition, hthen]

theorem reads_ifElse {word : Token} {vs : List Token} {thenBranch elseBranch : Stmt}
    (hopening : opening.kind = .symbol .leftParen) (hcondition : Expression ts condition)
    (hclosing : closing.kind = .symbol .rightParen)
    (hs : s.rest = opening :: (ts ++ closing :: us)) (hfuel : (ts ++ closing :: us).length < fuel)
    (hthen : ∀ s', s'.rest = us → Reads p s' (word :: vs) (SameStmt thenBranch))
    (hword : word.kind = .keyword .elseKw)
    (helse : ∀ s', s'.rest = vs → Reads p s' k (SameStmt elseBranch)) :
    Reads (ifStatement fuel p) s k (SameStmt (.ifElse condition thenBranch elseBranch)) := by
  refine reads_condition hopening hcondition hclosing hs hfuel fun condition' s₁ hcondition hs₁ =>
    .bind (hthen s₁ hs₁) fun thenBranch' s₂ hthen hs₂ _ =>
    .bind (.take hs₂ (isKeyword_iff.mpr hword)) ?_
  rintro _ s₃ rfl hs₃ -
  refine .bind (helse s₃ hs₃) fun elseBranch' s₄ helse hs₄ _ => .pure hs₄ ?_
  simp only [SameStmt, Stmt.withoutIds_ifElse, hcondition, hthen, helse]

/-- A `for` is read as the loop that it stands for. -/
theorem reads_forStatement {semicolon : Token} {vs ws : List Token} {initializer : Option Stmt}
    {condition increment : Option Expr} {body : Stmt} (hopening : opening.kind = .symbol .leftParen)
    (hinitializer : ForInitializer ts initializer) (hcondition : OptionalExpression us condition)
    (hsemicolon : semicolon.kind = .symbol .semicolon) (hincrement : OptionalExpression vs increment)
    (hclosing : closing.kind = .symbol .rightParen)
    (hs : s.rest = opening :: (ts ++ (us ++ semicolon :: (vs ++ closing :: ws))))
    (hfuel : (ts ++ (us ++ semicolon :: (vs ++ closing :: ws))).length < fuel)
    (hbody : ∀ s', s'.rest = ws → Reads p s' k (SameStmt body)) :
    Reads (forStatement fuel p) s k
      (SameStmt (whileForm initializer condition increment body)) := by
  have hfuel' := hfuel
  simp only [List.length_append, List.length_cons] at hfuel'
  refine .bind (.expectSymbol hs hopening) ?_
  rintro _ s₁ rfl hs₁ -
  refine .bind (reads_forInitializer hinitializer hs₁ hfuel) fun i s₂ hi hs₂ _ =>
    .bind (reads_forClause hcondition hsemicolon (.inr (.inl rfl)) hs₂ ?_)
    fun c s₃ hc hs₃ _ => .bind (reads_forClause hincrement hclosing (.inl rfl) hs₃ ?_)
    fun e s₄ he hs₄ _ => .bind (hbody s₄ hs₄) fun b s₅ hb hs₅ _ => .pure hs₅ ?_
  · simp only [List.length_append, List.length_cons]
    omega
  · simp only [List.length_append, List.length_cons]
    omega
  · rw [forLoop_eq_whileForm]
    exact withoutIds_whileForm hi hc he hb

/-- What follows `fun`. The block is read from behind its brace on. -/
theorem reads_function {name brace : Token} {params vs : List Token} {body : List Stmt}
    {item : Recover (Option Stmt)} (hname : name.kind = .identifier)
    (hopening : opening.kind = .symbol .leftParen) (hparams : OptionalParameters ts params)
    (hclosing : closing.kind = .symbol .rightParen) (hbrace : brace.kind = .symbol .leftBrace)
    (hs : s.rest = name :: opening :: (ts ++ closing :: brace :: vs))
    (hfuel : (ts ++ closing :: brace :: vs).length ≤ fuel)
    (hbody : ∀ s', s'.rest = vs → Reads (block item fuel) s' k (SameAll body)) :
    Reads (function fuel item) s k (SameStmt (.function name params body)) := by
  refine .bind (.expectIdentifier hs hname) ?_
  rintro _ s₁ rfl hs₁ -
  refine .bind (.expectSymbol hs₁ hopening) ?_
  rintro _ s₂ rfl hs₂ -
  refine .bind (reads_optionalParameters hparams hclosing hs₂ hfuel) ?_
  rintro _ s₃ rfl hs₃ -
  refine .bind (.expectSymbol hs₃ hclosing) ?_
  rintro _ s₄ rfl hs₄ -
  refine .bind (.expectSymbol hs₄ hbrace) ?_
  rintro _ s₅ rfl hs₅ -
  refine .bind (hbody s₅ hs₅) fun body' s₆ hbody hs₆ _ => .pure hs₆ ?_
  simp only [SameStmt, Stmt.withoutIds_function, hbody]

end

theorem Reads.recovered {p : Parse Stmt} {stmt : Stmt} (h : Reads p s k (SameStmt stmt)) :
    Reads (unstopped (recovering p)) s k (SameSome stmt) := by
  obtain ⟨stmt', s', h, hrest, hlast, herrors, hstmt⟩ := h
  refine ⟨some stmt', s', ?_, hrest, hlast, herrors, stmt', rfl, hstmt⟩
  simp only [unstopped, recovering, h]

/-- What starts like an expression is read as an expression statement. -/
theorem reads_statement_of_startsExpression {P : Stmt → Prop} {r : List Token}
    (hs : s.rest = t :: k) (ht : startsExpression t.kind = true)
    (h : ∀ s', s'.rest = t :: k → Reads (expressionStatement fuel) s' r P) :
    Reads (statement (fuel + 1)) s r P := by
  refine .bind (.current hs) ?_
  rintro _ s₁ rfl hs₁ -
  split
  case h_7 => exact h s₁ hs₁
  all_goals
    next hk =>
      rw [hk] at ht
      cases ht

/-- What starts with none of the words of declarations is read as a statement. -/
theorem reads_declaration_of_noStart {stmt : Stmt} {r : List Token} (hs : s.rest = t :: k)
    (ht : ¬NoStart t.kind) (h : ∀ s', s'.rest = t :: k → Reads (statement fuel) s' r (SameStmt stmt)) :
    Reads (unstopped (declaration (fuel + 1))) s r (SameSome stmt) := by
  refine .recovered (.bind (.current hs) ?_)
  rintro _ s₁ rfl hs₁ -
  split
  case h_3 => exact h s₁ hs₁
  · next hk => exact absurd (.inl hk) ht
  · next hk => exact absurd (.inr (.inl hk)) ht

end

mutual

/-- Derived declarations are read up to the brace that closes their block. -/
theorem reads_declarations {ts : List Token} {stmts : List Stmt} (h : Declarations true ts stmts)
    {fuel n : Nat} {s : State} {closing : Token} {k : List Token} (hs : s.rest = ts ++ closing :: k)
    (hclosing : closing.kind = .symbol .rightBrace) (hfuel : 2 * (ts ++ closing :: k).length + 2 ≤ fuel)
    (hn : (ts ++ closing :: k).length ≤ n) :
    Reads (block (declaration fuel) n) s k (SameAll stmts) := by
  match h with
  | .nil =>
    cases n with
    | zero => cases hn
    | succ n =>
      rw [block]
      refine .bind (.seesSymbol hs hclosing) ?_
      rintro _ s₁ rfl hs₁ -
      refine .bind (.atEnd hs₁) fun ends s₂ _ hs₂ _ => ?_
      refine .bind (.expectSymbol hs₂ hclosing) ?_
      rintro _ s₃ rfl hs₃ -
      exact .pure hs₃ rfl
  | @Declarations.cons _ ts us _ _ isOpen hfirst hrest =>
    rw [List.append_assoc] at hs hfuel hn
    have hnext : ∀ t ∈ (us ++ closing :: k).head?, t.kind ≠ .keyword .elseKw := by
      rcases hrest.first with rfl | ⟨t, vs, rfl, ht, -⟩
      · rintro _ ⟨⟩
        rw [hclosing]
        nofun
      · rintro _ ⟨⟩
        exact ht
    obtain ⟨t, vs, hts, -, ht⟩ := hfirst.first
    have hs' : s.rest = t :: (vs ++ (us ++ closing :: k)) := by rw [hs, hts, List.cons_append]
    have hlen : (us ++ closing :: k).length + 1 ≤ (ts ++ (us ++ closing :: k)).length := by
      rw [hts, List.cons_append, List.length_cons]
      exact Nat.succ_le_succ (length_le_append _ _)
    cases n with
    | zero => omega
    | succ n =>
      rw [block]
      refine .bind (.seesNoSymbol hs' ht) ?_
      rintro _ s₁ rfl hs₁ -
      refine .bind (.atEnd hs₁) ?_
      rintro _ s₂ rfl hs₂ -
      have hs₂ : s₂.rest = ts ++ (us ++ closing :: k) := hs₂.trans (hs'.symm.trans hs)
      refine .bind (reads_declaration hfirst hs₂ hnext hfuel) ?_
      rintro _ s₃ ⟨stmt, rfl, hstmt⟩ hs₃ -
      refine .bind (reads_declarations hrest hs₃ hclosing (by omega) (by omega))
        fun stmts s₄ hstmts hs₄ _ => .pure hs₄ ?_
      simp [SameAll, hstmt, hstmts]

/-- A derived declaration is read as its tree. -/
theorem reads_declaration {ts : List Token} {stmt : Stmt} {isOpen : Bool}
    (h : Declaration true ts stmt isOpen) {fuel : Nat} {s : State} {k : List Token}
    (hs : s.rest = ts ++ k) (hk : ∀ t ∈ k.head?, t.kind ≠ .keyword .elseKw)
    (hfuel : 2 * (ts ++ k).length + 2 ≤ fuel) :
    Reads (unstopped (declaration fuel)) s k (SameSome stmt) := by
  cases fuel with
  | zero => cases hfuel
  | succ fuel =>
    match h with
    | @Declaration.function _ _ _ _ _ _ us _ _ hword hname hopening hparams hclosing hbody =>
      have hblock {s : State} {t : Token} (hs : t :: s.rest = us ++ k) :=
        @reads_block us _ hbody fuel s t k hs
      obtain ⟨brace, vs, rfl, hbrace⟩ := hbody.first
      simp only [List.cons_append, List.append_assoc] at hs hfuel
      simp only [List.length_append, List.length_cons] at hfuel
      refine .recovered (.currentAdvance hs (by rw [hword]) fun s₁ hs₁ =>
        reads_function hname hopening hparams hclosing hbrace hs₁ ?_
          fun s₂ hs₂ => hblock (congrArg _ hs₂) ?_)
      all_goals
        simp only [List.cons_append, List.length_append, List.length_cons]
        omega
    | .letDeclaration h =>
      obtain ⟨word, us, rfl, hword⟩ := h.first
      refine .recovered (.currentAdvance hs (by rw [hword]) fun s₁ hs₁ =>
        reads_letDeclaration h hs₁ ?_)
      simp only [List.length_append, List.length_cons] at hfuel ⊢
      omega
    | .statement h =>
      have hread {s : State} (hs : s.rest = ts ++ k) :=
        reads_statement h hs (fun _ => hk) (Nat.le_of_succ_le_succ hfuel)
      obtain ⟨t, us, hts, ht⟩ := h.first
      have hs' : s.rest = t :: (us ++ k) := by rw [hs, hts, List.cons_append]
      exact reads_declaration_of_noStart hs' ht fun s' h => hread (h.trans (hs'.symm.trans hs))

theorem reads_block {ts : List Token} {body : List Stmt} (h : Block true ts body) {fuel : Nat}
    {s : State} {t : Token} {k : List Token} (hs : t :: s.rest = ts ++ k)
    (hfuel : 2 * (ts ++ k).length ≤ fuel) :
    Reads (block (declaration fuel) fuel) s k (SameAll body) := by
  match h with
  | .mk hopening hbody hclosing =>
    simp only [List.cons_append, List.append_assoc, List.nil_append] at hs hfuel
    injection hs with _ hs
    refine reads_declarations hbody hs hclosing (by simpa [Nat.mul_add] using hfuel) ?_
    simp only [List.length_append, List.length_cons] at hfuel ⊢
    omega

/-- A derived statement is read as its tree, if no `else` follows that it could still take. -/
theorem reads_statement {ts : List Token} {stmt : Stmt} {isOpen : Bool}
    (h : Statement true ts stmt isOpen) {fuel : Nat} {s : State} {k : List Token}
    (hs : s.rest = ts ++ k) (hk : isOpen = true → ∀ t ∈ k.head?, t.kind ≠ .keyword .elseKw)
    (hfuel : 2 * (ts ++ k).length + 1 ≤ fuel) : Reads (statement fuel) s k (SameStmt stmt) := by
  cases fuel with
  | zero => cases hfuel
  | succ fuel =>
    match h with
    | .expression h =>
      obtain ⟨t, us, hts, ht⟩ := h.first
      have hs' : s.rest = t :: (us ++ k) := by rw [hs, hts, List.cons_append]
      refine reads_statement_of_startsExpression hs' ht fun s' h' =>
        reads_expressionStatement h (h'.trans (hs'.symm.trans hs)) ?_
      rw [hts, List.cons_append, List.length_cons] at hfuel ⊢
      omega
    | @Statement.forLoop _ _ _ _ _ _ _ _ _ _ _ _ _ _ hword hopening hinitializer hcondition
        hsemicolon hincrement hclosing hbody =>
      simp only [List.cons_append, List.append_assoc] at hs hfuel
      simp only [List.length_append, List.length_cons] at hfuel
      refine .currentAdvance hs (by rw [hword]) fun s₁ hs₁ =>
        reads_forStatement hopening hinitializer hcondition hsemicolon hincrement hclosing hs₁ ?_
          fun s₂ hs₂ => reads_statement hbody hs₂ hk ?_
      all_goals
        simp only [List.length_append, List.length_cons]
        omega
    | .ifThen hword hopening hcondition hclosing hthen =>
      simp only [List.cons_append, List.append_assoc] at hs hfuel
      simp only [List.length_append, List.length_cons] at hfuel
      refine .currentAdvance hs (by rw [hword]) fun s₁ hs₁ =>
        reads_ifThen hopening hcondition hclosing hs₁ ?_
          (fun s₂ hs₂ => reads_statement hthen hs₂ (fun _ => hk rfl) ?_) (hk rfl)
      all_goals
        simp only [List.length_append, List.length_cons]
        omega
    | .ifElse hword hopening hcondition hclosing hthen hnearest helse hbranch =>
      simp only [List.cons_append, List.append_assoc] at hs hfuel
      simp only [List.length_append, List.length_cons] at hfuel
      -- the branch is closed, so it leaves the `else` to this `if`
      have hclosed := hnearest rfl
      refine .currentAdvance hs (by rw [hword]) fun s₁ hs₁ =>
        reads_ifElse hopening hcondition hclosing hs₁ ?_
          (fun s₂ hs₂ => reads_statement hthen hs₂ (fun hopen => ?_) ?_) helse
          fun s₂ hs₂ => reads_statement hbranch hs₂ hk ?_
      case refine_2 =>
        rw [hclosed] at hopen
        cases hopen
      all_goals
        simp only [List.length_append, List.length_cons]
        omega
    | .print hword h hsemicolon =>
      simp only [List.cons_append, List.append_assoc, List.nil_append] at hs hfuel
      simp only [List.length_append, List.length_cons] at hfuel
      refine .currentAdvance hs (by rw [hword]) fun s₁ hs₁ =>
        reads_printStatement h hsemicolon hs₁ ?_
      simp only [List.length_append, List.length_cons]
      omega
    | .ret hword h hsemicolon =>
      simp only [List.cons_append, List.append_assoc, List.nil_append] at hs hfuel
      simp only [List.length_append, List.length_cons] at hfuel
      refine .currentAdvance hs (by rw [hword]) fun s₁ hs₁ =>
        reads_returnStatement h hsemicolon hs₁ ?_
      simp only [List.length_append, List.length_cons]
      omega
    | .whileLoop hword hopening hcondition hclosing hbody =>
      simp only [List.cons_append, List.append_assoc] at hs hfuel
      simp only [List.length_append, List.length_cons] at hfuel
      refine .currentAdvance hs (by rw [hword]) fun s₁ hs₁ =>
        reads_whileStatement hopening hcondition hclosing hs₁ ?_
          fun s₂ hs₂ => reads_statement hbody hs₂ hk ?_
      all_goals
        simp only [List.length_append, List.length_cons]
        omega
    | .block h =>
      obtain ⟨brace, us, hts, hbrace⟩ := h.first
      have hs' : s.rest = brace :: (us ++ k) := by rw [hs, hts, List.cons_append]
      refine .currentAdvance hs' (by rw [hbrace]) fun s₁ hs₁ => ?_
      refine .bind (reads_block h ((congrArg _ hs₁).trans (hs'.symm.trans hs)) (by omega))
        fun body s₂ hbody hs₂ _ => .pure hs₂ ?_
      simp only [SameStmt, Stmt.withoutIds_block, hbody]

end

/-- A program that the grammar derives is read to its end without an error. -/
theorem reads_program {ts : List Token} {stmts : List Stmt} (h : Declarations true ts stmts)
    {fuel n : Nat} {s : State} (hs : s.rest = ts) (hfuel : 2 * ts.length + 2 ≤ fuel)
    (hn : ts.length < n) :
    Reads (unstopped (program (declaration fuel) n)) s [] (SameAll stmts) := by
  induction n generalizing s ts stmts with
  | zero => cases hn
  | succ n ih =>
    cases h with
    | nil =>
      refine ⟨[], s, ?_, hs, rfl, rfl, rfl⟩
      rw [unstopped, program_of_rest_eq_nil hs]
    | @cons ts us stmt stmts isOpen hfirst hrest =>
      obtain ⟨t, vs, hts, -⟩ := hfirst.first
      have hne : s.rest ≠ [] := by simp [hs, hts]
      have hlen : us.length + 1 ≤ (ts ++ us).length := by
        rw [hts, List.cons_append, List.length_cons]
        exact Nat.succ_le_succ (length_le_append _ _)
      have hnext : ∀ t ∈ us.head?, t.kind ≠ .keyword .elseKw := by
        rcases hrest.first with rfl | ⟨t, vs, rfl, ht, -⟩
        · rintro _ ⟨⟩
        · rintro _ ⟨⟩
          exact ht
      obtain ⟨o, s₁, hitem, hs₁, hlast₁, herrors₁, stmt', rfl, hstmt⟩ :=
        reads_declaration hfirst hs hnext hfuel
      obtain ⟨ss, s₂, hrest, hs₂, hlast₂, herrors₂, hstmts⟩ :=
        ih hrest hs₁ (by omega) (by omega)
      injection hitem with hfst hsnd
      injection hrest with hfst' hsnd'
      refine ⟨stmt' :: ss, s₂, ?_, hs₂, hlast₂.trans hlast₁, herrors₂.trans herrors₁, ?_⟩
      · rw [unstopped, program_of_rest_ne_nil hne, hfst, hsnd, hfst', hsnd']
        rfl
      · simp only [SameAll, List.map_cons, hstmt, hstmts]

/-- A list of tokens that the grammar derives is read without an error, and as the derived tree. -/
theorem parse_of_declarations {tokens : List Token} {stmts : List Stmt}
    (h : Declarations true (body tokens) stmts) (nextId : ReferenceId) :
    (parse nextId tokens).errors = [] ∧ SameAll stmts (parse nextId tokens).statements := by
  obtain ⟨ss, s, hread, -, -, herrors, hsame⟩ :=
    reads_program h (s := State.start nextId tokens) rfl (Nat.le_refl _)
      (n := 2 * (body tokens).length + 2) (by omega)
  injection hread with hfst hsnd
  change (readAll nextId tokens).1 = ss at hfst
  change (readAll nextId tokens).2 = s at hsnd
  rw [parse_eq_readAll, hfst, hsnd]
  exact ⟨congrArg Array.toList herrors, hsame⟩

end LoxLang.Parsing

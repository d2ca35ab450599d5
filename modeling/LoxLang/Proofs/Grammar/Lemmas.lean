import LoxLang.Proofs.Grammar.Basic

/-!
Facts about derivations: which token they start with, that an expression that is a name has no other
token, that declarations may follow each other, and that every list of tokens that is derived at all is
also derived with each `else` at its nearest open `if`.
-/
namespace LoxLang.Grammar

open Parsing (Level)

theorem operation_ne_reference (ℓ : Level) (left right : Expr) (t name : Token) (id : ReferenceId) :
    operation ℓ left t right ≠ .reference id name := by
  cases ℓ <;> simp [operation]

theorem grouped_eq_reference {ℓ : Level} {first : Expr} {rest : List (Token × Expr)}
    {id : ReferenceId} {name : Token} (h : grouped ℓ first rest = .reference id name) :
    rest = [] ∧ first = .reference id name := by
  induction rest generalizing first with
  | nil => exact ⟨rfl, h⟩
  | cons o rest ih => exact absurd (ih h).2 (operation_ne_reference ℓ _ _ _ _ _)

theorem applied_eq_reference {callee : Expr} {calls : List (Token × List Expr)}
    {id : ReferenceId} {name : Token} (h : applied callee calls = .reference id name) :
    calls = [] ∧ callee = .reference id name := by
  induction calls generalizing callee with
  | nil => exact ⟨rfl, h⟩
  | cons c calls ih => exact absurd (ih h).2 (by simp)

section

variable {id : ReferenceId} {name : Token}

theorem Call.of_reference {ts : List Token} {e : Expr} (h : Call ts e)
    (he : e = .reference id name) : ts = [name] ∧ name.kind = .identifier := by
  obtain ⟨hcallee, hcalls⟩ := h
  obtain ⟨rfl, rfl⟩ := applied_eq_reference he
  cases hcalls
  cases hcallee with
  | name _ hname => exact ⟨rfl, hname⟩

theorem Unary.of_reference {ts : List Token} {e : Expr} (h : Unary ts e)
    (he : e = .reference id name) : ts = [name] ∧ name.kind = .identifier := by
  cases h with
  | sign => cases he
  | call h => exact h.of_reference he

mutual

theorem Operators.of_reference {ℓ : Level} {ts : List Token} {e : Expr} (h : Operators ℓ ts e)
    (he : e = .reference id name) : ts = [name] ∧ name.kind = .identifier := by
  match h with
  | .mk hfirst hrest =>
    obtain ⟨rfl, hfirst'⟩ := grouped_eq_reference he
    cases hrest
    rw [List.append_nil]
    exact Operand.of_reference hfirst hfirst'

theorem Operand.of_reference {ℓ : Level} {ts : List Token} {e : Expr} (h : Operand ℓ ts e)
    (he : e = .reference id name) : ts = [name] ∧ name.kind = .identifier := by
  match h with
  | .level _ h => exact Operators.of_reference h he
  | .unary _ h => exact h.of_reference he

end

end

def startsExpression : TokenKind → Bool
  | .identifier | .string _ | .number _ => true
  | .keyword .trueKw | .keyword .falseKw | .keyword .nilKw => true
  | .symbol .leftParen | .symbol .bang | .symbol .minus => true
  | _ => false

theorem Primary.first {ts : List Token} {e : Expr} (h : Primary ts e) :
    ∃ t us, ts = t :: us ∧ startsExpression t.kind = true := by
  cases h with
  | @literal t _ h =>
    refine ⟨t, [], rfl, ?_⟩
    generalize t.kind = k at h
    cases h <;> rfl
  | @name t id h => exact ⟨t, [], rfl, by rw [h]; rfl⟩
  | @grouping opening closing ts e hopening => exact ⟨opening, _, rfl, by rw [hopening]; rfl⟩

theorem Unary.first {ts : List Token} {e : Expr} (h : Unary ts e) :
    ∃ t us, ts = t :: us ∧ startsExpression t.kind = true := by
  cases h with
  | @sign operator ts e hoperator h =>
    refine ⟨operator, ts, rfl, ?_⟩
    rcases hoperator with h | h <;> rw [h] <;> rfl
  | call h =>
    obtain ⟨hcallee, hcalls⟩ := h
    obtain ⟨t, us, rfl, ht⟩ := hcallee.first
    exact ⟨t, _, rfl, ht⟩

mutual

theorem Operators.first {ℓ : Level} {ts : List Token} {e : Expr} (h : Operators ℓ ts e) :
    ∃ t us, ts = t :: us ∧ startsExpression t.kind = true := by
  match h with
  | .mk hfirst hrest =>
    obtain ⟨t, us, rfl, ht⟩ := Operand.first hfirst
    exact ⟨t, _, rfl, ht⟩

theorem Operand.first {ℓ : Level} {ts : List Token} {e : Expr} (h : Operand ℓ ts e) :
    ∃ t us, ts = t :: us ∧ startsExpression t.kind = true := by
  match h with
  | .level _ h => exact Operators.first h
  | .unary _ h => exact h.first

end

theorem Expression.first {ts : List Token} {e : Expr} (h : Expression ts e) :
    ∃ t us, ts = t :: us ∧ startsExpression t.kind = true := by
  cases h with
  | @assign name sign ts _ _ hname => exact ⟨name, _, rfl, by rw [hname]; rfl⟩
  | operators h => exact h.first

theorem Arguments.first {ts : List Token} {es : List Expr} (h : Arguments ts es) :
    ∃ t us, ts = t :: us ∧ startsExpression t.kind = true := by
  cases h with
  | one h => exact h.first
  | cons h =>
    obtain ⟨t, us, rfl, ht⟩ := h.first
    exact ⟨t, _, rfl, ht⟩

theorem startsExpression_ne {t : Token} (h : startsExpression t.kind = true) (sym : Symbol)
    (hsym : startsExpression (.symbol sym) = false := by rfl) : t.kind ≠ .symbol sym := by
  intro ht
  rw [ht, hsym] at h
  cases h

theorem ExpressionStatement.first {ts : List Token} {s : Stmt} (h : ExpressionStatement ts s) :
    ∃ t us, ts = t :: us ∧ startsExpression t.kind = true := by
  obtain ⟨h, -⟩ := h
  obtain ⟨t, us, rfl, ht⟩ := h.first
  exact ⟨t, _, rfl, ht⟩

theorem LetDeclaration.first {ts : List Token} {s : Stmt} (h : LetDeclaration ts s) :
    ∃ t us, ts = t :: us ∧ t.kind = .keyword .letKw := by
  cases h with
  | plain hword => exact ⟨_, _, rfl, hword⟩
  | initialized hword => exact ⟨_, _, rfl, hword⟩

theorem Parameters.first {ts names : List Token} (h : Parameters ts names) :
    ∃ t us, ts = t :: us ∧ t.kind = .identifier := by
  cases h with
  | one h => exact ⟨_, _, rfl, h⟩
  | cons h => exact ⟨_, _, rfl, h⟩

def NoStart (k : TokenKind) : Prop :=
  k = .keyword .funKw ∨ k = .keyword .letKw ∨ k = .keyword .elseKw ∨ k = .symbol .rightBrace

variable {nearest : Bool}

/-- No statement is empty, and each starts with a token of a kind that statements can start with. -/
theorem Statement.first {ts : List Token} {s : Stmt} {isOpen : Bool}
    (h : Statement nearest ts s isOpen) : ∃ t us, ts = t :: us ∧ ¬NoStart t.kind := by
  cases h with
  | expression h =>
    obtain ⟨t, us, rfl, ht⟩ := h.first
    refine ⟨t, us, rfl, ?_⟩
    rintro (h | h | h | h) <;> rw [h] at ht <;> cases ht
  | @block ts body h =>
    obtain @⟨opening, closing, us, _, hopening⟩ := h
    exact ⟨opening, _, rfl, by simp [NoStart, hopening]⟩
  | forLoop hword => exact ⟨_, _, rfl, by simp [NoStart, hword]⟩
  | ifThen hword => exact ⟨_, _, rfl, by simp [NoStart, hword]⟩
  | ifElse hword => exact ⟨_, _, rfl, by simp [NoStart, hword]⟩
  | print hword => exact ⟨_, _, rfl, by simp [NoStart, hword]⟩
  | ret hword => exact ⟨_, _, rfl, by simp [NoStart, hword]⟩
  | whileLoop hword => exact ⟨_, _, rfl, by simp [NoStart, hword]⟩

/-- A declaration starts with no token that closes a block or continues an `if`. -/
theorem Declaration.first {ts : List Token} {s : Stmt} {isOpen : Bool}
    (h : Declaration nearest ts s isOpen) : ∃ t us, ts = t :: us ∧
      t.kind ≠ .keyword .elseKw ∧ t.kind ≠ .symbol .rightBrace := by
  cases h with
  | function hword => exact ⟨_, _, rfl, by simp [hword]⟩
  | letDeclaration h =>
    obtain ⟨t, us, rfl, ht⟩ := h.first
    exact ⟨t, us, rfl, by simp [ht]⟩
  | statement h =>
    obtain ⟨t, us, rfl, ht⟩ := h.first
    exact ⟨t, us, rfl, fun h => ht (.inr (.inr (.inl h))), fun h => ht (.inr (.inr (.inr h)))⟩

theorem Declarations.first {ts : List Token} {ss : List Stmt} (h : Declarations nearest ts ss) :
    ts = [] ∨ ∃ t us, ts = t :: us ∧ t.kind ≠ .keyword .elseKw ∧ t.kind ≠ .symbol .rightBrace := by
  cases h with
  | nil => exact .inl rfl
  | cons h =>
    obtain ⟨t, us, rfl, ht⟩ := h.first
    exact .inr ⟨t, _, rfl, ht⟩

theorem Block.first {ts : List Token} {body : List Stmt} (h : Block nearest ts body) :
    ∃ t us, ts = t :: us ∧ t.kind = .symbol .leftBrace := by
  obtain ⟨hopening, -, -⟩ := h
  exact ⟨_, _, rfl, hopening⟩

/-- Declarations may be followed by more declarations. -/
theorem Declarations.append {ts us : List Token} {ss ss' : List Stmt}
    (h : Declarations nearest ts ss) (h' : Declarations nearest us ss') :
    Declarations nearest (ts ++ us) (ss ++ ss') := by
  match h with
  | .nil => exact h'
  | .cons hfirst hrest =>
    rw [List.append_assoc]
    exact .cons hfirst (Declarations.append hrest h')

/-- An `else` after a statement with an open `if` can be taken by the nearest one. -/
theorem Statement.attach {elseWord : Token} {us : List Token} {elseBranch : Stmt} {elseOpen : Bool}
    (hword : elseWord.kind = .keyword .elseKw) (helse : Statement true us elseBranch elseOpen)
    {ts : List Token} {s : Stmt} {isOpen : Bool} (h : Statement true ts s isOpen)
    (hopen : isOpen = true) :
    ∃ s' isOpen', Statement true (ts ++ elseWord :: us) s' isOpen' := by
  match h with
  | .expression _ => cases hopen
  | .print .. => cases hopen
  | .ret .. => cases hopen
  | .block _ => cases hopen
  | .forLoop hfor hopening hinitializer hcondition hsemicolon hincrement hclosing hbody =>
    obtain ⟨s', isOpen', h⟩ := Statement.attach hword helse hbody hopen
    have h := Statement.forLoop hfor hopening hinitializer hcondition hsemicolon hincrement
      hclosing h
    exact ⟨_, _, by simpa using h⟩
  | .whileLoop hwhile hopening hcondition hclosing hbody =>
    obtain ⟨s', isOpen', h⟩ := Statement.attach hword helse hbody hopen
    have h := Statement.whileLoop hwhile hopening hcondition hclosing h
    exact ⟨_, _, by simpa using h⟩
  | .ifElse hif hopening hcondition hclosing hthen hnearest helse' hbranch =>
    obtain ⟨s', isOpen', h⟩ := Statement.attach hword helse hbranch hopen
    have h := Statement.ifElse hif hopening hcondition hclosing hthen hnearest helse' h
    exact ⟨_, _, by simpa using h⟩
  | .ifThen hif hopening hcondition hclosing hthen =>
    have ih := Statement.attach hword helse hthen
    rename_i thenOpen
    cases thenOpen with
    | true =>
      obtain ⟨s', isOpen', h⟩ := ih rfl
      have h := Statement.ifThen hif hopening hcondition hclosing h
      exact ⟨_, _, by simpa using h⟩
    | false =>
      have h := Statement.ifElse hif hopening hcondition hclosing hthen (fun _ => rfl) hword helse
      exact ⟨_, _, by simpa using h⟩

mutual

theorem Declarations.toNearest {ts : List Token} {ss : List Stmt} (h : Declarations nearest ts ss) :
    ∃ ss', Declarations true ts ss' := by
  match h with
  | .nil => exact ⟨[], .nil⟩
  | .cons hfirst hrest =>
    obtain ⟨s', _, h⟩ := Declaration.toNearest hfirst
    obtain ⟨ss', hs⟩ := Declarations.toNearest hrest
    exact ⟨_, .cons h hs⟩

/-- A declaration of the grammar without the rule for `else` can also be derived with it. -/
theorem Declaration.toNearest {ts : List Token} {s : Stmt} {isOpen : Bool}
    (h : Declaration nearest ts s isOpen) : ∃ s' isOpen', Declaration true ts s' isOpen' := by
  match h with
  | .function hword hname hopening hparams hclosing hbody =>
    obtain ⟨body', h⟩ := Block.toNearest hbody
    exact ⟨_, _, .function hword hname hopening hparams hclosing h⟩
  | .letDeclaration h => exact ⟨_, _, .letDeclaration h⟩
  | .statement h =>
    obtain ⟨_, _, h⟩ := Statement.toNearest h
    exact ⟨_, _, .statement h⟩

theorem Block.toNearest {ts : List Token} {body : List Stmt} (h : Block nearest ts body) :
    ∃ body', Block true ts body' := by
  match h with
  | .mk hopening hbody hclosing =>
    obtain ⟨body', h⟩ := Declarations.toNearest hbody
    exact ⟨_, .mk hopening h hclosing⟩

/-- A statement of the grammar without the rule for `else` can also be derived with it, maybe as another
tree. -/
theorem Statement.toNearest {ts : List Token} {s : Stmt} {isOpen : Bool}
    (h : Statement nearest ts s isOpen) : ∃ s' isOpen', Statement true ts s' isOpen' := by
  match h with
  | .expression h => exact ⟨_, _, .expression h⟩
  | .forLoop hfor hopening hinitializer hcondition hsemicolon hincrement hclosing hbody =>
    obtain ⟨_, _, h⟩ := Statement.toNearest hbody
    exact ⟨_, _, .forLoop hfor hopening hinitializer hcondition hsemicolon hincrement hclosing h⟩
  | .ifThen hif hopening hcondition hclosing hthen =>
    obtain ⟨_, _, h⟩ := Statement.toNearest hthen
    exact ⟨_, _, .ifThen hif hopening hcondition hclosing h⟩
  | .ifElse hif hopening hcondition hclosing hthen _ helse hbranch =>
    obtain ⟨_, thenOpen, h⟩ := Statement.toNearest hthen
    obtain ⟨_, _, h'⟩ := Statement.toNearest hbranch
    -- an open branch takes the `else` itself, and this `if` then has none
    cases thenOpen with
    | false => exact ⟨_, _, .ifElse hif hopening hcondition hclosing h (fun _ => rfl) helse h'⟩
    | true =>
      obtain ⟨_, _, h⟩ := Statement.attach helse h' h rfl
      exact ⟨_, _, .ifThen hif hopening hcondition hclosing h⟩
  | .print hword h hsemicolon => exact ⟨_, _, .print hword h hsemicolon⟩
  | .ret hword h hsemicolon => exact ⟨_, _, .ret hword h hsemicolon⟩
  | .whileLoop hwhile hopening hcondition hclosing hbody =>
    obtain ⟨_, _, h⟩ := Statement.toNearest hbody
    exact ⟨_, _, .whileLoop hwhile hopening hcondition hclosing h⟩
  | .block h =>
    obtain ⟨_, h⟩ := Block.toNearest h
    exact ⟨_, _, .block h⟩

end

/-- What is a program at all is one with each `else` at its nearest open `if`. -/
theorem Program.toNearest {ts : List Token} {ss : List Stmt} (h : Program nearest ts ss) :
    ∃ ss', Program true ts ss' := by
  obtain ⟨h, hlast⟩ := h
  obtain ⟨ss', h⟩ := h.toNearest
  exact ⟨ss', .mk h hlast⟩

end LoxLang.Grammar

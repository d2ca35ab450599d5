import LoxLang.Proofs.Parsing.MirroredStatements
import LoxLang.Proofs.Parsing.ReadsExpressions

/-!
A phrase of an expression is read as its tree, however long its lists of arguments, if what follows does
not continue it; and so is a simple statement, which ends with its semicolon. Operators and calls stand
at the end of a phrase, so what is said of one that may be continued is how reading goes on with the tree
so far. Main statements: `completes_phrase` and `gets_declared`.
-/
namespace LoxLang.Parsing

open Unbounded (Rule)

open Grammar

section

variable {α β : Type}

/-- Wherever the tokens left are `ts`, the step has a result, as `P` says, and stops before `k`. -/
def Gets (r : Read α) (ts k : List Token) (P : α → Prop) : Prop :=
  ∀ ⦃F : Frame⦄ ⦃s : State⦄ ⦃c : Cursor⦄, Tracks F s c → s.rest = ts →
    ∃ a s' c', r c = some (.ok a, c') ∧ Tracks F s' c' ∧ s'.rest = k ∧ P a

namespace Gets

variable {r r' : Read α} {f : α → Read β} {ts us k : List Token} {t : Token} {P : α → Prop}
  {Q : β → Prop} {right : TokenKind → Bool} {sym : Symbol} {cause : SyntaxError.Cause}

theorem bind (hr : Gets r ts us P) (hf : ∀ a, P a → Gets (f a) us k Q) : Gets (r >>= f) ts k Q := by
  intro F s c hs hrest
  obtain ⟨a, s₁, c₁, hfirst, htracks, hrest', ha⟩ := hr hs hrest
  rw [read_bind_of_ok hfirst]
  exact hf a ha htracks hrest'

theorem pure {a : α} (h : P a) : Gets (Pure.pure a) k k P := fun _ s c hs hrest =>
  ⟨a, s, c, rfl, hs, hrest, h⟩

theorem map {g : α → β} (h : Gets r ts k fun a => Q (g a)) : Gets (g <$> r) ts k Q :=
  bind h fun _ ha => pure ha

theorem mono {P' : α → Prop} (h : Gets r ts k P) (le : ∀ a, P a → P' a) : Gets r ts k P' := by
  intro F s c hs hrest
  obtain ⟨a, s', c', hread, htracks, hrest', ha⟩ := h hs hrest
  exact ⟨a, s', c', hread, htracks, hrest', le a ha⟩

theorem current : Gets Unbounded.current (t :: k) (t :: k) (· = t) := fun _ s c hs hrest =>
  ⟨_, s, c, hs.current, hs, hrest, current_of_rest hrest⟩

theorem rest_advance {s : State} (hrest : s.rest = t :: k) : s.advance.rest = k := by
  rw [advance_of_rest hrest]

theorem advance : Gets Unbounded.advance (t :: k) k fun _ => True := fun _ s _ hs hrest =>
  ⟨(), s.advance, _, hs.advance hrest, hs.step hrest, rest_advance hrest, trivial⟩

theorem take (ht : right t.kind = true) : Gets (Unbounded.take? right) (t :: k) k (· = some t) :=
  fun _ s _ hs hrest =>
    ⟨some t, s.advance, _, hs.take_some hrest ht, hs.step hrest, rest_advance hrest, rfl⟩

theorem takeNone (hk : ∀ t ∈ k.head?, right t.kind = false) :
    Gets (Unbounded.take? right) k k (· = none) := fun _ s c hs hrest =>
  ⟨none, s, c, hs.take_none (by rwa [hrest]), hs, hrest, rfl⟩

theorem sees : Gets (Unbounded.sees right) (t :: k) (t :: k) (· = right t.kind) :=
  fun _ s c hs hrest => ⟨_, s, c, hs.sees right, hs, hrest, by rw [hrest]; rfl⟩

theorem freshId : Gets Unbounded.freshId k k fun _ => True := fun _ s c hs hrest =>
  ⟨c.nextId, { s with nextId := s.nextId + 1 }, { c with nextId := c.nextId + 1 }, rfl,
    { hs with nextId := congrArg (· + 1) hs.nextId }, hrest, trivial⟩

theorem errorHere : Gets (Unbounded.errorHere cause) k k fun _ => True := fun _ s c hs hrest =>
  ⟨_, s, c, hs.errorHere cause, hs, hrest, trivial⟩

theorem recordHere : Gets (Unbounded.recordHere cause) k k fun _ => True := by
  intro F s c hs hrest
  rw [Unbounded.recordHere, read_bind_of_ok (hs.errorHere cause)]
  exact ⟨(), _, _, rfl, hs.record _, hrest, trivial⟩

theorem expectSymbol (ht : t.kind = .symbol sym) :
    Gets (Unbounded.expectSymbol sym cause) (t :: k) k (· = t) := by
  refine bind (take (isSymbol_iff.mpr ht)) ?_
  rintro _ rfl
  exact pure rfl

theorem expectIdentifier (ht : t.kind = .identifier) :
    Gets (Unbounded.expect isIdentifier cause) (t :: k) k (· = t) := by
  refine bind (take (by rw [ht]; rfl)) ?_
  rintro _ rfl
  exact pure rfl

theorem takesSymbol (ht : t.kind = .symbol sym) :
    Gets (Unbounded.takesSymbol sym) (t :: k) k (· = true) := by
  refine bind (take (isSymbol_iff.mpr ht)) ?_
  rintro _ rfl
  exact pure rfl

theorem takesNoSymbol (hk : ∀ t ∈ k.head?, t.kind ≠ .symbol sym) :
    Gets (Unbounded.takesSymbol sym) k k (· = false) := by
  refine bind (takeNone fun t ht => ?_) ?_
  · exact Bool.eq_false_iff.mpr fun h => hk t ht (isSymbol_iff.mp h)
  · rintro _ rfl
    exact pure rfl

theorem seesSymbol (ht : t.kind = .symbol sym) :
    Gets (Unbounded.sees (isSymbol sym)) (t :: k) (t :: k) (· = true) :=
  sees.mono fun _ h => h.trans (isSymbol_iff.mpr ht)

theorem seesNoSymbol (ht : t.kind ≠ .symbol sym) :
    Gets (Unbounded.sees (isSymbol sym)) (t :: k) (t :: k) (· = false) :=
  sees.mono fun _ h => h.trans (Bool.eq_false_iff.mpr fun h => ht (isSymbol_iff.mp h))

/-- Whether an error about the length is recorded makes no difference. -/
theorem limited (h : Gets r ts k P) (cause : SyntaxError.Cause) {c : Prop} [Decidable c] :
    Gets (if c then do Unbounded.recordHere cause; r else r) ts k P := by
  split
  · exact bind recordHere fun _ _ => h
  · exact h

end Gets

end

/-- A phrase of a rank is read as its tree, up to ids, where what follows does not continue it. -/
def Completes : Rank → List Token → Expr → Prop
  | .expression, ts, e => ∀ k, StopsExpression k → Gets Rule.expression.read (ts ++ k) k (Same e)
  | .operators ℓ, ts, e => ∀ k r (Q : Expr → Prop), Stops (rank ℓ + 1) k →
      (∀ e', Same e e' → Gets (Rule.operations ℓ e').read k r Q) →
      Gets (Rule.operators ℓ).read (ts ++ k) r Q
  | .unary, ts, e => ∀ k, (∀ t ∈ k.head?, t.kind ≠ .symbol .leftParen) →
      Gets Rule.signed.read (ts ++ k) k (Same e)
  | .call, ts, e => ∀ k r (Q : Expr → Prop),
      (∀ e', Same e e' → Gets (Rule.calls e').read k r Q) → Gets Rule.called.read (ts ++ k) r Q
  | .primary, ts, e => ∀ k, Gets Rule.primary.read (ts ++ k) k (Same e)

def CompletesAll (ts : List Token) (es : List Expr) : Prop :=
  ∀ (closing : Token) (k : List Token) (count : Nat), closing.kind = .symbol .rightParen →
    Gets (Rule.arguments count).read (ts ++ closing :: k) (closing :: k)
      fun es' => es'.map Expr.withoutIds = es.map Expr.withoutIds

section

variable {ts us k : List Token} {e left right callee : Expr} {es : List Expr} {ℓ : Level}
  {operator opening closing t : Token}

theorem withoutIds_build {left' right' : Expr} (hleft : Same left left') (hright : Same right right')
    (ℓ : Level) (t : Token) : Same (ℓ.build left t right) (ℓ.build left' t right') := by
  rw [build_eq_operation, build_eq_operation]
  exact withoutIds_operation hleft hright ℓ t

/-- No operator of the level follows, so the operations end. -/
theorem gets_operations_end (hk : Stops (rank ℓ) k) (h : Same e left) :
    Gets (Rule.operations ℓ left).read k k (Same e) := by
  rw [Rule.read]
  refine .bind (.takeNone fun t ht => ?_) ?_
  · exact Bool.eq_false_iff.mpr fun h => (hk t ht).2 ℓ (Nat.le_refl _) (operatorOf_of_holds h)
  · rintro _ rfl
    exact .pure h

namespace Completes

/-- An operand that no operator of a tighter level follows. -/
theorem gets_operand (h : Completes (operandRank ℓ) ts e) (hk : Stops (rank ℓ + 1) k) :
    Gets (Rule.operand ℓ).read (ts ++ k) k (Same e) := by
  rw [Rule.read]
  rw [operandRank] at h
  cases hℓ : tighter? ℓ with
  | some ℓ' =>
    rw [hℓ] at h
    rw [← rank_of_tighter? hℓ] at hk
    exact h k k _ (hk.mono (Nat.le_succ _)) fun e' he => gets_operations_end hk he
  | none =>
    rw [hℓ] at h
    exact h k fun t ht => (hk t ht).1

theorem operand (h : Completes (operandRank ℓ) ts e) : Completes (.operators ℓ) ts e := by
  intro k r Q hk hcontinue
  rw [Rule.read]
  exact .bind (h.gets_operand hk) hcontinue

/-- A left operand, its operator and a right operand are read as one operation. -/
theorem operation (hleft : Completes (.operators ℓ) ts left) (hoperator : ℓ.holds operator.kind = true)
    (hright : Completes (operandRank ℓ) us right) :
    Completes (.operators ℓ) (ts ++ operator :: us) (ℓ.build left operator right) := by
  intro k r Q hk hcontinue
  rw [List.append_assoc, List.cons_append]
  refine hleft _ r Q (stops_operator (operatorOf_of_holds hoperator)) fun left' hleft' => ?_
  rw [Rule.read]
  refine .bind (.take hoperator) ?_
  rintro _ rfl
  refine .bind (hright.gets_operand hk) fun right' hright' => ?_
  exact hcontinue _ (withoutIds_build hleft' hright' ℓ operator)

theorem operators (h : Completes (.operators .or) ts e) : Completes .expression ts e := by
  intro k hk
  rw [Rule.read]
  refine .bind (h k k _ (hk.1.mono (Nat.zero_le _)) fun e' he => gets_operations_end hk.1 he)
    fun target htarget => .bind .errorHere fun _ _ => .bind (.takesNoSymbol hk.2) ?_
  rintro _ rfl
  exact .pure htarget

theorem sign (hoperator : isSign operator.kind = true) (h : Completes .unary ts e) :
    Completes .unary (operator :: ts) (.unary operator e) := by
  intro k hk
  rw [Rule.read]
  refine .bind (.take hoperator) ?_
  rintro _ rfl
  refine .bind (h k hk) fun e' he => .pure ?_
  rw [Same, Expr.withoutIds_unary, Expr.withoutIds_unary, he]

theorem called (hphrase : Phrase .call ts e) (h : Completes .call ts e) : Completes .unary ts e := by
  intro k hk
  obtain ⟨t, us, rfl, -, hsign⟩ := hphrase.first
  rw [Rule.read]
  refine .bind (.takeNone ?_) ?_
  · rintro _ ⟨⟩
    exact hsign (.inl rfl)
  rintro _ rfl
  refine h k k _ fun e' he => ?_
  rw [Rule.read]
  refine .bind (.takesNoSymbol hk) ?_
  rintro _ rfl
  exact .pure he

theorem primary (h : Completes .primary ts e) : Completes .call ts e := by
  intro k r Q hcontinue
  rw [Rule.read]
  exact .bind (h k) hcontinue

/-- A call without arguments is read behind its callee. -/
theorem emptyCall (hcallee : Completes .call ts callee) (hopening : opening.kind = .symbol .leftParen)
    (hclosing : closing.kind = .symbol .rightParen) :
    Completes .call (ts ++ [opening, closing]) (.call callee closing []) := by
  intro k r Q hcontinue
  rw [List.append_assoc]
  refine hcallee _ r Q fun callee' hcallee' => ?_
  rw [Rule.read]
  refine .bind (.takesSymbol hopening) ?_
  rintro _ rfl
  have harguments : Gets Rule.parenthesizedArguments.read (closing :: k) (closing :: k) (· = []) := by
    rw [Rule.read]
    refine .bind (.seesSymbol hclosing) ?_
    rintro _ rfl
    exact .pure rfl
  refine .bind harguments ?_
  rintro _ rfl
  refine .bind (.expectSymbol hclosing) ?_
  rintro _ rfl
  refine hcontinue _ ?_
  rw [Same, Expr.withoutIds_call, Expr.withoutIds_call, hcallee']

/-- A call with arguments is read behind its callee. -/
theorem call (hcallee : Completes .call ts callee) (hopening : opening.kind = .symbol .leftParen)
    (hphrases : Phrases us es) (harguments : CompletesAll us es)
    (hclosing : closing.kind = .symbol .rightParen) :
    Completes .call (ts ++ opening :: (us ++ [closing])) (.call callee closing es) := by
  intro k r Q hcontinue
  obtain ⟨t, vs, hus, ht⟩ := hphrases.first
  rw [List.append_assoc, List.cons_append, List.append_assoc, List.singleton_append]
  refine hcallee _ r Q fun callee' hcallee' => ?_
  rw [Rule.read]
  refine .bind (.takesSymbol hopening) ?_
  rintro _ rfl
  have hread : Gets Rule.parenthesizedArguments.read (us ++ closing :: k) (closing :: k)
      fun es' => es'.map Expr.withoutIds = es.map Expr.withoutIds := by
    rw [Rule.read]
    have hnot : Gets (Unbounded.sees (isSymbol .rightParen)) (us ++ closing :: k) (us ++ closing :: k)
        (· = false) := by
      rw [hus]
      exact .seesNoSymbol (startsExpression_ne ht .rightParen)
    refine .bind hnot ?_
    rintro _ rfl
    exact harguments closing k 0 hclosing
  refine .bind hread fun es' hes => .bind (.expectSymbol hclosing) ?_
  rintro _ rfl
  refine hcontinue _ ?_
  rw [Same, Expr.withoutIds_call, Expr.withoutIds_call, hcallee', hes]

theorem literal {value : Literal} (h : LiteralOf t.kind value) :
    Completes .primary [t] (.literal value) := by
  intro k
  generalize hkind : t.kind = kind at h
  rw [Rule.read]
  refine .bind .current ?_
  rintro _ rfl
  cases h <;> rw [hkind] <;> exact .bind .advance fun _ _ => .pure rfl

theorem name (id : ReferenceId) (h : t.kind = .identifier) : Completes .primary [t] (.reference id t) := by
  intro k
  rw [Rule.read]
  refine .bind .current ?_
  rintro _ rfl
  rw [h]
  exact .bind .advance fun _ _ => .bind .freshId fun id' _ => .pure rfl

theorem grouping (hopening : opening.kind = .symbol .leftParen) (h : Completes .expression ts e)
    (hclosing : closing.kind = .symbol .rightParen) :
    Completes .primary (opening :: (ts ++ [closing])) (.grouping e) := by
  intro k
  rw [List.cons_append, List.append_assoc, List.singleton_append, Rule.read]
  refine .bind .current ?_
  rintro _ rfl
  rw [hopening]
  refine .bind .advance fun _ _ => .bind (h _ (stopsExpression_symbol hclosing (.inl rfl))) fun e' he =>
    .bind (.expectSymbol hclosing) ?_
  rintro _ rfl
  refine .pure ?_
  rw [Same, Expr.withoutIds_grouping, Expr.withoutIds_grouping, he]

/-- A name is also a phrase of every level. -/
theorem target (id : ReferenceId) (h : t.kind = .identifier) (ℓ : Level) :
    Completes (.operators ℓ) [t] (.reference id t) := by
  have factor : Completes (.operators .factor) [t] (.reference id t) :=
    .operand (.called (.primary (.name id h)) (.primary (.name id h)))
  have term : Completes (.operators .term) [t] (.reference id t) := .operand factor
  have comparison : Completes (.operators .comparison) [t] (.reference id t) := .operand term
  have equality : Completes (.operators .equality) [t] (.reference id t) := .operand comparison
  have and : Completes (.operators .and) [t] (.reference id t) := .operand equality
  have or : Completes (.operators .or) [t] (.reference id t) := .operand and
  cases ℓ <;> assumption

/-- A name, a sign and a value are read as an assignment. -/
theorem assign {sign : Token} (id : ReferenceId) (hname : t.kind = .identifier)
    (hsign : sign.kind = .symbol .equal) (hvalue : Completes .expression ts e) :
    Completes .expression (t :: sign :: ts) (.assign id t e) := by
  intro k hk
  have hstops : Stops 0 (sign :: (ts ++ k)) := stops_equal hsign
  rw [Rule.read]
  -- the target is read as a use of the name first, whose id is dropped when the sign comes
  refine .bind (target id hname .or _ _ _ (hstops.mono (Nat.zero_le _)) fun e' he =>
    gets_operations_end hstops he) fun target htarget => .bind .errorHere fun _ _ =>
    .bind (.takesSymbol hsign) ?_
  rintro _ rfl
  refine .bind (hvalue k hk) fun value hvalue => ?_
  cases target with
  | reference id' name =>
    refine .bind .freshId fun id _ => .pure ?_
    simp only [Same, Expr.withoutIds_reference] at htarget
    simp only [Same, Expr.withoutIds_assign, hvalue]
    cases htarget
    rfl
  | _ => cases htarget

end Completes

theorem CompletesAll.one (h : Completes .expression ts e) : CompletesAll ts [e] := by
  intro closing k count hclosing
  rw [Rule.read]
  refine .limited ?_ _
  refine .bind (h _ (stopsExpression_symbol hclosing (.inl rfl))) fun e' he =>
    .bind (.takesNoSymbol ?_) ?_
  · rintro _ ⟨⟩
    simp [hclosing]
  rintro _ rfl
  refine .pure ?_
  rw [List.map_singleton, List.map_singleton, he]

theorem CompletesAll.cons {comma : Token} (hfirst : Completes .expression ts e)
    (hcomma : comma.kind = .symbol .comma) (hrest : CompletesAll us es) :
    CompletesAll (ts ++ comma :: us) (e :: es) := by
  intro closing k count hclosing
  rw [List.append_assoc, List.cons_append, Rule.read]
  refine .limited ?_ _
  refine .bind (hfirst _ (stopsExpression_symbol hcomma (.inr (.inr rfl)))) fun e' he =>
    .bind (.takesSymbol hcomma) ?_
  rintro _ rfl
  refine .bind (hrest closing k (count + 1) hclosing) fun es' hes => .pure ?_
  rw [List.map_cons, List.map_cons, he, hes]

end

mutual

/-- Every phrase is read as its tree. -/
theorem completes_phrase {rank : Rank} {ts : List Token} {e : Expr}
    (h : Phrase rank ts e) : Completes rank ts e := by
  match h with
  | .assign id hname hsign hvalue => exact .assign id hname hsign (completes_phrase hvalue)
  | .operators h => exact .operators (completes_phrase h)
  | .operand h => exact .operand (completes_phrase h)
  | .operation hleft hoperator hright => exact .operation (completes_phrase hleft) hoperator (completes_phrase hright)
  | .sign hoperator h => exact .sign hoperator (completes_phrase h)
  | .called h => exact .called h (completes_phrase h)
  | .primary h => exact .primary (completes_phrase h)
  | .emptyCall hcallee hopening hclosing => exact .emptyCall (completes_phrase hcallee) hopening hclosing
  | .call hcallee hopening harguments hclosing =>
    exact .call (completes_phrase hcallee) hopening harguments (completes_phrases harguments) hclosing
  | .literal h => exact .literal h
  | .name id h => exact .name id h
  | .grouping hopening h hclosing => exact .grouping hopening (completes_phrase h) hclosing

theorem completes_phrases {ts : List Token} {es : List Expr} (h : Phrases ts es) :
    CompletesAll ts es := by
  match h with
  | .one h => exact .one (completes_phrase h)
  | .cons hfirst hcomma hrest => exact .cons (completes_phrase hfirst) hcomma (completes_phrases hrest)

end

section

variable {ts k : List Token} {e : Expr} {stmt : Stmt} {semicolon word name t : Token} {P : Stmt → Prop}

/-- An expression up to the semicolon behind it. -/
theorem gets_closed (h : Phrase .expression ts e) (hsemicolon : semicolon.kind = .symbol .semicolon) :
    Gets Rule.expression.read (ts ++ semicolon :: k) (semicolon :: k) (Same e) :=
  completes_phrase h _ (stopsExpression_symbol hsemicolon (.inr (.inl rfl)))

theorem gets_some (h : Phrase .expression ts e) (hsemicolon : semicolon.kind = .symbol .semicolon) :
    Gets (some <$> Rule.expression.read) (ts ++ semicolon :: k) (semicolon :: k)
      (SameOption (some e)) := by
  refine .map ((gets_closed h hsemicolon).mono fun e' he => ?_)
  rw [SameOption, Option.map_some, Option.map_some, he]

theorem gets_expressionStatement (h : Phrase .expression ts e)
    (hsemicolon : semicolon.kind = .symbol .semicolon) :
    Gets Rule.expressionStatement.read (ts ++ semicolon :: k) k (SameStmt (.expression e)) := by
  rw [Rule.read]
  refine .bind (gets_closed h hsemicolon) fun e' he => .bind (.expectSymbol hsemicolon) ?_
  rintro _ rfl
  refine .pure ?_
  rw [SameStmt, Stmt.withoutIds_expression, Stmt.withoutIds_expression, he]

theorem gets_printStatement (h : Phrase .expression ts e)
    (hsemicolon : semicolon.kind = .symbol .semicolon) :
    Gets Rule.printStatement.read (ts ++ semicolon :: k) k (SameStmt (.print e)) := by
  rw [Rule.read]
  refine .bind (gets_closed h hsemicolon) fun e' he => .bind (.expectSymbol hsemicolon) ?_
  rintro _ rfl
  refine .pure ?_
  rw [SameStmt, Stmt.withoutIds_print, Stmt.withoutIds_print, he]

theorem gets_returnNothing (hsemicolon : semicolon.kind = .symbol .semicolon) :
    Gets (Rule.returnStatement word).read (semicolon :: k) k (SameStmt (.ret word none)) := by
  rw [Rule.read]
  refine .bind (.seesSymbol hsemicolon) ?_
  rintro _ rfl
  refine .bind (.pure (P := (· = none)) rfl) ?_
  rintro _ rfl
  refine .bind (.expectSymbol hsemicolon) ?_
  rintro _ rfl
  exact .pure rfl

theorem gets_returnValue (word : Token) (h : Phrase .expression ts e)
    (hsemicolon : semicolon.kind = .symbol .semicolon) :
    Gets (Rule.returnStatement word).read (ts ++ semicolon :: k) k (SameStmt (.ret word (some e))) := by
  have hread := gets_some (k := k) h hsemicolon
  obtain ⟨t, us, rfl, ht, -⟩ := h.first
  rw [Rule.read]
  refine .bind (.seesNoSymbol (startsExpression_ne ht .semicolon)) ?_
  rintro _ rfl
  refine .bind hread fun value hvalue => .bind (.expectSymbol hsemicolon) ?_
  rintro _ rfl
  refine .pure ?_
  rw [SameStmt, Stmt.withoutIds_ret, Stmt.withoutIds_ret, hvalue]

theorem gets_letPlain (hname : name.kind = .identifier)
    (hsemicolon : semicolon.kind = .symbol .semicolon) :
    Gets Rule.letDeclaration.read (name :: semicolon :: k) k (SameStmt (.declare name none)) := by
  rw [Rule.read]
  refine .bind (.expectIdentifier hname) ?_
  rintro _ rfl
  refine .bind (.takesNoSymbol ?_) ?_
  · rintro _ ⟨⟩
    simp [hsemicolon]
  rintro _ rfl
  refine .bind (.pure (P := (· = none)) rfl) ?_
  rintro _ rfl
  refine .bind (.expectSymbol hsemicolon) ?_
  rintro _ rfl
  exact .pure rfl

theorem gets_letInitialized {sign : Token} (hname : name.kind = .identifier)
    (hsign : sign.kind = .symbol .equal) (h : Phrase .expression ts e)
    (hsemicolon : semicolon.kind = .symbol .semicolon) :
    Gets Rule.letDeclaration.read (name :: sign :: (ts ++ semicolon :: k)) k
      (SameStmt (.declare name (some e))) := by
  rw [Rule.read]
  refine .bind (.expectIdentifier hname) ?_
  rintro _ rfl
  refine .bind (.takesSymbol hsign) ?_
  rintro _ rfl
  refine .bind (gets_some h hsemicolon) fun initializer hinitializer =>
    .bind (.expectSymbol hsemicolon) ?_
  rintro _ rfl
  refine .pure ?_
  rw [SameStmt, Stmt.withoutIds_declare, Stmt.withoutIds_declare, hinitializer]

theorem gets_declared_of_let (hword : word.kind = .keyword .letKw)
    (h : Gets Rule.letDeclaration.read ts k P) : Gets Rule.declared.read (word :: ts) k P := by
  rw [Rule.read]
  refine .bind .current ?_
  rintro _ rfl
  simp only [hword]
  exact .bind .advance fun _ _ => h

/-- What does not start with the word of a declaration is read as a statement. -/
theorem gets_declared_of_statement (hfun : t.kind ≠ .keyword .funKw) (hlet : t.kind ≠ .keyword .letKw)
    (h : Gets Rule.statement.read (t :: ts) k P) : Gets Rule.declared.read (t :: ts) k P := by
  rw [Rule.read]
  refine .bind .current ?_
  rintro _ rfl
  split
  case h_3 => exact h
  · next hk => exact absurd hk hfun
  · next hk => exact absurd hk hlet

theorem gets_declared_of_print (hword : word.kind = .keyword .printKw)
    (h : Gets Rule.printStatement.read ts k P) : Gets Rule.declared.read (word :: ts) k P := by
  refine gets_declared_of_statement (by simp [hword]) (by simp [hword]) ?_
  rw [Rule.read]
  refine .bind .current ?_
  rintro _ rfl
  simp only [hword]
  exact .bind .advance fun _ _ => h

theorem gets_declared_of_return (hword : word.kind = .keyword .returnKw)
    (h : Gets (Rule.returnStatement word).read ts k P) : Gets Rule.declared.read (word :: ts) k P := by
  refine gets_declared_of_statement (by simp [hword]) (by simp [hword]) ?_
  rw [Rule.read]
  refine .bind .current ?_
  rintro _ rfl
  simp only [hword]
  exact .bind .advance fun _ _ => h

/-- What starts like an expression is read as an expression statement. -/
theorem gets_declared_of_startsExpression (ht : startsExpression t.kind = true)
    (h : Gets Rule.expressionStatement.read (t :: ts) k P) : Gets Rule.declared.read (t :: ts) k P := by
  have hword (w : Keyword) (hw : startsExpression (.keyword w) = false) : t.kind ≠ .keyword w := by
    intro hk
    rw [hk, hw] at ht
    cases ht
  refine gets_declared_of_statement (hword _ rfl) (hword _ rfl) ?_
  rw [Rule.read]
  refine .bind .current ?_
  rintro _ rfl
  split
  case h_7 => exact h
  all_goals
    next hk =>
      rw [hk] at ht
      cases ht

/-- Each simple statement is read as its tree. -/
theorem gets_declared (h : Simple ts stmt) (k : List Token) :
    Gets Rule.declared.read (ts ++ k) k (SameStmt stmt) := by
  cases h with
  | declare hword hname hsemicolon => exact gets_declared_of_let hword (gets_letPlain hname hsemicolon)
  | initialized hword hname hsign h hsemicolon =>
    have hlet := gets_letInitialized (k := k) hname hsign h hsemicolon
    simpa using gets_declared_of_let hword hlet
  | print hword h hsemicolon =>
    have hprint := gets_printStatement (k := k) h hsemicolon
    simpa using gets_declared_of_print hword hprint
  | ret hword hsemicolon => exact gets_declared_of_return hword (gets_returnNothing hsemicolon)
  | @retValue word _ _ _ hword h hsemicolon =>
    have hreturn := gets_returnValue (k := k) word h hsemicolon
    simpa using gets_declared_of_return hword hreturn
  | expression h hsemicolon =>
    have hread := gets_expressionStatement (k := k) h hsemicolon
    obtain ⟨t, us, rfl, ht, -⟩ := h.first
    simpa using gets_declared_of_startsExpression ht hread

end

end LoxLang.Parsing

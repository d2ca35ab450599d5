import LoxLang.Proofs.Grammar.Lemmas
import LoxLang.Proofs.Grammar.Shape
import LoxLang.Proofs.Tree.Sites

/-!
The grammar without the limit on the number of arguments, for the statements in which no other statement
stands. It is written with the operators and calls of a phrase at its end, so that a phrase grows as a
reader goes on: what was read becomes the left operand, or the callee.
-/
namespace LoxLang

namespace Grammar

open Parsing (Level isSign)

inductive Rank
  | expression
  | operators (level : Level)
  | unary
  | call
  | primary

def operandRank (level : Level) : Rank :=
  match tighter? level with
  | some tighter => .operators tighter
  | none => .unary

mutual

inductive Phrase : Rank → List Token → Expr → Prop
  | assign {name sign : Token} {ts : List Token} {value : Expr} (id : ReferenceId)
      (hname : name.kind = .identifier) (hsign : sign.kind = .symbol .equal)
      (hvalue : Phrase .expression ts value) :
      Phrase .expression (name :: sign :: ts) (.assign id name value)
  | operators {ts : List Token} {e : Expr} (h : Phrase (.operators .or) ts e) :
      Phrase .expression ts e
  | operand {ℓ : Level} {ts : List Token} {e : Expr} (h : Phrase (operandRank ℓ) ts e) :
      Phrase (.operators ℓ) ts e
  | operation {ℓ : Level} {operator : Token} {ts us : List Token} {left right : Expr}
      (hleft : Phrase (.operators ℓ) ts left) (hoperator : ℓ.holds operator.kind = true)
      (hright : Phrase (operandRank ℓ) us right) :
      Phrase (.operators ℓ) (ts ++ operator :: us) (ℓ.build left operator right)
  | sign {operator : Token} {ts : List Token} {e : Expr} (hoperator : isSign operator.kind = true)
      (h : Phrase .unary ts e) : Phrase .unary (operator :: ts) (.unary operator e)
  | called {ts : List Token} {e : Expr} (h : Phrase .call ts e) : Phrase .unary ts e
  | primary {ts : List Token} {e : Expr} (h : Phrase .primary ts e) : Phrase .call ts e
  | emptyCall {opening closing : Token} {ts : List Token} {callee : Expr}
      (hcallee : Phrase .call ts callee) (hopening : opening.kind = .symbol .leftParen)
      (hclosing : closing.kind = .symbol .rightParen) :
      Phrase .call (ts ++ [opening, closing]) (.call callee closing [])
  | call {opening closing : Token} {ts us : List Token} {callee : Expr} {es : List Expr}
      (hcallee : Phrase .call ts callee) (hopening : opening.kind = .symbol .leftParen)
      (harguments : Phrases us es) (hclosing : closing.kind = .symbol .rightParen) :
      Phrase .call (ts ++ opening :: (us ++ [closing])) (.call callee closing es)
  | literal {t : Token} {value : Literal} (h : LiteralOf t.kind value) :
      Phrase .primary [t] (.literal value)
  | name {t : Token} (id : ReferenceId) (h : t.kind = .identifier) :
      Phrase .primary [t] (.reference id t)
  | grouping {opening closing : Token} {ts : List Token} {e : Expr}
      (hopening : opening.kind = .symbol .leftParen) (h : Phrase .expression ts e)
      (hclosing : closing.kind = .symbol .rightParen) :
      Phrase .primary (opening :: (ts ++ [closing])) (.grouping e)

inductive Phrases : List Token → List Expr → Prop
  | one {ts : List Token} {e : Expr} (h : Phrase .expression ts e) : Phrases ts [e]
  | cons {comma : Token} {ts us : List Token} {e : Expr} {es : List Expr}
      (hfirst : Phrase .expression ts e) (hcomma : comma.kind = .symbol .comma)
      (hrest : Phrases us es) : Phrases (ts ++ comma :: us) (e :: es)

end

/-- The statements in which no other statement stands. -/
inductive Simple : List Token → Stmt → Prop
  | declare {word name semicolon : Token} (hword : word.kind = .keyword .letKw)
      (hname : name.kind = .identifier) (hsemicolon : semicolon.kind = .symbol .semicolon) :
      Simple [word, name, semicolon] (.declare name none)
  | initialized {word name sign semicolon : Token} {ts : List Token} {e : Expr}
      (hword : word.kind = .keyword .letKw) (hname : name.kind = .identifier)
      (hsign : sign.kind = .symbol .equal) (h : Phrase .expression ts e)
      (hsemicolon : semicolon.kind = .symbol .semicolon) :
      Simple (word :: name :: sign :: (ts ++ [semicolon])) (.declare name (some e))
  | print {word semicolon : Token} {ts : List Token} {e : Expr}
      (hword : word.kind = .keyword .printKw) (h : Phrase .expression ts e)
      (hsemicolon : semicolon.kind = .symbol .semicolon) :
      Simple (word :: (ts ++ [semicolon])) (.print e)
  | ret {word semicolon : Token} (hword : word.kind = .keyword .returnKw)
      (hsemicolon : semicolon.kind = .symbol .semicolon) :
      Simple [word, semicolon] (.ret word none)
  | retValue {word semicolon : Token} {ts : List Token} {e : Expr}
      (hword : word.kind = .keyword .returnKw) (h : Phrase .expression ts e)
      (hsemicolon : semicolon.kind = .symbol .semicolon) :
      Simple (word :: (ts ++ [semicolon])) (.ret word (some e))
  | expression {semicolon : Token} {ts : List Token} {e : Expr} (h : Phrase .expression ts e)
      (hsemicolon : semicolon.kind = .symbol .semicolon) :
      Simple (ts ++ [semicolon]) (.expression e)

theorem startsExpression_of_literalOf {k : TokenKind} {value : Literal} (h : LiteralOf k value) :
    startsExpression k = true ∧ isSign k = false := by
  cases h <;> exact ⟨rfl, rfl⟩

theorem startsExpression_of_isSign {k : TokenKind} (h : isSign k = true) :
    startsExpression k = true := by
  unfold isSign at h
  split at h
  · rfl
  · rfl
  · cases h

/-- A call and what is called start with no sign. -/
theorem Phrase.first {rank : Rank} {ts : List Token} {e : Expr} (h : Phrase rank ts e) :
    ∃ t us, ts = t :: us ∧ startsExpression t.kind = true ∧
      (rank = .call ∨ rank = .primary → isSign t.kind = false) := by
  match h with
  | @Phrase.assign t _ _ _ _ hname _ _ => exact ⟨t, _, rfl, by rw [hname]; rfl, by simp⟩
  | .operators h =>
    obtain ⟨t, us, hts, ht, -⟩ := Phrase.first h
    exact ⟨t, us, hts, ht, by simp⟩
  | .operand h =>
    obtain ⟨t, us, hts, ht, -⟩ := Phrase.first h
    exact ⟨t, us, hts, ht, by simp⟩
  | .operation hleft _ _ =>
    obtain ⟨t, us, rfl, ht, -⟩ := Phrase.first hleft
    exact ⟨t, _, rfl, ht, by simp⟩
  | @Phrase.sign t _ _ hoperator _ =>
    exact ⟨t, _, rfl, startsExpression_of_isSign hoperator, by simp⟩
  | .called h =>
    obtain ⟨t, us, hts, ht, -⟩ := Phrase.first h
    exact ⟨t, us, hts, ht, by simp⟩
  | .primary h =>
    obtain ⟨t, us, hts, ht, hsign⟩ := Phrase.first h
    exact ⟨t, us, hts, ht, fun _ => hsign (.inr rfl)⟩
  | .emptyCall hcallee _ _ =>
    obtain ⟨t, us, rfl, ht, hsign⟩ := Phrase.first hcallee
    exact ⟨t, _, rfl, ht, hsign⟩
  | .call hcallee _ _ _ =>
    obtain ⟨t, us, rfl, ht, hsign⟩ := Phrase.first hcallee
    exact ⟨t, _, rfl, ht, hsign⟩
  | @Phrase.literal t _ h =>
    exact ⟨t, _, rfl, (startsExpression_of_literalOf h).1, fun _ => (startsExpression_of_literalOf h).2⟩
  | @Phrase.name t _ h => exact ⟨t, _, rfl, by rw [h]; rfl, fun _ => by rw [h]; rfl⟩
  | @Phrase.grouping t _ _ _ hopening _ _ =>
    exact ⟨t, _, rfl, by rw [hopening]; rfl, fun _ => by rw [hopening]; rfl⟩

theorem Phrases.first {ts : List Token} {es : List Expr} (h : Phrases ts es) :
    ∃ t us, ts = t :: us ∧ startsExpression t.kind = true := by
  cases h with
  | one h =>
    obtain ⟨t, us, hts, ht, -⟩ := h.first
    exact ⟨t, us, hts, ht⟩
  | cons h =>
    obtain ⟨t, us, rfl, ht, -⟩ := h.first
    exact ⟨t, _, rfl, ht⟩

theorem build_ne_reference (ℓ : Level) (left right : Expr) (t name : Token) (id : ReferenceId) :
    ℓ.build left t right ≠ .reference id name := by
  cases ℓ <;> simp [Level.build]

/-- A phrase that is a name has no other token, unless it is read as an expression at once. -/
theorem Phrase.of_reference {rank : Rank} {ts : List Token} {e : Expr} {id : ReferenceId}
    {name : Token} (h : Phrase rank ts e) (he : e = .reference id name) :
    ts = [name] ∧ name.kind = .identifier := by
  match h with
  | .assign .. => cases he
  | .operators h => exact Phrase.of_reference h he
  | .operand h => exact Phrase.of_reference h he
  | .operation .. => exact absurd he (build_ne_reference _ _ _ _ _ _)
  | .sign .. => cases he
  | .called h => exact Phrase.of_reference h he
  | .primary h => exact Phrase.of_reference h he
  | .emptyCall .. => cases he
  | .call .. => cases he
  | .literal _ => cases he
  | .name _ hname =>
    cases he
    exact ⟨rfl, hname⟩
  | .grouping .. => cases he

theorem reads_build (ℓ : Level) (left right : Expr) (t : Token) :
    (ℓ.build left t right).reads = left.reads ++ right.reads := by
  cases ℓ <;> rfl

mutual

/-- The names that a phrase reads are among its tokens, in their order. -/
theorem Phrase.reads_sublist {rank : Rank} {ts : List Token} {e : Expr} (h : Phrase rank ts e) :
    e.reads.Sublist ts := by
  match h with
  | .assign _ _ _ hvalue => exact ((Phrase.reads_sublist hvalue).cons _).cons _
  | .operators h => exact Phrase.reads_sublist h
  | .operand h => exact Phrase.reads_sublist h
  | .operation hleft _ hright =>
    rw [reads_build]
    exact (Phrase.reads_sublist hleft).append ((Phrase.reads_sublist hright).cons _)
  | .sign _ h => exact (Phrase.reads_sublist h).cons _
  | .called h => exact Phrase.reads_sublist h
  | .primary h => exact Phrase.reads_sublist h
  | .emptyCall hcallee _ _ => exact (Phrase.reads_sublist hcallee).append (List.nil_sublist _)
  | .call hcallee _ harguments _ =>
    refine (Phrase.reads_sublist hcallee).append (.cons _ ?_)
    exact (Phrases.reads_sublist harguments).trans (List.sublist_append_left _ _)
  | .literal _ => exact List.nil_sublist _
  | .name _ _ => exact List.Sublist.refl _
  | .grouping _ h _ => exact ((Phrase.reads_sublist h).trans (List.sublist_append_left _ _)).cons _

theorem Phrases.reads_sublist {ts : List Token} {es : List Expr} (h : Phrases ts es) :
    (Expr.readsAll es).Sublist ts := by
  match h with
  | .one h =>
    rw [Expr.readsAll, Expr.readsAll, List.append_nil]
    exact Phrase.reads_sublist h
  | .cons hfirst _ hrest =>
    exact (Phrase.reads_sublist hfirst).append ((Phrases.reads_sublist hrest).cons _)

end

/-- The tokens at which a simple statement can break a rule are among its own, in their order. -/
theorem Simple.sites_sublist {ts : List Token} {s : Stmt} (h : Simple ts s) :
    s.sites.Sublist ts := by
  cases h with
  | declare => exact .cons _ (.cons_cons _ (List.nil_sublist _))
  | initialized _ _ _ h =>
    exact .cons _ (.cons_cons _ (.cons _ (h.reads_sublist.trans (List.sublist_append_left _ _))))
  | print => exact List.nil_sublist _
  | ret => exact .cons_cons _ (List.nil_sublist _)
  | retValue => exact .cons_cons _ (List.nil_sublist _)
  | expression => exact List.nil_sublist _

theorem Simple.shaped {ts : List Token} {s : Stmt} (h : Simple ts s) : Shaped s := by
  cases h <;> exact trivial

end Grammar

end LoxLang

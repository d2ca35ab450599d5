import LoxLang.Proofs.Parsing.Sound

/-!
Steps of reading that go well: they have a result, leave no error behind and stop before a given list
of tokens. What such a step takes is known beforehand, so a rule is followed token by token.
-/
namespace LoxLang.Parsing

section

variable {α β : Type}

/-- The step goes well, leaves no error behind and stops before `k`, its result being as `P` says. -/
def Reads (p : Parse α) (s : State) (k : List Token) (P : α → Prop) : Prop :=
  ∃ a s', p s = .ok a s' ∧ s'.rest = k ∧ s'.last = s.last ∧ s'.errors = s.errors ∧ P a

namespace Reads

variable {p : Parse α} {f : α → Parse β} {s : State} {k r : List Token} {P : α → Prop}
  {Q : β → Prop}

theorem bind (hp : Reads p s r P)
    (hf : ∀ a s', P a → s'.rest = r → s'.last = s.last → Reads (f a) s' k Q) :
    Reads (p >>= f) s k Q := by
  obtain ⟨a, s₁, h1, hrest, hlast, herrors, ha⟩ := hp
  obtain ⟨b, s₂, h2, hrest', hlast', herrors', hb⟩ := hf a s₁ ha hrest hlast
  refine ⟨b, s₂, ?_, hrest', hlast'.trans hlast, herrors'.trans herrors, hb⟩
  simp only [Bind.bind, EStateM.bind, h1, h2]

theorem mono {P' : α → Prop} (h : Reads p s k P) (le : ∀ a, P a → P' a) : Reads p s k P' := by
  obtain ⟨a, s', h, hrest, hlast, herrors, ha⟩ := h
  exact ⟨a, s', h, hrest, hlast, herrors, le a ha⟩

theorem pure {a : α} (hs : s.rest = k) (h : P a) : Reads (Pure.pure a) s k P :=
  ⟨a, s, rfl, hs, rfl, rfl, h⟩

theorem map {g : α → β} (h : Reads p s k fun a => Q (g a)) : Reads (g <$> p) s k Q :=
  bind h fun _ _ ha hs _ => pure hs ha

theorem current {t : Token} (hs : s.rest = t :: r) : Reads Parsing.current s (t :: r) (· = t) :=
  ⟨_, s, rfl, hs, rfl, rfl, by simp [State.current, hs]⟩

theorem advance {t : Token} (hs : s.rest = t :: r) : Reads Parsing.advance s r fun _ => True :=
  ⟨(), s.advance, rfl, by simp [State.advance, hs], by simp [State.advance, hs],
    by simp [State.advance, hs], trivial⟩

/-- A rule that chooses by the current token, and moves over it. -/
theorem currentAdvance {t : Token} {f : Token → Parse β} {q : Parse β} (hs : s.rest = t :: r)
    (hf : f t = do Parsing.advance; q) (h : ∀ s', s'.rest = r → Reads q s' k Q) :
    Reads (do f (← Parsing.current)) s k Q := by
  refine bind (current hs) ?_
  rintro _ s₁ rfl hs₁ -
  rw [hf]
  exact bind (advance hs₁) fun _ s₂ _ hs₂ _ => h s₂ hs₂

theorem take {t : Token} {right : TokenKind → Bool} (hs : s.rest = t :: r)
    (ht : right t.kind = true) : Reads (Parsing.take? right) s r (· = some t) := by
  refine ⟨some t, s.advance, ?_, by simp [State.advance, hs], by simp [State.advance, hs],
    by simp [State.advance, hs], rfl⟩
  simp [Parsing.take?, hs, ht]

theorem takeNone {right : TokenKind → Bool} (hs : s.rest = k)
    (hk : ∀ t ∈ k.head?, right t.kind = false) : Reads (Parsing.take? right) s k (· = none) := by
  refine ⟨none, s, ?_, hs, rfl, rfl, rfl⟩
  unfold Parsing.take?
  split
  · rfl
  · next t us ht => simp [hk t (by rw [← hs, ht]; rfl)]

theorem expect {t : Token} {right : TokenKind → Bool} {cause : SyntaxError.Cause}
    (hs : s.rest = t :: r) (ht : right t.kind = true) :
    Reads (Parsing.expect right cause) s r (· = t) := by
  refine bind (take hs ht) ?_
  rintro _ s' rfl hs' -
  exact pure hs' rfl

end Reads

theorem isSymbol_iff {sym : Symbol} {k : TokenKind} : isSymbol sym k = true ↔ k = .symbol sym :=
  ⟨kind_of_isSymbol, by rintro rfl; simp [isSymbol]⟩

theorem isKeyword_iff {word : Keyword} {k : TokenKind} : isKeyword word k = true ↔ k = .keyword word :=
  ⟨kind_of_isKeyword, by rintro rfl; simp [isKeyword]⟩

namespace Reads

variable {s : State} {k r : List Token} {t : Token} {sym : Symbol}

theorem expectSymbol {cause : SyntaxError.Cause} (hs : s.rest = t :: r)
    (ht : t.kind = .symbol sym) : Reads (Parsing.expectSymbol sym cause) s r (· = t) :=
  expect hs (isSymbol_iff.mpr ht)

theorem expectIdentifier {cause : SyntaxError.Cause} (hs : s.rest = t :: r)
    (ht : t.kind = .identifier) : Reads (Parsing.expect isIdentifier cause) s r (· = t) :=
  expect hs (by rw [ht]; rfl)

theorem takesSymbol (hs : s.rest = t :: r) (ht : t.kind = .symbol sym) :
    Reads (Parsing.takesSymbol sym) s r (· = true) := by
  refine bind (take hs (isSymbol_iff.mpr ht)) ?_
  rintro _ s' rfl hs' -
  exact pure hs' rfl

theorem takesNoSymbol (hs : s.rest = k) (hk : ∀ t ∈ k.head?, t.kind ≠ .symbol sym) :
    Reads (Parsing.takesSymbol sym) s k (· = false) := by
  refine bind (takeNone hs fun t ht => ?_) ?_
  · exact Bool.eq_false_iff.mpr fun h => hk t ht (isSymbol_iff.mp h)
  · rintro _ s' rfl hs' -
    exact pure hs' rfl

theorem seesSymbol (hs : s.rest = t :: r) (ht : t.kind = .symbol sym) :
    Reads (Parsing.seesSymbol sym) s (t :: r) (· = true) := by
  refine bind (current hs) ?_
  rintro _ s' rfl hs' -
  exact pure hs' (isSymbol_iff.mpr ht)

theorem seesNoSymbol (hs : s.rest = t :: r) (ht : t.kind ≠ .symbol sym) :
    Reads (Parsing.seesSymbol sym) s (t :: r) (· = false) := by
  refine bind (current hs) ?_
  rintro _ s' rfl hs' -
  exact pure hs' (Bool.eq_false_iff.mpr fun h => ht (isSymbol_iff.mp h))

theorem atEnd (hs : s.rest = t :: r) :
    Reads (unstopped Parsing.atEnd) s (t :: r) (· = false) :=
  ⟨_, s, rfl, hs, rfl, rfl, by simp [hs]⟩

theorem freshId (hs : s.rest = k) : Reads Parsing.freshId s k fun _ => True :=
  ⟨s.nextId, { s with nextId := s.nextId + 1 }, rfl, hs, rfl, rfl, trivial⟩

theorem errorHere (cause : SyntaxError.Cause) (hs : s.rest = k) :
    Reads (Parsing.errorHere cause) s k fun _ => True := ⟨_, s, rfl, hs, rfl, rfl, trivial⟩

end Reads

namespace Reads

variable {item : Parse α} {tooMany : SyntaxError.Cause} {s : State} {k r : List Token} {t : Token}
  {n count : Nat} {P : α → Prop} {Q : List α → Prop}

theorem commaOne (hitem : Reads item s (t :: r) P) (ht : t.kind ≠ .symbol .comma)
    (hcount : count < maxArguments) (hQ : ∀ a, P a → Q [a]) :
    Reads (commaSeparated item tooMany n count) s (t :: r) Q := by
  cases n with
  | zero =>
    rw [commaSeparated, if_neg (Nat.not_le.mpr hcount)]
    exact .bind hitem fun a s₁ ha hs₁ _ => .pure hs₁ (hQ a ha)
  | succ n =>
    rw [commaSeparated, if_neg (Nat.not_le.mpr hcount)]
    refine .bind hitem fun a s₁ ha hs₁ _ => .bind (.takesNoSymbol hs₁ ?_) ?_
    · rintro _ ⟨⟩
      exact ht
    · rintro _ s₂ rfl hs₂ -
      exact .pure hs₂ (hQ a ha)

theorem commaCons {P' : List α → Prop} (hitem : Reads item s (t :: r) P)
    (ht : t.kind = .symbol .comma) (hcount : count < maxArguments)
    (hrest : ∀ s', s'.rest = r → Reads (commaSeparated item tooMany n (count + 1)) s' k P')
    (hQ : ∀ a as, P a → P' as → Q (a :: as)) :
    Reads (commaSeparated item tooMany (n + 1) count) s k Q := by
  rw [commaSeparated, if_neg (Nat.not_le.mpr hcount)]
  refine .bind hitem fun a s₁ ha hs₁ _ => .bind (.takesSymbol hs₁ ht) ?_
  rintro _ s₂ rfl hs₂ -
  exact .bind (hrest s₂ hs₂) fun as s₃ has hs₃ _ => .pure hs₃ (hQ a as ha has)

theorem parenthesizedNone (hs : s.rest = t :: r) (ht : t.kind = .symbol .rightParen) :
    Reads (parenthesized item tooMany n) s (t :: r) (· = []) := by
  refine .bind (.seesSymbol hs ht) ?_
  rintro _ s₁ rfl hs₁ -
  exact .pure hs₁ rfl

theorem parenthesizedSome (hs : s.rest = t :: r) (ht : t.kind ≠ .symbol .rightParen)
    (h : ∀ s', s'.rest = t :: r → Reads (commaSeparated item tooMany n 0) s' k Q) :
    Reads (parenthesized item tooMany n) s k Q := by
  refine .bind (.seesNoSymbol hs ht) ?_
  rintro _ s₁ rfl hs₁ -
  exact h s₁ hs₁

end Reads

end

end LoxLang.Parsing

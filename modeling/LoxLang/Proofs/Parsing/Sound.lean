import LoxLang.Parsing.Stmt
import LoxLang.Proofs.Grammar.Lemmas

/-!
What is read without an error is derived by the grammar. A step is sound for a relation between tokens
and results if it either leaves an error behind or takes from the front of the tokens a list that
stands in the relation to its result. Soundness passes through sequencing, so each rule is followed
from what it is made of. Main statement: `declarations_of_parse`.
-/
namespace LoxLang.Parsing

open Grammar

section

variable {α β : Type}

theorem bind_eq_ok {p : Parse α} {f : α → Parse β} {s s₂ : State} {b : β}
    (h : (p >>= f) s = .ok b s₂) : ∃ a s₁, p s = .ok a s₁ ∧ f a s₁ = .ok b s₂ := by
  simp only [Bind.bind, EStateM.bind] at h
  cases hp : p s with
  | ok a s₁ => exact ⟨a, s₁, rfl, by rwa [hp] at h⟩
  | error e s₁ => simp [hp] at h

theorem bind_eq_error {p : Parse α} {f : α → Parse β} {s s₂ : State} {e : SyntaxError}
    (h : (p >>= f) s = .error e s₂) :
    p s = .error e s₂ ∨ ∃ a s₁, p s = .ok a s₁ ∧ f a s₁ = .error e s₂ := by
  simp only [Bind.bind, EStateM.bind] at h
  cases hp : p s with
  | ok a s₁ => exact .inr ⟨a, s₁, rfl, by rwa [hp] at h⟩
  | error e' s₁ =>
    rw [hp] at h
    cases h
    exact .inl rfl

/-- A step that leaves an error behind, or takes tokens that stand in the relation to its result. -/
structure Sound (p : Parse α) (G : List Token → α → Prop) : Prop where
  ok : ∀ {s s' : State} {a : α}, p s = .ok a s' → s.last.kind = .eof →
    s'.last = s.last ∧ (s.errors.size < s'.errors.size ∨
      s'.errors = s.errors ∧ ∃ ts, s.rest = ts ++ s'.rest ∧ G ts a)
  error : ∀ {s s' : State} {e : SyntaxError}, p s = .error e s' → s.last.kind = .eof →
    s'.last = s.last ∧ s.errors.size ≤ s'.errors.size

namespace Sound

variable {p q : Parse α} {f : α → Parse β} {G : List Token → α → Prop}
  {H : List Token → β → Prop}

theorem size_le (h : Sound p G) {s s' : State} {a : α} (hp : p s = .ok a s')
    (hs : s.last.kind = .eof) : s.errors.size ≤ s'.errors.size := by
  rcases (h.ok hp hs).2 with he | ⟨he, -⟩
  · exact Nat.le_of_lt he
  · exact Nat.le_of_eq (congrArg Array.size he.symm)

theorem mono {G' : List Token → α → Prop} (h : Sound p G) (le : ∀ ts a, G ts a → G' ts a) :
    Sound p G' where
  ok hp hs := by
    obtain ⟨hlast, he | ⟨he, ts, hts, hG⟩⟩ := h.ok hp hs
    · exact ⟨hlast, .inl he⟩
    · exact ⟨hlast, .inr ⟨he, ts, hts, le _ _ hG⟩⟩
  error := h.error

/-- The second step is held against what the first one has taken. -/
theorem bind (hp : Sound p G) (hf : ∀ a, Sound (f a) fun us b => ∀ ts, G ts a → H (ts ++ us) b) :
    Sound (p >>= f) H where
  ok := by
    intro s s₂ b h hs
    obtain ⟨a, s₁, h1, h2⟩ := bind_eq_ok h
    obtain ⟨hlast, h1'⟩ := hp.ok h1 hs
    have hs₁ : s₁.last.kind = .eof := by rw [hlast, hs]
    obtain ⟨hlast', h2'⟩ := (hf a).ok h2 hs₁
    refine ⟨hlast'.trans hlast, ?_⟩
    rcases h1' with h1' | ⟨h1', ts, hts, hG⟩
    · exact .inl (Nat.lt_of_lt_of_le h1' ((hf a).size_le h2 hs₁))
    rcases h2' with h2' | ⟨h2', us, hus, hH⟩
    · exact .inl (by rwa [← h1'])
    · exact .inr ⟨h2'.trans h1', ts ++ us, by rw [hts, hus, List.append_assoc], hH ts hG⟩
  error := by
    intro s s₂ e h hs
    rcases bind_eq_error h with h1 | ⟨a, s₁, h1, h2⟩
    · exact hp.error h1 hs
    · have hlast := (hp.ok h1 hs).1
      obtain ⟨hlast', hle⟩ := (hf a).error h2 (by rw [hlast, hs])
      exact ⟨hlast'.trans hlast, Nat.le_trans (hp.size_le h1 hs) hle⟩

theorem pure {a : α} (h : G [] a) : Sound (Pure.pure a) G where
  ok := by
    rintro s s' b ⟨⟩ -
    exact ⟨rfl, .inr ⟨rfl, [], rfl, h⟩⟩
  error := by rintro s s' e ⟨⟩

/-- A step that takes nothing and has one result. -/
theorem value (a : α) : Sound (Pure.pure a) fun ts b => ts = [] ∧ b = a := pure ⟨rfl, rfl⟩

theorem map (hp : Sound p G) (g : α → β) : Sound (g <$> p) fun ts b => ∃ a, b = g a ∧ G ts a := by
  refine bind hp fun a => pure ?_
  intro ts h
  rw [List.append_nil]
  exact ⟨a, rfl, h⟩

theorem throw (e : SyntaxError) : Sound (throw e) G where
  ok := by rintro s s' b ⟨⟩
  error := by
    rintro s s' e ⟨⟩ -
    exact ⟨rfl, Nat.le_refl _⟩

theorem fail (cause : SyntaxError.Cause) : Sound (fail cause) G where
  ok := by rintro s s' b ⟨⟩
  error := by
    rintro s s' e ⟨⟩ -
    exact ⟨rfl, Nat.le_refl _⟩

theorem ite {c : Prop} [Decidable c] (hp : c → Sound p G) (hq : ¬c → Sound q G) :
    Sound (if c then p else q) G := by
  split
  · exact hp ‹_›
  · exact hq ‹_›

/-- A step that takes nothing and leaves no error. -/
theorem look {g : State → α} (h : ∀ s, G [] (g s)) : Sound (fun s => .ok (g s) s) G where
  ok := by
    rintro s s' b ⟨⟩ -
    exact ⟨rfl, .inr ⟨rfl, [], rfl, h s⟩⟩
  error := by rintro s s' e ⟨⟩

/-- A token that is taken is of the right kind. -/
theorem take? (right : TokenKind → Bool) :
    Sound (Parsing.take? right) fun ts o => ts = o.toList ∧ ∀ t ∈ o, right t.kind = true where
  ok := by
    intro s s' o h _
    unfold Parsing.take? at h
    split at h
    · cases h
      exact ⟨rfl, .inr ⟨rfl, [], rfl, rfl, by simp⟩⟩
    · next t rest hs =>
      split at h
      · next ht =>
        cases h
        simp only [State.advance, hs]
        exact ⟨trivial, .inr ⟨trivial, [t], rfl, rfl, by simpa using ht⟩⟩
      · cases h
        exact ⟨rfl, .inr ⟨rfl, [], rfl, rfl, by simp⟩⟩
  error := by
    intro s s' e h
    unfold Parsing.take? at h
    split at h
    · cases h
    · split at h <;> cases h

theorem expect (right : TokenKind → Bool) (cause : SyntaxError.Cause) :
    Sound (Parsing.expect right cause) fun ts t => ts = [t] ∧ right t.kind = true := by
  refine bind (take? right) fun o => ?_
  cases o with
  | none => exact fail cause
  | some t =>
    refine pure ?_
    rintro ts ⟨rfl, ht⟩
    exact ⟨rfl, ht t rfl⟩

end Sound

end

theorem kind_of_isSymbol {k : TokenKind} {sym : Symbol} (h : isSymbol sym k = true) :
    k = .symbol sym := by
  unfold isSymbol at h
  split at h
  · rw [beq_iff_eq.mp h]
  · cases h

theorem kind_of_isKeyword {k : TokenKind} {word : Keyword} (h : isKeyword word k = true) :
    k = .keyword word := by
  unfold isKeyword at h
  split at h
  · rw [beq_iff_eq.mp h]
  · cases h

theorem kind_of_isIdentifier {k : TokenKind} (h : isIdentifier k = true) : k = .identifier := by
  unfold isIdentifier at h
  split at h
  · rfl
  · cases h

namespace Sound

theorem expectSymbol (sym : Symbol) (cause : SyntaxError.Cause) :
    Sound (Parsing.expectSymbol sym cause) fun ts t => ts = [t] ∧ t.kind = .symbol sym :=
  (expect _ cause).mono fun _ _ h => ⟨h.1, kind_of_isSymbol h.2⟩

theorem expectIdentifier (cause : SyntaxError.Cause) :
    Sound (Parsing.expect isIdentifier cause) fun ts t => ts = [t] ∧ t.kind = .identifier :=
  (expect _ cause).mono fun _ _ h => ⟨h.1, kind_of_isIdentifier h.2⟩

theorem seesSymbol (sym : Symbol) : Sound (Parsing.seesSymbol sym) fun ts _ => ts = [] :=
  look fun _ => rfl

theorem takesSymbol (sym : Symbol) :
    Sound (Parsing.takesSymbol sym) fun ts b =>
      (b = false ∧ ts = []) ∨ b = true ∧ ∃ t, ts = [t] ∧ t.kind = .symbol sym := by
  refine bind (take? (isSymbol sym)) fun o => pure ?_
  rintro ts ⟨rfl, h⟩
  cases o with
  | none => exact .inl ⟨rfl, rfl⟩
  | some t => exact .inr ⟨rfl, t, rfl, kind_of_isSymbol (h t rfl)⟩

theorem errorHere (cause : SyntaxError.Cause) : Sound (Parsing.errorHere cause) fun ts _ => ts = [] :=
  look fun _ => rfl

theorem freshId : Sound Parsing.freshId fun ts _ => ts = [] where
  ok := by
    rintro s s' b ⟨⟩ -
    exact ⟨rfl, .inr ⟨rfl, [], rfl, rfl⟩⟩
  error := by rintro s s' e ⟨⟩

/-- A step on the current token may leave it in place, or take it if it is not the end. -/
theorem current {β : Type} {f : Token → Parse β} {H : List Token → β → Prop}
    (h : ∀ t, Sound (f t) H ∨ t.kind ≠ .eof ∧ ∃ q : Parse β,
      f t = (do advance; q) ∧ Sound q fun us b => H (t :: us) b) :
    Sound (do f (← current)) H := by
  have step : ∀ s : State, s.last.kind = .eof → Sound (f s.current) H ∨
      ∃ (q : Parse β) (rest : List Token), s.rest = s.current :: rest ∧
        f s.current s = q { s with rest := rest, position := s.position + 1 } ∧
        Sound q fun us b => H (s.current :: us) b := by
    intro s hs
    rcases h s.current with h | ⟨hk, q, hq, hsound⟩
    · exact .inl h
    · cases hrest : s.rest with
      | nil =>
        refine absurd ?_ hk
        simpa [State.current, hrest] using hs
      | cons t rest =>
        have ht : s.current = t := by simp [State.current, hrest]
        refine .inr ⟨q, rest, by rw [ht], ?_, hsound⟩
        rw [hq]
        simp [Bind.bind, EStateM.bind, advance, State.advance, hrest]
  constructor
  · intro s s' b hp hs
    change f s.current s = .ok b s' at hp
    rcases step s hs with h | ⟨q, rest, hrest, hq, h⟩
    · exact h.ok hp hs
    · rw [hq] at hp
      obtain ⟨hlast, he | ⟨he, ts, hts, hH⟩⟩ := h.ok hp hs
      · exact ⟨hlast, .inl he⟩
      · refine ⟨hlast, .inr ⟨he, s.current :: ts, ?_, hH⟩⟩
        rw [hrest, List.cons_append]
        exact congrArg _ hts
  · intro s s' e hp hs
    change f s.current s = .error e s' at hp
    rcases step s hs with h | ⟨q, rest, -, hq, h⟩
    · exact h.error hp hs
    · rw [hq] at hp
      obtain ⟨hlast, hle⟩ := h.error hp hs
      exact ⟨hlast, hle⟩

/-- A step that records an error has left one behind. -/
theorem recordHere (cause : SyntaxError.Cause) : Sound (Parsing.recordHere cause) fun _ _ => False where
  ok := by
    rintro s s' b ⟨⟩ -
    refine ⟨rfl, .inl ?_⟩
    simp [State.record]
  error := by rintro s s' e ⟨⟩

theorem atEnd : Sound (unstopped Parsing.atEnd) fun ts _ => ts = [] := look fun _ => rfl

/-- A step that goes on after an error has left the error behind. -/
theorem recovering {α : Type} {p : Parse α} {G : List Token → α → Prop}
    {H : List Token → Option α → Prop} (h : Sound p G) (le : ∀ ts a, G ts a → H ts (some a)) :
    Sound (unstopped (Parsing.recovering p)) H where
  ok := by
    intro s s' o hp hs
    simp only [unstopped, Parsing.recovering] at hp
    cases hps : p s with
    | ok a s₁ =>
      simp only [hps] at hp
      cases hp
      obtain ⟨hlast, he | ⟨he, ts, hts, hG⟩⟩ := h.ok hps hs
      -- an error that was reported on the way is kept: nothing is claimed of the tokens
      · exact ⟨hlast, .inl he⟩
      · exact ⟨hlast, .inr ⟨he, ts, hts, le ts a hG⟩⟩
    | error e s₁ =>
      simp only [hps] at hp
      cases hp
      obtain ⟨hlast, hle⟩ := h.error hps hs
      have hresume : (s₁.record e).resume.last = s₁.last ∧
          (s₁.record e).resume.errors = s₁.errors.push e := by
        unfold State.resume
        split <;> exact ⟨rfl, rfl⟩
      rw [hresume.1, hresume.2, Array.size_push]
      exact ⟨hlast, .inl (Nat.lt_succ_of_le hle)⟩
  error := by
    intro s s' e hp
    simp only [unstopped] at hp
    cases hp

end Sound

theorem operatorOf_of_holds {ℓ : Level} {k : TokenKind} (h : ℓ.holds k = true) : OperatorOf ℓ k := by
  unfold Level.holds at h
  split at h <;> first | constructor | cases h

theorem build_eq_operation (ℓ : Level) (left : Expr) (operator : Token) (right : Expr) :
    ℓ.build left operator right = operation ℓ left operator right := by
  cases ℓ <;> rfl

section

variable {operand value : Parse Expr} {ℓ : Level}

/-- Operators that are read behind an operand can be derived, and group to the left. -/
theorem sound_operations (h : Sound operand (Operand ℓ)) (fuel : Nat) (left : Expr) :
    Sound (operations ℓ operand fuel left) fun ts e =>
      ∃ rest, Operations ℓ ts rest ∧ e = grouped ℓ left rest := by
  induction fuel generalizing left with
  | zero => exact .pure ⟨[], .nil, rfl⟩
  | succ fuel ih =>
    rw [operations]
    refine .bind (.take? ℓ.holds) fun o => ?_
    cases o with
    | none =>
      refine .pure ?_
      rintro ts ⟨rfl, -⟩
      exact ⟨[], .nil, rfl⟩
    | some operator =>
      refine .bind h fun right => (ih _).mono ?_
      rintro vs e ⟨rest, hrest, rfl⟩ us hus ts ⟨rfl, hoperator⟩
      refine ⟨(operator, right) :: rest, ?_, by rw [build_eq_operation]; rfl⟩
      have h := Operations.cons (operatorOf_of_holds (hoperator operator rfl)) hus hrest
      exact h

theorem sound_chain (h : Sound operand (Operand ℓ)) (fuel : Nat) :
    Sound (chain ℓ fuel operand) (Operators ℓ) := by
  refine .bind h fun first => (sound_operations h fuel first).mono ?_
  rintro us e ⟨rest, hrest, rfl⟩ ts hts
  exact .mk hts hrest

/-- Signs that are read before an operand can be derived. -/
theorem sound_signed (h : Sound operand Call) (fuel : Nat) : Sound (signed operand fuel) Unary := by
  induction fuel with
  | zero => exact h.mono fun _ _ => .call
  | succ fuel ih =>
    rw [signed]
    refine .bind (.take? isSign) fun o => ?_
    cases o with
    | none =>
      refine h.mono ?_
      rintro us e hus ts ⟨rfl, -⟩
      exact .call hus
    | some operator =>
      refine .bind ih fun right => .pure ?_
      rintro us hus ts ⟨rfl, hoperator⟩
      have hsign : operator.kind = .symbol .bang ∨ operator.kind = .symbol .minus := by
        have := hoperator operator rfl
        unfold isSign at this
        split at this <;> simp_all
      rw [List.append_nil]
      exact .sign hsign hus

end

section

variable {α : Type} {item : Parse α} {G : List Token → α → Prop} {L : List Token → List α → Prop}

/-- What is read beyond the limit leaves an error behind. -/
theorem Sound.limited (h : Sound item G) (tooMany : SyntaxError.Cause) (count : Nat) :
    Sound (if maxArguments ≤ count then do Parsing.recordHere tooMany; item else item) fun ts a =>
      G ts a ∧ count < most := by
  refine .ite (fun _ => ?_) fun hlt => h.mono fun ts a ha => ⟨ha, Nat.lt_of_not_le hlt⟩
  exact .bind (.recordHere tooMany) fun _ => h.mono fun _ _ _ _ => False.elim

/-- One or more items with commas between them, at most 255 with those read before. -/
theorem sound_commaSeparated (hitem : Sound item G) (tooMany : SyntaxError.Cause)
    (one : ∀ {ts a}, G ts a → L ts [a])
    (cons : ∀ {ts us comma a as}, G ts a → comma.kind = .symbol .comma → L us as →
      L (ts ++ comma :: us) (a :: as)) (fuel count : Nat) :
    Sound (commaSeparated item tooMany fuel count) fun ts as => L ts as ∧ count + as.length ≤ most := by
  induction fuel generalizing count with
  | zero =>
    have hone : Sound (do return [← item]) fun ts as => L ts as ∧ as.length = 1 := by
      refine .bind hitem fun a => .pure fun ts ha => ?_
      rw [List.append_nil]
      exact ⟨one ha, rfl⟩
    refine (hone.limited tooMany count).mono ?_
    rintro ts as ⟨⟨has, hlen⟩, hlt⟩
    exact ⟨has, by omega⟩
  | succ fuel ih =>
    have hsome : Sound (do
        let first ← item
        if ← takesSymbol .comma then
          return first :: (← commaSeparated item tooMany fuel (count + 1))
        else
          return [first]) fun ts as =>
        L ts as ∧ (as.length = 1 ∨ count + as.length ≤ most) := by
      refine .bind hitem fun first => .bind (.takesSymbol .comma) fun more => .ite ?_ ?_
      · rintro rfl
        refine .bind (ih (count + 1)) fun rest => .pure ?_
        rintro vs ⟨hrest, hlen⟩ us (⟨h, -⟩ | ⟨-, comma, rfl, hcomma⟩) ts hts
        · cases h
        · refine ⟨?_, .inr (by rw [List.length_cons]; omega)⟩
          have h := cons hts hcomma hrest
          simpa using h
      · intro hmore
        refine .pure ?_
        rintro us (⟨-, rfl⟩ | ⟨h, -⟩) ts hts
        · rw [List.append_nil, List.append_nil]
          exact ⟨one hts, .inl rfl⟩
        · exact absurd h hmore
    refine (hsome.limited tooMany count).mono ?_
    rintro ts as ⟨⟨has, hlen⟩, hlt⟩
    exact ⟨has, by omega⟩

/-- Nothing, or items with commas between them. -/
theorem sound_parenthesized (hitem : Sound item G) (tooMany : SyntaxError.Cause)
    (one : ∀ {ts a}, G ts a → L ts [a])
    (cons : ∀ {ts us comma a as}, G ts a → comma.kind = .symbol .comma → L us as →
      L (ts ++ comma :: us) (a :: as)) (fuel : Nat) :
    Sound (parenthesized item tooMany fuel) fun ts as =>
      ts = [] ∧ as = [] ∨ L ts as ∧ as.length ≤ most := by
  refine .bind (.seesSymbol .rightParen) fun closes => .ite (fun _ => .pure ?_) fun _ =>
    (sound_commaSeparated hitem tooMany one cons fuel 0).mono ?_
  · rintro ts rfl
    exact .inl ⟨rfl, rfl⟩
  · rintro us as ⟨has, hlen⟩ ts rfl
    exact .inr ⟨has, by omega⟩

end

section

variable {value : Parse Expr}

/-- Argument lists that are read behind a callee can be derived, and group to the left. -/
theorem sound_calls (h : Sound value Expression) (fuel : Nat) (callee : Expr) :
    Sound (calls value fuel callee) fun ts e => ∃ cs, Calls ts cs ∧ e = applied callee cs := by
  induction fuel generalizing callee with
  | zero => exact .pure ⟨[], .nil, rfl⟩
  | succ fuel ih =>
    rw [calls]
    refine .bind (.takesSymbol .leftParen) fun opens => .ite ?_ ?_
    · rintro rfl
      refine .bind (sound_parenthesized h _ Arguments.one Arguments.cons fuel) fun arguments =>
        .bind (.expectSymbol .rightParen _) fun paren => (ih _).mono ?_
      rintro ws e ⟨cs, hcs, rfl⟩ vs ⟨rfl, hclosing⟩ us harguments ts
        (⟨h, -⟩ | ⟨-, opening, rfl, hopening⟩)
      · cases h
      refine ⟨(paren, arguments) :: cs, ?_, rfl⟩
      rcases harguments with ⟨rfl, rfl⟩ | ⟨harguments, hmost⟩
      · exact .empty hopening hclosing hcs
      · exact .cons hopening harguments hmost hclosing hcs
    · intro hopens
      refine .pure ?_
      rintro ts (⟨-, rfl⟩ | ⟨h, -⟩)
      · exact ⟨[], .nil, rfl⟩
      · exact absurd h hopens

/-- What is read at the front of an operand can be derived. -/
theorem sound_primary (h : Sound value Expression) : Sound (primary value) Primary := by
  refine .current fun t => ?_
  have literal {v : Literal} (hv : LiteralOf t.kind v) :
      Sound (do advance; return Expr.literal v) Primary ∨ t.kind ≠ .eof ∧ ∃ q : Parse Expr,
        (do advance; return Expr.literal v) = (do advance; q) ∧
        Sound q fun us b => Primary (t :: us) b := by
    refine .inr ⟨fun heof => ?_, _, rfl, .pure (.literal hv)⟩
    rw [heof] at hv
    cases hv
  split
  · next hk => exact literal (by rw [hk]; exact .false)
  · next hk => exact literal (by rw [hk]; exact .true)
  · next hk => exact literal (by rw [hk]; exact .nil)
  · next x hk => exact literal (by rw [hk]; exact .number x)
  · next content hk => exact literal (by rw [hk]; exact .string content)
  · next hk =>
    refine .inr ⟨by simp [hk], _, rfl, .bind .freshId fun id => .pure ?_⟩
    rintro us rfl
    exact .name id hk
  · next hk =>
    refine .inr ⟨by simp [hk], _, rfl, .bind h fun inner =>
      .bind (.expectSymbol .rightParen _) fun closing => .pure ?_⟩
    rintro vs ⟨rfl, hclosing⟩ us hinner
    exact .grouping hk hinner hclosing
  · exact .inl (.fail _)

theorem sound_called (h : Sound value Expression) (fuel : Nat) :
    Sound (called value fuel) Call := by
  refine .bind (sound_primary h) fun callee => (sound_calls h fuel callee).mono ?_
  rintro us e ⟨cs, hcs, rfl⟩ ts hts
  exact .mk hts hcs

theorem sound_operators (h : Sound value Expression) (fuel : Nat) :
    Sound (operators value fuel) (Operators .or) := by
  have unary := sound_signed (sound_called h fuel) fuel
  have factor : Sound _ (Operators .factor) := sound_chain (unary.mono fun _ _ => .unary rfl) fuel
  have term : Sound _ (Operators .term) := sound_chain (factor.mono fun _ _ => .level rfl) fuel
  have comparison : Sound _ (Operators .comparison) :=
    sound_chain (term.mono fun _ _ => .level rfl) fuel
  have equality : Sound _ (Operators .equality) :=
    sound_chain (comparison.mono fun _ _ => .level rfl) fuel
  have and : Sound _ (Operators .and) := sound_chain (equality.mono fun _ _ => .level rfl) fuel
  exact sound_chain (and.mono fun _ _ => .level rfl) fuel

/-- An assignment sign after what is read as operators makes it a target, if it is a name. -/
theorem sound_assignment {target : Parse Expr} (hvalue : Sound value Expression)
    (htarget : Sound target (Operators .or)) : Sound (assignment value target) Expression := by
  refine .bind htarget fun target => .bind (.errorHere _) fun invalid =>
    .bind (.takesSymbol .equal) fun assigns => .ite ?_ ?_
  · rintro rfl
    refine .bind hvalue fun value => ?_
    split
    · next id name =>
      refine .bind .freshId fun id' => .pure ?_
      rintro zs rfl ws hws vs (⟨h, -⟩ | ⟨-, sign, rfl, hsign⟩) us rfl ts hts
      · cases h
      obtain ⟨rfl, hname⟩ := hts.of_reference rfl
      have h := Expression.assign id' hname hsign hws
      simpa using h
    · exact .throw _
  · intro hassigns
    refine .pure ?_
    rintro vs (⟨-, rfl⟩ | ⟨h, -⟩) us rfl ts hts
    · simpa using Expression.operators hts
    · exact absurd h hassigns

theorem sound_expression (fuel : Nat) : Sound (expression fuel) Expression := by
  induction fuel with
  | zero => exact .fail _
  | succ fuel ih => exact sound_assignment ih (sound_operators ih fuel)

end

section

variable (fuel : Nat) {inner : Parse Stmt} {item : Recover (Option Stmt)}

theorem sound_expressionStatement : Sound (expressionStatement fuel) ExpressionStatement := by
  refine .bind (sound_expression fuel) fun e => .bind (.expectSymbol .semicolon _) fun _ => .pure ?_
  rintro us ⟨rfl, hsemicolon⟩ ts hts
  exact .mk hts hsemicolon

/-- A variable that is read behind its keyword can be derived. -/
theorem sound_letDeclaration : Sound (letDeclaration fuel) fun ts s =>
    ∀ word : Token, word.kind = .keyword .letKw → LetDeclaration (word :: ts) s := by
  refine .bind (.expectIdentifier _) fun name => .bind (.takesSymbol .equal) fun assigns =>
    .ite ?_ ?_
  · rintro rfl
    refine .bind ((sound_expression fuel).map some) fun initializer =>
      .bind (.expectSymbol .semicolon _) fun _ => .pure ?_
    rintro ws ⟨rfl, hsemicolon⟩ vs ⟨e, rfl, he⟩ us (⟨h, -⟩ | ⟨-, sign, rfl, hsign⟩) ts ⟨rfl, hname⟩ word hword
    · cases h
    · exact .initialized hword hname hsign he hsemicolon
  · intro hassigns
    refine .bind (.value none) fun initializer =>
      .bind (.expectSymbol .semicolon _) fun _ => .pure ?_
    rintro ws ⟨rfl, hsemicolon⟩ vs ⟨rfl, rfl⟩ us (⟨-, rfl⟩ | ⟨h, -⟩) ts ⟨rfl, hname⟩ word hword
    · exact .plain hword hname hsemicolon
    · exact absurd h hassigns

theorem sound_printStatement : Sound (printStatement fuel) fun ts s =>
    ∀ word : Token, word.kind = .keyword .printKw → Statement false (word :: ts) s false := by
  refine .bind (sound_expression fuel) fun e => .bind (.expectSymbol .semicolon _) fun _ => .pure ?_
  rintro us ⟨rfl, hsemicolon⟩ ts hts word hword
  exact .print hword hts hsemicolon

theorem sound_returnStatement (word : Token) : Sound (returnStatement fuel word) fun ts s =>
    word.kind = .keyword .returnKw → Statement false (word :: ts) s false := by
  refine .bind (.seesSymbol .semicolon) fun ends => .ite ?_ ?_
  · rintro rfl
    refine .bind (.value none) fun value => .bind (.expectSymbol .semicolon _) fun _ => .pure ?_
    rintro vs ⟨rfl, hsemicolon⟩ us ⟨rfl, rfl⟩ ts rfl hword
    exact .ret hword .none hsemicolon
  · intro hends
    refine .bind ((sound_expression fuel).map some) fun value =>
      .bind (.expectSymbol .semicolon _) fun _ => .pure ?_
    rintro vs ⟨rfl, hsemicolon⟩ us ⟨e, rfl, he⟩ ts rfl hword
    exact .ret hword (.some he) hsemicolon

/-- The first clause of a `for` that is read can be derived in one of its three forms. -/
theorem sound_forInitializer : Sound (forInitializer fuel) ForInitializer := by
  refine .bind (.takesSymbol .semicolon) fun absent => .ite ?_ ?_
  · rintro rfl
    refine .pure ?_
    rintro ts (⟨h, -⟩ | ⟨-, semicolon, rfl, hsemicolon⟩)
    · cases h
    · exact .none hsemicolon
  · intro habsent
    refine .bind (.take? (isKeyword .letKw)) fun word => ?_
    cases word with
    | some word =>
      refine ((sound_letDeclaration fuel).map some).mono ?_
      rintro vs _ ⟨s, rfl, hs⟩ us ⟨rfl, hword⟩ ts (⟨-, rfl⟩ | ⟨h, -⟩)
      · exact .declaration (hs word (kind_of_isKeyword (hword word rfl)))
      · exact absurd h habsent
    | none =>
      refine ((sound_expressionStatement fuel).map some).mono ?_
      rintro vs _ ⟨s, rfl, hs⟩ us ⟨rfl, -⟩ ts (⟨-, rfl⟩ | ⟨h, -⟩)
      · exact .expression hs
      · exact absurd h habsent

theorem sound_forClause (closing : Symbol) (cause : SyntaxError.Cause) :
    Sound (forClause fuel closing cause) fun ts clause => ∃ us t,
      ts = us ++ [t] ∧ t.kind = .symbol closing ∧ OptionalExpression us clause := by
  refine .bind (.seesSymbol closing) fun absent => .ite ?_ ?_
  · rintro rfl
    refine .bind (.value none) fun clause => .bind (.expectSymbol closing _) fun t => .pure ?_
    rintro vs ⟨rfl, ht⟩ us ⟨rfl, rfl⟩ ts rfl
    exact ⟨[], t, rfl, ht, .none⟩
  · intro habsent
    refine .bind ((sound_expression fuel).map some) fun clause =>
      .bind (.expectSymbol closing _) fun t => .pure ?_
    rintro vs ⟨rfl, ht⟩ us ⟨e, rfl, he⟩ ts rfl
    exact ⟨us, t, rfl, ht, .some he⟩

theorem forLoop_eq_whileForm (initializer : Option Stmt) (condition increment : Option Expr)
    (body : Stmt) :
    forLoop initializer condition increment body = whileForm initializer condition increment body := by
  cases initializer <;> cases increment <;> rfl

def ReadsStatement (p : Parse Stmt) : Prop :=
  Sound p fun ts s => ∃ isOpen, Statement false ts s isOpen

/-- A `for` that is read can be derived as the loop that it stands for. -/
theorem sound_forStatement (h : ReadsStatement inner) :
    Sound (forStatement fuel inner) fun ts s => ∀ word : Token, word.kind = .keyword .forKw →
      ∃ isOpen, Statement false (word :: ts) s isOpen := by
  refine .bind (.expectSymbol .leftParen _) fun opening => .bind (sound_forInitializer fuel)
    fun initializer => .bind (sound_forClause fuel .semicolon _) fun condition =>
    .bind (sound_forClause fuel .rightParen _) fun increment => .bind h fun body => .pure ?_
  rintro ys ⟨isOpen, hbody⟩ ws ⟨_, closing, rfl, hclosing, hincrement⟩
    vs ⟨_, semicolon, rfl, hsemicolon, hcondition⟩ us hinitializer ts ⟨rfl, hopening⟩ word hword
  rw [forLoop_eq_whileForm]
  have h := Statement.forLoop hword hopening hinitializer hcondition hsemicolon hincrement hclosing
    hbody
  exact ⟨isOpen, by simpa using h⟩

/-- An `if` that is read can be derived, with or without an `else`. -/
theorem sound_ifStatement (h : ReadsStatement inner) :
    Sound (ifStatement fuel inner) fun ts s => ∀ word : Token, word.kind = .keyword .ifKw →
      ∃ isOpen, Statement false (word :: ts) s isOpen := by
  refine .bind (.expectSymbol .leftParen _) fun opening => .bind (sound_expression fuel)
    fun condition => .bind (.expectSymbol .rightParen _) fun closing => .bind h fun thenBranch =>
    .bind (.take? (isKeyword .elseKw)) fun elseWord => ?_
  cases elseWord with
  | some elseWord =>
    refine .bind h fun elseBranch => .pure ?_
    rintro ys ⟨isOpen, helse⟩ xs ⟨rfl, hword'⟩ ws ⟨_, hthen⟩ vs ⟨rfl, hclosing⟩ us hcondition
      ts ⟨rfl, hopening⟩ word hword
    have h := Statement.ifElse hword hopening hcondition hclosing hthen (fun h => nomatch h)
      (kind_of_isKeyword (hword' elseWord rfl)) helse
    exact ⟨isOpen, by simpa using h⟩
  | none =>
    refine .pure ?_
    rintro xs ⟨rfl, -⟩ ws ⟨_, hthen⟩ vs ⟨rfl, hclosing⟩ us hcondition ts ⟨rfl, hopening⟩ word hword
    have h := Statement.ifThen hword hopening hcondition hclosing hthen
    exact ⟨true, by simpa using h⟩

theorem sound_whileStatement (h : ReadsStatement inner) :
    Sound (whileStatement fuel inner) fun ts s => ∀ word : Token, word.kind = .keyword .whileKw →
      ∃ isOpen, Statement false (word :: ts) s isOpen := by
  refine .bind (.expectSymbol .leftParen _) fun opening => .bind (sound_expression fuel)
    fun condition => .bind (.expectSymbol .rightParen _) fun closing => .bind h fun body => .pure ?_
  rintro ws ⟨isOpen, hbody⟩ vs ⟨rfl, hclosing⟩ us hcondition ts ⟨rfl, hopening⟩ word hword
  have h := Statement.whileLoop hword hopening hcondition hclosing hbody
  exact ⟨isOpen, by simpa using h⟩

def ReadsDeclaration (p : Recover (Option Stmt)) : Prop :=
  Sound (unstopped p) fun ts o => ∃ s isOpen, o = some s ∧ Declaration false ts s isOpen

/-- What follows the opening brace of a block. -/
theorem sound_block (h : ReadsDeclaration item) :
    Sound (block item fuel) fun ts body => ∃ us closing,
      ts = us ++ [closing] ∧ closing.kind = .symbol .rightBrace ∧ Declarations false us body := by
  have closes : Sound (do
      let _ ← expectSymbol .rightBrace .braceAfterBlock
      return []) fun ts (body : List Stmt) => ∃ us closing,
      ts = us ++ [closing] ∧ closing.kind = .symbol .rightBrace ∧ Declarations false us body := by
    refine .bind (.expectSymbol .rightBrace _) fun closing => .pure ?_
    rintro ts ⟨rfl, hclosing⟩
    exact ⟨[], closing, rfl, hclosing, .nil⟩
  induction fuel with
  | zero => exact closes
  | succ fuel ih =>
    rw [block]
    refine .bind (.seesSymbol .rightBrace) fun _ => .bind .atEnd fun _ => .ite (fun _ => ?_)
      fun _ => .bind h fun first => .bind ih fun rest => .pure ?_
    · refine closes.mono ?_
      rintro vs body h us rfl ts rfl
      exact h
    · rintro xs ⟨ws, closing, rfl, hclosing, hrest⟩ vs ⟨s, isOpen, rfl, hfirst⟩ us rfl ts rfl
      exact ⟨vs ++ ws, closing, by simp, hclosing, .cons hfirst hrest⟩

/-- A function that is read without errors can be derived. -/
theorem sound_function (h : ReadsDeclaration item) :
    Sound (function fuel item) fun ts s => ∀ word : Token, word.kind = .keyword .funKw →
      Declaration false (word :: ts) s false := by
  have one {ts : List Token} {name : Token} (h : ts = [name] ∧ name.kind = .identifier) :
      Parameters ts [name] := by
    obtain ⟨rfl, hname⟩ := h
    exact .one hname
  have cons {ts us : List Token} {comma name : Token} {names : List Token}
      (h : ts = [name] ∧ name.kind = .identifier) (hcomma : comma.kind = .symbol .comma)
      (hrest : Parameters us names) : Parameters (ts ++ comma :: us) (name :: names) := by
    obtain ⟨rfl, hname⟩ := h
    exact .cons hname hcomma hrest
  refine .bind (.expectIdentifier _) fun name => .bind (.expectSymbol .leftParen _) fun opening =>
    .bind (sound_parenthesized (.expectIdentifier _) _ one cons fuel)
    fun params => .bind (.expectSymbol .rightParen _) fun closing =>
    .bind (.expectSymbol .leftBrace _) fun brace => .bind (sound_block fuel h) fun body => .pure ?_
  -- the parts come in the reverse of the order in which they are read
  rintro zs ⟨ys, closingBrace, rfl, hclosingBrace, hbody⟩ xs ⟨rfl, hbrace⟩ ws ⟨rfl, hclosing⟩
    vs hparams us ⟨rfl, hopening⟩ ts ⟨rfl, hname⟩ word hword
  have hparams : OptionalParameters vs params := by
    rcases hparams with ⟨rfl, rfl⟩ | ⟨hparams, hmost⟩
    · exact .none
    · exact .some hparams hmost
  have h := Declaration.function hword hname hopening hparams hclosing
    (.mk hbrace hbody hclosingBrace)
  simpa using h

end

/-- Statements and declarations that are read without errors can be derived, by induction on the fuel. -/
theorem sound_statement_declaration (fuel : Nat) :
    ReadsStatement (statement fuel) ∧ ReadsDeclaration (declaration fuel) := by
  induction fuel with
  | zero => exact ⟨.fail _, Sound.recovering (.fail _) fun _ _ => False.elim⟩
  | succ fuel ih =>
    obtain ⟨hstatement, hdeclaration⟩ := ih
    constructor
    · refine .current fun t => ?_
      split
      · next hk => exact .inr ⟨by simp [hk], _, rfl, (sound_forStatement fuel hstatement).mono
          fun _ _ h => h t hk⟩
      · next hk => exact .inr ⟨by simp [hk], _, rfl, (sound_ifStatement fuel hstatement).mono
          fun _ _ h => h t hk⟩
      · next hk => exact .inr ⟨by simp [hk], _, rfl, (sound_whileStatement fuel hstatement).mono
          fun _ _ h => h t hk⟩
      · next hk => exact .inr ⟨by simp [hk], _, rfl, (sound_returnStatement fuel t).mono
          fun _ _ h => ⟨false, h hk⟩⟩
      · next hk =>
        refine .inr ⟨by simp [hk], _, rfl, .bind (sound_block fuel hdeclaration) fun body =>
          .pure ?_⟩
        rintro ts ⟨us, closing, rfl, hclosing, hbody⟩
        have h := Statement.block (.mk hk hbody hclosing)
        exact ⟨false, by simpa using h⟩
      · next hk => exact .inr ⟨by simp [hk], _, rfl, (sound_printStatement fuel).mono
          fun _ _ h => ⟨false, h t hk⟩⟩
      · exact .inl ((sound_expressionStatement fuel).mono fun _ _ h => ⟨false, .expression h⟩)
    · refine .recovering (G := fun ts s => ∃ isOpen, Declaration false ts s isOpen)
        (.current fun t => ?_) fun _ s ⟨isOpen, h⟩ => ⟨s, isOpen, rfl, h⟩
      split
      · next hk => exact .inr ⟨by simp [hk], _, rfl, (sound_function fuel hdeclaration).mono
          fun _ _ h => ⟨false, h t hk⟩⟩
      · next hk => exact .inr ⟨by simp [hk], _, rfl, (sound_letDeclaration fuel).mono
          fun _ _ h => ⟨false, .letDeclaration (h t hk)⟩⟩
      · exact .inl (hstatement.mono fun _ _ ⟨isOpen, h⟩ => ⟨isOpen, .statement h⟩)

section

variable {item : Recover (Option Stmt)} {fuel : Nat} {s : State}

theorem program_of_rest_eq_nil (h : s.rest = []) : program item (fuel + 1) s = ([], s) := by
  simp only [program, Bind.bind, StateT.bind, atEnd, h, List.isEmpty_nil, if_true]
  rfl

theorem program_of_rest_ne_nil (h : s.rest ≠ []) :
    program item (fuel + 1) s =
      ((item s).1.toList ++ (program item fuel (item s).2).1, (program item fuel (item s).2).2) := by
  have hfalse : s.rest.isEmpty = false := List.isEmpty_eq_false_iff.mpr h
  simp only [program, Bind.bind, StateT.bind, atEnd, hfalse, Bool.false_eq_true, if_false]
  rfl

/-- Reading on takes no error back. -/
theorem size_le_program (h : ReadsDeclaration item) (hlast : s.last.kind = .eof) :
    s.errors.size ≤ (program item fuel s).2.errors.size := by
  induction fuel generalizing s with
  | zero => exact Nat.le_refl _
  | succ fuel ih =>
    by_cases hrest : s.rest = []
    · exact Nat.le_of_eq (by rw [program_of_rest_eq_nil hrest])
    · rw [program_of_rest_ne_nil hrest]
      have hok : unstopped item s = .ok (item s).1 (item s).2 := rfl
      exact Nat.le_trans (h.size_le hok hlast) (ih (by rw [(h.ok hok hlast).1, hlast]))

end

/-- With fuel for every token left, a program that leaves no error behind is read to its end. -/
theorem sound_program {item : Recover (Option Stmt)} (h : ReadsDeclaration item) {fuel : Nat}
    {s : State} (hlast : s.last.kind = .eof) (hfuel : s.rest.length ≤ fuel) :
    s.errors.size < (program item fuel s).2.errors.size ∨
      Declarations false s.rest (program item fuel s).1 := by
  induction fuel generalizing s with
  | zero =>
    have hrest : s.rest = [] := List.length_eq_zero_iff.mp (Nat.le_zero.mp hfuel)
    rw [hrest]
    exact .inr .nil
  | succ fuel ih =>
    by_cases hrest : s.rest = []
    · rw [program_of_rest_eq_nil hrest, hrest]
      exact .inr .nil
    rw [program_of_rest_ne_nil hrest]
    have hok : unstopped item s = .ok (item s).1 (item s).2 := rfl
    obtain ⟨hlast', hfirst⟩ := h.ok hok hlast
    have hlast₁ : (item s).2.last.kind = .eof := by rw [hlast', hlast]
    rcases hfirst with hfirst | ⟨hsame, ts, hts, stmt, isOpen, hstmt, hfirst⟩
    · exact .inl (Nat.lt_of_lt_of_le hfirst (size_le_program h hlast₁))
    have hlen : (item s).2.rest.length ≤ fuel := by
      obtain ⟨t, us, rfl, -⟩ := hfirst.first
      rw [hts] at hfuel
      simp only [List.length_append, List.length_cons] at hfuel
      omega
    rcases ih hlast₁ hlen with hgrew | hrest'
    · exact .inl (by rwa [hsame] at hgrew)
    · rw [hts, hstmt]
      exact .inr (.cons hfirst hrest')

def body (tokens : List Token) : List Token := tokens.takeWhile (!·.kind.isEof)

theorem kind_last_start (nextId : ReferenceId) (tokens : List Token) :
    (State.start nextId tokens).last.kind = .eof := by
  simp only [State.start]
  split
  · next t us h =>
    have ht : (!t.kind.isEof) = false := by
      have := List.head?_dropWhile_not (fun t : Token => !t.kind.isEof) tokens
      rw [h] at this
      simpa using this
    unfold TokenKind.isEof at ht
    split at ht
    · assumption
    · cases ht
  · rfl

def readAll (nextId : ReferenceId) (tokens : List Token) : List Stmt × State :=
  let fuel := 2 * (State.start nextId tokens).rest.length + 2
  program (declaration fuel) fuel (State.start nextId tokens)

theorem parse_eq_readAll (nextId : ReferenceId) (tokens : List Token) :
    parse nextId tokens = ⟨(readAll nextId tokens).1, (readAll nextId tokens).2.errors.toList,
      (readAll nextId tokens).2.nextId⟩ := rfl

/-- A program read without an error is derived by the grammar. -/
theorem declarations_of_parse {nextId : ReferenceId} {tokens : List Token}
    (h : (parse nextId tokens).errors = []) :
    Declarations false (body tokens) (parse nextId tokens).statements := by
  simp only [parse_eq_readAll, Array.toList_eq_nil_iff] at h ⊢
  rcases sound_program (sound_statement_declaration _).2 (kind_last_start nextId tokens)
    (Nat.le_trans (Nat.le_mul_of_pos_left _ Nat.two_pos) (Nat.le_add_right _ 2)) with hgrew | hbody
  · change _ < (readAll nextId tokens).2.errors.size at hgrew
    rw [h] at hgrew
    cases hgrew
  · exact hbody

end LoxLang.Parsing

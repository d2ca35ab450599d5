import LoxLang.Proofs.Grammar.Phrases
import LoxLang.Proofs.Parsing.Sound

/-!
Where reading gets to and what it leaves behind, whether it goes well or stops at an error. A step takes
tokens off the front and records errors; each error is anchored at a token that the step has come to, and
errors are recorded in the order of their anchors, with one exception. Of the errors that stop a step no
more are recorded than tokens are taken.
-/
namespace LoxLang.Parsing

open Grammar

/-- Of two errors, the first one is anchored no later. The exception: a list of arguments is found to be
too long before the expression in front of an assignment sign is found to be no target, though the sign
stands before the list. -/
def Precedes (e e' : SyntaxError) : Prop :=
  e.position ≤ e'.position ∨ e.cause = .tooManyArguments ∧ e'.cause = .assignmentTarget

def State.Anchors (s : State) (e : SyntaxError) : Prop :=
  s.position ≤ e.position ∧ (s.rest ++ [s.last])[e.position - s.position]? = some e.token

/-- How many of the errors are not about a length only. -/
def stopping (es : List SyntaxError) : Nat := es.countP fun e => !e.cause.isLimit

structure Manner where
  takes : TokenKind → Prop
  records : SyntaxError.Cause → Prop

namespace Manner

def any : Manner := ⟨fun _ => True, fun _ => True⟩

def within : Manner := ⟨(· ≠ .symbol .semicolon), (· = .tooManyArguments)⟩

end Manner

section

variable {m : Manner} {s s₁ s₂ s' : State} {ts us : List Token} {es es' : List SyntaxError}
  {e : SyntaxError}

/-- From one state to another, taking `ts` and recording `es`. -/
structure Moves (m : Manner) (s s' : State) (ts : List Token) (es : List SyntaxError) : Prop where
  rest : s.rest = ts ++ s'.rest
  position : s'.position = s.position + ts.length
  last : s'.last = s.last
  errors : s'.errors.toList = s.errors.toList ++ es
  takes : ∀ t ∈ ts, m.takes t.kind
  records : ∀ e ∈ es, m.records e.cause
  anchored : ∀ e ∈ es, s.Anchors e
  behind : ∀ e ∈ es, e.position ≤ s'.position
  ordered : es.Pairwise Precedes
  few : stopping es ≤ ts.length

structure Aborts (s s' : State) (es : List SyntaxError) (e : SyntaxError) : Prop where
  stopping : e.cause.isLimit = false
  anchored : s.Anchors e
  behind : e.position ≤ s'.position
  ordered : ∀ e' ∈ es, Precedes e' e

theorem anchors_errorHere (s : State) (cause : SyntaxError.Cause) : s.Anchors (s.errorHere cause) := by
  refine ⟨Nat.le_refl _, ?_⟩
  rw [State.errorHere, Nat.sub_self, State.current]
  cases s.rest <;> rfl

namespace Moves

theorem refl : Moves m s s [] [] where
  rest := rfl
  position := rfl
  last := rfl
  errors := (List.append_nil _).symm
  takes := List.forall_mem_nil _
  records := List.forall_mem_nil _
  anchored := List.forall_mem_nil _
  behind := List.forall_mem_nil _
  ordered := .nil
  few := Nat.le_refl _

theorem position_le (h : Moves m s s' ts es) : s.position ≤ s'.position := by
  rw [h.position]
  exact Nat.le_add_right _ _

/-- What is left later was left before. -/
theorem anchors (h : Moves m s s' ts es) (he : s'.Anchors e) : s.Anchors e := by
  obtain ⟨hle, htoken⟩ := he
  have hle' := h.position_le
  have hposition := h.position
  refine ⟨Nat.le_trans hle' hle, ?_⟩
  rw [h.rest, List.append_assoc, List.getElem?_append_right (by omega), ← h.last, ← htoken]
  congr 1
  omega

/-- What two steps take and record, one after the other, is taken and recorded by both together. -/
theorem trans (h : Moves m s s₁ ts es) (h' : Moves m s₁ s₂ us es') :
    Moves m s s₂ (ts ++ us) (es ++ es') where
  rest := by rw [h.rest, h'.rest, List.append_assoc]
  position := by rw [h'.position, h.position, List.length_append, Nat.add_assoc]
  last := h'.last.trans h.last
  errors := by rw [h'.errors, h.errors, List.append_assoc]
  takes := List.forall_mem_append.mpr ⟨h.takes, h'.takes⟩
  records := List.forall_mem_append.mpr ⟨h.records, h'.records⟩
  anchored := List.forall_mem_append.mpr ⟨h.anchored, fun e he => h.anchors (h'.anchored e he)⟩
  behind := List.forall_mem_append.mpr
    ⟨fun e he => Nat.le_trans (h.behind e he) h'.position_le, h'.behind⟩
  ordered := List.pairwise_append.mpr ⟨h.ordered, h'.ordered, fun e he e' he' =>
    .inl (Nat.le_trans (h.behind e he) (h'.anchored e' he').1)⟩
  few := by
    have := h.few
    have := h'.few
    simp only [stopping, List.countP_append, List.length_append] at *
    omega

theorem mono {m' : Manner} (h : Moves m s s' ts es) (htakes : ∀ k, m.takes k → m'.takes k)
    (hrecords : ∀ c, m.records c → m'.records c) : Moves m' s s' ts es :=
  { h with
    takes := fun t ht => htakes _ (h.takes t ht)
    records := fun e he => hrecords _ (h.records e he) }

theorem toAny (h : Moves m s s' ts es) : Moves .any s s' ts es :=
  h.mono (fun _ _ => trivial) fun _ _ => trivial

/-- A step up to the semicolon of a statement has recorded no error that would stop it. -/
theorem stopping_within (h : Moves .within s s' ts es) : stopping es = 0 := by
  refine List.countP_eq_zero.mpr fun e he => ?_
  rw [h.records e he]
  exact Bool.false_ne_true

end Moves

/-- Errors of a step stand behind those of the steps before. -/
theorem Aborts.after (h : Moves m s s₁ ts es) (h' : Aborts s₁ s' es' e) : Aborts s s' (es ++ es') e where
  stopping := h'.stopping
  anchored := h.anchors h'.anchored
  behind := h'.behind
  ordered := List.forall_mem_append.mpr
    ⟨fun e' he' => .inl (Nat.le_trans (h.behind e' he') h'.anchored.1), h'.ordered⟩

end

section

variable {α β : Type} {m : Manner}

inductive Outcome (m : Manner) (G : List Token → α → Prop) (s : State) :
    EStateM.Result SyntaxError State α → Prop
  | ok {s' : State} {ts : List Token} {es : List SyntaxError} {a : α} (h : Moves m s s' ts es)
      (ha : G ts a) : Outcome m G s (.ok a s')
  | error {s' : State} {ts : List Token} {es : List SyntaxError} {e : SyntaxError}
      (h : Moves m s s' ts es) (he : Aborts s s' es e) : Outcome m G s (.error e s')

def Advances (m : Manner) (p : Parse α) (G : List Token → α → Prop) : Prop :=
  ∀ s : State, s.last.kind = .eof → Outcome m G s (p s)

theorem bind_of_ok {p : Parse α} {f : α → Parse β} {s s₁ : State} {a : α} (h : p s = .ok a s₁) :
    (p >>= f) s = f a s₁ := by
  simp only [Bind.bind, EStateM.bind, h]

theorem bind_of_error {p : Parse α} {f : α → Parse β} {s s₁ : State} {e : SyntaxError}
    (h : p s = .error e s₁) : (p >>= f) s = .error e s₁ := by
  simp only [Bind.bind, EStateM.bind, h]

theorem Outcome.after {G : List Token → α → Prop} {s s₁ : State} {ts : List Token}
    {es : List SyntaxError} {r : EStateM.Result SyntaxError State α} (h : Moves m s s₁ ts es)
    (hr : Outcome m (fun us a => G (ts ++ us) a) s₁ r) : Outcome m G s r := by
  cases hr with
  | ok h' ha => exact .ok (h.trans h') ha
  | error h' he => exact .error (h.trans h') (he.after h)

theorem Outcome.mono {G G' : List Token → α → Prop} {s : State}
    {r : EStateM.Result SyntaxError State α} (h : Outcome m G s r) (le : ∀ ts a, G ts a → G' ts a) :
    Outcome m G' s r := by
  cases h with
  | ok h ha => exact .ok h (le _ _ ha)
  | error h he => exact .error h he

theorem Outcome.toAny {G : List Token → α → Prop} {s : State}
    {r : EStateM.Result SyntaxError State α} (h : Outcome m G s r) : Outcome .any G s r := by
  cases h with
  | ok h ha => exact .ok h.toAny ha
  | error h he => exact .error h.toAny he

namespace Advances

variable {p q : Parse α} {f : α → Parse β} {G : List Token → α → Prop}
  {H : List Token → β → Prop}

theorem mono {G' : List Token → α → Prop} (h : Advances m p G) (le : ∀ ts a, G ts a → G' ts a) :
    Advances m p G' := fun s hs => (h s hs).mono le

theorem toAny (h : Advances m p G) : Advances .any p G := fun s hs => (h s hs).toAny

/-- The second step is held against what the first one has taken. -/
theorem bind (hp : Advances m p G)
    (hf : ∀ a, Advances m (f a) fun us b => ∀ ts, G ts a → H (ts ++ us) b) :
    Advances m (p >>= f) H := by
  intro s hs
  have hfirst := hp s hs
  cases h : p s with
  | ok a s₁ =>
    rw [h] at hfirst
    obtain @⟨_, ts, es, _, hmoves, ha⟩ := hfirst
    rw [bind_of_ok h]
    have hsecond := hf a s₁ (by rw [hmoves.last, hs])
    exact .after hmoves (hsecond.mono fun us b hb => hb ts ha)
  | error e s₁ =>
    rw [h] at hfirst
    obtain _ | ⟨hmoves, he⟩ := hfirst
    rw [bind_of_error h]
    exact .error hmoves he

theorem pure {a : α} (h : G [] a) : Advances m (Pure.pure a) G := fun _ _ => .ok .refl h

/-- A step that takes nothing and has one result. -/
theorem value (a : α) : Advances m (Pure.pure a) fun ts b => ts = [] ∧ b = a := pure ⟨rfl, rfl⟩

theorem map (hp : Advances m p G) (g : α → β) :
    Advances m (g <$> p) fun ts b => ∃ a, b = g a ∧ G ts a := by
  refine bind hp fun a => pure ?_
  intro ts h
  rw [List.append_nil]
  exact ⟨a, rfl, h⟩

theorem fail {cause : SyntaxError.Cause} (h : cause.isLimit = false) :
    Advances m (fail cause) G := fun s _ =>
  .error .refl ⟨h, anchors_errorHere s cause, Nat.le_refl _, List.forall_mem_nil _⟩

theorem ite {c : Prop} [Decidable c] (hp : c → Advances m p G) (hq : ¬c → Advances m q G) :
    Advances m (if c then p else q) G := by
  split
  · exact hp ‹_›
  · exact hq ‹_›

/-- A step that takes nothing and leaves no error. -/
theorem look {g : State → α} (h : ∀ s, G [] (g s)) : Advances m (fun s => .ok (g s) s) G := fun s _ =>
  .ok .refl (h s)

theorem freshId : Advances m freshId fun ts _ => ts = [] := fun _ _ =>
  .ok { Moves.refl with } rfl

theorem seesSymbol (sym : Symbol) : Advances m (seesSymbol sym) fun ts _ => ts = [] :=
  look fun _ => rfl

end Advances

theorem advance_of_rest {s : State} {t : Token} {rest : List Token} (hs : s.rest = t :: rest) :
    s.advance = { s with rest := rest, position := s.position + 1 } := by
  rw [State.advance, hs]

theorem current_of_rest {s : State} {t : Token} {rest : List Token} (hs : s.rest = t :: rest) :
    s.current = t := by
  rw [State.current, hs]
  rfl

theorem expectSymbol_of_rest {sym : Symbol} {cause : SyntaxError.Cause} {s : State} {t : Token}
    {rest : List Token} (hrest : s.rest = t :: rest) (ht : t.kind = .symbol sym) :
    expectSymbol sym cause s = .ok t s.advance := by
  simp [expectSymbol, expect, take?, Bind.bind, EStateM.bind, hrest, ht, isSymbol, Pure.pure,
    EStateM.pure]

theorem expectSymbol_of_not {sym : Symbol} {s : State} (cause : SyntaxError.Cause)
    (h : ∀ t ∈ s.rest.head?, t.kind ≠ .symbol sym) :
    expectSymbol sym cause s = .error (s.errorHere cause) s := by
  cases hrest : s.rest with
  | nil => simp [expectSymbol, expect, take?, Bind.bind, EStateM.bind, hrest, fail]
  | cons t rest =>
    have hnot : isSymbol sym t.kind = false :=
      Bool.eq_false_iff.mpr fun hsym => h t (by rw [hrest]; rfl) (kind_of_isSymbol hsym)
    simp [expectSymbol, expect, take?, Bind.bind, EStateM.bind, hrest, hnot, fail]

/-- Taking the current token. -/
theorem moves_advance {s : State} {t : Token} {rest : List Token} (hs : s.rest = t :: rest)
    (ht : m.takes t.kind) : Moves m s s.advance [t] [] := by
  rw [advance_of_rest hs]
  exact {
    rest := hs
    position := rfl
    last := rfl
    errors := (List.append_nil _).symm
    takes := by simpa using ht
    records := List.forall_mem_nil _
    anchored := List.forall_mem_nil _
    behind := List.forall_mem_nil _
    ordered := .nil
    few := Nat.zero_le _ }

namespace Advances

theorem take? {right : TokenKind → Bool} (h : ∀ k, right k = true → m.takes k) :
    Advances m (take? right) fun ts o => ts = o.toList ∧ ∀ t ∈ o, right t.kind = true := by
  intro s _
  unfold Parsing.take?
  split
  · exact .ok .refl ⟨rfl, by simp⟩
  · next t rest hs =>
    split
    · next ht => exact .ok (moves_advance hs (h _ ht)) ⟨rfl, by simpa using ht⟩
    · exact .ok .refl ⟨rfl, by simp⟩

theorem expect {right : TokenKind → Bool} {cause : SyntaxError.Cause}
    (h : ∀ k, right k = true → m.takes k) (hcause : cause.isLimit = false) :
    Advances m (expect right cause) fun ts t => ts = [t] ∧ right t.kind = true := by
  refine bind (take? h) fun o => ?_
  cases o with
  | none => exact fail hcause
  | some t =>
    refine pure ?_
    rintro ts ⟨rfl, ht⟩
    exact ⟨rfl, ht t rfl⟩

theorem expectSymbol {sym : Symbol} {cause : SyntaxError.Cause} (h : m.takes (.symbol sym))
    (hcause : cause.isLimit = false) :
    Advances m (expectSymbol sym cause) fun ts t => ts = [t] ∧ t.kind = .symbol sym :=
  (expect (fun _ hk => kind_of_isSymbol hk ▸ h) hcause).mono fun _ _ h =>
    ⟨h.1, kind_of_isSymbol h.2⟩

theorem expectIdentifier {cause : SyntaxError.Cause} (h : m.takes .identifier)
    (hcause : cause.isLimit = false) :
    Advances m (Parsing.expect isIdentifier cause) fun ts t => ts = [t] ∧ t.kind = .identifier :=
  (expect (fun _ hk => kind_of_isIdentifier hk ▸ h) hcause).mono fun _ _ h =>
    ⟨h.1, kind_of_isIdentifier h.2⟩

theorem takesSymbol {sym : Symbol} (h : m.takes (.symbol sym)) :
    Advances m (takesSymbol sym) fun ts b =>
      (b = false ∧ ts = []) ∨ b = true ∧ ∃ t, ts = [t] ∧ t.kind = .symbol sym := by
  refine bind (take? fun _ hk => kind_of_isSymbol hk ▸ h) fun o => pure ?_
  rintro ts ⟨rfl, h⟩
  cases o with
  | none => exact .inl ⟨rfl, rfl⟩
  | some t => exact .inr ⟨rfl, t, rfl, kind_of_isSymbol (h t rfl)⟩

/-- A step on the current token may leave it in place, or take it if it is not the end. -/
theorem current {f : Token → Parse β} {H : List Token → β → Prop}
    (h : ∀ t, Advances m (f t) H ∨ (t.kind ≠ .eof ∧ m.takes t.kind) ∧ ∃ q : Parse β,
      f t = (do advance; q) ∧ Advances m q fun us b => H (t :: us) b) :
    Advances m (do f (← current)) H := by
  intro s hs
  change Outcome m H s (f s.current s)
  rcases h s.current with h | ⟨⟨hk, htakes⟩, q, hq, hadvances⟩
  · exact h s hs
  cases hrest : s.rest with
  | nil =>
    refine absurd ?_ hk
    simpa [State.current, hrest] using hs
  | cons t rest =>
    rw [current_of_rest hrest] at htakes hadvances hq ⊢
    have hmoves := moves_advance hrest htakes
    rw [hq]
    exact .after hmoves (hadvances s.advance (by rw [hmoves.last, hs]))

/-- An error about a length is recorded at the current token. -/
theorem recordHere {cause : SyntaxError.Cause} (h : cause.isLimit = true) (hrecords : m.records cause) :
    Advances m (recordHere cause) fun ts _ => ts = [] := by
  intro s _
  have hmoves : Moves m s (s.record (s.errorHere cause)) [] [s.errorHere cause] := {
    rest := rfl
    position := rfl
    last := rfl
    errors := by simp [State.record]
    takes := List.forall_mem_nil _
    records := List.forall_mem_singleton.mpr hrecords
    anchored := List.forall_mem_singleton.mpr (anchors_errorHere s cause)
    behind := List.forall_mem_singleton.mpr (Nat.le_refl _)
    ordered := List.pairwise_singleton _ _
    few := by simp [stopping, State.errorHere, h] }
  exact .ok hmoves rfl

end Advances

end

section

variable {α : Type} {m : Manner} {item : Parse α} {G : List Token → α → Prop}
  {L : List Token → List α → Prop} {tooMany : SyntaxError.Cause}

theorem Advances.limited (h : Advances m item G) (hlimit : tooMany.isLimit = true)
    (hrecords : m.records tooMany) (count : Nat) :
    Advances m (if maxArguments ≤ count then do Parsing.recordHere tooMany; item else item) G := by
  refine .ite (fun _ => .bind (.recordHere hlimit hrecords) fun _ => h.mono ?_) fun _ => h
  rintro us a ha ts rfl
  exact ha

/-- Items with commas between them are taken in order; what is too many is recorded and the reading goes on.
-/
theorem advances_commaSeparated (hitem : Advances m item G) (hlimit : tooMany.isLimit = true)
    (hrecords : m.records tooMany) (hcomma : m.takes (.symbol .comma))
    (one : ∀ {ts a}, G ts a → L ts [a])
    (cons : ∀ {ts us comma a as}, G ts a → comma.kind = .symbol .comma → L us as →
      L (ts ++ comma :: us) (a :: as)) (fuel count : Nat) :
    Advances m (commaSeparated item tooMany fuel count) L := by
  -- the rest of the list is read with one unit of fuel less, and counts one more item before it
  induction fuel generalizing count with
  | zero =>
    have hone : Advances m (do return [← item]) L := by
      refine .bind hitem fun a => .pure fun ts ha => ?_
      rw [List.append_nil]
      exact one ha
    exact hone.limited hlimit hrecords count
  | succ fuel ih =>
    have hsome : Advances m (do
        let first ← item
        if ← takesSymbol .comma then
          return first :: (← commaSeparated item tooMany fuel (count + 1))
        else
          return [first]) L := by
      refine .bind hitem fun first => .bind (.takesSymbol hcomma) fun more => .ite ?_ ?_
      · rintro rfl
        refine .bind (ih (count + 1)) fun rest => .pure ?_
        rintro vs hrest us (⟨h, -⟩ | ⟨-, comma, rfl, hcomma⟩) ts hts
        · cases h
        · simpa using cons hts hcomma hrest
      · intro hmore
        refine .pure ?_
        rintro us (⟨-, rfl⟩ | ⟨h, -⟩) ts hts
        · rw [List.append_nil, List.append_nil]
          exact one hts
        · exact absurd h hmore
    exact hsome.limited hlimit hrecords count

/-- Nothing, or items with commas between them. -/
theorem advances_parenthesized (hitem : Advances m item G) (hlimit : tooMany.isLimit = true)
    (hrecords : m.records tooMany) (hcomma : m.takes (.symbol .comma))
    (one : ∀ {ts a}, G ts a → L ts [a])
    (cons : ∀ {ts us comma a as}, G ts a → comma.kind = .symbol .comma → L us as →
      L (ts ++ comma :: us) (a :: as)) (fuel : Nat) :
    Advances m (parenthesized item tooMany fuel) fun ts as => ts = [] ∧ as = [] ∨ L ts as := by
  refine .bind (.seesSymbol .rightParen) fun closes => .ite (fun _ => .pure ?_) fun _ =>
    (advances_commaSeparated hitem hlimit hrecords hcomma one cons fuel 0).mono ?_
  · rintro ts rfl
    exact .inl ⟨rfl, rfl⟩
  · rintro us as has ts rfl
    exact .inr has

end

section

variable {operand value : Parse Expr} {ℓ : Level}

theorem takes_of_holds {k : TokenKind} (h : ℓ.holds k = true) : Manner.within.takes k := by
  rintro rfl
  cases ℓ <;> cases h

theorem takes_of_isSign {k : TokenKind} (h : isSign k = true) : Manner.within.takes k := by
  rintro rfl
  cases h

/-- Operators of one level are taken as long as there are any, with all that was read as the left operand.
-/
theorem advances_operations (h : Advances .within operand (Phrase (operandRank ℓ))) (fuel : Nat)
    (left : Expr) : Advances .within (operations ℓ operand fuel left) fun us e =>
      ∀ ts, Phrase (.operators ℓ) ts left → Phrase (.operators ℓ) (ts ++ us) e := by
  induction fuel generalizing left with
  | zero =>
    refine .pure fun ts hleft => ?_
    rwa [List.append_nil]
  | succ fuel ih =>
    rw [operations]
    refine .bind (.take? fun _ => takes_of_holds) fun o => ?_
    cases o with
    | none =>
      refine .pure ?_
      rintro us ⟨rfl, -⟩ ts hleft
      simpa using hleft
    | some operator =>
      refine .bind h fun right => (ih _).mono ?_
      rintro ws e he vs hright us ⟨rfl, hoperator⟩ ts hleft
      have h := he _ (Phrase.operation hleft (hoperator operator rfl) hright)
      simpa using h

theorem advances_chain (h : Advances .within operand (Phrase (operandRank ℓ))) (fuel : Nat) :
    Advances .within (chain ℓ fuel operand) (Phrase (.operators ℓ)) := by
  refine .bind h fun first => (advances_operations h fuel first).mono ?_
  intro us e he ts hts
  exact he ts (.operand hts)

/-- Signs are taken as long as there are any. -/
theorem advances_signed (h : Advances .within operand (Phrase .call)) (fuel : Nat) :
    Advances .within (signed operand fuel) (Phrase .unary) := by
  induction fuel with
  | zero => exact h.mono fun _ _ => .called
  | succ fuel ih =>
    rw [signed]
    refine .bind (.take? fun _ => takes_of_isSign) fun o => ?_
    cases o with
    | none =>
      refine h.mono ?_
      rintro us e hus ts ⟨rfl, -⟩
      exact .called hus
    | some operator =>
      refine .bind ih fun right => .pure ?_
      rintro us hus ts ⟨rfl, hoperator⟩
      rw [List.append_nil]
      exact .sign (hoperator operator rfl) hus

/-- Argument lists are taken as long as there are any, each for the call of all before it. -/
theorem advances_calls (h : Advances .within value (Phrase .expression)) (fuel : Nat) (callee : Expr) :
    Advances .within (calls value fuel callee) fun us e =>
      ∀ ts, Phrase .call ts callee → Phrase .call (ts ++ us) e := by
  induction fuel generalizing callee with
  | zero =>
    refine .pure fun ts hcallee => ?_
    rwa [List.append_nil]
  | succ fuel ih =>
    rw [calls]
    refine .bind (.takesSymbol (by simp [Manner.within])) fun opens => .ite ?_ ?_
    · rintro rfl
      refine .bind (advances_parenthesized h rfl rfl (by simp [Manner.within]) Phrases.one Phrases.cons
        fuel) fun arguments =>
        .bind (.expectSymbol (by simp [Manner.within]) rfl) fun paren => (ih _).mono ?_
      rintro ys e he ws ⟨rfl, hclosing⟩ vs harguments us (⟨h, -⟩ | ⟨-, opening, rfl, hopening⟩) ts hcallee
      · cases h
      rcases harguments with ⟨rfl, rfl⟩ | harguments
      · have h := he _ (.emptyCall hcallee hopening hclosing)
        simpa using h
      · have h := he _ (.call hcallee hopening harguments hclosing)
        simpa using h
    · intro hopens
      refine .pure ?_
      rintro us (⟨-, rfl⟩ | ⟨h, -⟩) ts hcallee
      · simpa using hcallee
      · exact absurd h hopens

/-- The first token decides between a literal, a name and an expression in parentheses. -/
theorem advances_primary (h : Advances .within value (Phrase .expression)) :
    Advances .within (primary value) (Phrase .primary) := by
  refine .current fun t => ?_
  have literal {v : Literal} (hv : LiteralOf t.kind v) :
      Advances .within (do advance; return Expr.literal v) (Phrase .primary) ∨
        (t.kind ≠ .eof ∧ Manner.within.takes t.kind) ∧ ∃ q : Parse Expr,
        (do advance; return Expr.literal v) = (do advance; q) ∧
        Advances .within q fun us b => Phrase .primary (t :: us) b := by
    refine .inr ⟨⟨fun heof => ?_, fun hsemicolon => ?_⟩, _, rfl, .pure (.literal hv)⟩
    · rw [heof] at hv
      cases hv
    · rw [hsemicolon] at hv
      cases hv
  split
  · next hk => exact literal (by rw [hk]; exact .false)
  · next hk => exact literal (by rw [hk]; exact .true)
  · next hk => exact literal (by rw [hk]; exact .nil)
  · next x hk => exact literal (by rw [hk]; exact .number x)
  · next content hk => exact literal (by rw [hk]; exact .string content)
  · next hk =>
    refine .inr ⟨by simp [hk, Manner.within], _, rfl, .bind .freshId fun id => .pure ?_⟩
    rintro us rfl
    exact .name id hk
  · next hk =>
    refine .inr ⟨by simp [hk, Manner.within], _, rfl, .bind h fun inner =>
      .bind (.expectSymbol (by simp [Manner.within]) rfl) fun closing => .pure ?_⟩
    rintro vs ⟨rfl, hclosing⟩ us hinner
    exact .grouping hk hinner hclosing
  · exact .inl (.fail rfl)

theorem advances_called (h : Advances .within value (Phrase .expression)) (fuel : Nat) :
    Advances .within (called value fuel) (Phrase .call) := by
  refine .bind (advances_primary h) fun callee => (advances_calls h fuel callee).mono ?_
  intro us e he ts hts
  exact he ts (.primary hts)

/-- Operators of all levels are taken, each level between those of the looser ones. -/
theorem advances_operators (h : Advances .within value (Phrase .expression)) (fuel : Nat) :
    Advances .within (operators value fuel) (Phrase (.operators .or)) := by
  have unary := advances_signed (advances_called h fuel) fuel
  have factor : Advances _ _ (Phrase (operandRank .term)) := advances_chain (ℓ := .factor) unary fuel
  have term : Advances _ _ (Phrase (operandRank .comparison)) := advances_chain factor fuel
  have comparison : Advances _ _ (Phrase (operandRank .equality)) := advances_chain term fuel
  have equality : Advances _ _ (Phrase (operandRank .and)) := advances_chain comparison fuel
  have and : Advances _ _ (Phrase (operandRank .or)) := advances_chain equality fuel
  exact advances_chain and fuel

/-- An assignment sign is found to have no target when the value has been read, whose own errors are
about lists of arguments. -/
theorem aborts_assignmentTarget {s s' : State} {ts : List Token} {es : List SyntaxError}
    (h : Moves .within s s' ts es) : Aborts s s' es (s.errorHere .assignmentTarget) where
  stopping := rfl
  anchored := anchors_errorHere s _
  behind := h.position_le
  ordered e he := .inr ⟨h.records e he, rfl⟩

/-- An assignment without a target is an error at its sign, behind the errors of its value. -/
theorem advances_assignment {target : Parse Expr} (hvalue : Advances .within value (Phrase .expression))
    (htarget : Advances .within target (Phrase (.operators .or))) :
    Advances .within (assignment value target) (Phrase .expression) := by
  refine .bind htarget fun target s hs => ?_
  have hadvances : Advances .within (takesSymbol .equal) fun ts b =>
      (b = false ∧ ts = []) ∨ b = true ∧ ∃ t, ts = [t] ∧ t.kind = .symbol .equal :=
    .takesSymbol (by simp [Manner.within])
  have htakes := hadvances s hs
  -- the error about the target is made at the sign and used after the value, so no single `bind` has both
  change Outcome .within _ s ((takesSymbol .equal >>= _) s)
  cases h : takesSymbol .equal s with
  | error e s₁ =>
    rw [h] at htakes
    obtain _ | ⟨hmoves, he⟩ := htakes
    rw [bind_of_error h]
    exact .error hmoves he
  | ok assigns s₁ =>
    rw [h] at htakes
    obtain @⟨_, ts, es, _, hmoves, htakes⟩ := htakes
    rw [bind_of_ok h]
    rcases htakes with ⟨rfl, rfl⟩ | ⟨rfl, sign, rfl, hsign⟩
    · refine .ok hmoves fun us hus => ?_
      rw [List.append_nil]
      exact .operators hus
    have hlast : s₁.last.kind = .eof := by rw [hmoves.last, hs]
    have hread := hvalue s₁ hlast
    change Outcome .within _ s ((value >>= _) s₁)
    cases hv : value s₁ with
    | error e s₂ =>
      rw [hv] at hread
      obtain _ | ⟨hmoves', he⟩ := hread
      rw [bind_of_error hv]
      exact .after hmoves (.error hmoves' he)
    | ok value s₂ =>
      rw [hv] at hread
      obtain @⟨_, vs, es', _, hmoves', hvs⟩ := hread
      rw [bind_of_ok hv]
      split
      · next id name =>
        have hassign : Advances .within (do return Expr.assign (← freshId) name value)
            fun ws e => ws = [] ∧ ∃ id, e = .assign id name value := by
          refine .bind .freshId fun id => .pure ?_
          rintro ws rfl
          exact ⟨rfl, id, rfl⟩
        refine .after (hmoves.trans hmoves')
          ((hassign s₂ (by rw [hmoves'.last, hlast])).mono ?_)
        rintro ws e ⟨rfl, id', rfl⟩ us hus
        obtain ⟨rfl, hname⟩ := hus.of_reference rfl
        have h := Phrase.assign id' hname hsign hvs
        simpa using h
      · exact .error (hmoves.trans hmoves') (aborts_assignmentTarget (hmoves.trans hmoves'))

/-- Reading an expression moves on by the tokens of a phrase, however long its lists of arguments. -/
theorem advances_expression (fuel : Nat) : Advances .within (expression fuel) (Phrase .expression) := by
  induction fuel with
  | zero => exact .fail rfl
  | succ fuel ih => exact advances_assignment ih (advances_operators ih fuel)

end

end LoxLang.Parsing

import LoxLang.Proofs.Parsing.Reads
import LoxLang.Proofs.Tree.Relabel

/-!
An expression that the grammar derives is read without an error, and as the tree of the derivation. It
is read off the front of the tokens if what follows cannot continue it: no operator of its level or of
a tighter one, no opening parenthesis and, after a whole expression, no assignment sign. Main
statement: `reads_expression`.
-/
namespace LoxLang.Parsing

open Grammar

def rank : Level → Nat
  | .or => 0
  | .and => 1
  | .equality => 2
  | .comparison => 3
  | .term => 4
  | .factor => 5

def Stops (r : Nat) (k : List Token) : Prop :=
  ∀ t ∈ k.head?, t.kind ≠ .symbol .leftParen ∧ ∀ ℓ, r ≤ rank ℓ → ¬OperatorOf ℓ t.kind

def StopsExpression (k : List Token) : Prop := Stops 0 k ∧ ∀ t ∈ k.head?, t.kind ≠ .symbol .equal

theorem Stops.mono {r r' : Nat} {k : List Token} (h : Stops r k) (le : r ≤ r') : Stops r' k :=
  fun t ht => ⟨(h t ht).1, fun ℓ hℓ => (h t ht).2 ℓ (Nat.le_trans le hℓ)⟩

theorem rank_of_tighter? {ℓ ℓ' : Level} (h : tighter? ℓ = some ℓ') : rank ℓ' = rank ℓ + 1 := by
  cases ℓ <;> cases h <;> rfl

theorem level_unique {ℓ ℓ' : Level} {k : TokenKind} (h : OperatorOf ℓ k) (h' : OperatorOf ℓ' k) :
    ℓ = ℓ' := by
  cases h <;> cases h' <;> rfl

/-- An operator stops the operand on its left. -/
theorem stops_operator {ℓ : Level} {t : Token} {k : List Token} (h : OperatorOf ℓ t.kind) :
    Stops (rank ℓ + 1) (t :: k) := by
  rintro _ ⟨⟩
  refine ⟨fun hk => ?_, fun ℓ' hℓ' h' => ?_⟩
  · rw [hk] at h
    cases h
  · rw [level_unique h h'] at hℓ'
    omega

theorem stops_equal {t : Token} {k : List Token} (ht : t.kind = .symbol .equal) : Stops 0 (t :: k) := by
  rintro _ ⟨⟩
  rw [ht]
  exact ⟨nofun, fun ℓ _ h => nomatch h⟩

/-- Punctuation other than an opening parenthesis stops every expression. -/
theorem stopsExpression_symbol {t : Token} {k : List Token} {sym : Symbol} (ht : t.kind = .symbol sym)
    (h : sym = .rightParen ∨ sym = .semicolon ∨ sym = .comma) : StopsExpression (t :: k) := by
  have hsign : sym ≠ .leftParen ∧ sym ≠ .equal := by
    rcases h with rfl | rfl | rfl <;> decide
  have hoperator (ℓ : Level) : ¬OperatorOf ℓ (.symbol sym) := by
    rcases h with rfl | rfl | rfl <;> rintro ⟨⟩
  constructor
  · rintro _ ⟨⟩
    rw [ht]
    exact ⟨fun h => hsign.1 (TokenKind.symbol.inj h), fun ℓ _ => hoperator ℓ⟩
  · rintro _ ⟨⟩ h
    rw [ht] at h
    exact hsign.2 (TokenKind.symbol.inj h)

theorem holds_of_operatorOf {ℓ : Level} {k : TokenKind} (h : OperatorOf ℓ k) : ℓ.holds k = true := by
  cases h <;> rfl

def levels : Level → List Level
  | .or => [.or, .and, .equality, .comparison, .term, .factor]
  | .and => [.and, .equality, .comparison, .term, .factor]
  | .equality => [.equality, .comparison, .term, .factor]
  | .comparison => [.comparison, .term, .factor]
  | .term => [.term, .factor]
  | .factor => [.factor]

def throughLevels (fuel : Nat) (ℓs : List Level) : Parse Expr :=
  ℓs.foldr (fun ℓ operand => chain ℓ fuel operand) (signed (called (expression fuel) fuel) fuel)

def operandReader (fuel : Nat) (ℓ : Level) : Parse Expr := throughLevels fuel (levels ℓ).tail

theorem operandReader_of_tighter? {fuel : Nat} {ℓ ℓ' : Level} (h : tighter? ℓ = some ℓ') :
    operandReader fuel ℓ = chain ℓ' fuel (operandReader fuel ℓ') := by
  cases ℓ <;> cases h <;> rfl

theorem operandReader_of_tightest {fuel : Nat} {ℓ : Level} (h : tighter? ℓ = none) :
    operandReader fuel ℓ = signed (called (expression fuel) fuel) fuel := by
  cases ℓ <;> cases h
  rfl

abbrev Same (e : Expr) : Expr → Prop := fun e' => e'.withoutIds = e.withoutIds

section

variable {fuel n : Nat} {s : State} {k ts us : List Token} {e callee : Expr} {ℓ : Level}

theorem withoutIds_operation {l l' r r' : Expr} (hl : l'.withoutIds = l.withoutIds)
    (hr : r'.withoutIds = r.withoutIds) (ℓ : Level) (t : Token) :
    (operation ℓ l' t r').withoutIds = (operation ℓ l t r).withoutIds := by
  cases ℓ <;> simp [operation, hl, hr]

/-- An operand that no operator of the level follows is read as a phrase of the level. -/
theorem reads_chain {operand : Parse Expr} (h : Reads operand s k (Same e))
    (hk : ∀ t ∈ k.head?, ¬OperatorOf ℓ t.kind) : Reads (chain ℓ fuel operand) s k (Same e) := by
  refine .bind h fun first s₁ hfirst hs₁ _ => ?_
  cases fuel with
  | zero => exact .pure hs₁ hfirst
  | succ fuel =>
    rw [operations]
    refine .bind (.takeNone hs₁ fun t ht => ?_) ?_
    · exact Bool.eq_false_iff.mpr fun h => hk t ht (operatorOf_of_holds h)
    · rintro _ s₂ rfl hs₂ -
      exact .pure hs₂ hfirst

theorem stops_operations {rest : List (Token × Expr)} (h : Operations ℓ us rest)
    (hk : Stops (rank ℓ) k) : Stops (rank ℓ + 1) (us ++ k) := by
  cases h with
  | nil => exact hk.mono (Nat.le_succ _)
  | cons hoperator => exact stops_operator hoperator

/-- No call starts with a sign. -/
theorem isSign_first (h : Call ts e) : ∀ t ∈ (ts ++ k).head?, isSign t.kind = false := by
  obtain ⟨h, -⟩ := h
  cases h with
  | @literal t _ h =>
    rintro _ ⟨⟩
    generalize t.kind = kind at h ⊢
    cases h <;> rfl
  | name id h =>
    rintro t ⟨⟩
    rw [h]
    rfl
  | grouping h =>
    rintro t ⟨⟩
    rw [h]
    rfl

theorem length_le_append (ts us : List Token) : us.length ≤ (ts ++ us).length := by
  rw [List.length_append]
  exact Nat.le_add_left _ _

theorem reads_variable {name : Token} (id : ReferenceId) (hname : name.kind = .identifier)
    (hs : s.rest = name :: k) :
    Reads (primary (expression fuel)) s k (Same (.reference id name)) := by
  refine .bind (.current hs) ?_
  rintro _ s₁ rfl hs₁ -
  simp only [hname]
  refine .bind (.advance hs₁) fun _ s₂ _ hs₂ _ => .bind (.freshId hs₂) fun id' s₃ _ hs₃ _ => ?_
  exact .pure hs₃ rfl

/-- A name that nothing continues is read through all levels. -/
theorem reads_name {name : Token} (id : ReferenceId) (hname : name.kind = .identifier)
    (hs : s.rest = name :: k) (hk : Stops 0 k) :
    Reads (operators (expression fuel) fuel) s k (Same (.reference id name)) := by
  -- from the inside out: no call, no sign, no operator of any level follows the name
  have hcalled (s : State) (hs : s.rest = name :: k) :
      Reads (called (expression fuel) fuel) s k (Same (.reference id name)) := by
    refine .bind (reads_variable id hname hs) fun e s₁ he hs₁ _ => ?_
    cases fuel with
    | zero => exact .pure hs₁ he
    | succ fuel =>
      rw [calls]
      refine .bind (.takesNoSymbol hs₁ fun t ht => (hk t ht).1) ?_
      rintro _ s₂ rfl hs₂ -
      exact .pure hs₂ he
  have hsigned (n : Nat) : Reads (signed (called (expression fuel) fuel) n) s k
      (Same (.reference id name)) := by
    cases n with
    | zero => exact hcalled s hs
    | succ n =>
      rw [signed]
      refine .bind (.takeNone hs ?_) ?_
      · rintro t ⟨⟩
        rw [hname]
        rfl
      · rintro _ s₁ rfl hs₁ -
        exact hcalled s₁ hs₁
  have hlevels (ℓs : List Level) : Reads (throughLevels fuel ℓs) s k (Same (.reference id name)) := by
    induction ℓs with
    | nil => exact hsigned fuel
    | cons ℓ ℓs ih => exact reads_chain ih fun t ht => (hk t ht).2 ℓ (Nat.zero_le _)
  exact hlevels (levels .or)

end

mutual

/-- A derived expression is read as its tree. -/
theorem reads_expression {ts : List Token} {e : Expr} (h : Expression ts e) {fuel : Nat} {s : State}
    {k : List Token} (hs : s.rest = ts ++ k) (hk : StopsExpression k)
    (hfuel : (ts ++ k).length < fuel) : Reads (expression fuel) s k (Same e) := by
  cases fuel with
  | zero => cases hfuel
  | succ fuel =>
    match h with
    | .operators h =>
      refine .bind (reads_operators h hs hk.1 (Nat.le_of_lt_succ hfuel)) fun target s₁ htarget hs₁ _ =>
        .bind (.errorHere _ hs₁) fun _ s₂ _ hs₂ _ => .bind (.takesNoSymbol hs₂ hk.2) ?_
      rintro _ s₃ rfl hs₃ -
      exact .pure hs₃ htarget
    | .assign id hname hsign hvalue =>
      refine .bind (reads_name id hname hs (stops_equal hsign)) fun target s₁ htarget hs₁ _ =>
        .bind (.errorHere _ hs₁) fun _ s₂ _ hs₂ _ => .bind (.takesSymbol hs₂ hsign) ?_
      rintro _ s₃ rfl hs₃ -
      have hlen : (_ ++ k).length < fuel := Nat.lt_of_succ_lt (Nat.lt_of_succ_lt_succ hfuel)
      refine .bind (reads_expression hvalue hs₃ hk hlen) fun value s₄ hvalue hs₄ _ => ?_
      cases target with
      | reference id' name =>
        refine .bind (.freshId hs₄) fun id s₅ _ hs₅ _ => .pure hs₅ ?_
        simp only [Same, Expr.withoutIds_reference] at htarget
        simp only [Same, Expr.withoutIds_assign, hvalue]
        cases htarget
        rfl
      | _ => cases htarget

/-- A derived chain of operators is read as its tree. -/
theorem reads_operators {ℓ : Level} {ts : List Token} {e : Expr} (h : Operators ℓ ts e) {fuel : Nat}
    {s : State} {k : List Token} (hs : s.rest = ts ++ k) (hk : Stops (rank ℓ) k)
    (hfuel : (ts ++ k).length ≤ fuel) : Reads (chain ℓ fuel (operandReader fuel ℓ)) s k (Same e) := by
  match h with
  | .mk hfirst hrest =>
    rw [List.append_assoc] at hs hfuel
    have hlen : (_ ++ k).length ≤ fuel := Nat.le_trans (length_le_append _ _) hfuel
    refine .bind (reads_operand hfirst hs (stops_operations hrest hk) hfuel)
      fun first s₁ hfirst hs₁ _ => ?_
    exact reads_operations hrest hs₁ hk hlen hlen hfirst

theorem reads_operand {ℓ : Level} {ts : List Token} {e : Expr} (h : Operand ℓ ts e) {fuel : Nat}
    {s : State} {k : List Token} (hs : s.rest = ts ++ k) (hk : Stops (rank ℓ + 1) k)
    (hfuel : (ts ++ k).length ≤ fuel) : Reads (operandReader fuel ℓ) s k (Same e) := by
  match h with
  | .level hℓ h =>
    rw [operandReader_of_tighter? hℓ]
    exact reads_operators h hs (by rwa [rank_of_tighter? hℓ]) hfuel
  | .unary hℓ h =>
    rw [operandReader_of_tightest hℓ]
    exact reads_unary h hs (fun t ht => (hk t ht).1) hfuel hfuel

/-- Derived operators behind an operand are read with all before them as the left operand. -/
theorem reads_operations {ℓ : Level} {ts : List Token} {rest : List (Token × Expr)}
    (h : Operations ℓ ts rest) {fuel n : Nat} {s : State} {k : List Token} {left left' : Expr}
    (hs : s.rest = ts ++ k) (hk : Stops (rank ℓ) k) (hfuel : (ts ++ k).length ≤ fuel)
    (hn : (ts ++ k).length ≤ n) (hleft : Same left left') :
    Reads (operations ℓ (operandReader fuel ℓ) n left') s k (Same (grouped ℓ left rest)) := by
  match h with
  | .nil =>
    cases n with
    | zero => exact .pure hs hleft
    | succ n =>
      rw [operations]
      refine .bind (.takeNone hs fun t ht => ?_) ?_
      · exact Bool.eq_false_iff.mpr fun h => (hk t ht).2 ℓ (Nat.le_refl _) (operatorOf_of_holds h)
      · rintro _ s₁ rfl hs₁ -
        exact .pure hs₁ hleft
  | @Operations.cons _ operator _ _ _ _ hoperator hfirst hrest =>
    rw [List.cons_append, List.append_assoc] at hs hfuel hn
    cases n with
    | zero => cases hn
    | succ n =>
      have hfuel := Nat.le_of_succ_le hfuel
      have hn := Nat.le_of_succ_le_succ hn
      rw [operations]
      refine .bind (.take hs (holds_of_operatorOf hoperator)) ?_
      rintro _ s₁ rfl hs₁ -
      -- the right operand stops at the next operator of the chain or at its end
      refine .bind (reads_operand hfirst hs₁ (stops_operations hrest hk) hfuel)
        fun right s₂ hright hs₂ _ => ?_
      rw [build_eq_operation]
      exact reads_operations hrest hs₂ hk (Nat.le_trans (length_le_append _ _) hfuel)
        (Nat.le_trans (length_le_append _ _) hn) (withoutIds_operation hleft hright ℓ operator)

/-- Derived signs are read with what stands behind them. -/
theorem reads_unary {ts : List Token} {e : Expr} (h : Unary ts e) {fuel n : Nat} {s : State}
    {k : List Token} (hs : s.rest = ts ++ k) (hk : ∀ t ∈ k.head?, t.kind ≠ .symbol .leftParen)
    (hfuel : (ts ++ k).length ≤ fuel) (hn : (ts ++ k).length ≤ n) :
    Reads (signed (called (expression fuel) fuel) n) s k (Same e) := by
  match h with
  | .sign hoperator h =>
    cases n with
    | zero => cases hn
    | succ n =>
      rw [signed]
      refine .bind (.take hs ?_) ?_
      · rcases hoperator with h | h <;> rw [h] <;> rfl
      rintro _ s₁ rfl hs₁ -
      refine .bind (reads_unary h hs₁ hk (Nat.le_of_succ_le hfuel) (Nat.le_of_succ_le_succ hn))
        fun e s₂ he hs₂ _ => .pure hs₂ ?_
      simp only [Same, Expr.withoutIds_unary, he]
  | .call h =>
    have hcall {s : State} (hs : s.rest = ts ++ k) := reads_call h hs hk hfuel
    cases n with
    | zero => exact hcall hs
    | succ n =>
      rw [signed]
      refine .bind (.takeNone hs (isSign_first h)) ?_
      rintro _ s₁ rfl hs₁ -
      exact hcall hs₁

theorem reads_call {ts : List Token} {e : Expr} (h : Call ts e) {fuel : Nat} {s : State}
    {k : List Token} (hs : s.rest = ts ++ k) (hk : ∀ t ∈ k.head?, t.kind ≠ .symbol .leftParen)
    (hfuel : (ts ++ k).length ≤ fuel) : Reads (called (expression fuel) fuel) s k (Same e) := by
  match h with
  | .mk hcallee hcalls =>
    rw [List.append_assoc] at hs hfuel
    have hlen : (_ ++ k).length ≤ fuel := Nat.le_trans (length_le_append _ _) hfuel
    refine .bind (reads_primary hcallee hs hfuel) fun callee s₁ hcallee hs₁ _ => ?_
    exact reads_calls hcalls hs₁ hk hlen hlen hcallee

/-- Derived calls are read with all before them as the callee. -/
theorem reads_calls {ts : List Token} {calls : List (Token × List Expr)} (h : Calls ts calls)
    {fuel n : Nat} {s : State} {k : List Token} {callee callee' : Expr} (hs : s.rest = ts ++ k)
    (hk : ∀ t ∈ k.head?, t.kind ≠ .symbol .leftParen) (hfuel : (ts ++ k).length ≤ fuel)
    (hn : (ts ++ k).length ≤ n) (hcallee : Same callee callee') :
    Reads (Parsing.calls (expression fuel) n callee') s k (Same (applied callee calls)) := by
  match h with
  | .nil =>
    cases n with
    | zero => exact .pure hs hcallee
    | succ n =>
      rw [Parsing.calls]
      refine .bind (.takesNoSymbol hs hk) ?_
      rintro _ s₁ rfl hs₁ -
      exact .pure hs₁ hcallee
  | @Calls.empty _ closing _ _ hopening hclosing hrest =>
    cases n with
    | zero => cases hn
    | succ n =>
      rw [Parsing.calls]
      refine .bind (.takesSymbol hs hopening) ?_
      rintro _ s₁ rfl hs₁ -
      refine .bind (.parenthesizedNone hs₁ hclosing) ?_
      rintro _ s₂ rfl hs₂ -
      refine .bind (.expectSymbol hs₂ hclosing) ?_
      rintro _ s₃ rfl hs₃ -
      refine reads_calls hrest hs₃ hk (Nat.le_of_succ_le (Nat.le_of_succ_le hfuel))
        (Nat.le_of_succ_le (Nat.le_of_succ_le_succ hn)) ?_
      simp only [Same, Expr.withoutIds_call, hcallee]
  | @Calls.cons _ closing ts us es _ hopening harguments hmost hclosing hrest =>
    rw [List.cons_append, List.append_assoc, List.cons_append] at hs hfuel hn
    cases n with
    | zero => cases hn
    | succ n =>
      have hfuel := Nat.lt_of_succ_le hfuel
      have hn := Nat.le_of_succ_le_succ hn
      rw [Parsing.calls]
      refine .bind (.takesSymbol hs hopening) ?_
      rintro _ s₁ rfl hs₁ -
      obtain ⟨t, vs, hts, ht⟩ := harguments.first
      have hs₁' : s₁.rest = t :: (vs ++ closing :: (us ++ k)) := by rw [hs₁, hts, List.cons_append]
      refine .bind (.parenthesizedSome hs₁' (startsExpression_ne ht .rightParen) fun s' hs' =>
        reads_arguments harguments (hs'.trans (hs₁'.symm.trans hs₁)) hclosing hfuel hn
          (by rwa [Nat.zero_add])) fun es' s₂ hes hs₂ _ => ?_
      have hlen : (us ++ k).length + 1 ≤ (ts ++ closing :: (us ++ k)).length :=
        length_le_append ts (closing :: (us ++ k))
      refine .bind (.expectSymbol hs₂ hclosing) ?_
      rintro _ s₃ rfl hs₃ -
      refine reads_calls hrest hs₃ hk (by omega) (by omega) ?_
      simp only [Same, Expr.withoutIds_call, hcallee, hes]

/-- Derived arguments are read in order, up to the limit. -/
theorem reads_arguments {ts : List Token} {es : List Expr} (h : Arguments ts es) {fuel n count : Nat}
    {tooMany : SyntaxError.Cause} {s : State} {closing : Token} {k : List Token}
    (hs : s.rest = ts ++ closing :: k) (hclosing : closing.kind = .symbol .rightParen)
    (hfuel : (ts ++ closing :: k).length < fuel) (hn : (ts ++ closing :: k).length ≤ n)
    (hmost : count + es.length ≤ most) :
    Reads (commaSeparated (expression fuel) tooMany n count) s (closing :: k)
      fun es' => es'.map Expr.withoutIds = es.map Expr.withoutIds := by
  match h with
  | .one h =>
    have hk : StopsExpression (closing :: k) := stopsExpression_symbol hclosing (.inl rfl)
    refine .commaOne (reads_expression h hs hk hfuel) (by rw [hclosing]; nofun) hmost
      fun e' he => ?_
    rw [List.map_singleton, List.map_singleton, he]
  | @Arguments.cons comma ts us _ es hfirst hcomma hrest =>
    rw [List.append_assoc, List.cons_append] at hs hfuel hn
    have hk : StopsExpression (comma :: (us ++ closing :: k)) :=
      stopsExpression_symbol hcomma (.inr (.inr rfl))
    have hlen : (us ++ closing :: k).length + 1 ≤ (ts ++ comma :: (us ++ closing :: k)).length :=
      length_le_append ts (comma :: (us ++ closing :: k))
    cases n with
    | zero => omega
    | succ n =>
      rw [List.length_cons] at hmost
      have hcount : count < most := by omega
      refine .commaCons (reads_expression hfirst hs hk hfuel) hcomma hcount (fun s' hs' =>
        reads_arguments hrest hs' hclosing (by omega) (by omega) (by omega)) fun e' es' he hes => ?_
      rw [List.map_cons, List.map_cons, he, hes]

/-- A derived literal, name or expression in parentheses is read as its tree. -/
theorem reads_primary {ts : List Token} {e : Expr} (h : Primary ts e) {fuel : Nat} {s : State}
    {k : List Token} (hs : s.rest = ts ++ k) (hfuel : (ts ++ k).length ≤ fuel) :
    Reads (primary (expression fuel)) s k (Same e) := by
  match h with
  | @Primary.literal t value h =>
    generalize hkind : t.kind = kind at h
    refine .bind (.current hs) ?_
    rintro _ s₁ rfl hs₁ -
    cases h <;> simp only [hkind] <;>
      exact .bind (.advance hs₁) fun _ s₂ _ hs₂ _ => .pure hs₂ rfl
  | .name id h => exact reads_variable id h hs
  | @Primary.grouping opening closing ts e hopening h hclosing =>
    rw [List.cons_append, List.append_assoc, List.singleton_append] at hs hfuel
    refine .bind (.current hs) ?_
    rintro _ s₁ rfl hs₁ -
    simp only [hopening]
    refine .bind (.advance hs₁) fun _ s₂ _ hs₂ _ =>
      .bind (reads_expression h hs₂ (stopsExpression_symbol hclosing (.inl rfl)) hfuel) ?_
    rintro e' s₃ he hs₃ -
    refine .bind (.expectSymbol hs₃ hclosing) ?_
    rintro _ s₄ rfl hs₄ -
    refine .pure hs₄ ?_
    simp only [Same, Expr.withoutIds_grouping, he]

end

end LoxLang.Parsing

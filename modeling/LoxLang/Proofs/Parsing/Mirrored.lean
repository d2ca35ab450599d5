import LoxLang.Proofs.Parsing.Accepts
import LoxLang.Proofs.Parsing.AdvancesStatements
import LoxLang.Proofs.Parsing.Unbounded

/-!
Reading within a bound and reading without one are the same. A state tells where a cursor stands: the
tokens left before the end of the input are those from the cursor on. With fuel for the tokens left, each
rule ends as the rule without fuel does, which so has a result.
-/
namespace LoxLang.Parsing

open Unbounded (Rule)

structure Frame where
  tokens : List Token
  past : List Nat
  reported : List SyntaxError

variable {F : Frame} {s s' : State} {c c' : Cursor}

/-- The state and the cursor are at the same place of a program. -/
structure Tracks (F : Frame) (s : State) (c : Cursor) : Prop where
  tokens : c.tokens = F.tokens
  position : c.position = s.position
  nextId : c.nextId = s.nextId
  errors : s.errors.toList = F.reported ++ c.errors.toList
  ahead : ∃ after, F.tokens.drop s.position = s.rest ++ s.last :: after
  inside : ∀ t ∈ s.rest, t.kind ≠ .eof
  last : s.last.kind = .eof
  passed : ∃ new, c.passed = new ++ F.past ∧ ∀ p ∈ new, p < s.position

section

variable {α β : Type} {n : Nat}

theorem read_bind_of_ok {r : Read α} {g : α → Read β} {a : α} (h : r c = some (.ok a, c')) :
    (r >>= g) c = g a c' := by
  simp only [Bind.bind, ExceptT.bind, ExceptT.mk, StateT.bind, h]
  rfl

theorem read_bind_of_error {r : Read α} {g : α → Read β} {e : SyntaxError}
    (h : r c = some (.error e, c')) : (r >>= g) c = some (.error e, c') := by
  simp only [Bind.bind, ExceptT.bind, ExceptT.mk, StateT.bind, h]
  rfl

/-- Two steps end alike, at the same place, and with no more than `n` tokens left. -/
inductive Agrees (F : Frame) (n : Nat) :
    EStateM.Result SyntaxError State α → Option (Except SyntaxError α × Cursor) → Prop
  | ok {a : α} {s : State} {c : Cursor} (h : Tracks F s c) (hle : s.rest.length ≤ n) :
      Agrees F n (.ok a s) (some (.ok a, c))
  | error {e : SyntaxError} {s : State} {c : Cursor} (h : Tracks F s c) (hle : s.rest.length ≤ n) :
      Agrees F n (.error e s) (some (.error e, c))

def Mirrors (n : Nat) (p : Parse α) (r : Read α) : Prop :=
  ∀ ⦃F : Frame⦄ ⦃s : State⦄ ⦃c : Cursor⦄, Tracks F s c → s.rest.length < n →
    Agrees F s.rest.length (p s) (r c)

theorem Agrees.mono {m : Nat} {x : EStateM.Result SyntaxError State α}
    {y : Option (Except SyntaxError α × Cursor)} (h : Agrees F m x y) (hle : m ≤ n) :
    Agrees F n x y := by
  cases h with
  | ok h hle' => exact .ok h (Nat.le_trans hle' hle)
  | error h hle' => exact .error h (Nat.le_trans hle' hle)

namespace Mirrors

variable {p q : Parse α} {r r' : Read α} {f : α → Parse β} {g : α → Read β}

theorem zero : Mirrors 0 p r := fun _ _ _ _ h => absurd h (Nat.not_lt_zero _)

theorem mono {m : Nat} (h : Mirrors n p r) (hle : m ≤ n) : Mirrors m p r :=
  fun _ _ _ hs hlt => h hs (Nat.lt_of_lt_of_le hlt hle)

/-- Mirrored steps may be put one after the other. -/
theorem bind (hp : Mirrors n p r) (hf : ∀ a, Mirrors n (f a) (g a)) :
    Mirrors n (p >>= f) (r >>= g) := by
  intro F s c hs hlt
  have hfirst := hp hs hlt
  cases hps : p s with
  | ok a s₁ =>
    rw [hps] at hfirst
    generalize hrc : r c = x at hfirst
    obtain ⟨htracks, hle⟩ := hfirst
    rw [bind_of_ok hps, read_bind_of_ok hrc]
    exact (hf a htracks (Nat.lt_of_le_of_lt hle hlt)).mono hle
  | error e s₁ =>
    rw [hps] at hfirst
    generalize hrc : r c = x at hfirst
    obtain _ | ⟨htracks, hle⟩ := hfirst
    rw [bind_of_error hps, read_bind_of_error hrc]
    exact .error htracks hle

theorem pure (a : α) : Mirrors n (Pure.pure a) (Pure.pure a) :=
  fun _ _ _ hs _ => .ok hs (Nat.le_refl _)

theorem map (h : Mirrors n p r) (g : α → β) : Mirrors n (g <$> p) (g <$> r) :=
  bind h fun a => pure (g a)

theorem throw (e : SyntaxError) : Mirrors n (throw e : Parse α) (MonadExcept.throw e) :=
  fun _ _ _ hs _ => .error hs (Nat.le_refl _)

theorem ite {b : Prop} [Decidable b] (hp : Mirrors n p r) (hq : Mirrors n q r') :
    Mirrors n (if b then p else q) (if b then r else r') := by
  split
  · exact hp
  · exact hq

end Mirrors

end

namespace Tracks

theorem getElem?_position (h : Tracks F s c) : c.tokens[c.position]? = some s.current := by
  obtain ⟨after, hahead⟩ := h.ahead
  rw [h.tokens, h.position, ← List.head?_drop, hahead, State.current]
  cases s.rest <;> rfl

theorem isEof_current (h : Tracks F s c) : s.current.kind.isEof = s.rest.isEmpty := by
  rw [State.current]
  cases hrest : s.rest with
  | nil =>
    have := h.last
    simp [this, TokenKind.isEof]
  | cons t rest =>
    have hne := h.inside t (by simp [hrest])
    exact Bool.eq_false_iff.mpr fun heof => hne (isEof_iff.mp heof)

theorem current (h : Tracks F s c) : (Unbounded.current : Read Token) c = some (.ok s.current, c) := by
  simp only [Unbounded.current, Unbounded.look, h.getElem?_position, Option.map_some]

theorem atEnd (h : Tracks F s c) : (Unbounded.atEnd : Read Bool) c = some (.ok s.rest.isEmpty, c) := by
  rw [Unbounded.atEnd, read_bind_of_ok h.current, h.isEof_current]
  rfl

/-- One token further. -/
theorem step (h : Tracks F s c) {t : Token} {rest : List Token} (hs : s.rest = t :: rest) :
    Tracks F s.advance { c with position := c.position + 1, passed := c.position :: c.passed } := by
  obtain ⟨after, hahead⟩ := h.ahead
  obtain ⟨new, hpassed, hbefore⟩ := h.passed
  rw [advance_of_rest hs]
  exact {
    tokens := h.tokens
    position := congrArg (· + 1) h.position
    nextId := h.nextId
    errors := h.errors
    ahead := ⟨after, by rw [← List.drop_drop, hahead, hs]; rfl⟩
    inside := fun u hu => h.inside u (by rw [hs]; exact List.mem_cons_of_mem t hu)
    last := h.last
    passed := by
      refine ⟨c.position :: new, by rw [hpassed]; rfl, List.forall_mem_cons.mpr ⟨?_, fun p hp => ?_⟩⟩
      · exact Nat.lt_succ_of_le (Nat.le_of_eq h.position)
      · exact Nat.lt_succ_of_lt (hbefore p hp) }

theorem advance_end (h : Tracks F s c) (hs : s.rest = []) :
    (Unbounded.advance : Read Unit) c = some (.ok (), c) := by
  rw [Unbounded.advance, read_bind_of_ok h.atEnd, hs]
  rfl

theorem advance (h : Tracks F s c) {t : Token} {rest : List Token} (hs : s.rest = t :: rest) :
    (Unbounded.advance : Read Unit) c =
      some (.ok (), { c with position := c.position + 1, passed := c.position :: c.passed }) := by
  rw [Unbounded.advance, read_bind_of_ok h.atEnd, hs]
  rfl

theorem sees (h : Tracks F s c) (right : TokenKind → Bool) :
    (Unbounded.sees right : Read Bool) c =
      some (.ok (s.rest.head?.any fun t => right t.kind), c) := by
  rw [Unbounded.sees, read_bind_of_ok h.atEnd]
  cases hrest : s.rest with
  | nil => rfl
  | cons t rest =>
    rw [List.isEmpty_cons, if_neg Bool.false_ne_true, read_bind_of_ok h.current,
      current_of_rest hrest]
    rfl

theorem errorHere (h : Tracks F s c) (cause : SyntaxError.Cause) :
    (Unbounded.errorHere cause : Read SyntaxError) c = some (.ok (s.errorHere cause), c) := by
  have hget : (get : Read Cursor) c = some (.ok c, c) := rfl
  rw [Unbounded.errorHere, read_bind_of_ok h.current, read_bind_of_ok hget, h.position]
  rfl

theorem record (h : Tracks F s c) (e : SyntaxError) :
    Tracks F (s.record e) { c with errors := c.errors.push e } :=
  { h with errors := by simp [State.record, h.errors] }

theorem take_none (h : Tracks F s c) {right : TokenKind → Bool}
    (hs : ∀ t ∈ s.rest.head?, right t.kind = false) :
    (Unbounded.take? right : Read (Option Token)) c = some (.ok none, c) := by
  have hsees : (s.rest.head?.any fun t => right t.kind) = false := by
    cases hrest : s.rest with
    | nil => rfl
    | cons t rest => exact hs t (by simp [hrest])
  rw [Unbounded.take?, read_bind_of_ok (h.sees right), hsees]
  rfl

theorem take_some (h : Tracks F s c) {right : TokenKind → Bool} {t : Token} {rest : List Token}
    (hs : s.rest = t :: rest) (ht : right t.kind = true) :
    (Unbounded.take? right : Read (Option Token)) c =
      some (.ok (some t), { c with position := c.position + 1, passed := c.position :: c.passed }) := by
  have hsees : (s.rest.head?.any fun t => right t.kind) = true := by
    rw [hs]
    exact ht
  have hprevious : (Unbounded.previous : Read Token)
      { c with position := c.position + 1, passed := c.position :: c.passed } =
      some (.ok t, { c with position := c.position + 1, passed := c.position :: c.passed }) := by
    have hget := h.getElem?_position
    rw [current_of_rest hs] at hget
    simp only [Unbounded.previous, Unbounded.look, Nat.add_sub_cancel, hget, Option.map_some]
  rw [Unbounded.take?, read_bind_of_ok (h.sees right), hsees, if_pos rfl, read_bind_of_ok (h.advance hs),
    read_bind_of_ok hprevious]
  rfl

end Tracks

section

variable {α β : Type} {n : Nat} {p q : Parse α} {r r' : Read α}

namespace Mirrors

theorem fail (cause : SyntaxError.Cause) :
    Mirrors n (fail cause : Parse α) (Unbounded.fail cause) := by
  intro F s c hs _
  rw [Unbounded.fail, read_bind_of_ok (hs.errorHere cause)]
  exact .error hs (Nat.le_refl _)

theorem errorHere (cause : SyntaxError.Cause) :
    Mirrors n (errorHere cause) (Unbounded.errorHere cause) := by
  intro F s c hs _
  rw [hs.errorHere]
  exact .ok hs (Nat.le_refl _)

theorem recordHere (cause : SyntaxError.Cause) :
    Mirrors n (recordHere cause) (Unbounded.recordHere cause) := by
  intro F s c hs _
  rw [Unbounded.recordHere, read_bind_of_ok (hs.errorHere cause)]
  exact .ok (hs.record _) (Nat.le_refl _)

theorem freshId : Mirrors n freshId Unbounded.freshId := by
  intro F s c hs _
  have hfresh : (Unbounded.freshId : Read ReferenceId) c =
      some (.ok s.nextId, { c with nextId := c.nextId + 1 }) := by
    rw [← hs.nextId]
    rfl
  rw [hfresh]
  exact .ok { hs with nextId := congrArg (· + 1) hs.nextId } (Nat.le_refl _)

/-- After a token that was taken fewer tokens are left. -/
theorem bind_take {right : TokenKind → Bool} {f : Option Token → Parse β} {g : Option Token → Read β}
    (hsome : ∀ t, Mirrors n (f (some t)) (g (some t))) (hnone : Mirrors (n + 1) (f none) (g none)) :
    Mirrors (n + 1) (Parsing.take? right >>= f) (Unbounded.take? right >>= g) := by
  intro F s c hs hlt
  cases hrest : s.rest with
  | nil =>
    have htake : Parsing.take? right s = .ok none s := by rw [Parsing.take?, hrest]
    rw [bind_of_ok htake, read_bind_of_ok (hs.take_none (by simp [hrest]))]
    exact hrest ▸ hnone hs hlt
  | cons t rest =>
    -- a token that is taken leaves fewer tokens, which is what allows a smaller `n` behind it
    by_cases ht : right t.kind = true
    · have htake : Parsing.take? right s = .ok (some t) s.advance := by simp only [Parsing.take?, hrest, if_pos ht]
      rw [bind_of_ok htake, read_bind_of_ok (hs.take_some hrest ht)]
      have hadvance : s.advance.rest = rest := by rw [advance_of_rest hrest]
      rw [hrest, List.length_cons] at hlt
      refine (hsome t (hs.step hrest) (by rw [hadvance]; omega)).mono ?_
      rw [hadvance]
      exact Nat.le_succ _
    · have htake : Parsing.take? right s = .ok none s := by simp only [Parsing.take?, hrest, if_neg ht]
      have hnot : ∀ t ∈ s.rest.head?, right t.kind = false := by
        simpa [hrest] using Bool.eq_false_iff.mpr ht
      rw [bind_of_ok htake, read_bind_of_ok (hs.take_none hnot)]
      exact hrest ▸ hnone hs hlt

/-- Where no token is left none is taken. -/
theorem bind_takeNone {right : TokenKind → Bool} {p : Parse β} {g : Option Token → Read β}
    (h : Mirrors 1 p (g none)) : Mirrors 1 p (Unbounded.take? right >>= g) := by
  intro F s c hs hlt
  have hrest : s.rest = [] := List.length_eq_zero_iff.mp (Nat.lt_one_iff.mp hlt)
  rw [read_bind_of_ok (hs.take_none (by simp [hrest]))]
  exact h hs hlt

theorem take? (right : TokenKind → Bool) : Mirrors n (take? right) (Unbounded.take? right) := by
  cases n with
  | zero => exact zero
  | succ n =>
    have h : Mirrors (n + 1) (Parsing.take? right >>= Pure.pure) (Unbounded.take? right >>= Pure.pure) :=
      bind_take (fun t => pure _) (pure _)
    rwa [bind_pure, bind_pure] at h

theorem expect (right : TokenKind → Bool) (cause : SyntaxError.Cause) :
    Mirrors n (expect right cause) (Unbounded.expect right cause) := by
  refine bind (take? right) fun o => ?_
  cases o with
  | none => exact fail cause
  | some t => exact pure t

theorem expectSymbol (sym : Symbol) (cause : SyntaxError.Cause) :
    Mirrors n (expectSymbol sym cause) (Unbounded.expectSymbol sym cause) := expect _ cause

theorem seesSymbol (sym : Symbol) : Mirrors n (seesSymbol sym) (Unbounded.sees (isSymbol sym)) := by
  intro F s c hs _
  have hsees : Parsing.seesSymbol sym s = .ok (s.rest.head?.any fun t => isSymbol sym t.kind) s := by
    have hlast := hs.last
    change EStateM.Result.ok (isSymbol sym s.current.kind) s = _
    rw [State.current]
    cases s.rest with
    | nil => simp [hlast, isSymbol]
    | cons t rest => rfl
  rw [hsees, hs.sees]
  exact .ok hs (Nat.le_refl _)

theorem takesSymbol (sym : Symbol) :
    Mirrors n (takesSymbol sym) (Unbounded.takesSymbol sym) :=
  bind (take? (isSymbol sym)) fun _ => pure _

theorem ifTakes {sym : Symbol} (hp : Mirrors n p r) (hq : Mirrors (n + 1) q r') :
    Mirrors (n + 1) (do if ← Parsing.takesSymbol sym then p else q)
      (do if ← Unbounded.takesSymbol sym then r else r') := by
  simp only [Parsing.takesSymbol, Unbounded.takesSymbol, bind_assoc, pure_bind]
  exact bind_take (fun t => hp) hq

theorem ifTakesNone {sym : Symbol} (h : Mirrors 1 q r') :
    Mirrors 1 q (do if ← Unbounded.takesSymbol sym then r else r') := by
  simp only [Unbounded.takesSymbol, bind_assoc, pure_bind]
  exact bind_takeNone h

/-- A step on the current token may leave it in place, or take it if it is not the end. -/
theorem current {f : Token → Parse β} {g : Token → Read β}
    (h : ∀ t, Mirrors (n + 1) (f t) (g t) ∨ t.kind ≠ .eof ∧ ∃ (q : Parse β) (r : Read β),
      f t = (do advance; q) ∧ g t = (do Unbounded.advance; r) ∧ Mirrors n q r) :
    Mirrors (n + 1) (do f (← Parsing.current)) (do g (← Unbounded.current)) := by
  intro F s c hs hlt
  change Agrees F s.rest.length (f s.current s) _
  rw [read_bind_of_ok hs.current]
  rcases h s.current with h | ⟨hk, q, r, hf, hg, h⟩
  · exact h hs hlt
  cases hrest : s.rest with
  | nil =>
    refine absurd ?_ hk
    simpa [State.current, hrest] using hs.last
  | cons t rest =>
    have hadvance : s.advance.rest = rest := by rw [advance_of_rest hrest]
    rw [hrest, List.length_cons] at hlt
    rw [hf, hg, read_bind_of_ok (hs.advance hrest)]
    refine (h (hs.step hrest) (by rw [hadvance]; omega)).mono ?_
    rw [hadvance]
    exact Nat.le_succ _

end Mirrors

/-- Lists with commas are read alike on both sides, with the same limit. -/
theorem mirrors_commaSeparated {item : Parse α} {r : Read α} {R : Nat → Read (List α)}
    {tooMany : SyntaxError.Cause}
    (hR : ∀ count, R count = do
      if maxArguments ≤ count then
        Unbounded.recordHere tooMany
      let first ← r
      if ← Unbounded.takesSymbol .comma then
        return first :: (← R (count + 1))
      else
        return [first])
    (hitem : Mirrors n item r) {fuel : Nat} (hfuel : n ≤ fuel + 1) (count : Nat) :
    Mirrors n (commaSeparated item tooMany fuel count) (R count) := by
  cases n with
  | zero => exact .zero
  | succ n =>
  -- fewer tokens are left behind each comma, so the bound goes down with the fuel
  induction fuel generalizing n count with
  | zero =>
    obtain rfl : n = 0 := Nat.le_zero.mp (Nat.le_of_succ_le_succ hfuel)
    have hone : Mirrors 1 (do return [← item]) (do
        let first ← r
        if ← Unbounded.takesSymbol .comma then
          return first :: (← R (count + 1))
        else
          return [first]) := .bind hitem fun first => .ifTakesNone (.pure [first])
    rw [commaSeparated, hR]
    exact .ite (.bind (.recordHere tooMany) fun _ => hone) hone
  | succ fuel ih =>
    have hsome : Mirrors (n + 1) (do
        let first ← item
        if ← takesSymbol .comma then
          return first :: (← commaSeparated item tooMany fuel (count + 1))
        else
          return [first]) (do
        let first ← r
        if ← Unbounded.takesSymbol .comma then
          return first :: (← R (count + 1))
        else
          return [first]) := by
      refine .bind hitem fun first => .ifTakes ?_ (.pure [first])
      cases n with
      | zero => exact .zero
      | succ n =>
        refine .bind (ih _ n (hitem.mono (Nat.le_succ _)) (Nat.le_of_succ_le_succ hfuel)) fun rest => ?_
        exact .pure (first :: rest)
    rw [commaSeparated, hR]
    exact .ite (.bind (.recordHere tooMany) fun _ => hsome) hsome

end

section

variable {n fuel : Nat} {operand value : Parse Expr} {ℓ : Level}

/-- Operators of one level are read alike on both sides. -/
theorem mirrors_operations (h : Mirrors n operand (Rule.operand ℓ).read) (hfuel : n ≤ fuel + 1)
    (left : Expr) : Mirrors n (operations ℓ operand fuel left) (Rule.operations ℓ left).read := by
  cases n with
  | zero => exact .zero
  | succ n =>
  induction fuel generalizing n left with
  | zero =>
    obtain rfl : n = 0 := Nat.le_zero.mp (Nat.le_of_succ_le_succ hfuel)
    rw [operations, Rule.read]
    exact .bind_takeNone (.pure left)
  | succ fuel ih =>
    rw [operations, Rule.read]
    refine .bind_take (fun operator => ?_) (.pure left)
    cases n with
    | zero => exact .zero
    | succ n =>
      have h' := h.mono (Nat.le_succ (n + 1))
      exact .bind h' fun right => ih _ n h' (Nat.le_of_succ_le_succ hfuel)

theorem mirrors_chain (h : Mirrors n operand (Rule.operand ℓ).read) (hfuel : n ≤ fuel + 1) :
    Mirrors n (chain ℓ fuel operand) (Rule.operators ℓ).read := by
  rw [Rule.read]
  exact .bind h fun left => mirrors_operations h hfuel left

theorem mirrors_signed (h : Mirrors n operand Rule.called.read) (hfuel : n ≤ fuel + 1) :
    Mirrors n (signed operand fuel) Rule.signed.read := by
  cases n with
  | zero => exact .zero
  | succ n =>
  induction fuel generalizing n with
  | zero =>
    obtain rfl : n = 0 := Nat.le_zero.mp (Nat.le_of_succ_le_succ hfuel)
    rw [Rule.read]
    exact .bind_takeNone h
  | succ fuel ih =>
    rw [signed, Rule.read]
    refine .bind_take (fun operator => ?_) h
    cases n with
    | zero => exact .zero
    | succ n =>
      exact .bind (ih n (h.mono (Nat.le_succ _)) (Nat.le_of_succ_le_succ hfuel)) fun right =>
        .pure (Expr.unary operator right)

/-- Argument lists are read alike on both sides. -/
theorem mirrors_calls (h : Mirrors n value Rule.expression.read) (hfuel : n ≤ fuel) (callee : Expr) :
    Mirrors (n + 1) (calls value fuel callee) (Rule.calls callee).read := by
  induction fuel generalizing n callee with
  | zero =>
    obtain rfl : n = 0 := Nat.le_zero.mp hfuel
    rw [calls, Rule.read]
    exact .ifTakesNone (.pure callee)
  | succ fuel ih =>
    rw [calls, Rule.read]
    refine .ifTakes ?_ (.pure callee)
    have harguments : Mirrors n (commaSeparated value .tooManyArguments fuel 0) (Rule.arguments 0).read :=
      mirrors_commaSeparated Rule.read_arguments h hfuel 0
    have hparenthesized : Mirrors n (parenthesized value .tooManyArguments fuel)
        Rule.parenthesizedArguments.read := by
      rw [Rule.read]
      exact .bind (.seesSymbol .rightParen) fun _ => .ite (.pure []) harguments
    refine .bind hparenthesized fun arguments => .bind (.expectSymbol .rightParen _) fun paren => ?_
    cases n with
    | zero => exact .zero
    | succ n => exact ih (h.mono (Nat.le_succ n)) (Nat.le_of_succ_le_succ hfuel) _

/-- What stands at the front of an operand is read alike on both sides. -/
theorem mirrors_primary (h : Mirrors n value Rule.expression.read) :
    Mirrors (n + 1) (primary value) Rule.primary.read := by
  rw [Rule.read]
  refine .current fun t => ?_
  obtain ⟨kind, lexeme, line⟩ := t
  cases kind with
  | keyword k =>
    cases k with
    | falseKw => exact .inr ⟨by simp, _, _, rfl, rfl, .pure _⟩
    | trueKw => exact .inr ⟨by simp, _, _, rfl, rfl, .pure _⟩
    | nilKw => exact .inr ⟨by simp, _, _, rfl, rfl, .pure _⟩
    | _ => exact .inl (.fail _)
  | number x => exact .inr ⟨by simp, _, _, rfl, rfl, .pure _⟩
  | string s => exact .inr ⟨by simp, _, _, rfl, rfl, .pure _⟩
  | identifier => exact .inr ⟨by simp, _, _, rfl, rfl, .bind .freshId fun id => .pure _⟩
  | symbol s =>
    cases s with
    | leftParen =>
      exact .inr ⟨by simp, _, _, rfl, rfl, .bind h fun inner =>
        .bind (.expectSymbol .rightParen _) fun _ => .pure _⟩
    | _ => exact .inl (.fail _)
  | eof => exact .inl (.fail _)

theorem mirrors_called (h : Mirrors n value Rule.expression.read) (hfuel : n ≤ fuel) :
    Mirrors (n + 1) (called value fuel) Rule.called.read := by
  rw [Rule.read]
  exact .bind (mirrors_primary h) fun callee => mirrors_calls h hfuel callee

theorem mirrors_operators (h : Mirrors n value Rule.expression.read) (hfuel : n ≤ fuel) :
    Mirrors (n + 1) (operators value fuel) (Rule.operators .or).read := by
  have hfuel' : n + 1 ≤ fuel + 1 := Nat.succ_le_succ hfuel
  have unary := mirrors_signed (mirrors_called h hfuel) hfuel'
  have next {ℓ ℓ' : Level} {operand : Parse Expr} (hℓ : Grammar.tighter? ℓ = some ℓ')
      (h : Mirrors (n + 1) operand (Rule.operators ℓ').read) :
      Mirrors (n + 1) operand (Rule.operand ℓ).read := by
    rw [Rule.read, hℓ]
    exact h
  have operand : Mirrors (n + 1) (signed (called value fuel) fuel) (Rule.operand .factor).read := by
    rw [Rule.read]
    exact unary
  have factor := mirrors_chain operand hfuel'
  have term := mirrors_chain (next (ℓ := .term) rfl factor) hfuel'
  have comparison := mirrors_chain (next (ℓ := .comparison) rfl term) hfuel'
  have equality := mirrors_chain (next (ℓ := .equality) rfl comparison) hfuel'
  have and := mirrors_chain (next (ℓ := .and) rfl equality) hfuel'
  exact mirrors_chain (next (ℓ := .or) rfl and) hfuel'

/-- Expressions are read alike, if there is fuel for each token. -/
theorem mirrors_expression (hfuel : n ≤ fuel) : Mirrors n (expression fuel) Rule.expression.read := by
  induction fuel generalizing n with
  | zero =>
    obtain rfl : n = 0 := Nat.le_zero.mp hfuel
    exact .zero
  | succ fuel ih =>
    cases n with
    | zero => exact .zero
    | succ n =>
      have hvalue := ih (Nat.le_of_succ_le_succ hfuel)
      rw [expression, assignment, Rule.read]
      refine .bind (mirrors_operators hvalue (Nat.le_of_succ_le_succ hfuel)) fun target =>
        .bind (.errorHere _) fun invalid => .ifTakes (.bind hvalue fun value => ?_) (.pure target)
      cases target with
      | reference id name => exact .bind .freshId fun id => .pure (Expr.assign id name value)
      | _ => exact .throw invalid

end

end LoxLang.Parsing

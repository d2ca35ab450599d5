import LoxLang.Proofs.Parsing.MirroredStatements
import LoxLang.Proofs.Session.Reports

/-!
Reading without a bound always ends, whatever the tokens are, with what reading within the bound gives.
The cursor stays among the tokens up to the first end of the input, each declaration that is begun takes
a token, and each error is reported once. Main statement: `program_total`.
-/
namespace LoxLang.Parsing

open Unbounded (Rule)

section

variable {F : Frame} {s : State} {c : Cursor} {item : Recover (Option Stmt)} {n fuel : Nat}

theorem Tracks.declaration (hitem : Mirrors n (unstopped item) Rule.declaration.read) (h : Tracks F s c)
    (hlt : s.rest.length < n) : ∃ c',
      Rule.declaration.read c = some (.ok (item s).1, c') ∧ Tracks F (item s).2 c' := by
  have hfirst : unstopped item s = .ok (item s).1 (item s).2 := rfl
  have hagrees := hitem h hlt
  rw [hfirst] at hagrees
  generalize Rule.declaration.read c = x at hagrees
  obtain ⟨htracks, -⟩ := hagrees
  exact ⟨_, rfl, htracks⟩

theorem Tracks.drain (h : Tracks F s c) :
    (Unbounded.drain : Read (List SyntaxError)) c =
        some (.ok c.errors.toList, { c with errors := #[] }) ∧
      Tracks { F with reported := F.reported ++ c.errors.toList } s { c with errors := #[] } :=
  ⟨rfl, { h with errors := by simp [h.errors] }⟩

theorem Tracks.program_end (h : Tracks F s c) (hend : s.rest = []) (hquiet : c.errors = #[])
    (reporter : Reporter) : ∃ es c',
      (Rule.program reporter).read c = some (.ok ([], reporter.reportAll (es.map (·.diagnostic))), c') ∧
      Tracks { F with reported := F.reported ++ es } s c' ∧ c'.errors = #[] := by
  refine ⟨[], c, ?_, { h with errors := by simpa using h.errors }, hquiet⟩
  rw [Rule.read, read_bind_of_ok h.atEnd, hend]
  rfl

/-- Declarations up to the end of the input are read as within the bound, and what they leave behind is
reported. -/
theorem Tracks.program (hproceeds : Proceeds item)
    (hitem : Mirrors n (unstopped item) Rule.declaration.read) (h : Tracks F s c)
    (hlt : s.rest.length < n) (hfuel : s.rest.length ≤ fuel) (hquiet : c.errors = #[])
    (reporter : Reporter) : ∃ es c',
      (Rule.program reporter).read c = some (.ok ((program item fuel s).1,
        reporter.reportAll (es.map (·.diagnostic))), c') ∧
      Tracks { F with reported := F.reported ++ es } (program item fuel s).2 c' ∧
      c'.errors = #[] := by
  induction fuel generalizing F s c reporter with
  | zero => exact h.program_end (List.length_eq_zero_iff.mp (Nat.le_zero.mp hfuel)) hquiet reporter
  | succ fuel ih =>
    by_cases hend : s.rest = []
    · rw [program_of_rest_eq_nil hend]
      exact h.program_end hend hquiet reporter
    -- a declaration takes at least one token, so the bound on them is kept
    have hless := hproceeds.length_rest_lt h.last hend
    obtain ⟨c₁, hread, htracks⟩ := h.declaration hitem hlt
    obtain ⟨hdrain, hdrained⟩ := htracks.drain
    obtain ⟨es, c', hrest, htracks', hquiet'⟩ := ih hdrained (by omega) (by omega) rfl
      (reporter.reportAll (c₁.errors.toList.map (·.diagnostic)))
    refine ⟨c₁.errors.toList ++ es, c', ?_, ?_, hquiet'⟩
    · have hmore : s.rest.isEmpty = false := List.isEmpty_eq_false_iff.mpr hend
      rw [Rule.read, read_bind_of_ok h.atEnd, hmore, if_neg Bool.false_ne_true,
        read_bind_of_ok hread, read_bind_of_ok hdrain, read_bind_of_ok hrest, program_of_rest_ne_nil hend,
        List.map_append, Reporter.reportAll_append]
      rfl
    · rw [program_of_rest_ne_nil hend]
      simpa only [List.append_assoc] using htracks'

end

section

variable (nextId : ReferenceId) (tokens : List Token)

def addedEnd : Token := ⟨.eof, "", (tokens.getLast?.map (·.line)).getD 1⟩

/-- Tokens without an end get one, and others stay as they are. -/
theorem ended_eq_or : ended tokens = tokens ∧ (∃ t ∈ tokens, t.kind = .eof) ∨
    ended tokens = tokens ++ [addedEnd tokens] := by
  unfold ended addedEnd
  cases hlast : tokens.getLast? with
  | none =>
    rw [List.getLast?_eq_none_iff.mp hlast]
    exact .inr rfl
  | some t =>
    by_cases ht : t.kind.isEof = true
    · exact .inl ⟨if_pos ht, t, List.mem_of_getLast? hlast, isEof_iff.mp ht⟩
    · exact .inr (if_neg ht)

/-- The tokens that are read have an end, which is where reading stops. -/
theorem ended_eq_append :
    ∃ after, ended tokens = body tokens ++ (State.start nextId tokens).last :: after := by
  by_cases hend : ∃ t ∈ tokens, t.kind = .eof
  · obtain ⟨after, htokens⟩ := exists_eq_body_append hend nextId
    rcases ended_eq_or tokens with ⟨hended, -⟩ | hended
    · exact ⟨after, hended.trans htokens⟩
    · refine ⟨after ++ [addedEnd tokens], ?_⟩
      rw [hended]
      exact (congrArg (· ++ _) htokens).trans (by rw [List.append_assoc, List.cons_append])
  · have hne : ∀ t ∈ tokens, (!t.kind.isEof) = true := by
      intro t ht
      have hnot : ¬t.kind.isEof = true := fun heof => hend ⟨t, ht, isEof_iff.mp heof⟩
      simpa using hnot
    have hbody : body tokens = tokens := List.takeWhile_eq_self_iff.mpr hne
    have hlast : (State.start nextId tokens).last = addedEnd tokens := by
      simp only [State.start, List.dropWhile_eq_nil_iff.mpr hne]
      rfl
    refine ⟨[], ?_⟩
    rw [hbody, hlast]
    exact (ended_eq_or tokens).resolve_left fun h => hend h.2

/-- A run that a list stops is the same whatever follows. -/
theorem takeWhile_append_cons {α : Type} {p : α → Bool} {a : α} (h : p a = false) (as bs : List α) :
    (as ++ a :: bs).takeWhile p = as.takeWhile p := by
  induction as with
  | nil => simp [h]
  | cons b as ih => simp only [List.cons_append, List.takeWhile_cons, ih]

theorem dropWhile_append_cons {α : Type} {p : α → Bool} {a : α} (h : p a = false) (as bs : List α) :
    (as ++ a :: bs).dropWhile p = as.dropWhile p ++ a :: bs := by
  induction as with
  | nil => simp [h]
  | cons b as ih =>
    simp only [List.cons_append, List.dropWhile_cons, ih]
    split <;> rfl

/-- Nothing after the first end of the input is read. -/
theorem parse_append_end {last : Token} (hlast : last.kind = .eof) (us : List Token) :
    parse nextId (tokens ++ last :: us) = parse nextId (tokens ++ [last]) := by
  have hstart : State.start nextId (tokens ++ last :: us) = State.start nextId (tokens ++ [last]) := by
    let p (t : Token) : Bool := !t.kind.isEof
    have hstop : p last = false := by simp [p, hlast, TokenKind.isEof]
    have htake (us : List Token) : (tokens ++ last :: us).takeWhile p = tokens.takeWhile p :=
      takeWhile_append_cons hstop tokens us
    have hdrop (us : List Token) :
        (tokens ++ last :: us).dropWhile p = tokens.dropWhile p ++ last :: us :=
      dropWhile_append_cons hstop tokens us
    simp only [State.start]
    rw [htake us, htake [], hdrop us, hdrop []]
    cases tokens.dropWhile p <;> rfl
  rw [parse, parse, hstart]

/-- A cursor among the tokens of a program, and the state at its place. -/
theorem tracks_of_position {c : Cursor} (htokens : c.tokens = ended tokens)
    (hposition : c.position ≤ (body tokens).length) :
    Tracks ⟨ended tokens, c.passed, []⟩
      ⟨(body tokens).drop c.position, c.position, (State.start nextId tokens).last, c.nextId, c.errors⟩
      c where
  tokens := htokens
  position := rfl
  nextId := rfl
  errors := rfl
  ahead := by
    obtain ⟨after, hended⟩ := ended_eq_append nextId tokens
    exact ⟨after, by rw [hended, List.drop_append_of_le_length hposition]⟩
  inside t ht := by
    have hnot := List.mem_takeWhile_imp (List.mem_of_mem_drop ht)
    intro heof
    simp [heof, TokenKind.isEof] at hnot
  last := kind_last_start nextId tokens
  passed := ⟨[], rfl, List.forall_mem_nil _⟩

/-- Reading without a bound ends, whatever the tokens are: with the statements and errors that are read
within the bound, each error reported once and in its turn. The cursor ends at the first end of the input,
having stood at places before it only, and what follows that end makes no difference. Wherever the
cursor stands before the end, a declaration takes it further, and not past the end. No more errors that
stop a declaration are found than there are tokens. -/
theorem program_total (reporter : Reporter) (nextId : ReferenceId) (tokens : List Token) :
    let n := (body tokens).length
    let parsed := parse nextId tokens
    (∃ passed, (Rule.program reporter).read ⟨ended tokens, 0, [], nextId, #[]⟩ =
        some (.ok (parsed.statements, reporter.reportAll (parsed.errors.map (·.diagnostic))),
          ⟨ended tokens, n, passed, parsed.nextId, #[]⟩) ∧ ∀ p ∈ passed, p < n) ∧
    (∃ last, (ended tokens)[n]? = some last ∧ last.kind = .eof) ∧
    (∀ ts last us, tokens = ts ++ last :: us → last.kind = .eof →
      parsed = parse nextId (ts ++ [last])) ∧
    (∀ c : Cursor, c.tokens = ended tokens → c.position < n → ∃ first c',
      Rule.declaration.read c = some (.ok first, c') ∧ c'.tokens = ended tokens ∧
        c.position < c'.position ∧ c'.position ≤ n) ∧
    parsed.errors.countP (!·.cause.isLimit) ≤ n := by
  intro n parsed
  obtain ⟨after, hended⟩ := ended_eq_append nextId tokens
  have hmoves := (moves_readAll nextId tokens).1
  refine ⟨?_, ⟨_, ?_, kind_last_start nextId tokens⟩, ?_, ?_, hmoves.few⟩
  · have hstart : Tracks ⟨ended tokens, [], []⟩ (State.start nextId tokens)
        ⟨ended tokens, 0, [], nextId, #[]⟩ :=
      tracks_of_position nextId tokens (c := ⟨ended tokens, 0, [], nextId, #[]⟩) rfl (Nat.zero_le _)
    obtain ⟨es, ⟨_, _, passed, _, _⟩, hread, htracks, hquiet⟩ := hstart.program
      (starts_statement_declaration (2 * n + 2)).2 (mirrors_declaration (n := n + 1) (Nat.le_refl _))
      (Nat.lt_succ_self n) (Nat.le_trans (Nat.le_mul_of_pos_left n Nat.two_pos) (Nat.le_add_right _ 2))
      rfl reporter
    obtain rfl := htracks.tokens
    obtain rfl := htracks.nextId
    obtain rfl : _ = #[] := hquiet
    have hend : (readAll nextId tokens).2.position = n := hmoves.position.trans (Nat.zero_add _)
    obtain rfl : _ = n := htracks.position.trans hend
    have herrors : parsed.errors = es := (htracks.errors).trans (List.append_nil es)
    obtain ⟨new, hpassed, hbefore⟩ := htracks.passed
    refine ⟨passed, ?_, ?_⟩
    · rw [hread, herrors]
      rfl
    · rw [show passed = new from hpassed.trans (List.append_nil new)]
      exact fun p hp => Nat.lt_of_lt_of_eq (hbefore p hp) hend
  · rw [hended, List.getElem?_append_right (Nat.le_refl _), Nat.sub_self]
    rfl
  · rintro ts last us rfl hlast
    exact parse_append_end nextId ts hlast us
  · intro c htokens hposition
    have htracks := tracks_of_position nextId tokens htokens (Nat.le_of_lt hposition)
    have hlength : ((body tokens).drop c.position).length = n - c.position := List.length_drop
    have hrest : (body tokens).drop c.position ≠ [] := List.ne_nil_of_length_pos (by omega)
    have hitem := mirrors_declaration (n := n + 1) (Nat.le_refl _)
    have hproceeds := (starts_statement_declaration (2 * (n + 1))).2
    generalize declaration (2 * (n + 1)) = item at hitem hproceeds
    obtain ⟨c', hread, htracks'⟩ := htracks.declaration hitem (by simp only [hlength]; omega)
    obtain ⟨ts, es, hdeclared, hne, -⟩ := hproceeds _ htracks.last hrest
    have hpos := List.length_pos_iff.mpr hne
    have hsplit := congrArg List.length hdeclared.rest
    have hposition' := hdeclared.position
    simp only [hlength, List.length_append] at hsplit hposition'
    refine ⟨_, c', hread, htracks'.tokens, ?_, ?_⟩
    · rw [htracks'.position]
      omega
    · rw [htracks'.position]
      omega

end

def strayBrace : List Token :=
  [⟨.symbol .rightBrace, "\x7d", 1⟩, ⟨.eof, "", 1⟩, ⟨.identifier, "a", 2⟩]

/-- The name makes no difference, and the declaration that is begun at the brace moves over it. -/
theorem program_total_strayBrace :
    parse 0 strayBrace = parse 0 [⟨.symbol .rightBrace, "\x7d", 1⟩, ⟨.eof, "", 1⟩] ∧
    ∃ first c', Rule.declaration.read ⟨ended strayBrace, 0, [], 0, #[]⟩ = some (.ok first, c') ∧
      c'.position = 1 := by
  obtain ⟨-, -, hafter, hmoves, -⟩ := program_total (Reporter.ofStream .unlimited) 0 strayBrace
  obtain ⟨first, c', hread, -, hlt, hle⟩ :=
    hmoves ⟨ended strayBrace, 0, [], 0, #[]⟩ rfl (Nat.lt_succ_self 0)
  exact ⟨hafter [_] _ [_] rfl rfl, first, c', hread, Nat.le_antisymm hle hlt⟩

end LoxLang.Parsing

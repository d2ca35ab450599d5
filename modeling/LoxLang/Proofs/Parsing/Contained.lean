import LoxLang.Proofs.Parsing.Completes
import LoxLang.Proofs.Parsing.Numbers
import LoxLang.Proofs.Parsing.Relabelled

/-!
Simple statements with an error. Tokens up to a semicolon that open no other statement are read as a
simple statement, or left out after one error; what follows the semicolon is read as if they were not
there. Main statement: `declaration_contained`.
-/
namespace LoxLang.Parsing

open Unbounded (Rule)

open Grammar

def isPlain (k : TokenKind) : Bool :=
  !(k.isEof || startsStatement k || isSymbol .semicolon k || isSymbol .leftBrace k ||
    isSymbol .rightBrace k)

def opensSimple : TokenKind → Bool
  | .keyword .letKw | .keyword .printKw | .keyword .returnKw => true
  | _ => false

section

variable {s s' : State} {ts us k : List Token} {es : List SyntaxError} {semicolon t : Token}

theorem ne_of_isPlain {kind kind' : TokenKind} (h : isPlain kind = true) (h' : isPlain kind' = false) :
    kind ≠ kind' := by
  rintro rfl
  rw [h] at h'
  cases h'

theorem startsStatement_of_isPlain (h : isPlain t.kind = true) : startsStatement t.kind = false := by
  by_contra hstarts
  simp [isPlain, hstarts] at h

theorem isSymbol_semicolon_of_isPlain (h : isPlain t.kind = true) :
    isSymbol .semicolon t.kind = false :=
  Bool.eq_false_iff.mpr fun hsemicolon => ne_of_isPlain h rfl (isSymbol_iff.mp hsemicolon)

/-- Tokens without a semicolon that are taken are a front of those before the next semicolon. -/
theorem exists_append_of_append (h : us ++ semicolon :: k = ts ++ s.rest)
    (hsemicolon : semicolon.kind = .symbol .semicolon) (hts : ∀ t ∈ ts, t.kind ≠ .symbol .semicolon) :
    ∃ vs, us = ts ++ vs ∧ s.rest = vs ++ semicolon :: k := by
  rcases List.append_eq_append_iff.mp h with ⟨vs, rfl, hk⟩ | ⟨vs, hus, hrest⟩
  · cases vs with
    | nil => exact ⟨[], by rw [List.append_nil, List.append_nil], hk.symm⟩
    | cons t vs =>
      obtain ⟨rfl, -⟩ := List.cons.inj hk
      exact absurd hsemicolon (hts _ (by simp))
  · exact ⟨vs, hus, hrest⟩

theorem nextStatement_of_semicolon (h : semicolon.kind = .symbol .semicolon) :
    nextStatement semicolon k = (k, 0) := by
  cases k with
  | nil => rfl
  | cons t k => rw [nextStatement, if_pos (by simp [h, isSymbol])]

/-- Skipping plain tokens ends behind the first semicolon. -/
theorem nextStatement_of_isPlain {previous : Token} (hprevious : isSymbol .semicolon previous.kind = false)
    (hts : ∀ t ∈ ts, isPlain t.kind = true) (hsemicolon : semicolon.kind = .symbol .semicolon) :
    nextStatement previous (ts ++ semicolon :: k) = (k, ts.length + 1) := by
  induction ts generalizing previous with
  | nil =>
    rw [List.nil_append, nextStatement, if_neg (by simp [hprevious, hsemicolon, startsStatement]),
      nextStatement_of_semicolon hsemicolon]
    rfl
  | cons t ts ih =>
    obtain ⟨ht, hts⟩ := List.forall_mem_cons.mp hts
    rw [List.cons_append, nextStatement,
      if_neg (by simp [hprevious, startsStatement_of_isPlain ht]),
      ih (isSymbol_semicolon_of_isPlain ht) hts]
    rfl

/-- Going on after an error passes over the current token, whatever it is, and stops behind the
semicolon. -/
theorem resume_of_isPlain (hrest : s.rest = ts ++ semicolon :: k)
    (hfirst : ∀ t ∈ ts.head?, t.kind ≠ .symbol .semicolon)
    (hts : ∀ t ∈ ts.tail, isPlain t.kind = true) (hsemicolon : semicolon.kind = .symbol .semicolon) :
    s.resume = { s with rest := k, position := s.position + (ts.length + 1) } := by
  cases ts with
  | nil =>
    rw [resume_of_rest hrest, nextStatement_of_semicolon hsemicolon]
    rfl
  | cons t ts =>
    have ht : isSymbol .semicolon t.kind = false :=
      Bool.eq_false_iff.mpr fun h => hfirst t rfl (isSymbol_iff.mp h)
    have hnext : nextStatement t (ts ++ semicolon :: k) = (k, ts.length + 1) :=
      nextStatement_of_isPlain ht hts hsemicolon
    rw [List.cons_append] at hrest
    rw [resume_of_rest hrest, hnext, List.length_cons, Nat.add_assoc, Nat.add_comm 1]

end

section

variable {α : Type} {s : State} {fuel : Nat}

theorem recovering_congr {p q : Parse α} (h : p s = q s) : recovering p s = recovering q s := by
  rw [recovering, recovering, h]

theorem declaration_of_let (h : s.current.kind = .keyword .letKw) :
    declaration (fuel + 2) s = recovering (fun s => letDeclaration (fuel + 1) s.advance) s := by
  rw [declaration]
  refine recovering_congr ?_
  simp only [Bind.bind, EStateM.bind, current, h, advance]

theorem declaration_of_statement (hfun : s.current.kind ≠ .keyword .funKw)
    (hlet : s.current.kind ≠ .keyword .letKw) :
    declaration (fuel + 1) s = recovering (statement fuel) s := by
  rw [declaration]
  refine recovering_congr ?_
  simp only [Bind.bind, EStateM.bind, current]

theorem statement_of_print (h : s.current.kind = .keyword .printKw) :
    statement (fuel + 1) s = printStatement fuel s.advance := by
  simp only [statement, Bind.bind, EStateM.bind, current, h, advance]

theorem statement_of_return (h : s.current.kind = .keyword .returnKw) :
    statement (fuel + 1) s = returnStatement fuel s.current s.advance := by
  simp only [statement, Bind.bind, EStateM.bind, current, h, advance]

/-- A plain token, or a semicolon, opens an expression statement. -/
theorem statement_of_isPlain (h : isPlain s.current.kind = true ∨ s.current.kind = .symbol .semicolon) :
    statement (fuel + 1) s = expressionStatement fuel s := by
  have hkind (k : TokenKind) (hk : isPlain k = false) (hk' : k ≠ .symbol .semicolon) :
      s.current.kind ≠ k := by
    rcases h with h | h
    · exact ne_of_isPlain h hk
    · exact fun hcurrent => hk' (hcurrent.symm.trans h)
  have hbind {f : Token → Parse Stmt} : (current >>= f) s = f s.current s := rfl
  rw [statement, hbind]
  refine congrFun ?_ s
  split
  case h_7 => rfl
  all_goals
    next hk => exact absurd hk (hkind _ rfl (by simp))

end

section

variable {s : State} {fuel : Nat} {opening : Option Token} {inner us k : List Token} {semicolon : Token}

theorem kind_of_opensSimple {kind : TokenKind} (h : opensSimple kind = true) :
    kind = .keyword .letKw ∨ kind = .keyword .printKw ∨ kind = .keyword .returnKw := by
  unfold opensSimple at h
  split at h
  · exact .inl rfl
  · exact .inr (.inl rfl)
  · exact .inr (.inr rfl)
  · cases h

theorem ne_symbol_of_mem (hopening : ∀ t ∈ opening, opensSimple t.kind = true)
    (hinner : ∀ t ∈ inner, isPlain t.kind = true) {sym : Symbol} (hsym : isPlain (.symbol sym) = false) :
    ∀ t ∈ opening.toList ++ inner, t.kind ≠ .symbol sym := by
  refine List.forall_mem_append.mpr ⟨fun t ht => ?_, fun t ht => ne_of_isPlain (hinner t ht) hsym⟩
  rcases kind_of_opensSimple (hopening t (Option.mem_toList.mp ht)) with h | h | h <;> simp [h]

theorem isPlain_of_mem_tail (hinner : ∀ t ∈ inner, isPlain t.kind = true) :
    ∀ t ∈ (opening.toList ++ inner).tail, isPlain t.kind = true := by
  cases opening with
  | none => exact fun t ht => hinner t (List.mem_of_mem_tail ht)
  | some word => exact hinner

theorem isSymbol_rightBrace_current (hus : ∀ t ∈ us, t.kind ≠ .symbol .rightBrace)
    (hsemicolon : semicolon.kind = .symbol .semicolon) (hrest : s.rest = us ++ semicolon :: k) :
    isSymbol .rightBrace s.current.kind = false := by
  refine Bool.eq_false_iff.mpr fun h => ?_
  have hkind := isSymbol_iff.mp h
  cases us with
  | nil =>
    rw [current_of_rest hrest, hsemicolon] at hkind
    cases hkind
  | cons t us =>
    rw [current_of_rest hrest] at hkind
    exact hus t List.mem_cons_self hkind

variable (fuel) in
/-- Where nothing but a simple statement can stand, reading goes through a semicolon or stops before
one. -/
theorem exists_closing (hlast : s.last.kind = .eof) (hopening : ∀ t ∈ opening, opensSimple t.kind = true)
    (hinner : ∀ t ∈ inner, isPlain t.kind = true) (hsemicolon : semicolon.kind = .symbol .semicolon)
    (hrest : s.rest = opening.toList ++ inner ++ semicolon :: k) : ∃ p : Parse Stmt,
      declaration (fuel + 2) s = recovering p s ∧ Closing Simple s (p s) := by
  cases opening with
  | none =>
    have hcurrent : isPlain s.current.kind = true ∨ s.current.kind = .symbol .semicolon := by
      cases inner with
      | nil => exact .inr (by rw [current_of_rest hrest, hsemicolon])
      | cons t inner => exact .inl (by rw [current_of_rest hrest]; exact hinner t (by simp))
    have hword (w : Keyword) (hw : isPlain (.keyword w) = false) : s.current.kind ≠ .keyword w := by
      rcases hcurrent with h | h
      · exact ne_of_isPlain h hw
      · simp [h]
    refine ⟨statement (fuel + 1), declaration_of_statement (hword _ rfl) (hword _ rfl), ?_⟩
    rw [statement_of_isPlain hcurrent]
    exact (closes_expressionStatement fuel s hlast).mono fun _ _ h => h.1
  | some word =>
    have hcurrent : s.current = word := current_of_rest hrest
    have hmoves (htakes : Manner.within.takes word.kind) : Moves .within s s.advance [word] [] :=
      moves_advance hrest htakes
    rcases kind_of_opensSimple (hopening word rfl) with hword | hword | hword
    · refine ⟨_, declaration_of_let (by rw [hcurrent, hword]), ?_⟩
      have hmoves := hmoves (by simp [hword, Manner.within])
      exact .after hmoves ((closes_letDeclaration (fuel + 1) _ (by rw [hmoves.last, hlast])).mono
        fun _ _ h => h word hword)
    · refine ⟨statement (fuel + 1), declaration_of_statement (by simp [hcurrent, hword])
        (by simp [hcurrent, hword]), ?_⟩
      rw [statement_of_print (by rw [hcurrent, hword])]
      have hmoves := hmoves (by simp [hword, Manner.within])
      exact .after hmoves ((closes_printStatement fuel _ (by rw [hmoves.last, hlast])).mono
        fun _ _ h => h word hword)
    · refine ⟨statement (fuel + 1), declaration_of_statement (by simp [hcurrent, hword])
        (by simp [hcurrent, hword]), ?_⟩
      rw [statement_of_return (by rw [hcurrent, hword]), hcurrent]
      have hmoves := hmoves (by simp [hword, Manner.within])
      exact .after hmoves ((closes_returnStatement fuel word _ (by rw [hmoves.last, hlast])).mono
        fun _ _ h => h hword)

structure Passes (s s' : State) (ts k : List Token) (es : List SyntaxError) : Prop where
  rest : s'.rest = k
  position : s'.position = s.position + ts.length
  last : s'.last = s.last
  errors : s'.errors.toList = s.errors.toList ++ es

/-- A step that goes through the next semicolon or stops before it ends behind the semicolon, once its
error is recorded. -/
theorem passes_recovering {p : Parse Stmt} (h : Closing Simple s (p s))
    (hrest : s.rest = us ++ semicolon :: k) (hus : ∀ t ∈ us, t.kind ≠ .symbol .semicolon)
    (htail : ∀ t ∈ us.tail, isPlain t.kind = true) (hsemicolon : semicolon.kind = .symbol .semicolon) :
    ∃ es, Passes s (recovering p s).2 (us ++ [semicolon]) k es ∧
      ((∃ stmt, (recovering p s).1 = some stmt ∧ Simple (us ++ [semicolon]) stmt ∧
          ∀ e ∈ es, e.cause.isLimit = true) ∨
        (recovering p s).1 = none ∧ stopping es = 1) := by
  unfold recovering
  generalize p s = r at h
  cases h with
  | @ok s₁ ts rest es semicolon' stmt hmoves hrest₁ hsemicolon' hstmt =>
    obtain ⟨vs, rfl, hvs⟩ := exists_append_of_append (hrest.symm.trans hmoves.rest) hsemicolon hmoves.takes
    rw [hrest₁] at hvs
    -- the statement has ended at the first semicolon, which is the one of the hypothesis
    cases vs with
    | cons t vs =>
      obtain ⟨rfl, -⟩ := List.cons.inj hvs
      exact absurd hsemicolon' (hus _ (by simp))
    | nil =>
      obtain ⟨rfl, rfl⟩ := List.cons.inj hvs
      rw [List.append_nil]
      refine ⟨es, ?_, .inl ⟨stmt, rfl, hstmt, fun e he => ?_⟩⟩
      · rw [advance_of_rest hrest₁]
        exact {
          rest := rfl
          position := by simp [hmoves.position, Nat.add_assoc]
          last := hmoves.last
          errors := hmoves.errors }
      · rw [hmoves.records e he]
        rfl
  | @error s₁ ts es e hmoves haborts =>
    obtain ⟨vs, rfl, hvs⟩ := exists_append_of_append (hrest.symm.trans hmoves.rest) hsemicolon hmoves.takes
    have htail' : ∀ t ∈ vs.tail, isPlain t.kind = true := by
      intro t ht
      refine htail t ?_
      cases ts with
      | nil => exact ht
      | cons u ts => exact List.mem_append_right ts (List.mem_of_mem_tail ht)
    have hfirst : ∀ t ∈ vs.head?, t.kind ≠ .symbol .semicolon := fun t ht =>
      hus t (List.mem_append_right ts (List.mem_of_mem_head? ht))
    have hresume := resume_of_isPlain (s := s₁.record e) hvs hfirst htail' hsemicolon
    refine ⟨es ++ [e], ?_, .inr ⟨rfl, ?_⟩⟩
    · simp only [hresume]
      exact {
        rest := rfl
        position := by simp [State.record, hmoves.position, Nat.add_assoc]
        last := hmoves.last
        errors := by simp [State.record, hmoves.errors] }
    · have hone : stopping [e] = 1 := by simp [stopping, haborts.stopping]
      rw [stopping, List.countP_append, ← stopping, ← stopping, hmoves.stopping_within, hone]

end

section

variable {s : State} {ts k : List Token} {stmt : Stmt} {fuel : Nat}

def State.cursor (s : State) : Cursor where
  tokens := List.replicate s.position s.last ++ (s.rest ++ [s.last])
  position := s.position
  passed := []
  nextId := s.nextId
  errors := s.errors

theorem tracks_cursor (hlast : s.last.kind = .eof) (hinside : ∀ t ∈ s.rest, t.kind ≠ .eof) :
    Tracks ⟨s.cursor.tokens, [], []⟩ s s.cursor where
  tokens := rfl
  position := rfl
  nextId := rfl
  errors := rfl
  ahead := ⟨[], List.drop_left' List.length_replicate⟩
  inside := hinside
  last := hlast
  passed := ⟨[], rfl, List.forall_mem_nil _⟩

/-- Within the bound, too, a simple statement is read as its tree. -/
theorem declaration_of_simple (h : Simple ts stmt) (hlast : s.last.kind = .eof)
    (hinside : ∀ t ∈ s.rest, t.kind ≠ .eof) (hrest : s.rest = ts ++ k)
    (hfuel : 2 * s.rest.length + 2 ≤ fuel) :
    ∃ stmt', (declaration fuel s).1 = some stmt' ∧ SameStmt stmt stmt' := by
  obtain ⟨stmt', s', c', hread, -, -, hstmt⟩ := gets_declared h k (tracks_cursor hlast hinside) hrest
  have hagrees := mirrors_declaration (n := s.rest.length + 1) hfuel (tracks_cursor hlast hinside)
    (Nat.lt_succ_self _)
  rcases hd : declaration fuel s with ⟨first, s₁⟩
  have hok : unstopped (declaration fuel) s = .ok first s₁ := by rw [unstopped, hd]
  rw [declaration_of_ok hread, hok] at hagrees
  cases hagrees
  exact ⟨stmt', rfl, hstmt⟩

end

section

variable {s : State} {item : Recover (Option Stmt)} {fuel : Nat}

/-- What reading from `s'` on has more than reading of the same tokens from `s` on without any errors
found before: the ids, places and errors of what stands between the two. -/
def between (s s' : State) : Relabelling where
  token := id
  kind_token _ := rfl
  ids := s'.nextId - s.nextId
  places := s'.position - s.position
  found := s'.errors

def State.without (s : State) (k : List Token) : State := { s with rest := k, errors := #[] }

/-- Reading on from behind the piece is reading without the piece, in the other reading. -/
theorem relabel_without {s' : State} {ts k : List Token} {es : List SyntaxError}
    (h : Passes s s' ts k es) (hid : s.nextId ≤ s'.nextId) :
    (s.without k).relabel (between s s') = s' := by
  obtain ⟨rest, position, last, nextId, errors⟩ := s'
  obtain rfl : rest = k := h.rest
  obtain rfl : last = s.last := h.last
  have hposition : s.position + (position - s.position) = position :=
    Nat.add_sub_cancel' (by rw [show position = _ from h.position]; exact Nat.le_add_right _ _)
  simp only [State.relabel, State.without, between, List.map_id_fun, id_eq, Array.map_empty,
    Array.append_empty, hposition, Nat.add_sub_cancel' hid]

/-- After an error, declarations are read as if what stands before `k` were not there. -/
theorem program_of_none (h : (item s).1 = none) (hrest : s.rest ≠ [])
    (hrelabels : ∀ C, Relabels C (Option.map C.onStmt) (unstopped item) (unstopped item))
    {k : List Token} (hwithout : (s.without k).relabel (between s (item s).2) = (item s).2) (n : Nat) :
    program item (n + 1) s =
      ((program item n (s.without k)).1.map (between s (item s).2).onStmt,
        (program item n (s.without k)).2.relabel (between s (item s).2)) := by
  have hprogram := relabels_program (hrelabels (between s (item s).2)) n (s.without k)
  rw [hwithout] at hprogram
  obtain ⟨hstatements, hstate⟩ := EStateM.Result.ok.inj hprogram
  rw [program_of_rest_ne_nil hrest, h, hstatements, hstate]
  rfl

/-- A block goes on behind a declaration without a result as if that had not been there. -/
theorem block_of_none (h : (item s).1 = none) (hrest : s.rest ≠ [])
    (hbrace : isSymbol .rightBrace s.current.kind = false)
    (hrelabels : ∀ C, Relabels C (Option.map C.onStmt) (unstopped item) (unstopped item))
    {k : List Token} (hwithout : (s.without k).relabel (between s (item s).2) = (item s).2) (n : Nat) :
    block item (n + 1) s = Changed (State.relabel (between s (item s).2)) (between s (item s).2).onError
      (List.map (between s (item s).2).onStmt) (block item n (s.without k)) := by
  have hblock := relabels_block (hrelabels (between s (item s).2)) n (s.without k)
  rw [hwithout] at hblock
  have hfirst : unstopped item s = .ok none (item s).2 := by rw [← h]; rfl
  rw [block_succ, if_neg (by simp [hbrace, hrest]), bind_of_ok hfirst]
  have hnothing : (do return (none : Option Stmt).toList ++ (← block item n)) = block item n := by
    simp
  rw [hnothing, hblock]

theorem nextId_le_declaration (s : State) (fuel : Nat) : s.nextId ≤ (declaration fuel s).2.nextId :=
  ((numbers_statement_declaration fuel).2 s s.nextId (Nat.le_refl _) (.nil _ _)).1

end

/-- Where a declaration is to be read, let there be a word of a simple statement or none, then tokens of
which none opens or ends another statement, then a semicolon. What is taken is all of these tokens. If
they are a simple statement, it is the result, and the errors are about lengths only. Otherwise there is
no result and one error besides those about lengths, and both a program and a block go on as they would
if these tokens were not there: with the same statements and errors, but for the ids and places that the
tokens have used up. -/
theorem declaration_contained {s : State} {opening : Option Token} {inner k : List Token}
    {semicolon : Token} {fuel : Nat} (hlast : s.last.kind = .eof) (hinside : ∀ t ∈ s.rest, t.kind ≠ .eof)
    (hopening : ∀ t ∈ opening, opensSimple t.kind = true)
    (hinner : ∀ t ∈ inner, isPlain t.kind = true) (hsemicolon : semicolon.kind = .symbol .semicolon)
    (hrest : s.rest = opening.toList ++ inner ++ semicolon :: k)
    (hfuel : 2 * s.rest.length + 2 ≤ fuel) :
    let piece := opening.toList ++ inner ++ [semicolon]
    let item := declaration fuel
    let s' := (item s).2
    ∃ es, Passes s s' piece k es ∧
      ((∃ stmt, Simple piece stmt ∧ (item s).1 = some stmt ∧
          (∀ stmt', Simple piece stmt' → SameStmt stmt stmt') ∧ ∀ e ∈ es, e.cause.isLimit = true) ∨
        (∀ stmt, ¬Simple piece stmt) ∧ (item s).1 = none ∧ stopping es = 1 ∧ ∀ n,
          program item (n + 1) s = ((program item n (s.without k)).1.map (between s s').onStmt,
            (program item n (s.without k)).2.relabel (between s s')) ∧
          block item (n + 1) s = Changed (State.relabel (between s s')) (between s s').onError
            (List.map (between s s').onStmt) (block item n (s.without k))) := by
  intro piece item s'
  obtain ⟨fuel, rfl⟩ : ∃ m, fuel = m + 2 := ⟨fuel - 2, by omega⟩
  obtain ⟨p, hp, hclosing⟩ := exists_closing fuel hlast hopening hinner hsemicolon hrest
  have hpasses := passes_recovering hclosing hrest (ne_symbol_of_mem hopening hinner rfl)
    (isPlain_of_mem_tail hinner) hsemicolon
  rw [← hp] at hpasses
  obtain ⟨es, hpasses, hresult⟩ := hpasses
  refine ⟨es, hpasses, ?_⟩
  have hpiece : s.rest = piece ++ k := by simp [piece, hrest]
  rcases hresult with ⟨stmt, hstmt, hsimple, hlimits⟩ | ⟨hnone, hone⟩
  -- the tree that was read is the only one of these tokens
  · refine .inl ⟨stmt, hsimple, hstmt, fun stmt' hsimple' => ?_, hlimits⟩
    obtain ⟨stmt'', hstmt', hsame⟩ := declaration_of_simple hsimple' hlast hinside hpiece hfuel
    obtain rfl := Option.some.inj (hstmt.symm.trans hstmt')
    exact hsame.symm
  · refine .inr ⟨fun stmt hsimple => ?_, hnone, hone, fun n => ?_⟩
    · obtain ⟨stmt', hstmt', -⟩ := declaration_of_simple hsimple hlast hinside hpiece hfuel
      rw [hnone] at hstmt'
      cases hstmt'
    have hmore : s.rest ≠ [] := by simp [hrest]
    have hbrace := isSymbol_rightBrace_current (ne_symbol_of_mem hopening hinner rfl) hsemicolon hrest
    have hrelabels : ∀ C, Relabels C (Option.map C.onStmt) (unstopped item) (unstopped item) :=
      fun C => (relabels_statement_declaration _).2
    have hwithout := relabel_without hpasses (nextId_le_declaration s _)
    exact ⟨program_of_none hnone hmore hrelabels hwithout n,
      block_of_none hnone hmore hbrace hrelabels hwithout n⟩

def untargetedPrint : State where
  rest := [⟨.keyword .printKw, "print", 1⟩, ⟨.keyword .nilKw, "nil", 1⟩, ⟨.symbol .equal, "=", 1⟩,
    ⟨.identifier, "a", 1⟩, ⟨.symbol .semicolon, ";", 1⟩, ⟨.identifier, "a", 2⟩,
    ⟨.symbol .semicolon, ";", 2⟩]
  position := 0
  last := ⟨.eof, "", 2⟩
  nextId := 0
  errors := #[]

/-- The error is anchored at the sign, and found when the value has been read. -/
theorem declaration_contained_untargetedPrint :
    let s' := (declaration 16 untargetedPrint).2
    let k : List Token := [⟨.identifier, "a", 2⟩, ⟨.symbol .semicolon, ";", 2⟩]
    s'.rest = k ∧ (∃ es, s'.errors.toList = es ∧ stopping es = 1) ∧
      program (declaration 16) 2 untargetedPrint =
        ((program (declaration 16) 1 (untargetedPrint.without k)).1.map
            (between untargetedPrint s').onStmt,
          (program (declaration 16) 1 (untargetedPrint.without k)).2.relabel
            (between untargetedPrint s')) := by
  intro s' k
  have hnone : (declaration 16 untargetedPrint).1 = none := rfl
  obtain ⟨es, hpasses, ⟨stmt, -, hsome, -⟩ | ⟨-, -, hone, hrest⟩⟩ :=
    @declaration_contained untargetedPrint (some ⟨.keyword .printKw, "print", 1⟩)
      [⟨.keyword .nilKw, "nil", 1⟩, ⟨.symbol .equal, "=", 1⟩, ⟨.identifier, "a", 1⟩] k
      ⟨.symbol .semicolon, ";", 1⟩ 16 rfl (by simp [untargetedPrint]) (by simp [opensSimple])
      (by simp [isPlain, startsStatement, isSymbol, TokenKind.isEof]) rfl rfl (by decide)
  · rw [hnone] at hsome
    cases hsome
  · exact ⟨hpasses.rest, ⟨es, hpasses.errors, hone⟩, (hrest 1).1⟩

end LoxLang.Parsing

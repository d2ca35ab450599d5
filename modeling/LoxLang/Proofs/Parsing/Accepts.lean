import LoxLang.Proofs.Parsing.ReadsStatements

/-!
The reader accepts exactly the programs of the grammar. What it accepts it reads as the tree of a
derivation with each `else` at its nearest open `if`, and there is only one such tree.
-/
namespace LoxLang

open Grammar Parsing

def ended (tokens : List Token) : List Token :=
  match tokens.getLast? with
  | some t => if t.kind.isEof then tokens else tokens ++ [⟨.eof, "", t.line⟩]
  | none => [⟨.eof, "", 1⟩]

theorem isEof_iff {k : TokenKind} : k.isEof = true ↔ k = .eof := by
  cases k <;> simp [TokenKind.isEof]

theorem body_append_of_ne_eof {ts us : List Token} (h : ∀ t ∈ ts, t.kind ≠ .eof) :
    body (ts ++ us) = ts ++ body us := by
  refine List.takeWhile_append_of_pos fun t ht => ?_
  have hne : ¬t.kind.isEof = true := fun he => h t ht (isEof_iff.mp he)
  simpa using hne

/-- Without an end before the last token, the tokens are the body of the program and its end. -/
theorem ended_eq_body {tokens : List Token} (h : ∀ t ∈ tokens.dropLast, t.kind ≠ .eof) :
    ∃ last, ended tokens = body tokens ++ [last] ∧ last.kind = .eof := by
  rcases List.eq_nil_or_concat tokens with rfl | ⟨ts, t, rfl⟩
  · exact ⟨_, rfl, rfl⟩
  rw [List.concat_eq_append] at h ⊢
  have hbody : body (ts ++ [t]) = ts ++ body [t] :=
    body_append_of_ne_eof fun u hu => h u (by simpa using hu)
  by_cases ht : t.kind.isEof = true
  · refine ⟨t, ?_, isEof_iff.mp ht⟩
    rw [hbody]
    simp [ended, body, ht]
  · refine ⟨⟨.eof, "", t.line⟩, ?_, rfl⟩
    rw [hbody]
    simp [ended, body, ht]

/-- A program with its end is a list of declarations without it. -/
theorem program_iff_declarations {tokens : List Token} (h : ∀ t ∈ tokens.dropLast, t.kind ≠ .eof)
    (nearest : Bool) (stmts : List Stmt) :
    Program nearest (ended tokens) stmts ↔ Declarations nearest (body tokens) stmts := by
  obtain ⟨last, hended, hlast⟩ := ended_eq_body h
  rw [hended]
  constructor
  · intro hprogram
    generalize hts : body tokens ++ [last] = ts at hprogram
    obtain ⟨hdeclarations, -⟩ := hprogram
    rwa [(List.append_inj' hts rfl).1]
  · intro hdeclarations
    exact .mk hdeclarations hlast

/-- Reading tokens that hold no end before the last one leaves no error behind if and only if they are
a program of the grammar. The statements read are then a tree of it, and up to ids the tree of every
derivation with each `else` at its nearest open `if`, of which there is one. -/
theorem parse_derives (nextId : ReferenceId) (tokens : List Token)
    (h : ∀ t ∈ tokens.dropLast, t.kind ≠ .eof) :
    ((parse nextId tokens).errors = [] ↔ ∃ stmts, Program false (ended tokens) stmts) ∧
    ((parse nextId tokens).errors = [] →
      Program false (ended tokens) (parse nextId tokens).statements ∧
      ∃ stmts, Program true (ended tokens) stmts) ∧
    ∀ stmts, Program true (ended tokens) stmts →
      stmts.map Stmt.withoutIds = (parse nextId tokens).statements.map Stmt.withoutIds := by
  have hsound (herrors : (parse nextId tokens).errors = []) :
      Program false (ended tokens) (parse nextId tokens).statements :=
    (program_iff_declarations h false _).mpr (declarations_of_parse herrors)
  have hcomplete {stmts : List Stmt} (hprogram : Program true (ended tokens) stmts) :=
    parse_of_declarations ((program_iff_declarations h true stmts).mp hprogram) nextId
  refine ⟨⟨fun herrors => ⟨_, hsound herrors⟩, ?_⟩, ?_, ?_⟩
  · rintro ⟨stmts, hprogram⟩
    obtain ⟨stmts', hprogram⟩ := hprogram.toNearest
    exact (hcomplete hprogram).1
  · intro herrors
    exact ⟨hsound herrors, (hsound herrors).toNearest⟩
  · intro stmts hprogram
    exact (hcomplete hprogram).2.symm

def nestedIf : List Token :=
  let word (k : Keyword) : Token := ⟨.keyword k, k.spelling, 1⟩
  let mark (s : Symbol) : Token := ⟨.symbol s, String.ofList s.spelling, 1⟩
  let a : Token := ⟨.identifier, "a", 1⟩
  let condition := [mark .leftParen, a, mark .rightParen]
  let call := [a, mark .semicolon]
  word .ifKw :: condition ++ word .ifKw :: condition ++ call ++ word .elseKw :: call

theorem parse_nestedIf : (∀ t ∈ nestedIf.dropLast, t.kind ≠ .eof) ∧
    (∃ stmts, Program true (ended nestedIf) stmts) ∧
    (parse 0 nestedIf).statements.map Stmt.withoutIds =
      let a : Expr := .reference 0 ⟨.identifier, "a", 1⟩
      [.ifThen a (.ifElse a (.expression a) (.expression a))] := by
  have h : ∀ t ∈ nestedIf.dropLast, t.kind ≠ .eof := by
    simp [nestedIf]
  exact ⟨h, ((parse_derives 0 nestedIf h).2.1 rfl).2, rfl⟩

end LoxLang

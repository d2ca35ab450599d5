import LoxLang.Proofs.Lexical.Relabelled
import LoxLang.Proofs.Lexical.Reported
import LoxLang.Proofs.Parsing.AdvancesStatements
import LoxLang.Proofs.Renaming.Places

/-!
The static errors of a text are the violations of the rules in its program. Whatever the parser makes of a
text, also of one with syntax errors, the walk goes over all of it, and each violation is reported at its
own token.
-/
namespace LoxLang

open Parsing (FitsAll body moves_readAll)
open Lexical (HasNames Surroundings Violates violationsAll)
open Renaming (lineAt numbered)

section

variable (text : String)

theorem fitsAll_placed : FitsAll (numbered (tokensOf text)) (Renaming.placed text) :=
  (moves_readAll 0 _).2.sublist (List.takeWhile_sublist _)

/-- With other ids the program of a text is the same, but for the ids. -/
theorem statements_parse_eq (nextId : ReferenceId) : (parse nextId (tokensOf text)).statements =
    (Renaming.placed text).map (Stmt.relabel (· + nextId) (Token.mapLine (lineAt (tokensOf text)))) := by
  have hkind (t : Token) : (t.mapLine (lineAt (tokensOf text))).kind = t.kind := rfl
  have hparse := parse_relabel hkind nextId 0 (Renaming.exists_eof_mem_numbered text)
  rw [Renaming.map_mapLine_numbered, Nat.zero_add] at hparse
  rw [hparse]
  rfl

theorem errors_resolve_placed (distances : Distances) :
    (resolve distances (Renaming.placed text)).errors = violationsAll .outermost (Renaming.placed text) :=
  Lexical.reports_walkStmts (a := .outermost) (s := ⟨[], distances, #[]⟩) (Renaming.placed text)
    (fitsAll_placed text).1 HasNames.outermost

/-- The tokens of violations are tokens of the text, each behind the one before. -/
theorem tokens_violations_placed (a : Surroundings) :
    ((violationsAll a (Renaming.placed text)).map (·.token)).Sublist (numbered (tokensOf text)) :=
  (Lexical.tokens_violationsAll (Renaming.placed text)).trans (fitsAll_placed text).2

end

/-- The static errors of a text, with or without syntax errors, are the violations of the rules in its
program, in the order of their tokens and one for each, and when the walk is over no scope is open. The
program is written with the places of the tokens instead of their lines, to tell the tokens apart. -/
theorem errors_resolve_exact (distances : Distances) (nextId : ReferenceId) (text : String) :
    let tokens := tokensOf text
    let program := (parse nextId tokens).statements
    program = (Renaming.placed text).map (Stmt.relabel (· + nextId) (Token.mapLine (lineAt tokens))) ∧
    (∃ found : List ResolutionError,
      (∀ e, e ∈ found ↔ Violates (Renaming.placed text) e) ∧
      found.Pairwise (·.token.line < ·.token.line) ∧
      (∀ e ∈ found, tokens[e.token.line]? = some (e.token.mapLine (lineAt tokens))) ∧
      (resolve distances program).errors =
        found.map (ResolutionError.relabel (Token.mapLine (lineAt tokens)))) ∧
    (Resolution.walkStmts false ⟨[], distances, #[]⟩ program).scopes = [] := by
  intro tokens program
  have hprogram : program = _ := statements_parse_eq text nextId
  refine ⟨hprogram, ⟨violationsAll .outermost (Renaming.placed text), ?_, ?_, ?_, ?_⟩, ?_⟩
  · exact fun e => Lexical.mem_violationsAll_outermost
  -- the tokens are numbered by their places, and violations are listed in the order of the tokens
  · have hordered := (Renaming.pairwise_line_numbered tokens).sublist
      (tokens_violations_placed text .outermost)
    exact (List.pairwise_map (R := fun t t' : Token => t.line < t'.line)).mp hordered
  · intro e he
    have hmem : e.token ∈ numbered tokens :=
      (tokens_violations_placed text .outermost).subset (List.mem_map_of_mem he)
    exact Renaming.getElem?_line_of_mem_numbered hmem
  · rw [hprogram, ← errors_resolve_placed text distances]
    exact Resolution.errors_resolve_relabel_eq (g := Token.mapLine (lineAt tokens)) (fun _ => rfl)
      distances distances (Renaming.placed text)
  · have hshaped : ShapedAll program := (moves_readAll nextId tokens).2.1
    exact (Lexical.walks_walkStmts program hshaped false _).1.trans (Lexical.afterAll_nil program)

end LoxLang

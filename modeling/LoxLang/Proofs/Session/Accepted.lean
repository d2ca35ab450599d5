import LoxLang.Session
import LoxLang.Proofs.Grammar.Shape
import LoxLang.Proofs.Lexical.Relabelled
import LoxLang.Proofs.Parsing.Numbers
import LoxLang.Proofs.Parsing.ReadsStatements
import LoxLang.Proofs.Token.Seams

/-!
Texts in which no static error is found. Whether a text is one does not depend on the session that
runs it: ids and the distances known before have no influence on what is reported.
-/
namespace LoxLang

open Grammar Parsing

/-- Neither reading nor the static rules find anything wrong with the text. -/
def Accepted (text : String) : Prop :=
  (Front.ofText 0 text).diagnostics = [] ∧
    (resolve ∅ (Front.ofText 0 text).statements).errors = []

instance (text : String) : Decidable (Accepted text) :=
  decidable_of_iff ((Front.ofText 0 text).diagnostics = [] ∧
    (resolve ∅ (Front.ofText 0 text).statements).errors.length = 0)
    (and_congr_right fun _ => List.length_eq_zero_iff)

theorem exists_eof_mem_tokensOf (text : String) : ∃ t ∈ tokensOf text, t.kind = .eof := by
  refine ⟨⟨.eof, "", 1 + newlines text⟩, ?_, rfl⟩
  rw [tokensOf_eq]
  exact List.mem_append_right _ (List.mem_singleton.mpr rfl)

theorem diagnostics_ofText_eq_nil_iff (nextId : ReferenceId) (text : String) :
    (Front.ofText nextId text).diagnostics = [] ↔
      (scan text).filterMap Item.error? = [] ∧ (parse nextId (tokensOf text)).errors = [] := by
  simp [Front.ofText, tokensOf]

/-- With other ids, a list of tokens is read as the same tree up to ids. -/
theorem parse_of_parse {nextId : ReferenceId} {tokens : List Token}
    (h : (parse nextId tokens).errors = []) (nextId' : ReferenceId) :
    (parse nextId' tokens).errors = [] ∧
      (parse nextId' tokens).statements.map Stmt.withoutIds =
        (parse nextId tokens).statements.map Stmt.withoutIds := by
  obtain ⟨stmts, hnearest⟩ := (declarations_of_parse h).toNearest
  obtain ⟨-, hsame⟩ := parse_of_declarations hnearest nextId
  obtain ⟨herrors, hsame'⟩ := parse_of_declarations hnearest nextId'
  exact ⟨herrors, hsame'.trans hsame.symm⟩

/-- A rule of scopes is broken by a program if and only if it is by the program without ids. -/
theorem errors_resolve_withoutIds (distances distances' : Distances) (program : List Stmt) :
    (resolve distances' (program.map Stmt.withoutIds)).errors = [] ↔
      (resolve distances program).errors = [] :=
  Resolution.errors_resolve_relabel (f := fun _ => 0) (g := id) (fun _ => rfl) distances distances'
    program

namespace Accepted

variable {text : String} (h : Accepted text) (nextId : ReferenceId)

include h

theorem diagnostics : (Front.ofText nextId text).diagnostics = [] := by
  have hzero := (diagnostics_ofText_eq_nil_iff 0 text).mp h.1
  exact (diagnostics_ofText_eq_nil_iff nextId text).mpr ⟨hzero.1, (parse_of_parse hzero.2 nextId).1⟩

theorem statements : (Front.ofText nextId text).statements.map Stmt.withoutIds =
    (Front.ofText 0 text).statements.map Stmt.withoutIds :=
  (parse_of_parse ((diagnostics_ofText_eq_nil_iff 0 text).mp h.1).2 nextId).2

theorem errors (distances : Distances) :
    (resolve distances (Front.ofText nextId text).statements).errors = [] := by
  rw [← errors_resolve_withoutIds distances ∅, h.statements nextId,
    errors_resolve_withoutIds ∅ ∅]
  exact h.2

theorem declarations :
    Declarations false (body (tokensOf text)) (Front.ofText nextId text).statements :=
  declarations_of_parse ((diagnostics_ofText_eq_nil_iff nextId text).mp (h.diagnostics nextId)).2

theorem shaped : ShapedAll (Front.ofText nextId text).statements :=
  shapedAll_declarations (h.declarations nextId)

end Accepted

/-- The ids of a text are new, and no two uses share one. -/
theorem fresh_ofText (nextId : ReferenceId) (text : String) :
    nextId ≤ (Front.ofText nextId text).nextId ∧
      Fresh nextId (Front.ofText nextId text).nextId
        (Stmt.idsAll (Front.ofText nextId text).statements) :=
  fresh_parse nextId (tokensOf text)

end LoxLang

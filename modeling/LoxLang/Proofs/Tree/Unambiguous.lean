import Mathlib.Data.Set.Function
import LoxLang.Proofs.Parsing.Sound
import LoxLang.Proofs.Tree.ReadBack

/-!
Texts of trees are not ambiguous. Two statements that are read from texts without an error, with neither
strings nor infinite numbers in them, have the same text only if they differ in nothing but ids and
lines, whatever their variables are called. Main statement: `text_eq_iff_unlabelled_eq`.
-/
namespace LoxLang

/-- Different numbers have different texts, so some function reads them back. -/
theorem exists_readsNumbers : ∃ number, ReadsNumbers number := by
  let finite : Set Float := {x | ∃ m e, Number.Binary.ofFloat x = .finite false m e}
  have hinj : Set.InjOn (fun x => (Number.treeText x).toList) finite := by
    rintro x ⟨m, e, hx⟩ y ⟨m', e', hy⟩ h
    exact Number.treeText_inj hx hy (String.toList_injective h)
  exact ⟨Function.invFunOn (fun x => (Number.treeText x).toList) finite,
    fun x m e hx => hinj.leftInvOn_invFunOn ⟨m, e, hx⟩⟩

/-- Trees with the same text are the same but for ids and lines. -/
theorem unlabelled_eq_of_text_eq {s t : Stmt} (hs : s.Scanned) (ht : t.Scanned)
    (hplain : ∀ v ∈ s.literals, v.IsPlain) (hplain' : ∀ v ∈ t.literals, v.IsPlain)
    (h : s.text = t.text) : s.unlabelled = t.unlabelled := by
  have hnested : s.nested = t.nested := by
    refine Nested.text_inj (s.legible_nested hs hplain) (t.legible_nested ht hplain') ?_
    rw [← s.toList_text, ← t.toList_text, h]
  obtain ⟨number, hnumber⟩ := exists_readsNumbers
  calc s.unlabelled = s.nested.stmt number := (s.stmt_nested hnumber hs hplain).symm
    _ = t.nested.stmt number := by rw [hnested]
    _ = t.unlabelled := t.stmt_nested hnumber ht hplain'

mutual

/-- Ids and lines do not show in the text of an expression. -/
theorem Expr.text_relabel (f : ReferenceId → ReferenceId) (g : Nat → Nat) (e : Expr) :
    (e.relabel f (Token.mapLine g)).text = e.text := by
  match e with
  | .literal value | .reference id name => simp [Expr.relabel, Expr.text]
  | .grouping inner => simp [Expr.relabel, Expr.text, Expr.text_relabel f g inner]
  | .unary operator right => simp [Expr.relabel, Expr.text, Expr.text_relabel f g right]
  | .binary left operator right | .logical left operator right =>
    simp [Expr.relabel, Expr.text, Expr.text_relabel f g left, Expr.text_relabel f g right]
  | .assign id name value => simp [Expr.relabel, Expr.text, Expr.text_relabel f g value]
  | .call callee paren arguments =>
    simp [Expr.relabel, Expr.text, Expr.text_relabel f g callee,
      Expr.argumentsText_relabelAll f g arguments]

theorem Expr.argumentsText_relabelAll (f : ReferenceId → ReferenceId) (g : Nat → Nat)
    (es : List Expr) :
    Expr.argumentsText (Expr.relabelAll f (Token.mapLine g) es) = Expr.argumentsText es := by
  match es with
  | [] => rfl
  | e :: es =>
    simp [Expr.relabelAll, Expr.argumentsText, Expr.text_relabel f g e,
      Expr.argumentsText_relabelAll f g es]

end

mutual

/-- Ids and lines do not show in the text of a statement. -/
theorem Stmt.text_relabel (f : ReferenceId → ReferenceId) (g : Nat → Nat) (s : Stmt) :
    (s.relabel f (Token.mapLine g)).text = s.text := by
  match s with
  | .expression e | .print e | .declare name (some e) | .ret keyword (some e) =>
    simp [Stmt.relabel, Stmt.text, Expr.text_relabel f g e]
  | .declare name none | .ret keyword none => simp [Stmt.relabel, Stmt.text]
  | .block body => simp [Stmt.relabel, Stmt.text, Stmt.bodyText_relabelAll f g body]
  | .ifThen condition thenBranch =>
    simp [Stmt.relabel, Stmt.text, Expr.text_relabel f g condition,
      Stmt.text_relabel f g thenBranch]
  | .ifElse condition thenBranch elseBranch =>
    simp [Stmt.relabel, Stmt.text, Expr.text_relabel f g condition,
      Stmt.text_relabel f g thenBranch, Stmt.text_relabel f g elseBranch]
  | .whileLoop condition body =>
    simp [Stmt.relabel, Stmt.text, Expr.text_relabel f g condition, Stmt.text_relabel f g body]
  | .function name params body =>
    have hparams : (params.map (Token.mapLine g)).map (·.lexeme) = params.map (·.lexeme) := by
      rw [List.map_map]
      rfl
    simp [Stmt.relabel, Stmt.text, hparams, Stmt.bodyText_relabelAll f g body]

theorem Stmt.bodyText_relabelAll (f : ReferenceId → ReferenceId) (g : Nat → Nat)
    (ss : List Stmt) :
    Stmt.bodyText (Stmt.relabelAll f (Token.mapLine g) ss) = Stmt.bodyText ss := by
  match ss with
  | [] => rfl
  | s :: ss =>
    simp [Stmt.relabelAll, Stmt.bodyText, Stmt.text_relabel f g s,
      Stmt.bodyText_relabelAll f g ss]

end

section

variable {source source' : String} {nextId nextId' : ReferenceId} {s t : Stmt}

theorem Token.spelled_of_mem_body {t : Token} (h : t ∈ Parsing.body (tokensOf source)) :
    t.Spelled := by
  have hkind := List.mem_takeWhile_imp h
  have hmem := (List.takeWhile_prefix _).subset h
  rw [tokensOf_eq] at hmem
  rcases List.mem_append.mp hmem with hmem | hlast
  · exact spelled_of_mem hmem
  · rw [List.mem_singleton.mp hlast] at hkind
    cases hkind

theorem scanned_of_parse (herrors : (parse nextId (tokensOf source)).errors = [])
    (hs : s ∈ (parse nextId (tokensOf source)).statements) : s.Scanned :=
  Stmt.scannedAll_iff.mp
    ((Parsing.declarations_of_parse herrors).scanned fun _ ht => Token.spelled_of_mem_body ht) s hs

/-- Statements read without an error, with neither strings nor infinite numbers in them, have the same
text if and only if they are the same up to ids and lines. -/
theorem text_eq_iff_unlabelled_eq (herrors : (parse nextId (tokensOf source)).errors = [])
    (herrors' : (parse nextId' (tokensOf source')).errors = [])
    (hs : s ∈ (parse nextId (tokensOf source)).statements)
    (ht : t ∈ (parse nextId' (tokensOf source')).statements)
    (hplain : ∀ v ∈ s.literals, v.IsPlain) (hplain' : ∀ v ∈ t.literals, v.IsPlain) :
    s.text = t.text ↔ s.unlabelled = t.unlabelled := by
  constructor
  · exact unlabelled_eq_of_text_eq (scanned_of_parse herrors hs) (scanned_of_parse herrors' ht)
      hplain hplain'
  · intro h
    calc s.text = s.unlabelled.text := (Stmt.text_relabel _ _ s).symm
      _ = t.unlabelled.text := by rw [h]
      _ = t.text := Stmt.text_relabel _ _ t

end

/-- A call of a variable named `call` with a negative number as its argument, written in two ways. -/
theorem text_eq_iff_unlabelled_eq_call :
    ∃ s ∈ (parse 0 (tokensOf "call(-1.5);")).statements,
      ∃ t ∈ (parse 7 (tokensOf "x;\ncall(\n-01.50\n);")).statements,
        s.text = "(; (call call (- 1.5)))" ∧ s.unlabelled = t.unlabelled := by
  refine ⟨_, List.getElem_mem (n := 0) (by decide +kernel), _,
    List.getElem_mem (n := 1) (by decide +kernel), by decide +kernel, ?_⟩
  exact (text_eq_iff_unlabelled_eq (by decide +kernel) (by decide +kernel) (List.getElem_mem _)
    (List.getElem_mem _) (by decide +kernel) (by decide +kernel)).mp (by decide +kernel)

end LoxLang

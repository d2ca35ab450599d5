import Mathlib.Data.List.Nodup
import LoxLang.Proofs.Lexical.Unreported
import LoxLang.Proofs.Parsing.Relabelled
import LoxLang.Proofs.Renaming.Changes
import LoxLang.Proofs.Session.Accepted

/-!
The names in a text. A name is found by its place among the tokens, which the tree is read with instead
of lines, so that each occurrence has a place of its own. To change a local declaration is to change the
names at the places of its occurrences; what is read then is the same program but for the name, and
breaks no rule. Main statement: `changed_tokens`.
-/
namespace LoxLang.Renaming

open Parsing (body declarations_of_parse)
open Lexical (ScopedStmts)
open Lexical.Renaming (StmtsAlike)

section

variable (ts : List Token)

def numbered : List Token := ts.mapIdx fun i t => { t with line := i }

def lineAt (i : Nat) : Nat := ts[i]?.elim 0 (·.line)

def Change.tokens (c : Change) (ts : List Token) : List Token :=
  ts.mapIdx fun i t => if c.changes i && isName t then { t with lexeme := c.new } else t

variable {ts} in
theorem lineAt_eq {i : Nat} (hi : i < ts.length) : lineAt ts i = ts[i].line := by
  rw [lineAt, List.getElem?_eq_getElem hi, Option.elim_some]

theorem map_mapLine_numbered : (numbered ts).map (Token.mapLine (lineAt ts)) = ts := by
  unfold numbered
  apply List.ext_getElem
  · rw [List.length_map, List.length_mapIdx]
  · intro i hi hi'
    rw [List.getElem_map, List.getElem_mapIdx, Token.mapLine, lineAt_eq hi']

variable {ts} in
/-- With their lines put back, the numbered tokens are those of the text with the names changed. -/
theorem map_onLines_numbered {c : Change}
    (h : ∀ i t, ts[i]? = some t → c.changes i = true → t.kind = .identifier) :
    (numbered ts).map (c.onLines (lineAt ts)) = c.tokens ts := by
  unfold numbered Change.tokens
  apply List.ext_getElem
  · rw [List.length_map, List.length_mapIdx, List.length_mapIdx]
  · intro i hi hi'
    rw [List.length_mapIdx] at hi'
    rw [List.getElem_map, List.getElem_mapIdx, List.getElem_mapIdx, Change.onLines]
    cases hc : c.changes i with
    | true =>
      have hname : isName ts[i] = true :=
        isNameKind_iff.mpr (h i ts[i] (List.getElem?_eq_getElem hi') hc)
      rw [Change.token_of_changes hc, hname, Token.mapLine, lineAt_eq hi']
      rfl
    | false =>
      rw [Change.token_of_not_changes hc, Token.mapLine, lineAt_eq hi']
      rfl

theorem lines_numbered : (numbered ts).map (·.line) = List.range ts.length := by
  unfold numbered
  apply List.ext_getElem
  · rw [List.length_map, List.length_mapIdx, List.length_range]
  · intro i hi hi'
    rw [List.getElem_map, List.getElem_mapIdx, List.getElem_range]

theorem nodup_lines_numbered : ((numbered ts).map (·.line)).Nodup := by
  rw [lines_numbered]
  exact List.nodup_range

theorem pairwise_line_numbered : (numbered ts).Pairwise (·.line < ·.line) := by
  have hlines : ((numbered ts).map (·.line)).Pairwise (· < ·) := by
    rw [lines_numbered]
    exact List.pairwise_lt_range
  exact List.pairwise_map.mp hlines

variable {ts} in
/-- A numbered token is one of the tokens, and stands where it stands. -/
theorem getElem?_line_of_mem_numbered {t : Token} (h : t ∈ numbered ts) :
    ts[t.line]? = some (t.mapLine (lineAt ts)) := by
  obtain ⟨i, hi, rfl⟩ := List.mem_mapIdx.mp h
  rw [Token.mapLine, lineAt_eq hi]
  exact List.getElem?_eq_getElem hi

variable {ts} in
theorem getElem?_of_mem_numbered {t : Token} (h : t ∈ numbered ts) :
    ∃ u, ts[t.line]? = some u ∧ u.kind = t.kind ∧ u.lexeme = t.lexeme :=
  ⟨_, getElem?_line_of_mem_numbered h, rfl, rfl⟩

end

section

variable (text : String)

def placed : List Stmt := (parse 0 (numbered (tokensOf text))).statements

theorem exists_eof_mem_numbered : ∃ t ∈ numbered (tokensOf text), t.kind = .eof := by
  obtain ⟨t, ht, heof⟩ := exists_eof_mem_tokensOf text
  rw [← map_mapLine_numbered (tokensOf text)] at ht
  obtain ⟨u, hu, rfl⟩ := List.mem_map.mp ht
  exact ⟨u, hu, heof⟩

/-- Tokens of the same kinds are read as the same tree. -/
theorem parse_map_numbered {g : Token → Token} (hg : ∀ t, (g t).kind = t.kind) :
    (parse 0 ((numbered (tokensOf text)).map g)).statements =
        (placed text).map (Stmt.relabel id g) ∧
      ((parse 0 ((numbered (tokensOf text)).map g)).errors = [] ↔
        (parse 0 (numbered (tokensOf text))).errors = []) := by
  have hparse := parse_relabel hg 0 0 (exists_eof_mem_numbered text)
  rw [Nat.zero_add] at hparse
  rw [hparse]
  exact ⟨rfl, List.map_eq_nil_iff⟩

theorem statements_eq : (Front.ofText 0 text).statements =
    (placed text).map (Stmt.relabel id (Token.mapLine (lineAt (tokensOf text)))) := by
  have hparse := (parse_map_numbered text (g := Token.mapLine (lineAt (tokensOf text)))
    fun _ => rfl).1
  rw [map_mapLine_numbered] at hparse
  exact hparse

variable {text}

theorem errors_numbered (h : Accepted text) : (parse 0 (numbered (tokensOf text))).errors = [] := by
  have herrors := ((diagnostics_ofText_eq_nil_iff 0 text).mp h.1).2
  have hparse := (parse_map_numbered text (g := Token.mapLine (lineAt (tokensOf text)))
    fun _ => rfl).2
  rw [map_mapLine_numbered] at hparse
  exact hparse.mp herrors

theorem shaped_placed (h : Accepted text) : ShapedAll (placed text) :=
  shapedAll_declarations (declarations_of_parse (errors_numbered h))

/-- How far out a variable stands has nothing to do with lines. -/
theorem resolve_placed (h : Accepted text) :
    (resolve ∅ (Front.ofText 0 text).statements).distances = (resolve ∅ (placed text)).distances ∧
      (resolve ∅ (placed text)).errors = [] := by
  have hlearns : Resolution.Learns id Eq := fun _ _ _ _ h => by rw [h, id]
  have herrors := h.2
  obtain ⟨hdistances, hmapped⟩ := Resolution.resolve_relabel
    (g := Token.mapLine (lineAt (tokensOf text))) (fun _ => rfl) hlearns
    (rfl : (∅ : Distances) = ∅) (placed text)
  rw [← statements_eq] at hdistances hmapped
  rw [hmapped, List.map_eq_nil_iff] at herrors
  exact ⟨hdistances.symm, herrors⟩

theorem scoped_placed (h : Accepted text) :
    ScopedStmts
      (fun id d => (resolve ∅ (Front.ofText 0 text).statements).distances[id]? = d) []
      (placed text) := by
  obtain ⟨hdistances, herrors⟩ := resolve_placed h
  rw [hdistances]
  have hnodup := (Parsing.fresh_parse 0 (numbered (tokensOf text))).2.nodup
  exact Lexical.scoped_resolve (shaped_placed h) herrors hnodup
    (fun _ _ => Std.TreeMap.getElem?_emptyc) fun _ _ => rfl

end

def occurrences (text : String) : List Occurrence :=
  stmtsOccurrences (resolve ∅ (Front.ofText 0 text).statements).distances [] (placed text)

section

variable {text : String} {o u : Occurrence}

theorem names_occurrences (h : Accepted text) :
    Names (numbered (tokensOf text)) (occurrences text) := by
  have hnames : Names (body (numbered (tokensOf text))) (occurrences text) :=
    names_declarations (declarations_of_parse (errors_numbered h)) []
  have hbody := List.takeWhile_sublist (fun t : Token => !t.kind.isEof)
    (l := numbered (tokensOf text))
  exact hnames.trans (hbody.filter isName).subperm

/-- A name of a text is one of its tokens. -/
theorem token_of_mem_occurrences (h : Accepted text) (ho : o ∈ occurrences text) :
    ∃ t, (tokensOf text)[o.name.line]? = some t ∧ t.kind = .identifier ∧
      t.lexeme = o.name.lexeme := by
  have hmem := (names_occurrences h).subset (List.mem_map_of_mem ho)
  obtain ⟨hnumbered, hname⟩ := List.mem_filter.mp hmem
  obtain ⟨t, ht, hkind, hlexeme⟩ := getElem?_of_mem_numbered hnumbered
  exact ⟨t, ht, hkind.trans (isNameKind_iff.mp hname), hlexeme⟩

/-- Each name has a place of its own. -/
theorem eq_of_line_eq (h : Accepted text) (ho : o ∈ occurrences text) (hu : u ∈ occurrences text)
    (hline : o.name.line = u.name.line) : o = u := by
  obtain ⟨names, hperm, hsublist⟩ := names_occurrences h
  have hfiltered := hsublist.trans List.filter_sublist
  have hnodup := (nodup_lines_numbered (tokensOf text)).sublist (hfiltered.map (·.line))
  have hlines := (hperm.map (·.line)).nodup_iff.mp hnodup
  rw [List.map_map] at hlines
  exact List.inj_on_of_nodup_map hlines ho hu hline

end

/-- The token is the name at a local declaration: a parameter, or a variable declared inside of a
scope. -/
def IsLocal (text : String) (name : Token) : Prop :=
  ∃ o ∈ occurrences text, o.role = .variable ∧ o.name = name ∧ o.declaration.isSome = true

/-- Another name for a declaration, there and wherever a name belongs to it. -/
def change (text : String) (name : Token) (new : String) : Change where
  declaration := name.line
  changes i := (occurrences text).any fun o =>
    o.name.line == i && o.declaration.any (·.line == name.line)
  old := name.lexeme
  new := new

section

variable {text new : String} {name : Token}

theorem changes_change_iff {i : Nat} : (change text name new).changes i = true ↔
    ∃ o ∈ occurrences text, o.name.line = i ∧ o.declaration.map (·.line) = some name.line := by
  simp only [change, List.any_eq_true, Bool.and_eq_true, beq_iff_eq, Option.any_eq_true,
    Option.map_eq_some_iff]

/-- A fresh name covers every occurrence: it is changed where it belongs to the declaration, and only there.
-/
theorem covers_change (h : Accepted text) (hname : IsLocal text name)
    (hfresh : ∀ t ∈ tokensOf text, t.lexeme ≠ new) {o : Occurrence} (ho : o ∈ occurrences text) :
    (change text name new).Covers o := by
  obtain ⟨d, hd, hrole, rfl, -⟩ := hname
  refine ⟨?_, ?_, ?_, ?_⟩
  · rw [changes_change_iff]
    constructor
    · rintro ⟨u, hu, hline, hdeclaration⟩
      rw [eq_of_line_eq h ho hu hline.symm]
      exact hdeclaration
    · intro hdeclaration
      exact ⟨o, ho, rfl, hdeclaration⟩
  · intro hline
    rw [eq_of_line_eq h ho hd hline]
    rfl
  · intro hfunction hline
    rw [eq_of_line_eq h ho hd hline, hrole] at hfunction
    cases hfunction
  · obtain ⟨t, ht, -, hlexeme⟩ := token_of_mem_occurrences h ho
    rw [← hlexeme]
    exact hfresh t (List.mem_of_getElem? ht)

/-- Only names are changed. -/
theorem kind_of_changes (h : Accepted text) :
    ∀ i t, (tokensOf text)[i]? = some t → (change text name new).changes i = true →
      t.kind = .identifier := by
  intro i t ht hi
  obtain ⟨o, ho, rfl, -⟩ := changes_change_iff.mp hi
  obtain ⟨u, hu, hkind, -⟩ := token_of_mem_occurrences h ho
  rw [ht] at hu
  cases hu
  exact hkind

/-- With a local declaration changed the tokens are read without errors, as a program that breaks no
rule and is the same but for the name. -/
theorem changed_tokens (h : Accepted text) (hname : IsLocal text name)
    (hfresh : ∀ t ∈ tokensOf text, t.lexeme ≠ new) :
    let ts := (change text name new).tokens (tokensOf text)
    (parse 0 ts).errors = [] ∧ (resolve ∅ (parse 0 ts).statements).errors = [] ∧
      StmtsAlike name.lexeme new .outermost (Lexical.program text)
        ((parse 0 ts).statements.map Stmt.withoutIds) := by
  have hcovers : ∀ o ∈ occurrences text, (change text name new).Covers o :=
    fun _ => covers_change h hname hfresh
  have hnames : ∀ i t, (tokensOf text)[i]? = some t → (change text name new).changes i = true →
      t.kind = .identifier := kind_of_changes h
  generalize hc : change text name new = c at hcovers hnames
  have hlexemes : c.old = name.lexeme ∧ c.new = new := by
    rw [← hc]
    exact ⟨rfl, rfl⟩
  intro ts
  obtain ⟨hstatements, herrors⟩ := parse_map_numbered text (g := c.onLines (lineAt (tokensOf text)))
    Change.kind_token
  rw [map_onLines_numbered hnames] at hstatements herrors
  rw [hstatements]
  refine ⟨herrors.mpr (errors_numbered h), ?_, ?_⟩
  -- the rules ask for agreement with the scopes, and for `return` inside of functions
  · have hscoped := (stmts_changed (lineAt (tokensOf text)) id id .nil (scoped_placed h) hcovers).2
    have hreturnless := (returnless_of_resolve (shaped_placed h) (resolve_placed h).2).relabel
      (f := id) (g := c.onLines (lineAt (tokensOf text)))
    have hshaped := shapedAll_declarations (declarations_of_parse (herrors.mpr (errors_numbered h)))
    rw [hstatements] at hshaped
    rw [Stmt.relabelAll_eq_map] at hscoped hreturnless
    exact Lexical.errors_resolve_of_scoped hshaped hreturnless hscoped ∅
  · have halike := (stmts_changed (lineAt (tokensOf text)) (fun _ => 0) (fun _ => 0) .nil
      (scoped_placed h) hcovers).1
    rw [hlexemes.1, hlexemes.2, Stmt.relabelAll_eq_map, Stmt.relabelAll_eq_map] at halike
    have hprogram : Lexical.program text =
        (placed text).map (Stmt.relabel (fun _ => 0) (Token.mapLine (lineAt (tokensOf text)))) := by
      rw [Lexical.program, statements_eq, List.map_map]
      exact List.map_congr_left fun s _ => Stmt.relabel_relabel ..
    have hchanged : ((placed text).map (Stmt.relabel id (c.onLines (lineAt (tokensOf text))))).map
        Stmt.withoutIds =
          (placed text).map (Stmt.relabel (fun _ => 0) (c.onLines (lineAt (tokensOf text)))) := by
      rw [List.map_map]
      exact List.map_congr_left fun s _ => Stmt.relabel_relabel ..
    rw [hprogram, hchanged]
    exact halike

end

end LoxLang.Renaming

import LoxLang.Tree.Text
import LoxLang.Proofs.Number.Literals
import LoxLang.Proofs.Tree.Nested
import LoxLang.Proofs.Tree.Scanned

/-!
Texts of trees as nested words. A node is a list that its operator or a word of its own stands in front
of, and names and literals are words; in a tree of a scanned text without strings every word can be told
from what stands around it. Main statements: `Stmt.toList_text`, `Stmt.legible_nested`.
-/
namespace LoxLang

mutual

def Expr.literals : Expr → List Literal
  | .literal value => [value]
  | .grouping inner => inner.literals
  | .unary _ right => right.literals
  | .binary left _ right | .logical left _ right => left.literals ++ right.literals
  | .reference _ _ => []
  | .assign _ _ value => value.literals
  | .call callee _ arguments => callee.literals ++ Expr.literalsAll arguments

def Expr.literalsAll : List Expr → List Literal
  | [] => []
  | e :: es => e.literals ++ Expr.literalsAll es

end

mutual

def Stmt.literals : Stmt → List Literal
  | .expression e | .print e => e.literals
  | .declare _ none => []
  | .declare _ (some e) => e.literals
  | .block body => Stmt.literalsAll body
  | .ifThen condition thenBranch => condition.literals ++ thenBranch.literals
  | .ifElse condition thenBranch elseBranch =>
    condition.literals ++ (thenBranch.literals ++ elseBranch.literals)
  | .whileLoop condition body => condition.literals ++ body.literals
  | .function _ _ body => Stmt.literalsAll body
  | .ret _ none => []
  | .ret _ (some e) => e.literals

def Stmt.literalsAll : List Stmt → List Literal
  | [] => []
  | s :: ss => s.literals ++ Stmt.literalsAll ss

end

/-- Neither a string nor infinity. -/
def Literal.IsPlain : Literal → Prop
  | .string _ => False
  | .number x => ∀ negative, Number.Binary.ofFloat x ≠ .infinite negative
  | _ => True

instance : DecidablePred Literal.IsPlain
  | .nil => isTrue trivial
  | .bool _ => isTrue trivial
  | .number x =>
    inferInstanceAs (Decidable (∀ negative, Number.Binary.ofFloat x ≠ .infinite negative))
  | .string _ => isFalse id

namespace Nested

def ofString (s : String) : Nested := word s.toList

end Nested

mutual

def Expr.nested : Expr → Nested
  | .literal value => .ofString value.text
  | .grouping inner => .list [.ofString "group", inner.nested]
  | .unary operator right => .list [.ofString operator.lexeme, right.nested]
  | .binary left operator right | .logical left operator right =>
    .list [.ofString operator.lexeme, left.nested, right.nested]
  | .reference _ name => .ofString name.lexeme
  | .assign _ name value => .list [.ofString "=", .ofString name.lexeme, value.nested]
  | .call callee _ arguments => .list (.ofString "call" :: callee.nested :: Expr.nestedAll arguments)

def Expr.nestedAll : List Expr → List Nested
  | [] => []
  | e :: es => e.nested :: Expr.nestedAll es

end

mutual

def Stmt.nested : Stmt → Nested
  | .expression e => .list [.ofString ";", e.nested]
  | .print e => .list [.ofString "print", e.nested]
  | .declare name none => .list [.ofString "let", .ofString name.lexeme]
  | .declare name (some e) => .list [.ofString "let", .ofString name.lexeme, e.nested]
  | .block body => .list (.ofString "block" :: Stmt.nestedAll body)
  | .ifThen condition thenBranch => .list [.ofString "if", condition.nested, thenBranch.nested]
  | .ifElse condition thenBranch elseBranch =>
    .list [.ofString "if", condition.nested, thenBranch.nested, elseBranch.nested]
  | .whileLoop condition body => .list [.ofString "while", condition.nested, body.nested]
  | .function name params body =>
    .list (.ofString "fun" :: .ofString name.lexeme ::
      .list (params.map fun p => .ofString p.lexeme) :: Stmt.nestedAll body)
  | .ret _ none => .list [.ofString "return"]
  | .ret _ (some e) => .list [.ofString "return", e.nested]

def Stmt.nestedAll : List Stmt → List Nested
  | [] => []
  | s :: ss => s.nested :: Stmt.nestedAll ss

end

@[simp] theorem Nested.text_ofString (s : String) : (Nested.ofString s).text = s.toList := by
  rw [Nested.ofString, Nested.text]

mutual

/-- The text of an expression is that of its nested words. -/
theorem Expr.toList_text (e : Expr) : e.text.toList = e.nested.text := by
  match e with
  | .literal value => simp [Expr.text, Expr.nested]
  | .grouping inner =>
    simp [Expr.text, Expr.nested, Nested.text, Nested.textAfter, Expr.toList_text inner]
  | .unary operator right =>
    simp [Expr.text, Expr.nested, Nested.text, Nested.textAfter, Expr.toList_text right]
  | .binary left operator right | .logical left operator right =>
    simp [Expr.text, Expr.nested, Nested.text, Nested.textAfter, Expr.toList_text left,
      Expr.toList_text right]
  | .reference id name => simp [Expr.text, Expr.nested]
  | .assign id name value =>
    simp [Expr.text, Expr.nested, Nested.text, Nested.textAfter, Expr.toList_text value]
  | .call callee paren arguments =>
    simp [Expr.text, Expr.nested, Nested.text, Nested.textAfter, Expr.toList_text callee,
      Expr.toList_argumentsText arguments]

theorem Expr.toList_argumentsText (es : List Expr) :
    (Expr.argumentsText es).toList = Nested.textAfter (Expr.nestedAll es) := by
  match es with
  | [] => rfl
  | e :: es =>
    simp [Expr.argumentsText, Expr.nestedAll, Nested.textAfter, Expr.toList_text e,
      Expr.toList_argumentsText es]

end

/-- Words with spaces between them. -/
theorem Nested.text_list_ofString (s : String) (ss : List String) :
    (Nested.list ((s :: ss).map Nested.ofString)).text =
      '(' :: ([' '].intercalate ((s :: ss).map String.toList) ++ [')']) := by
  have hafter : ∀ s : String, s.toList ++ Nested.textAfter (ss.map Nested.ofString) =
      [' '].intercalate ((s :: ss).map String.toList) := by
    induction ss with
    | nil => simp [Nested.textAfter]
    | cons t ts ih =>
      intro s
      have hrest := ih t
      simp only [List.map_cons] at hrest ⊢
      rw [List.intercalate_cons_cons, ← hrest, Nested.textAfter, Nested.text_ofString,
        List.append_assoc]
      rfl
  rw [List.map_cons, Nested.text, ← hafter, Nested.text_ofString, List.append_assoc]

theorem Stmt.toList_params (params : List Token) :
    "(".toList ++ ((" ".intercalate (params.map (·.lexeme))).toList ++ ")".toList) =
      (Nested.list (params.map fun p => .ofString p.lexeme)).text := by
  rw [String.toList_intercalate]
  cases params with
  | nil => rfl
  | cons p ps =>
    have htext := Nested.text_list_ofString p.lexeme (ps.map (·.lexeme))
    rw [List.map_cons, List.map_map] at htext
    exact htext.symm

mutual

/-- The text of a statement is that of its nested words. -/
theorem Stmt.toList_text (s : Stmt) : s.text.toList = s.nested.text := by
  match s with
  | .expression e | .print e =>
    simp [Stmt.text, Stmt.nested, Nested.text, Nested.textAfter, Expr.toList_text e]
  | .declare name none => simp [Stmt.text, Stmt.nested, Nested.text, Nested.textAfter]
  | .declare name (some e) =>
    simp [Stmt.text, Stmt.nested, Nested.text, Nested.textAfter, Expr.toList_text e]
  | .block body =>
    simp [Stmt.text, Stmt.nested, Nested.text, Stmt.toList_bodyText body]
  | .ifThen condition thenBranch =>
    simp [Stmt.text, Stmt.nested, Nested.text, Nested.textAfter, Expr.toList_text condition,
      Stmt.toList_text thenBranch]
  | .ifElse condition thenBranch elseBranch =>
    simp [Stmt.text, Stmt.nested, Nested.text, Nested.textAfter, Expr.toList_text condition,
      Stmt.toList_text thenBranch, Stmt.toList_text elseBranch]
  | .whileLoop condition body =>
    simp [Stmt.text, Stmt.nested, Nested.text, Nested.textAfter, Expr.toList_text condition,
      Stmt.toList_text body]
  | .function name params body =>
    simp [Stmt.text, Stmt.nested, Nested.text, Nested.textAfter, ← Stmt.toList_params,
      Stmt.toList_bodyText body]
  | .ret keyword none => simp [Stmt.text, Stmt.nested, Nested.text, Nested.textAfter]
  | .ret keyword (some e) =>
    simp [Stmt.text, Stmt.nested, Nested.text, Nested.textAfter, Expr.toList_text e]

theorem Stmt.toList_bodyText (ss : List Stmt) :
    (Stmt.bodyText ss).toList = Nested.textAfter (Stmt.nestedAll ss) := by
  match ss with
  | [] => rfl
  | s :: ss =>
    simp [Stmt.bodyText, Stmt.nestedAll, Nested.textAfter, Stmt.toList_text s,
      Stmt.toList_bodyText ss]

end

def Nested.nodeWords : List String :=
  ["group", "=", "call", ";", "print", "let", "block", "if", "while", "fun", "return"]

theorem Nested.legible_node {s : String} {items : List Nested} (hs : s ∈ nodeWords)
    (h : LegibleAll items) : (Nested.list (.ofString s :: items)).Legible := by
  have hwords : ∀ s ∈ nodeWords, IsWord s.toList := by
    simp [nodeWords, IsWord, isWordPart]
  exact ⟨hwords s hs, h⟩

theorem isWordPart_of_isNamePart {c : Char} (h : Piece.isNamePart c = true) :
    isWordPart c = true := by
  have hne : ∀ d, Piece.isNamePart d = false → (c != d) = true := by
    intro d hd
    rw [bne_iff_ne]
    rintro rfl
    exact absurd h (Bool.eq_false_iff.mp hd)
  rw [isWordPart, hne ' ' rfl, hne '(' rfl, hne ')' rfl]
  rfl

theorem Symbol.isWord_spelling {s : Symbol} (h : s ≠ .leftParen) (h' : s ≠ .rightParen) :
    IsWord s.spelling := by
  cases s <;> simp_all [Symbol.spelling, IsWord, isWordPart]

theorem Keyword.isWord_spelling (k : Keyword) : IsWord k.spelling.toList := by
  cases k <;> simp [Keyword.spelling, IsWord, isWordPart]

theorem Token.IsName.isWord {t : Token} (h : t.IsName) : IsWord t.lexeme.toList := by
  obtain ⟨c, cs, htext, hfirst, hothers⟩ := h.letters
  rw [htext]
  refine ⟨List.cons_ne_nil c cs, List.forall_mem_cons.mpr ⟨?_, fun d hd => ?_⟩⟩
  · exact isWordPart_of_isNamePart (isNamePart_iff.mpr (.inl hfirst))
  · exact isWordPart_of_isNamePart (isNamePart_iff.mpr (hothers d hd))

theorem Number.IsNumeral.isWord {cs : List Char} (h : Number.IsNumeral cs) : IsWord cs := by
  obtain ⟨d, ds, rfl, hd, hds⟩ := h
  refine ⟨List.cons_ne_nil d ds, List.forall_mem_cons.mpr ⟨?_, fun c hc => ?_⟩⟩
  · exact isWordPart_of_isNamePart (isNamePart_of_isDigit hd)
  · rcases hds c hc with hc | rfl
    · exact isWordPart_of_isNamePart (isNamePart_of_isDigit hc)
    · rfl

/-- A number of a tree is finite, and has no sign. -/
theorem Literal.Scanned.finite {x : Float} (h : (Literal.number x).Scanned)
    (hplain : (Literal.number x).IsPlain) : ∃ m e, Number.Binary.ofFloat x = .finite false m e := by
  obtain ⟨ds, fs, -, -, rfl⟩ := h
  exact Number.finite_ofDigits hplain

theorem Literal.Scanned.isWord {v : Literal} (h : v.Scanned) (hplain : v.IsPlain) :
    IsWord v.text.toList := by
  cases v with
  | nil => exact Keyword.isWord_spelling .nilKw
  | bool b =>
    cases b with
    | false => exact Keyword.isWord_spelling .falseKw
    | true => exact Keyword.isWord_spelling .trueKw
  | number x =>
    obtain ⟨m, e, hx⟩ := h.finite hplain
    exact (Number.isNumeral_treeText hx).isWord
  | string s => exact hplain.elim

theorem Token.IsSymbol.isWord {symbols : List Symbol} {t : Token} (h : t.IsSymbol symbols)
    (hleft : .leftParen ∉ symbols) (hright : .rightParen ∉ symbols) : IsWord t.lexeme.toList := by
  obtain ⟨s, hs, -, htext⟩ := h
  rw [htext]
  exact Symbol.isWord_spelling (fun heq => hleft (heq ▸ hs)) fun heq => hright (heq ▸ hs)

theorem Token.IsKeyword.isWord {words : List Keyword} {t : Token} (h : t.IsKeyword words) :
    IsWord t.lexeme.toList := by
  obtain ⟨k, -, -, htext⟩ := h
  rw [htext]
  exact k.isWord_spelling

mutual

/-- The words of a scanned expression can be told apart. -/
theorem Expr.legible_nested (e : Expr) (h : e.Scanned) (hplain : ∀ v ∈ e.literals, v.IsPlain) :
    e.nested.Legible := by
  match e with
  | .literal value => exact h.isWord (hplain value (List.mem_singleton.mpr rfl))
  | .grouping inner =>
    exact Nested.legible_node (by decide) ⟨legible_nested inner h hplain, trivial⟩
  | .unary operator right =>
    exact ⟨h.1.isWord (by decide) (by decide), legible_nested right h.2 hplain, trivial⟩
  | .binary left operator right =>
    obtain ⟨hleft, hright⟩ := List.forall_mem_append.mp hplain
    exact ⟨h.1.isWord (by decide) (by decide), legible_nested left h.2.1 hleft,
      legible_nested right h.2.2 hright, trivial⟩
  | .logical left operator right =>
    obtain ⟨hleft, hright⟩ := List.forall_mem_append.mp hplain
    exact ⟨h.1.isWord, legible_nested left h.2.1 hleft, legible_nested right h.2.2 hright, trivial⟩
  | .reference id name => exact h.isWord
  | .assign id name value =>
    exact Nested.legible_node (by decide) ⟨h.1.isWord, legible_nested value h.2 hplain, trivial⟩
  | .call callee paren arguments =>
    obtain ⟨hcallee, harguments⟩ := List.forall_mem_append.mp hplain
    exact Nested.legible_node (by decide) ⟨legible_nested callee h.2.1 hcallee,
      legible_nestedAll arguments h.2.2 harguments⟩

theorem Expr.legible_nestedAll (es : List Expr) (h : Expr.ScannedAll es)
    (hplain : ∀ v ∈ Expr.literalsAll es, v.IsPlain) : Nested.LegibleAll (Expr.nestedAll es) := by
  match es with
  | [] => exact trivial
  | e :: es =>
    obtain ⟨hfirst, hrest⟩ := List.forall_mem_append.mp hplain
    exact ⟨legible_nested e h.1 hfirst, legible_nestedAll es h.2 hrest⟩

end

mutual

/-- The words of a scanned statement can be told apart. -/
theorem Stmt.legible_nested (s : Stmt) (h : s.Scanned) (hplain : ∀ v ∈ s.literals, v.IsPlain) :
    s.nested.Legible := by
  match s with
  | .expression e | .print e =>
    exact Nested.legible_node (by decide) ⟨e.legible_nested h hplain, trivial⟩
  | .declare name none => exact Nested.legible_node (by decide) ⟨h.1.isWord, trivial⟩
  | .declare name (some e) =>
    exact Nested.legible_node (by decide) ⟨h.1.isWord, e.legible_nested (h.2 e rfl) hplain,
      trivial⟩
  | .block body => exact Nested.legible_node (by decide) (legible_nestedAll body h hplain)
  | .ifThen condition thenBranch =>
    obtain ⟨hcondition, hthen⟩ := List.forall_mem_append.mp hplain
    exact Nested.legible_node (by decide) ⟨condition.legible_nested h.1 hcondition,
      legible_nested thenBranch h.2 hthen, trivial⟩
  | .ifElse condition thenBranch elseBranch =>
    obtain ⟨hcondition, hbranches⟩ := List.forall_mem_append.mp hplain
    obtain ⟨hthen, helse⟩ := List.forall_mem_append.mp hbranches
    exact Nested.legible_node (by decide) ⟨condition.legible_nested h.1 hcondition,
      legible_nested thenBranch h.2.1 hthen, legible_nested elseBranch h.2.2 helse, trivial⟩
  | .whileLoop condition body =>
    obtain ⟨hcondition, hbody⟩ := List.forall_mem_append.mp hplain
    exact Nested.legible_node (by decide) ⟨condition.legible_nested h.1 hcondition,
      legible_nested body h.2 hbody, trivial⟩
  | .function name params body =>
    have hparams : Nested.LegibleAll (params.map fun p => .ofString p.lexeme) :=
      Nested.legibleAll_iff.mpr (List.forall_mem_map.mpr fun p hp => (h.2.1 p hp).isWord)
    exact Nested.legible_node (by decide) ⟨h.1.isWord, hparams,
      legible_nestedAll body h.2.2 hplain⟩
  | .ret keyword none => exact Nested.legible_node (by decide) trivial
  | .ret keyword (some e) =>
    exact Nested.legible_node (by decide) ⟨e.legible_nested (h.2 e rfl) hplain, trivial⟩

theorem Stmt.legible_nestedAll (ss : List Stmt) (h : Stmt.ScannedAll ss)
    (hplain : ∀ v ∈ Stmt.literalsAll ss, v.IsPlain) : Nested.LegibleAll (Stmt.nestedAll ss) := by
  match ss with
  | [] => exact trivial
  | s :: ss =>
    obtain ⟨hfirst, hrest⟩ := List.forall_mem_append.mp hplain
    exact ⟨legible_nested s h.1 hfirst, legible_nestedAll ss h.2 hrest⟩

end

end LoxLang

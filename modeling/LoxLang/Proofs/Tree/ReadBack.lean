import LoxLang.Proofs.Tree.Lines
import LoxLang.Proofs.Tree.Words

/-!
Trees read back from their texts. The first word of a list says which node it is and what its items are;
a word on its own is a number if it starts with a digit, or else a keyword or a name. From the words of a
scanned tree this gives the tree again, without its ids and lines. Main statement: `Stmt.stmt_nested`.
-/
namespace LoxLang

def Expr.unlabelled : Expr → Expr := Expr.relabel (fun _ => 0) (Token.mapLine fun _ => 0)

def Stmt.unlabelled : Stmt → Stmt := Stmt.relabel (fun _ => 0) (Token.mapLine fun _ => 0)

def Token.unlabelled : Token → Token := Token.mapLine fun _ => 0

namespace Expr

variable (e l r c : Expr) (t : Token) (i : ReferenceId) (es : List Expr)

@[simp] theorem unlabelled_literal (v : Literal) : (literal v).unlabelled = literal v := rfl
@[simp] theorem unlabelled_grouping : (grouping e).unlabelled = grouping e.unlabelled := rfl
@[simp] theorem unlabelled_unary : (unary t e).unlabelled = unary t.unlabelled e.unlabelled := rfl
@[simp] theorem unlabelled_binary :
    (binary l t r).unlabelled = binary l.unlabelled t.unlabelled r.unlabelled := rfl
@[simp] theorem unlabelled_logical :
    (logical l t r).unlabelled = logical l.unlabelled t.unlabelled r.unlabelled := rfl
@[simp] theorem unlabelled_reference : (reference i t).unlabelled = reference 0 t.unlabelled := rfl
@[simp] theorem unlabelled_assign :
    (assign i t e).unlabelled = assign 0 t.unlabelled e.unlabelled := rfl
@[simp] theorem unlabelled_call :
    (call c t es).unlabelled = call c.unlabelled t.unlabelled (es.map unlabelled) := by
  rw [unlabelled, relabel, relabelAll_eq_map]
  rfl

end Expr

namespace Stmt

variable (e : Expr) (s s' : Stmt) (t : Token) (ss : List Stmt) (ps : List Token)

@[simp] theorem unlabelled_expression : (expression e).unlabelled = expression e.unlabelled := rfl
@[simp] theorem unlabelled_print : (print e).unlabelled = print e.unlabelled := rfl
@[simp] theorem unlabelled_declare (i : Option Expr) :
    (declare t i).unlabelled = declare t.unlabelled (i.map Expr.unlabelled) := by cases i <;> rfl
@[simp] theorem unlabelled_block : (block ss).unlabelled = block (ss.map unlabelled) := by
  rw [unlabelled, relabel, relabelAll_eq_map]
@[simp] theorem unlabelled_ifThen :
    (ifThen e s).unlabelled = ifThen e.unlabelled s.unlabelled := rfl
@[simp] theorem unlabelled_ifElse :
    (ifElse e s s').unlabelled = ifElse e.unlabelled s.unlabelled s'.unlabelled := rfl
@[simp] theorem unlabelled_whileLoop :
    (whileLoop e s).unlabelled = whileLoop e.unlabelled s.unlabelled := rfl
@[simp] theorem unlabelled_function :
    (function t ps ss).unlabelled =
      function t.unlabelled (ps.map Token.unlabelled) (ss.map unlabelled) := by
  rw [unlabelled, relabel, relabelAll_eq_map]
  rfl
@[simp] theorem unlabelled_ret (v : Option Expr) :
    (ret t v).unlabelled = ret t.unlabelled (v.map Expr.unlabelled) := by cases v <;> rfl

end Stmt

def Token.ofWord (cs : List Char) : Token where
  kind :=
    match Symbol.all.find? (·.spelling == cs), Keyword.ofSpelling? (String.ofList cs) with
    | some s, _ => .symbol s
    | none, some k => .keyword k
    | none, none => .identifier
  lexeme := String.ofList cs
  line := 0

def Expr.ofWord (number : List Char → Float) (cs : List Char) : Expr :=
  match cs with
  | [] => .literal .nil
  | c :: _ =>
    if c.isDigit then .literal (.number (number cs)) else
    match (Token.ofWord cs).kind with
    | .keyword .nilKw => .literal .nil
    | .keyword .falseKw => .literal (.bool false)
    | .keyword .trueKw => .literal (.bool true)
    | _ => .reference 0 (Token.ofWord cs)

def Nested.token : Nested → Token
  | word cs => .ofWord cs
  | list _ => .ofWord []

def Expr.ofItems (cs : List Char) (items : List Nested) (es : List Expr) : Expr :=
  match String.ofList cs, items, es with
  | "group", _, [inner] => .grouping inner
  | "=", [name, _], [_, value] => .assign 0 name.token value
  | "call", _, callee :: arguments => .call callee (.ofWord Symbol.rightParen.spelling) arguments
  | _, _, [right] => .unary (.ofWord cs) right
  | _, _, [left, right] =>
    match (Token.ofWord cs).kind with
    | .keyword _ => .logical left (.ofWord cs) right
    | _ => .binary left (.ofWord cs) right
  | _, _, _ => .literal .nil

def Stmt.ofItems (cs : List Char) (items : List Nested) (es : List Expr) (ss : List Stmt) : Stmt :=
  match String.ofList cs, items, es, ss with
  | ";", _, [e], _ => .expression e
  | "print", _, [e], _ => .print e
  | "let", [name], _, _ => .declare name.token none
  | "let", [name, _], [_, e], _ => .declare name.token (some e)
  | "block", _, _, body => .block body
  | "if", _, condition :: _, [_, thenBranch] => .ifThen condition thenBranch
  | "if", _, condition :: _, [_, thenBranch, elseBranch] => .ifElse condition thenBranch elseBranch
  | "while", _, condition :: _, [_, body] => .whileLoop condition body
  | "fun", name :: .list params :: _, _, _ :: _ :: body =>
    .function name.token (params.map Nested.token) body
  | "return", _, [], _ => .ret (.ofWord Keyword.returnKw.spelling.toList) none
  | "return", _, [e], _ => .ret (.ofWord Keyword.returnKw.spelling.toList) (some e)
  | _, _, _, _ => .block []

namespace Nested

variable (number : List Char → Float)

mutual

def expr : Nested → Expr
  | word cs => .ofWord number cs
  | list (word cs :: items) => .ofItems cs items (exprs items)
  | list _ => .literal .nil

def exprs : List Nested → List Expr
  | [] => []
  | x :: xs => expr x :: exprs xs

end

mutual

def stmt : Nested → Stmt
  | list (word cs :: items) => .ofItems cs items (exprs number items) (stmts items)
  | _ => .block []

def stmts : List Nested → List Stmt
  | [] => []
  | x :: xs => stmt x :: stmts xs

end

section

variable (s : String) (x : Nested) (items : List Nested)

@[simp] theorem expr_ofString : (ofString s).expr number = .ofWord number s.toList := rfl
@[simp] theorem expr_list_ofString :
    (list (ofString s :: items)).expr number = .ofItems s.toList items (exprs number items) := rfl
@[simp] theorem exprs_nil : exprs number [] = [] := rfl
@[simp] theorem exprs_cons : exprs number (x :: items) = x.expr number :: exprs number items := rfl
@[simp] theorem stmt_list_ofString :
    (list (ofString s :: items)).stmt number =
      .ofItems s.toList items (exprs number items) (stmts number items) := rfl
@[simp] theorem stmts_nil : stmts number [] = [] := rfl
@[simp] theorem stmts_cons : stmts number (x :: items) = x.stmt number :: stmts number items := rfl
@[simp] theorem token_ofString : (ofString s).token = .ofWord s.toList := rfl

end

end Nested

theorem Symbol.find?_spelling (s : Symbol) :
    Symbol.all.find? (·.spelling == s.spelling) = some s := by
  cases s <;> rfl

/-- Words of letters and digits are no symbols. -/
theorem Symbol.find?_eq_none {c : Char} {cs : List Char} (hc : Piece.isNamePart c = true) :
    Symbol.all.find? (·.spelling == c :: cs) = none := by
  refine List.find?_eq_none.mpr fun s _ heq => ?_
  have hfirst := congrArg List.head? (beq_iff_eq.mp heq)
  cases s <;> (cases hfirst; cases hc)

section

variable {t : Token}

/-- A token with the kind that its text is spelled for is read back from its text. -/
theorem Token.ofWord_lexeme (hkind : (Token.ofWord t.lexeme.toList).kind = t.kind) :
    Token.ofWord t.lexeme.toList = t.unlabelled := by
  have hlexeme : String.ofList t.lexeme.toList = t.lexeme := String.ofList_toList
  calc Token.ofWord t.lexeme.toList
      = ⟨(Token.ofWord t.lexeme.toList).kind, String.ofList t.lexeme.toList, 0⟩ := rfl
    _ = ⟨t.kind, t.lexeme, 0⟩ := by rw [hkind, hlexeme]

theorem Token.IsSymbol.ofWord {symbols : List Symbol} (h : t.IsSymbol symbols) :
    Token.ofWord t.lexeme.toList = t.unlabelled := by
  obtain ⟨s, -, hkind, htext⟩ := h
  refine Token.ofWord_lexeme ?_
  rw [htext, hkind, Token.ofWord, Symbol.find?_spelling]

theorem Token.IsSymbol.ofWord_spelling {s : Symbol} (h : t.IsSymbol [s]) :
    Token.ofWord s.spelling = t.unlabelled := by
  have hword := h.ofWord
  obtain ⟨s', hs, -, htext⟩ := h
  rwa [htext, List.mem_singleton.mp hs] at hword

theorem Keyword.find?_spelling (k : Keyword) :
    Symbol.all.find? (·.spelling == k.spelling.toList) = none := by
  cases k <;> simp [Symbol.all, Symbol.spelling, Keyword.spelling]

theorem Token.IsKeyword.ofWord {words : List Keyword} (h : t.IsKeyword words) :
    Token.ofWord t.lexeme.toList = t.unlabelled := by
  obtain ⟨k, -, hkind, htext⟩ := h
  have hlexeme : String.ofList k.spelling.toList = k.spelling := String.ofList_toList
  refine Token.ofWord_lexeme ?_
  rw [htext, hkind, Token.ofWord, Keyword.find?_spelling, hlexeme, Keyword.ofSpelling?_spelling]

theorem Token.IsKeyword.ofWord_spelling {k : Keyword} (h : t.IsKeyword [k]) :
    Token.ofWord k.spelling.toList = t.unlabelled := by
  have hword := h.ofWord
  obtain ⟨k', hk, -, htext⟩ := h
  rwa [htext, List.mem_singleton.mp hk] at hword

theorem Token.IsName.ofWord (h : t.IsName) :
    Token.ofWord t.lexeme.toList = t.unlabelled := by
  obtain ⟨c, cs, htext, hfirst, -⟩ := h.letters
  have hnone : Keyword.ofSpelling? (String.ofList t.lexeme.toList) = none := by
    refine Option.eq_none_iff_forall_ne_some.mpr fun k hk => h.free k ?_
    rw [Keyword.spelling_of_ofSpelling? hk, String.toList_ofList]
  refine Token.ofWord_lexeme ?_
  rw [Token.ofWord, hnone, h.kind, htext, Symbol.find?_eq_none (isNamePart_iff.mpr (.inl hfirst))]

end

def ReadsNumbers (number : List Char → Float) : Prop :=
  ∀ x m e, Number.Binary.ofFloat x = .finite false m e → number (Number.treeText x).toList = x

section

variable {number : List Char → Float}

/-- A name is no symbol, no keyword and no number, so it is read back as itself. -/
theorem Expr.ofWord_name {t : Token} (h : t.IsName) :
    Expr.ofWord number t.lexeme.toList = .reference 0 t.unlabelled := by
  have hword := h.ofWord
  have hkind : (Token.ofWord t.lexeme.toList).kind = .identifier := by rw [hword]; exact h.kind
  obtain ⟨c, cs, htext, hfirst, -⟩ := h.letters
  rw [← hword]
  rw [htext] at hkind ⊢
  have hdigit : ¬c.isDigit = true := fun hdigit => by
    have hstart := isNameStart_iff.mpr hfirst
    rw [not_isNameStart_of_isDigit hdigit] at hstart
    cases hstart
  rw [Expr.ofWord, hkind, if_neg hdigit]

/-- A plain literal is read back from its text. -/
theorem Expr.ofWord_literal {v : Literal} (h : v.Scanned) (hplain : v.IsPlain)
    (hnumber : ReadsNumbers number) : Expr.ofWord number v.text.toList = .literal v := by
  cases v with
  | nil => rfl
  | bool b => cases b <;> rfl
  | number x =>
    obtain ⟨m, e, hx⟩ := h.finite hplain
    have hvalue := hnumber x m e hx
    obtain ⟨d, ds, htext, hd, -⟩ := Number.isNumeral_treeText hx
    show Expr.ofWord number (Number.treeText x).toList = _
    rw [htext] at hvalue ⊢
    rw [Expr.ofWord, if_pos hd, hvalue]
  | string s => exact hplain.elim

theorem Expr.ofItems_unary {t : Token} (h : t.IsSymbol [.bang, .minus]) (x : Nested) (r : Expr) :
    Expr.ofItems t.lexeme.toList [x] [r] = .unary t.unlabelled r := by
  have hword := h.ofWord
  obtain ⟨s, hs, -, htext⟩ := h
  rw [htext] at hword ⊢
  rw [← hword]
  simp only [List.mem_cons, List.not_mem_nil, or_false] at hs
  rcases hs with rfl | rfl <;> rfl

theorem Expr.ofItems_binary {t : Token}
    (h : t.IsSymbol [.plus, .minus, .star, .slash, .greater, .greaterEqual, .less, .lessEqual,
      .equalEqual, .bangEqual]) (x y : Nested) (l r : Expr) :
    Expr.ofItems t.lexeme.toList [x, y] [l, r] = .binary l t.unlabelled r := by
  have hword := h.ofWord
  obtain ⟨s, hs, -, htext⟩ := h
  rw [htext] at hword ⊢
  rw [← hword]
  simp only [List.mem_cons, List.not_mem_nil, or_false] at hs
  rcases hs with rfl | rfl | rfl | rfl | rfl | rfl | rfl | rfl | rfl | rfl <;> rfl

theorem Expr.ofItems_logical {t : Token} (h : t.IsKeyword [.andKw, .orKw]) (x y : Nested)
    (l r : Expr) :
    Expr.ofItems t.lexeme.toList [x, y] [l, r] = .logical l t.unlabelled r := by
  have hword := h.ofWord
  obtain ⟨k, hk, -, htext⟩ := h
  rw [htext] at hword ⊢
  rw [← hword]
  simp only [List.mem_cons, List.not_mem_nil, or_false] at hk
  rcases hk with rfl | rfl <;> rfl

end

section

variable {number : List Char → Float}

mutual

/-- The words of a tree read back as the tree. -/
theorem Expr.expr_nested (hnumber : ReadsNumbers number) (e : Expr) (h : e.Scanned)
    (hplain : ∀ v ∈ e.literals, v.IsPlain) : e.nested.expr number = e.unlabelled := by
  match e with
  | .literal value => exact Expr.ofWord_literal h (hplain value (List.mem_singleton.mpr rfl)) hnumber
  | .grouping inner =>
    simp [Expr.nested, Expr.ofItems, Expr.expr_nested hnumber inner h hplain]
  | .unary operator right =>
    simp [Expr.nested, Expr.ofItems_unary h.1, Expr.expr_nested hnumber right h.2 hplain]
  | .binary left operator right =>
    obtain ⟨hleft, hright⟩ := List.forall_mem_append.mp hplain
    simp [Expr.nested, Expr.ofItems_binary h.1, Expr.expr_nested hnumber left h.2.1 hleft,
      Expr.expr_nested hnumber right h.2.2 hright]
  | .logical left operator right =>
    obtain ⟨hleft, hright⟩ := List.forall_mem_append.mp hplain
    simp [Expr.nested, Expr.ofItems_logical h.1, Expr.expr_nested hnumber left h.2.1 hleft,
      Expr.expr_nested hnumber right h.2.2 hright]
  | .reference id name => exact Expr.ofWord_name h
  | .assign id name value =>
    simp [Expr.nested, Expr.ofItems, h.1.ofWord, Expr.expr_nested hnumber value h.2 hplain]
  | .call callee paren arguments =>
    obtain ⟨hcallee, harguments⟩ := List.forall_mem_append.mp hplain
    simp [Expr.nested, Expr.ofItems, h.1.ofWord_spelling,
      Expr.expr_nested hnumber callee h.2.1 hcallee,
      Expr.exprs_nestedAll hnumber arguments h.2.2 harguments]

theorem Expr.exprs_nestedAll (hnumber : ReadsNumbers number) (es : List Expr)
    (h : Expr.ScannedAll es) (hplain : ∀ v ∈ Expr.literalsAll es, v.IsPlain) :
    Nested.exprs number (Expr.nestedAll es) = es.map Expr.unlabelled := by
  match es with
  | [] => rfl
  | e :: es =>
    obtain ⟨hfirst, hrest⟩ := List.forall_mem_append.mp hplain
    rw [Expr.nestedAll, Nested.exprs_cons, Expr.expr_nested hnumber e h.1 hfirst,
      Expr.exprs_nestedAll hnumber es h.2 hrest, List.map_cons]

end

theorem Stmt.ofItems_function (x : Nested) (params items : List Nested) (es : List Expr)
    (s s' : Stmt) (body : List Stmt) :
    Stmt.ofItems "fun".toList (x :: .list params :: items) es (s :: s' :: body) =
      .function x.token (params.map Nested.token) body := by
  rfl

mutual

/-- The words of a tree read back as the tree. -/
theorem Stmt.stmt_nested (hnumber : ReadsNumbers number) (s : Stmt) (h : s.Scanned)
    (hplain : ∀ v ∈ s.literals, v.IsPlain) : s.nested.stmt number = s.unlabelled := by
  match s with
  | .expression e | .print e =>
    simp [Stmt.nested, Stmt.ofItems, e.expr_nested hnumber h hplain]
  | .declare name none => simp [Stmt.nested, Stmt.ofItems, h.1.ofWord]
  | .declare name (some e) =>
    simp [Stmt.nested, Stmt.ofItems, h.1.ofWord, e.expr_nested hnumber (h.2 e rfl) hplain]
  | .block body => simp [Stmt.nested, Stmt.ofItems, Stmt.stmts_nestedAll hnumber body h hplain]
  | .ifThen condition thenBranch =>
    obtain ⟨hcondition, hthen⟩ := List.forall_mem_append.mp hplain
    simp [Stmt.nested, Stmt.ofItems, condition.expr_nested hnumber h.1 hcondition,
      Stmt.stmt_nested hnumber thenBranch h.2 hthen]
  | .ifElse condition thenBranch elseBranch =>
    obtain ⟨hcondition, hbranches⟩ := List.forall_mem_append.mp hplain
    obtain ⟨hthen, helse⟩ := List.forall_mem_append.mp hbranches
    simp [Stmt.nested, Stmt.ofItems, condition.expr_nested hnumber h.1 hcondition,
      Stmt.stmt_nested hnumber thenBranch h.2.1 hthen,
      Stmt.stmt_nested hnumber elseBranch h.2.2 helse]
  | .whileLoop condition body =>
    obtain ⟨hcondition, hbody⟩ := List.forall_mem_append.mp hplain
    simp [Stmt.nested, Stmt.ofItems, condition.expr_nested hnumber h.1 hcondition,
      Stmt.stmt_nested hnumber body h.2 hbody]
  | .function name params body =>
    have hparams : (params.map fun p => Nested.ofString p.lexeme).map Nested.token =
        params.map Token.unlabelled := by
      rw [List.map_map]
      exact List.map_congr_left fun p hp => (h.2.1 p hp).ofWord
    rw [Stmt.nested, Nested.stmt_list_ofString, Nested.stmts_cons, Nested.stmts_cons,
      Stmt.ofItems_function, Stmt.stmts_nestedAll hnumber body h.2.2 hplain, hparams,
      Nested.token_ofString, h.1.ofWord, Stmt.unlabelled_function]
  | .ret keyword none => simp [Stmt.nested, Stmt.ofItems, h.1.ofWord_spelling]
  | .ret keyword (some e) =>
    simp [Stmt.nested, Stmt.ofItems, h.1.ofWord_spelling, e.expr_nested hnumber (h.2 e rfl) hplain]

theorem Stmt.stmts_nestedAll (hnumber : ReadsNumbers number) (ss : List Stmt)
    (h : Stmt.ScannedAll ss) (hplain : ∀ v ∈ Stmt.literalsAll ss, v.IsPlain) :
    Nested.stmts number (Stmt.nestedAll ss) = ss.map Stmt.unlabelled := by
  match ss with
  | [] => rfl
  | s :: ss =>
    obtain ⟨hfirst, hrest⟩ := List.forall_mem_append.mp hplain
    rw [Stmt.nestedAll, Nested.stmts_cons, Stmt.stmt_nested hnumber s h.1 hfirst,
      Stmt.stmts_nestedAll hnumber ss h.2 hrest, List.map_cons]

end

end

end LoxLang

import LoxLang.Proofs.Session.Joined

/-!
Programs as they are written, each `for` being a loop of its own with up to three clauses, and the
trees that such programs are read as, in which the loops are in the while form. Every accepted text
has been written so, and is read as the tree of what was written, up to ids.
-/
namespace LoxLang.Direct

inductive Initializer
  | declare (name : Token) (value : Option Expr)
  | expression (e : Expr)

mutual

inductive Statement
  | expression (e : Expr)
  | print (e : Expr)
  | block (body : List Declaration)
  | ifThen (condition : Expr) (thenBranch : Statement)
  | ifElse (condition : Expr) (thenBranch elseBranch : Statement)
  | whileLoop (condition : Expr) (body : Statement)
  | forLoop (initializer : Option Initializer) (condition increment : Option Expr)
      (body : Statement)
  | ret (keyword : Token) (value : Option Expr)

inductive Declaration
  | declare (name : Token) (value : Option Expr)
  | function (name : Token) (params : List Token) (body : List Declaration)
  | statement (s : Statement)

end

def Initializer.parsed : Initializer → Stmt
  | .declare name value => .declare name value
  | .expression e => .expression e

mutual

def Statement.parsed : Statement → Stmt
  | .expression e => .expression e
  | .print e => .print e
  | .block body => .block (parsedAll body)
  | .ifThen condition thenBranch => .ifThen condition thenBranch.parsed
  | .ifElse condition thenBranch elseBranch =>
    .ifElse condition thenBranch.parsed elseBranch.parsed
  | .whileLoop condition body => .whileLoop condition body.parsed
  | .forLoop initializer condition increment body =>
    Grammar.whileForm (initializer.map Initializer.parsed) condition increment body.parsed
  | .ret keyword value => .ret keyword value

def Declaration.parsed : Declaration → Stmt
  | .declare name value => .declare name value
  | .function name params body => .function name params (parsedAll body)
  | .statement s => s.parsed

def parsedAll : List Declaration → List Stmt
  | [] => []
  | d :: ds => d.parsed :: parsedAll ds

end

open Grammar (Expression OptionalExpression ExpressionStatement LetDeclaration ForInitializer
  OptionalParameters whileForm)

inductive WrittenInitializer : List Token → Option Initializer → Prop
  | declaration {ts : List Token} {name : Token} {value : Option Expr}
      (h : LetDeclaration ts (.declare name value)) :
      WrittenInitializer ts (some (.declare name (value.map Expr.withoutIds)))
  | expression {ts : List Token} {e : Expr} (h : ExpressionStatement ts (.expression e)) :
      WrittenInitializer ts (some (.expression e.withoutIds))
  | none {semicolon : Token} (h : semicolon.kind = .symbol .semicolon) :
      WrittenInitializer [semicolon] none

mutual

inductive WrittenDeclarations : List Token → List Declaration → Prop
  | nil : WrittenDeclarations [] []
  | cons {ts us : List Token} {d : Declaration} {ds : List Declaration} {isOpen : Bool}
      (hfirst : WrittenDeclaration ts d isOpen) (hrest : WrittenDeclarations us ds) :
      WrittenDeclarations (ts ++ us) (d :: ds)

/-- A declaration; the flag tells whether it ends in an `if` to which an `else` could still be
added. -/
inductive WrittenDeclaration : List Token → Declaration → Bool → Prop
  | function {word name opening closing : Token} {ts us params : List Token}
      {body : List Declaration} (hword : word.kind = .keyword .funKw)
      (hname : name.kind = .identifier) (hopening : opening.kind = .symbol .leftParen)
      (hparams : OptionalParameters ts params) (hclosing : closing.kind = .symbol .rightParen)
      (hbody : WrittenBlock us body) :
      WrittenDeclaration (word :: name :: opening :: (ts ++ closing :: us))
        (.function name params body) false
  | letDeclaration {ts : List Token} {name : Token} {value : Option Expr}
      (h : LetDeclaration ts (.declare name value)) :
      WrittenDeclaration ts (.declare name (value.map Expr.withoutIds)) false
  | statement {ts : List Token} {s : Statement} {isOpen : Bool}
      (h : WrittenStatement ts s isOpen) : WrittenDeclaration ts (.statement s) isOpen

inductive WrittenBlock : List Token → List Declaration → Prop
  | mk {opening closing : Token} {ts : List Token} {body : List Declaration}
      (hopening : opening.kind = .symbol .leftBrace) (hbody : WrittenDeclarations ts body)
      (hclosing : closing.kind = .symbol .rightBrace) :
      WrittenBlock (opening :: (ts ++ [closing])) body

/-- A statement; an `else` belongs to the nearest `if` that it can belong to. -/
inductive WrittenStatement : List Token → Statement → Bool → Prop
  | expression {ts : List Token} {e : Expr} (h : ExpressionStatement ts (.expression e)) :
      WrittenStatement ts (.expression e.withoutIds) false
  | forLoop {word opening semicolon closing : Token} {ts us vs ws : List Token}
      {initializer : Option Initializer} {condition increment : Option Expr} {body : Statement}
      {isOpen : Bool} (hword : word.kind = .keyword .forKw)
      (hopening : opening.kind = .symbol .leftParen)
      (hinitializer : WrittenInitializer ts initializer)
      (hcondition : OptionalExpression us condition)
      (hsemicolon : semicolon.kind = .symbol .semicolon)
      (hincrement : OptionalExpression vs increment)
      (hclosing : closing.kind = .symbol .rightParen) (hbody : WrittenStatement ws body isOpen) :
      WrittenStatement (word :: opening :: (ts ++ (us ++ semicolon :: (vs ++ closing :: ws))))
        (.forLoop initializer (condition.map Expr.withoutIds) (increment.map Expr.withoutIds) body)
        isOpen
  | ifThen {word opening closing : Token} {ts us : List Token} {condition : Expr}
      {thenBranch : Statement} {isOpen : Bool} (hword : word.kind = .keyword .ifKw)
      (hopening : opening.kind = .symbol .leftParen) (hcondition : Expression ts condition)
      (hclosing : closing.kind = .symbol .rightParen)
      (hthen : WrittenStatement us thenBranch isOpen) :
      WrittenStatement (word :: opening :: (ts ++ closing :: us))
        (.ifThen condition.withoutIds thenBranch) true
  | ifElse {word opening closing elseWord : Token} {ts us vs : List Token} {condition : Expr}
      {thenBranch elseBranch : Statement} {isOpen : Bool} (hword : word.kind = .keyword .ifKw)
      (hopening : opening.kind = .symbol .leftParen) (hcondition : Expression ts condition)
      (hclosing : closing.kind = .symbol .rightParen)
      (hthen : WrittenStatement us thenBranch false) (helse : elseWord.kind = .keyword .elseKw)
      (helseBranch : WrittenStatement vs elseBranch isOpen) :
      WrittenStatement (word :: opening :: (ts ++ closing :: (us ++ elseWord :: vs)))
        (.ifElse condition.withoutIds thenBranch elseBranch) isOpen
  | print {word semicolon : Token} {ts : List Token} {e : Expr}
      (hword : word.kind = .keyword .printKw) (h : Expression ts e)
      (hsemicolon : semicolon.kind = .symbol .semicolon) :
      WrittenStatement (word :: (ts ++ [semicolon])) (.print e.withoutIds) false
  | ret {word semicolon : Token} {ts : List Token} {value : Option Expr}
      (hword : word.kind = .keyword .returnKw) (h : OptionalExpression ts value)
      (hsemicolon : semicolon.kind = .symbol .semicolon) :
      WrittenStatement (word :: (ts ++ [semicolon])) (.ret word (value.map Expr.withoutIds)) false
  | whileLoop {word opening closing : Token} {ts us : List Token} {condition : Expr}
      {body : Statement} {isOpen : Bool} (hword : word.kind = .keyword .whileKw)
      (hopening : opening.kind = .symbol .leftParen) (hcondition : Expression ts condition)
      (hclosing : closing.kind = .symbol .rightParen) (hbody : WrittenStatement us body isOpen) :
      WrittenStatement (word :: opening :: (ts ++ closing :: us))
        (.whileLoop condition.withoutIds body) isOpen
  | block {ts : List Token} {body : List Declaration} (h : WrittenBlock ts body) :
      WrittenStatement ts (.block body) false

end

def Writes (text : String) (program : List Declaration) : Prop :=
  WrittenDeclarations (wordsOf text) program

section

variable {s : Stmt} {e : Expr} {t t' : Stmt} {ss : List Stmt} {name : Token}

theorem eq_expression_of_withoutIds (h : s.withoutIds = .expression e) :
    ∃ e', s = .expression e' ∧ e'.withoutIds = e := by
  cases s <;> simp at h
  exact ⟨_, rfl, h⟩

theorem eq_print_of_withoutIds (h : s.withoutIds = .print e) :
    ∃ e', s = .print e' ∧ e'.withoutIds = e := by
  cases s <;> simp at h
  exact ⟨_, rfl, h⟩

theorem eq_declare_of_withoutIds {value : Option Expr} (h : s.withoutIds = .declare name value) :
    ∃ value', s = .declare name value' ∧ value'.map Expr.withoutIds = value := by
  cases s <;> simp at h
  obtain ⟨rfl, h⟩ := h
  exact ⟨_, rfl, h⟩

theorem eq_block_of_withoutIds (h : s.withoutIds = .block ss) :
    ∃ ss', s = .block ss' ∧ ss'.map Stmt.withoutIds = ss := by
  cases s <;> simp at h
  exact ⟨_, rfl, h⟩

theorem eq_pair_of_withoutIds (h : s.withoutIds = .block [t, t']) :
    ∃ s₁ s₂, s = .block [s₁, s₂] ∧ s₁.withoutIds = t ∧ s₂.withoutIds = t' := by
  obtain ⟨ss, rfl, hss⟩ := eq_block_of_withoutIds h
  obtain ⟨s₁, ss, rfl, h₁, hss⟩ := List.map_eq_cons_iff.mp hss
  obtain ⟨s₂, ss, rfl, h₂, hss⟩ := List.map_eq_cons_iff.mp hss
  obtain rfl := List.map_eq_nil_iff.mp hss
  exact ⟨s₁, s₂, rfl, h₁, h₂⟩

theorem eq_ifThen_of_withoutIds (h : s.withoutIds = .ifThen e t) :
    ∃ e' s', s = .ifThen e' s' ∧ e'.withoutIds = e ∧ s'.withoutIds = t := by
  cases s <;> simp at h
  exact ⟨_, _, rfl, h.1, h.2⟩

theorem eq_ifElse_of_withoutIds (h : s.withoutIds = .ifElse e t t') :
    ∃ e' s₁ s₂, s = .ifElse e' s₁ s₂ ∧ e'.withoutIds = e ∧ s₁.withoutIds = t ∧
      s₂.withoutIds = t' := by
  cases s <;> simp at h
  exact ⟨_, _, _, rfl, h.1, h.2.1, h.2.2⟩

theorem eq_whileLoop_of_withoutIds (h : s.withoutIds = .whileLoop e t) :
    ∃ e' s', s = .whileLoop e' s' ∧ e'.withoutIds = e ∧ s'.withoutIds = t := by
  cases s <;> simp at h
  exact ⟨_, _, rfl, h.1, h.2⟩

theorem eq_function_of_withoutIds {params : List Token}
    (h : s.withoutIds = .function name params ss) :
    ∃ ss', s = .function name params ss' ∧ ss'.map Stmt.withoutIds = ss := by
  cases s <;> simp at h
  obtain ⟨rfl, rfl, h⟩ := h
  exact ⟨_, rfl, h⟩

theorem eq_ret_of_withoutIds {keyword : Token} {value : Option Expr}
    (h : s.withoutIds = .ret keyword value) :
    ∃ value', s = .ret keyword value' ∧ value'.map Expr.withoutIds = value := by
  cases s <;> simp at h
  obtain ⟨rfl, h⟩ := h
  exact ⟨_, rfl, h⟩

theorem eq_literal_of_withoutIds {value : Literal} (h : e.withoutIds = .literal value) :
    e = .literal value := by
  cases e <;> simp at h
  rw [h]

end

/-- A statement declares no name in the scope that it stands in. -/
theorem declaredName?_of_parsed {s : Stmt} {x : Statement} (h : s.withoutIds = x.parsed) :
    declaredName? s = none := by
  have hids : declaredName? s.withoutIds = declaredName? s := by
    cases s with
    | declare name value => cases value <;> rfl
    | ret keyword value => cases value <;> rfl
    | _ => rfl
  rw [← hids, h]
  cases x with
  | forLoop initializer condition increment body =>
    cases initializer <;> cases increment <;> rfl
  | _ => rfl

def withIncrement (body : Stmt) : Option Expr → Stmt
  | none => body
  | some e => .block [body, .expression e]

theorem whileForm_none (condition increment : Option Expr) (body : Stmt) :
    whileForm none condition increment body =
      .whileLoop (condition.getD (.literal (.bool true))) (withIncrement body increment) := by
  cases increment <;> rfl

theorem whileForm_some (s : Stmt) (condition increment : Option Expr) (body : Stmt) :
    whileForm (some s) condition increment body =
      .block [s, whileForm none condition increment body] := by cases increment <;> rfl

theorem withoutIds_whileForm (initializer : Option Stmt) (condition increment : Option Expr)
    (body : Stmt) :
    (whileForm initializer condition increment body).withoutIds =
      whileForm (initializer.map Stmt.withoutIds) (condition.map Expr.withoutIds)
        (increment.map Expr.withoutIds) body.withoutIds := by
  have hcondition : (condition.getD (.literal (.bool true))).withoutIds =
      (condition.map Expr.withoutIds).getD (.literal (.bool true)) := by
    cases condition <;> rfl
  cases initializer <;> cases increment <;> simp [whileForm, hcondition]

theorem WrittenInitializer.derived {ts : List Token} {initializer : Option Initializer}
    (h : WrittenInitializer ts initializer) : ∃ i, ForInitializer ts i ∧
      i.map Stmt.withoutIds = initializer.map Initializer.parsed := by
  cases h with
  | declaration h => exact ⟨_, .declaration h, by simp [Initializer.parsed]⟩
  | expression h => exact ⟨_, .expression h, rfl⟩
  | none h => exact ⟨Option.none, .none h, rfl⟩

mutual

theorem WrittenDeclarations.derived {ts : List Token} {ds : List Declaration}
    (h : WrittenDeclarations ts ds) :
    ∃ ss, Grammar.Declarations true ts ss ∧ ss.map Stmt.withoutIds = parsedAll ds := by
  match h with
  | .nil => exact ⟨[], .nil, rfl⟩
  | .cons hfirst hrest =>
    obtain ⟨s, hs, hsame⟩ := hfirst.derived
    obtain ⟨ss, hss, hsames⟩ := hrest.derived
    exact ⟨s :: ss, .cons hs hss, by rw [List.map_cons, hsame, hsames, parsedAll]⟩

/-- A declaration as it is written can be derived in the grammar, with the tree it is read as. -/
theorem WrittenDeclaration.derived {ts : List Token} {d : Declaration} {isOpen : Bool}
    (h : WrittenDeclaration ts d isOpen) :
    ∃ s, Grammar.Declaration true ts s isOpen ∧ s.withoutIds = d.parsed := by
  match h with
  | .function hword hname hopening hparams hclosing hbody =>
    obtain ⟨ss, hss, hsames⟩ := hbody.derived
    refine ⟨_, .function hword hname hopening hparams hclosing hss, ?_⟩
    rw [Stmt.withoutIds_function, hsames, Declaration.parsed]
  | .letDeclaration h =>
    exact ⟨_, .letDeclaration h, by rw [Stmt.withoutIds_declare, Declaration.parsed]⟩
  | .statement h =>
    obtain ⟨s, hs, hsame⟩ := h.derived
    exact ⟨s, .statement hs, by rw [hsame, Declaration.parsed]⟩

theorem WrittenBlock.derived {ts : List Token} {body : List Declaration}
    (h : WrittenBlock ts body) :
    ∃ ss, Grammar.Block true ts ss ∧ ss.map Stmt.withoutIds = parsedAll body := by
  match h with
  | .mk hopening hbody hclosing =>
    obtain ⟨ss, hss, hsames⟩ := hbody.derived
    exact ⟨ss, .mk hopening hss hclosing, hsames⟩

/-- A statement as it is written can be derived in the grammar, with the tree it is read as. -/
theorem WrittenStatement.derived {ts : List Token} {s : Statement} {isOpen : Bool}
    (h : WrittenStatement ts s isOpen) :
    ∃ s', Grammar.Statement true ts s' isOpen ∧ s'.withoutIds = s.parsed := by
  match h with
  | .expression h => exact ⟨_, .expression h, by rw [Stmt.withoutIds_expression, Statement.parsed]⟩
  | .forLoop hword hopening hinitializer hcondition hsemicolon hincrement hclosing hbody =>
    obtain ⟨i, hi, hsame⟩ := hinitializer.derived
    obtain ⟨b, hb, hsame'⟩ := hbody.derived
    refine ⟨_, .forLoop hword hopening hi hcondition hsemicolon hincrement hclosing hb, ?_⟩
    rw [withoutIds_whileForm, hsame, hsame', Statement.parsed]
  | .ifThen hword hopening hcondition hclosing hthen =>
    obtain ⟨s₁, h₁, hsame₁⟩ := hthen.derived
    refine ⟨_, .ifThen hword hopening hcondition hclosing h₁, ?_⟩
    rw [Stmt.withoutIds_ifThen, hsame₁, Statement.parsed]
  | .ifElse hword hopening hcondition hclosing hthen helse helseBranch =>
    obtain ⟨s₁, h₁, hsame₁⟩ := hthen.derived
    obtain ⟨s₂, h₂, hsame₂⟩ := helseBranch.derived
    refine ⟨_, .ifElse hword hopening hcondition hclosing h₁ (fun _ => rfl) helse h₂, ?_⟩
    rw [Stmt.withoutIds_ifElse, hsame₁, hsame₂, Statement.parsed]
  | .print hword h hsemicolon =>
    exact ⟨_, .print hword h hsemicolon, by rw [Stmt.withoutIds_print, Statement.parsed]⟩
  | .ret hword h hsemicolon =>
    exact ⟨_, .ret hword h hsemicolon, by rw [Stmt.withoutIds_ret, Statement.parsed]⟩
  | .whileLoop hword hopening hcondition hclosing hbody =>
    obtain ⟨b, hb, hsame⟩ := hbody.derived
    refine ⟨_, .whileLoop hword hopening hcondition hclosing hb, ?_⟩
    rw [Stmt.withoutIds_whileLoop, hsame, Statement.parsed]
  | .block h =>
    obtain ⟨ss, hss, hsames⟩ := h.derived
    exact ⟨_, .block hss, by rw [Stmt.withoutIds_block, hsames, Statement.parsed]⟩

end

/-- Whatever ids its uses get, a text is read as the tree of what was written. -/
theorem statements_of_writes {text : String} {program : List Declaration}
    (h : Writes text program) (nextId : ReferenceId) :
    (Front.ofText nextId text).statements.map Stmt.withoutIds = parsedAll program := by
  obtain ⟨ss, hss, hsames⟩ := h.derived
  rw [← body_tokensOf] at hss
  obtain ⟨-, hread⟩ := Parsing.parse_of_declarations hss nextId
  exact Eq.trans hread hsames

theorem eq_declare_of_letDeclaration {ts : List Token} {s : Stmt} (h : LetDeclaration ts s) :
    ∃ name value, s = .declare name value := by
  cases h with
  | plain => exact ⟨_, _, rfl⟩
  | initialized => exact ⟨_, _, rfl⟩

/-- What the grammar takes for the first clause of a `for` can be written so. -/
theorem exists_writtenInitializer {ts : List Token} {i : Option Stmt} (h : ForInitializer ts i) :
    ∃ initializer, WrittenInitializer ts initializer := by
  cases h with
  | declaration h =>
    obtain ⟨name, value, rfl⟩ := eq_declare_of_letDeclaration h
    exact ⟨_, .declaration h⟩
  | expression h =>
    cases h with
    | mk h hsemicolon => exact ⟨_, .expression (.mk h hsemicolon)⟩
  | none h => exact ⟨Option.none, .none h⟩

mutual

theorem exists_writtenDeclarations {ts : List Token} {ss : List Stmt}
    (h : Grammar.Declarations true ts ss) : ∃ ds, WrittenDeclarations ts ds := by
  match h with
  | .nil => exact ⟨[], .nil⟩
  | .cons hfirst hrest =>
    obtain ⟨d, hd⟩ := exists_writtenDeclaration hfirst
    obtain ⟨ds, hds⟩ := exists_writtenDeclarations hrest
    exact ⟨d :: ds, .cons hd hds⟩

/-- What the grammar takes for a declaration can be written so. -/
theorem exists_writtenDeclaration {ts : List Token} {s : Stmt} {isOpen : Bool}
    (h : Grammar.Declaration true ts s isOpen) : ∃ d, WrittenDeclaration ts d isOpen := by
  match h with
  | .function hword hname hopening hparams hclosing hbody =>
    obtain ⟨body, hbody⟩ := exists_writtenBlock hbody
    exact ⟨_, .function hword hname hopening hparams hclosing hbody⟩
  | .letDeclaration h =>
    obtain ⟨name, value, rfl⟩ := eq_declare_of_letDeclaration h
    exact ⟨_, .letDeclaration h⟩
  | .statement h =>
    obtain ⟨s, hs⟩ := exists_writtenStatement h
    exact ⟨_, .statement hs⟩

theorem exists_writtenBlock {ts : List Token} {body : List Stmt}
    (h : Grammar.Block true ts body) : ∃ ds, WrittenBlock ts ds := by
  match h with
  | .mk hopening hbody hclosing =>
    obtain ⟨ds, hds⟩ := exists_writtenDeclarations hbody
    exact ⟨ds, .mk hopening hds hclosing⟩

/-- What the grammar takes for a statement can be written so. -/
theorem exists_writtenStatement {ts : List Token} {s : Stmt} {isOpen : Bool}
    (h : Grammar.Statement true ts s isOpen) : ∃ s', WrittenStatement ts s' isOpen := by
  match h with
  | .expression (.mk h hsemicolon) => exact ⟨_, .expression (.mk h hsemicolon)⟩
  | .forLoop hword hopening hinitializer hcondition hsemicolon hincrement hclosing hbody =>
    obtain ⟨i, hi⟩ := exists_writtenInitializer hinitializer
    obtain ⟨b, hb⟩ := exists_writtenStatement hbody
    exact ⟨_, .forLoop hword hopening hi hcondition hsemicolon hincrement hclosing hb⟩
  | .ifThen hword hopening hcondition hclosing hthen =>
    obtain ⟨s₁, h₁⟩ := exists_writtenStatement hthen
    exact ⟨_, .ifThen hword hopening hcondition hclosing h₁⟩
  | .ifElse hword hopening hcondition hclosing hthen hnearest helse helseBranch =>
    obtain ⟨s₁, h₁⟩ := exists_writtenStatement hthen
    rw [hnearest rfl] at h₁
    obtain ⟨s₂, h₂⟩ := exists_writtenStatement helseBranch
    exact ⟨_, .ifElse hword hopening hcondition hclosing h₁ helse h₂⟩
  | .print hword h hsemicolon => exact ⟨_, .print hword h hsemicolon⟩
  | .ret hword h hsemicolon => exact ⟨_, .ret hword h hsemicolon⟩
  | .whileLoop hword hopening hcondition hclosing hbody =>
    obtain ⟨b, hb⟩ := exists_writtenStatement hbody
    exact ⟨_, .whileLoop hword hopening hcondition hclosing hb⟩
  | .block h =>
    obtain ⟨body, hbody⟩ := exists_writtenBlock h
    exact ⟨_, .block hbody⟩

end

/-- Every accepted text is how some program has been written. -/
theorem exists_writes {text : String} (h : Accepted text) : ∃ program, Writes text program := by
  obtain ⟨ss, hderives⟩ := h.exists_derives
  exact exists_writtenDeclarations hderives.declarations

theorem exists_writesAll {texts : List String} (h : ∀ text ∈ texts, Accepted text) :
    ∃ programs, List.Forall₂ Writes texts programs := by
  induction texts with
  | nil => exact ⟨[], .nil⟩
  | cons text texts ih =>
    obtain ⟨program, hprogram⟩ := exists_writes (h text List.mem_cons_self)
    obtain ⟨programs, hprograms⟩ := ih fun text htext => h text (List.mem_cons_of_mem _ htext)
    exact ⟨program :: programs, .cons hprogram hprograms⟩

end LoxLang.Direct

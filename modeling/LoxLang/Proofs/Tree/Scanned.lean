import LoxLang.Proofs.Grammar.Basic
import LoxLang.Proofs.Token.Longest

/-!
Trees of scanned texts. Each token of such a tree is spelled as its place asks for: an operator is one of the
operators of its node, a name is a name and no keyword, and a number has been read from digits. Main
statement: `Declarations.scanned`.
-/
namespace LoxLang

open Grammar
open Parsing (Level)

/-- The token has a text that the lexical grammar allows for its kind. -/
def Token.Spelled (t : Token) : Prop := ∃ rest, Fits (.token t.kind) t.lexeme.toList rest

def Token.IsSymbol (symbols : List Symbol) (t : Token) : Prop :=
  ∃ s ∈ symbols, t.kind = .symbol s ∧ t.lexeme.toList = s.spelling

def Token.IsKeyword (words : List Keyword) (t : Token) : Prop :=
  ∃ k ∈ words, t.kind = .keyword k ∧ t.lexeme.toList = k.spelling.toList

structure Token.IsName (t : Token) : Prop where
  kind : t.kind = .identifier
  letters : ∃ c cs, t.lexeme.toList = c :: cs ∧ IsLetter c ∧ ∀ d ∈ cs, IsLetter d ∨ IsDigit d
  free : ∀ k : Keyword, k.spelling.toList ≠ t.lexeme.toList

def Literal.Scanned : Literal → Prop
  | .number x => ∃ ds fs, (∀ d ∈ ds, IsDigit d) ∧ (∀ d ∈ fs, IsDigit d) ∧ x = Number.ofDigits ds fs
  | _ => True

namespace Token.Spelled

variable {t : Token}

theorem isSymbol (h : t.Spelled) {symbols : List Symbol} {s : Symbol} (hs : s ∈ symbols)
    (hkind : t.kind = .symbol s) : t.IsSymbol symbols := by
  obtain ⟨rest, hfits⟩ := h
  rw [hkind] at hfits
  generalize htext : t.lexeme.toList = text at hfits
  cases hfits
  exact ⟨s, hs, hkind, htext⟩

theorem isKeyword (h : t.Spelled) {words : List Keyword} {k : Keyword} (hk : k ∈ words)
    (hkind : t.kind = .keyword k) : t.IsKeyword words := by
  obtain ⟨rest, hfits⟩ := h
  rw [hkind] at hfits
  generalize htext : t.lexeme.toList = text at hfits
  cases hfits
  exact ⟨k, hk, hkind, htext⟩

theorem isName (h : t.Spelled) (hkind : t.kind = .identifier) : t.IsName := by
  obtain ⟨rest, hfits⟩ := h
  rw [hkind] at hfits
  generalize htext : t.lexeme.toList = text at hfits
  cases hfits with
  | identifier _ hfirst hothers hname =>
    exact ⟨hkind, ⟨_, _, htext, hfirst, hothers⟩, fun k => htext ▸ hname k⟩

/-- A literal of a token that was scanned has been scanned. -/
theorem literal (h : t.Spelled) {v : Literal} (hv : LiteralOf t.kind v) : v.Scanned := by
  obtain ⟨rest, hfits⟩ := h
  generalize hkind : t.kind = kind at hfits hv
  cases hv with
  | number x =>
    generalize t.lexeme.toList = text at hfits
    cases hfits with
    | whole _ _ hdigits => exact ⟨_, [], hdigits, nofun, rfl⟩
    | fraction _ _ hdigits _ hdigits' => exact ⟨_, _, hdigits, hdigits', rfl⟩
  | _ => exact trivial

end Token.Spelled

/-- The tokens of a text are spelled as their kinds ask for, up to the end of the input. -/
theorem spelled_of_mem {line : Nat} {cs : List Char} {t : Token}
    (h : t ∈ (itemsFrom line cs).filterMap Item.token?) : t.Spelled := by
  obtain ⟨c, ds, helement, hlexeme⟩ := first_of_mem_token (mem_tokens.mp h)
  have hfits := fits_first helement fun _ => Element.noConfusion
  refine ⟨(Piece.first c ds).rest, ?_⟩
  rw [hlexeme, String.toList_ofList]
  exact hfits

mutual

def Expr.Scanned : Expr → Prop
  | .literal value => value.Scanned
  | .grouping inner => inner.Scanned
  | .unary operator right => operator.IsSymbol [.bang, .minus] ∧ right.Scanned
  | .binary left operator right =>
    operator.IsSymbol [.plus, .minus, .star, .slash, .greater, .greaterEqual, .less, .lessEqual,
      .equalEqual, .bangEqual] ∧ left.Scanned ∧ right.Scanned
  | .logical left operator right =>
    operator.IsKeyword [.andKw, .orKw] ∧ left.Scanned ∧ right.Scanned
  | .reference _ name => name.IsName
  | .assign _ name value => name.IsName ∧ value.Scanned
  | .call callee paren arguments =>
    paren.IsSymbol [.rightParen] ∧ callee.Scanned ∧ Expr.ScannedAll arguments

def Expr.ScannedAll : List Expr → Prop
  | [] => True
  | e :: es => e.Scanned ∧ Expr.ScannedAll es

end

mutual

def Stmt.Scanned : Stmt → Prop
  | .expression e | .print e => e.Scanned
  | .declare name initializer => name.IsName ∧ ∀ e ∈ initializer, e.Scanned
  | .block body => Stmt.ScannedAll body
  | .ifThen condition thenBranch => condition.Scanned ∧ thenBranch.Scanned
  | .ifElse condition thenBranch elseBranch =>
    condition.Scanned ∧ thenBranch.Scanned ∧ elseBranch.Scanned
  | .whileLoop condition body => condition.Scanned ∧ body.Scanned
  | .function name params body =>
    name.IsName ∧ (∀ p ∈ params, p.IsName) ∧ Stmt.ScannedAll body
  | .ret keyword value => keyword.IsKeyword [.returnKw] ∧ ∀ e ∈ value, e.Scanned

def Stmt.ScannedAll : List Stmt → Prop
  | [] => True
  | s :: ss => s.Scanned ∧ Stmt.ScannedAll ss

end

theorem Stmt.scannedAll_iff {ss : List Stmt} : Stmt.ScannedAll ss ↔ ∀ s ∈ ss, s.Scanned := by
  induction ss with
  | nil => simp [Stmt.ScannedAll]
  | cons s ss ih => simp [Stmt.ScannedAll, ih]

theorem scanned_operation {ℓ : Level} {operator : Token} (hkind : OperatorOf ℓ operator.kind)
    (hspelled : operator.Spelled) {left right : Expr} (hleft : left.Scanned)
    (hright : right.Scanned) : (operation ℓ left operator right).Scanned := by
  generalize hk : operator.kind = kind at hkind
  cases hkind
  case or | and => exact ⟨hspelled.isKeyword (by decide) hk, hleft, hright⟩
  all_goals exact ⟨hspelled.isSymbol (by decide) hk, hleft, hright⟩

def ScannedOperation (ℓ : Level) (o : Token × Expr) : Prop :=
  OperatorOf ℓ o.1.kind ∧ o.1.Spelled ∧ o.2.Scanned

theorem scanned_grouped {ℓ : Level} {first : Expr} {rest : List (Token × Expr)}
    (hfirst : first.Scanned) (hrest : ∀ o ∈ rest, ScannedOperation ℓ o) :
    (grouped ℓ first rest).Scanned := by
  induction rest generalizing first with
  | nil => exact hfirst
  | cons o rest ih =>
    obtain ⟨⟨hkind, hspelled, hright⟩, hrest⟩ := List.forall_mem_cons.mp hrest
    exact ih (scanned_operation hkind hspelled hfirst hright) hrest

def ScannedCall (c : Token × List Expr) : Prop :=
  c.1.IsSymbol [.rightParen] ∧ Expr.ScannedAll c.2

theorem scanned_applied {callee : Expr} {calls : List (Token × List Expr)}
    (hcallee : callee.Scanned) (hcalls : ∀ c ∈ calls, ScannedCall c) :
    (applied callee calls).Scanned := by
  induction calls generalizing callee with
  | nil => exact hcallee
  | cons c calls ih =>
    obtain ⟨⟨hparen, harguments⟩, hcalls⟩ := List.forall_mem_cons.mp hcalls
    exact ih ⟨hparen, hcallee, harguments⟩ hcalls

section

/-- Tokens of a list that is put together are spelled if those of its parts are. -/
theorem spelled_append {ts us : List Token} :
    (∀ t ∈ ts ++ us, t.Spelled) ↔ (∀ t ∈ ts, t.Spelled) ∧ ∀ t ∈ us, t.Spelled :=
  List.forall_mem_append

theorem spelled_cons {t : Token} {ts : List Token} :
    (∀ u ∈ t :: ts, u.Spelled) ↔ t.Spelled ∧ ∀ u ∈ ts, u.Spelled :=
  List.forall_mem_cons

mutual

theorem Grammar.Expression.scanned {ts : List Token} {e : Expr} (h : Expression ts e)
    (hts : ∀ t ∈ ts, t.Spelled) : e.Scanned := by
  match h with
  | .assign id hname hsign hvalue =>
    obtain ⟨hn, hothers⟩ := spelled_cons.mp hts
    exact ⟨hn.isName hname, hvalue.scanned (spelled_cons.mp hothers).2⟩
  | .operators h => exact h.scanned hts

theorem Grammar.Operators.scanned {ℓ : Level} {ts : List Token} {e : Expr} (h : Operators ℓ ts e)
    (hts : ∀ t ∈ ts, t.Spelled) : e.Scanned := by
  match h with
  | .mk hfirst hrest =>
    obtain ⟨hleft, hright⟩ := spelled_append.mp hts
    exact scanned_grouped (hfirst.scanned hleft) (hrest.scanned hright)

theorem Grammar.Operand.scanned {ℓ : Level} {ts : List Token} {e : Expr} (h : Operand ℓ ts e)
    (hts : ∀ t ∈ ts, t.Spelled) : e.Scanned := by
  match h with
  | .level _ h => exact h.scanned hts
  | .unary _ h => exact h.scanned hts

theorem Grammar.Operations.scanned {ℓ : Level} {ts : List Token} {rest : List (Token × Expr)}
    (h : Operations ℓ ts rest) (hts : ∀ t ∈ ts, t.Spelled) : ∀ o ∈ rest, ScannedOperation ℓ o := by
  match h with
  | .nil => exact nofun
  | .cons hoperator hfirst hrest =>
    obtain ⟨ho, hothers⟩ := spelled_cons.mp hts
    obtain ⟨hright, hothers⟩ := spelled_append.mp hothers
    exact List.forall_mem_cons.mpr ⟨⟨hoperator, ho, hfirst.scanned hright⟩, hrest.scanned hothers⟩

/-- The parts of a derived expression are spelled as their places ask for. -/
theorem Grammar.Unary.scanned {ts : List Token} {e : Expr} (h : Unary ts e)
    (hts : ∀ t ∈ ts, t.Spelled) : e.Scanned := by
  match h with
  | .sign hoperator h =>
    obtain ⟨ho, hright⟩ := spelled_cons.mp hts
    rcases hoperator with hoperator | hoperator
    · exact ⟨ho.isSymbol (by decide) hoperator, h.scanned hright⟩
    · exact ⟨ho.isSymbol (by decide) hoperator, h.scanned hright⟩
  | .call h => exact h.scanned hts

theorem Grammar.Call.scanned {ts : List Token} {e : Expr} (h : Call ts e)
    (hts : ∀ t ∈ ts, t.Spelled) : e.Scanned := by
  match h with
  | .mk hcallee hcalls =>
    obtain ⟨hleft, hright⟩ := spelled_append.mp hts
    exact scanned_applied (hcallee.scanned hleft) (hcalls.scanned hright)

theorem Grammar.Calls.scanned {ts : List Token} {calls : List (Token × List Expr)}
    (h : Calls ts calls) (hts : ∀ t ∈ ts, t.Spelled) : ∀ c ∈ calls, ScannedCall c := by
  match h with
  | .nil => exact nofun
  | .empty _ hclosing hrest =>
    obtain ⟨hclose, hothers⟩ := spelled_cons.mp (spelled_cons.mp hts).2
    exact List.forall_mem_cons.mpr
      ⟨⟨hclose.isSymbol (by decide) hclosing, trivial⟩, hrest.scanned hothers⟩
  | .cons _ harguments _ hclosing hrest =>
    obtain ⟨hitems, hothers⟩ := spelled_append.mp (spelled_cons.mp hts).2
    obtain ⟨hclose, hothers⟩ := spelled_cons.mp hothers
    exact List.forall_mem_cons.mpr
      ⟨⟨hclose.isSymbol (by decide) hclosing, harguments.scanned hitems⟩, hrest.scanned hothers⟩

theorem Grammar.Arguments.scanned {ts : List Token} {es : List Expr} (h : Arguments ts es)
    (hts : ∀ t ∈ ts, t.Spelled) : Expr.ScannedAll es := by
  match h with
  | .one h => exact ⟨h.scanned hts, trivial⟩
  | .cons hfirst _ hrest =>
    obtain ⟨hleft, hright⟩ := spelled_append.mp hts
    exact ⟨hfirst.scanned hleft, hrest.scanned (spelled_cons.mp hright).2⟩

theorem Grammar.Primary.scanned {ts : List Token} {e : Expr} (h : Primary ts e)
    (hts : ∀ t ∈ ts, t.Spelled) : e.Scanned := by
  match h with
  | .literal h => exact (spelled_cons.mp hts).1.literal h
  | .name id h => exact (spelled_cons.mp hts).1.isName h
  | .grouping _ h _ => exact h.scanned (spelled_append.mp (spelled_cons.mp hts).2).1

end

theorem Grammar.OptionalExpression.scanned {ts : List Token} {value : Option Expr}
    (h : OptionalExpression ts value) (hts : ∀ t ∈ ts, t.Spelled) : ∀ e ∈ value, e.Scanned := by
  cases h with
  | none => exact nofun
  | some h =>
    rintro _ ⟨⟩
    exact h.scanned hts

end

section

variable {ts : List Token} {s : Stmt}

theorem Grammar.ExpressionStatement.scanned (h : ExpressionStatement ts s)
    (hts : ∀ t ∈ ts, t.Spelled) : s.Scanned := by
  cases h with
  | mk h => exact h.scanned (spelled_append.mp hts).1

theorem Grammar.LetDeclaration.scanned (h : LetDeclaration ts s) (hts : ∀ t ∈ ts, t.Spelled) :
    s.Scanned := by
  cases h with
  | plain _ hname =>
    exact ⟨(spelled_cons.mp (spelled_cons.mp hts).2).1.isName hname, nofun⟩
  | initialized _ hname _ h =>
    obtain ⟨hn, hothers⟩ := spelled_cons.mp (spelled_cons.mp hts).2
    refine ⟨hn.isName hname, ?_⟩
    rintro _ ⟨⟩
    exact h.scanned (spelled_append.mp (spelled_cons.mp hothers).2).1

theorem Grammar.ForInitializer.scanned {initializer : Option Stmt}
    (h : ForInitializer ts initializer) (hts : ∀ t ∈ ts, t.Spelled) :
    ∀ s ∈ initializer, s.Scanned := by
  cases h with
  | none => exact nofun
  | declaration h =>
    rintro _ ⟨⟩
    exact h.scanned hts
  | expression h =>
    rintro _ ⟨⟩
    exact h.scanned hts

theorem Grammar.Parameters.isName {names : List Token} (h : Parameters ts names)
    (hts : ∀ t ∈ ts, t.Spelled) : ∀ p ∈ names, p.IsName := by
  induction h with
  | one hname => exact List.forall_mem_singleton.mpr ((spelled_cons.mp hts).1.isName hname)
  | cons hname _ _ ih =>
    obtain ⟨hn, hothers⟩ := spelled_cons.mp hts
    exact List.forall_mem_cons.mpr ⟨hn.isName hname, ih (spelled_cons.mp hothers).2⟩

theorem Grammar.OptionalParameters.isName {names : List Token} (h : OptionalParameters ts names)
    (hts : ∀ t ∈ ts, t.Spelled) : ∀ p ∈ names, p.IsName := by
  cases h with
  | none => exact nofun
  | some h => exact h.isName hts

/-- The only literal of the loop that no token stands for is a condition that is true. -/
theorem scanned_whileForm {initializer : Option Stmt} {condition increment : Option Expr}
    {body : Stmt} (hinitializer : ∀ s ∈ initializer, s.Scanned)
    (hcondition : ∀ e ∈ condition, e.Scanned) (hincrement : ∀ e ∈ increment, e.Scanned)
    (hbody : body.Scanned) : (whileForm initializer condition increment body).Scanned := by
  have htest : (condition.getD (.literal (.bool true))).Scanned := by
    cases condition with
    | none => exact trivial
    | some e => exact hcondition e rfl
  cases initializer with
  | none =>
    cases increment with
    | none => exact ⟨htest, hbody⟩
    | some e => exact ⟨htest, hbody, hincrement e rfl, trivial⟩
  | some s =>
    cases increment with
    | none => exact ⟨hinitializer s rfl, ⟨htest, hbody⟩, trivial⟩
    | some e => exact ⟨hinitializer s rfl, ⟨htest, hbody, hincrement e rfl, trivial⟩, trivial⟩

end

section

variable {nearest : Bool}

mutual

theorem Grammar.Declarations.scanned {ts : List Token} {ss : List Stmt}
    (h : Declarations nearest ts ss) (hts : ∀ t ∈ ts, t.Spelled) : Stmt.ScannedAll ss := by
  match h with
  | .nil => exact trivial
  | .cons hfirst hrest =>
    obtain ⟨hleft, hright⟩ := spelled_append.mp hts
    exact ⟨hfirst.scanned hleft, hrest.scanned hright⟩

theorem Grammar.Declaration.scanned {ts : List Token} {s : Stmt} {isOpen : Bool}
    (h : Declaration nearest ts s isOpen) (hts : ∀ t ∈ ts, t.Spelled) : s.Scanned := by
  match h with
  | .function _ hname _ hparams _ hbody =>
    obtain ⟨hn, hothers⟩ := spelled_cons.mp (spelled_cons.mp hts).2
    obtain ⟨hleft, hright⟩ := spelled_append.mp (spelled_cons.mp hothers).2
    exact ⟨hn.isName hname, hparams.isName hleft, hbody.scanned (spelled_cons.mp hright).2⟩
  | .letDeclaration h => exact h.scanned hts
  | .statement h => exact h.scanned hts

theorem Grammar.Block.scanned {ts : List Token} {body : List Stmt} (h : Block nearest ts body)
    (hts : ∀ t ∈ ts, t.Spelled) : Stmt.ScannedAll body := by
  match h with
  | .mk _ hbody _ => exact hbody.scanned (spelled_append.mp (spelled_cons.mp hts).2).1

/-- The parts of a derived statement are spelled as their places ask for. -/
theorem Grammar.Statement.scanned {ts : List Token} {s : Stmt} {isOpen : Bool}
    (h : Statement nearest ts s isOpen) (hts : ∀ t ∈ ts, t.Spelled) : s.Scanned := by
  match h with
  | .expression h => exact h.scanned hts
  | .forLoop _ _ hinitializer hcondition _ hincrement _ hbody =>
    -- the words of the clauses in the order of the text
    obtain ⟨hfirst, hothers⟩ := spelled_append.mp (spelled_cons.mp (spelled_cons.mp hts).2).2
    obtain ⟨hsecond, hothers⟩ := spelled_append.mp hothers
    obtain ⟨hthird, hothers⟩ := spelled_append.mp (spelled_cons.mp hothers).2
    exact scanned_whileForm (hinitializer.scanned hfirst) (hcondition.scanned hsecond)
      (hincrement.scanned hthird) (hbody.scanned (spelled_cons.mp hothers).2)
  | .ifThen _ _ hcondition _ hthen =>
    obtain ⟨hleft, hright⟩ := spelled_append.mp (spelled_cons.mp (spelled_cons.mp hts).2).2
    exact ⟨hcondition.scanned hleft, hthen.scanned (spelled_cons.mp hright).2⟩
  | .ifElse _ _ hcondition _ hthen _ _ helse =>
    obtain ⟨hleft, hright⟩ := spelled_append.mp (spelled_cons.mp (spelled_cons.mp hts).2).2
    obtain ⟨hmiddle, hright⟩ := spelled_append.mp (spelled_cons.mp hright).2
    exact ⟨hcondition.scanned hleft, hthen.scanned hmiddle,
      helse.scanned (spelled_cons.mp hright).2⟩
  | .print _ h _ => exact h.scanned (spelled_append.mp (spelled_cons.mp hts).2).1
  | .ret hword h _ =>
    obtain ⟨hw, hothers⟩ := spelled_cons.mp hts
    exact ⟨hw.isKeyword (by decide) hword, h.scanned (spelled_append.mp hothers).1⟩
  | .whileLoop _ _ hcondition _ hbody =>
    obtain ⟨hleft, hright⟩ := spelled_append.mp (spelled_cons.mp (spelled_cons.mp hts).2).2
    exact ⟨hcondition.scanned hleft, hbody.scanned (spelled_cons.mp hright).2⟩
  | .block h => exact h.scanned hts

end

end

end LoxLang

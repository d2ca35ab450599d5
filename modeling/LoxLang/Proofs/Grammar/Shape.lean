import LoxLang.Proofs.Grammar.Lemmas

/-!
The grammar lets declarations stand in blocks, in function bodies and at the outermost level only: no
branch of an `if` and no body of a loop is one.
-/
namespace LoxLang

def declaredName? : Stmt → Option Token
  | .declare name _ | .function name _ _ => some name
  | _ => none

mutual

def Shaped : Stmt → Prop
  | .block body => ShapedAll body
  | .ifThen _ thenBranch => declaredName? thenBranch = none ∧ Shaped thenBranch
  | .ifElse _ thenBranch elseBranch =>
    (declaredName? thenBranch = none ∧ Shaped thenBranch) ∧
      declaredName? elseBranch = none ∧ Shaped elseBranch
  | .whileLoop _ body => declaredName? body = none ∧ Shaped body
  | .function _ _ body => ShapedAll body
  | .expression _ | .print _ | .declare _ _ | .ret _ _ => True

def ShapedAll : List Stmt → Prop
  | [] => True
  | s :: ss => Shaped s ∧ ShapedAll ss

end

open Grammar

section

variable {nearest : Bool}

theorem shaped_letDeclaration {ts : List Token} {s : Stmt} (h : LetDeclaration ts s) : Shaped s := by
  cases h <;> exact trivial

theorem shaped_expressionStatement {ts : List Token} {s : Stmt} (h : ExpressionStatement ts s) :
    declaredName? s = none ∧ Shaped s := by
  cases h
  exact ⟨rfl, trivial⟩

theorem shaped_forInitializer {ts : List Token} {initializer : Option Stmt}
    (h : ForInitializer ts initializer) : ∀ s ∈ initializer, Shaped s := by
  cases h with
  | none => exact nofun
  | declaration h =>
    rintro _ ⟨⟩
    exact shaped_letDeclaration h
  | expression h =>
    rintro _ ⟨⟩
    exact (shaped_expressionStatement h).2

/-- The loop that a `for` stands for declares nothing outside of its own block. -/
theorem shaped_whileForm {initializer : Option Stmt} {condition increment : Option Expr}
    {body : Stmt} (hinitializer : ∀ s ∈ initializer, Shaped s) (hnone : declaredName? body = none)
    (hbody : Shaped body) :
    declaredName? (whileForm initializer condition increment body) = none ∧
      Shaped (whileForm initializer condition increment body) := by
  cases initializer with
  | none =>
    cases increment with
    | none => exact ⟨rfl, hnone, hbody⟩
    | some e => exact ⟨rfl, rfl, hbody, trivial, trivial⟩
  | some s =>
    have hs := hinitializer s rfl
    cases increment with
    | none => exact ⟨rfl, hs, ⟨hnone, hbody⟩, trivial⟩
    | some e => exact ⟨rfl, hs, ⟨rfl, hbody, trivial, trivial⟩, trivial⟩

mutual

theorem shapedAll_declarations {ts : List Token} {ss : List Stmt} (h : Declarations nearest ts ss) :
    ShapedAll ss := by
  match h with
  | .nil => exact trivial
  | .cons hfirst hrest => exact ⟨shaped_declaration hfirst, shapedAll_declarations hrest⟩

theorem shaped_declaration {ts : List Token} {s : Stmt} {isOpen : Bool}
    (h : Declaration nearest ts s isOpen) : Shaped s := by
  match h with
  | .function _ _ _ _ _ hbody => exact shapedAll_block hbody
  | .letDeclaration h => exact shaped_letDeclaration h
  | .statement h => exact (shaped_statement h).2

theorem shapedAll_block {ts : List Token} {body : List Stmt} (h : Block nearest ts body) :
    ShapedAll body := by
  match h with
  | .mk _ hbody _ => exact shapedAll_declarations hbody

/-- A statement of the grammar declares no name, and its parts are no declarations either. -/
theorem shaped_statement {ts : List Token} {s : Stmt} {isOpen : Bool}
    (h : Statement nearest ts s isOpen) : declaredName? s = none ∧ Shaped s := by
  match h with
  | .expression h => exact shaped_expressionStatement h
  | .forLoop _ _ hinitializer _ _ _ _ hbody =>
    obtain ⟨hnone, hbody⟩ := shaped_statement hbody
    exact shaped_whileForm (shaped_forInitializer hinitializer) hnone hbody
  | .ifThen _ _ _ _ hthen => exact ⟨rfl, shaped_statement hthen⟩
  | .ifElse _ _ _ _ hthen _ _ helse => exact ⟨rfl, shaped_statement hthen, shaped_statement helse⟩
  | .print .. => exact ⟨rfl, trivial⟩
  | .ret .. => exact ⟨rfl, trivial⟩
  | .whileLoop _ _ _ _ hbody => exact ⟨rfl, shaped_statement hbody⟩
  | .block h => exact ⟨rfl, shapedAll_block h⟩

end

end

end LoxLang

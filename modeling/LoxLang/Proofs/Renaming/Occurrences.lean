import Mathlib.Data.List.Perm.Subperm
import LoxLang.Resolution
import LoxLang.Proofs.Grammar.Shape

/-!
The names in a program. Each of them stands at a declaration or at a use, and a use belongs to the
declaration that the recorded distance leads to. A name of the text stands at one place in the tree
only. Main statement: `names_declarations`.
-/
namespace LoxLang.Renaming

inductive Role
  | variable
  | function
  | use
  deriving DecidableEq, Repr

structure Occurrence where
  name : Token
  role : Role
  declaration : Option Token

abbrev Open := List (List Token)

namespace Open

def add (V : Open) (name : Token) : Open :=
  match V with
  | [] => []
  | scope :: outer => (name :: scope) :: outer

def after (V : Open) (s : Stmt) : Open :=
  match declaredName? s with
  | some name => V.add name
  | none => V

def declaration? (V : Open) (distance? : Option Nat) (name : Token) : Option Token := do
  let scope ← V[← distance?]?
  scope.find? (·.lexeme == name.lexeme)

def declaring (V : Open) (role : Role) (name : Token) : Occurrence :=
  ⟨name, role, if V.isEmpty then none else some name⟩

end Open

section

variable (distances : Distances)

def Open.use (V : Open) (id : ReferenceId) (name : Token) : Occurrence :=
  ⟨name, .use, V.declaration? distances[id]? name⟩

mutual

def exprOccurrences (V : Open) : Expr → List Occurrence
  | .literal _ => []
  | .grouping inner => exprOccurrences V inner
  | .unary _ right => exprOccurrences V right
  | .binary left _ right | .logical left _ right =>
    exprOccurrences V left ++ exprOccurrences V right
  | .reference id name => [V.use distances id name]
  | .assign id name value => V.use distances id name :: exprOccurrences V value
  | .call callee _ arguments => exprOccurrences V callee ++ exprsOccurrences V arguments

def exprsOccurrences (V : Open) : List Expr → List Occurrence
  | [] => []
  | e :: es => exprOccurrences V e ++ exprsOccurrences V es

end

mutual

def stmtOccurrences (V : Open) : Stmt → List Occurrence
  | .expression e | .print e => exprOccurrences distances V e
  | .declare name none => [V.declaring .variable name]
  | .declare name (some e) =>
    V.declaring .variable name :: exprOccurrences distances (V.add name) e
  | .block body => stmtsOccurrences ([] :: V) body
  | .ifThen condition thenBranch =>
    exprOccurrences distances V condition ++ stmtOccurrences V thenBranch
  | .ifElse condition thenBranch elseBranch =>
    exprOccurrences distances V condition ++
      (stmtOccurrences V thenBranch ++ stmtOccurrences V elseBranch)
  | .whileLoop condition body =>
    exprOccurrences distances V condition ++ stmtOccurrences V body
  | .function name params body =>
    V.declaring .function name :: (params.map (Open.declaring [[]] .variable) ++
      stmtsOccurrences (params.reverse :: V.add name) body)
  | .ret _ none => []
  | .ret _ (some e) => exprOccurrences distances V e

def stmtsOccurrences (V : Open) : List Stmt → List Occurrence
  | [] => []
  | s :: ss => stmtOccurrences V s ++ stmtsOccurrences (V.after s) ss

end

end

def isNameKind : TokenKind → Bool
  | .identifier => true
  | _ => false

def isName (t : Token) : Bool := isNameKind t.kind

theorem isNameKind_iff {kind : TokenKind} : isNameKind kind = true ↔ kind = .identifier := by
  cases kind <;> simp [isNameKind]

def Names (ts : List Token) (os : List Occurrence) : Prop :=
  (os.map (·.name)).Subperm (ts.filter isName)

namespace Names

variable {ts us : List Token} {os os' : List Occurrence}

theorem nil (ts : List Token) : Names ts [] := List.nil_subperm

theorem append (h : Names ts os) (h' : Names us os') : Names (ts ++ us) (os ++ os') := by
  unfold Names
  rw [List.map_append, List.filter_append]
  exact List.Subperm.append h h'

/-- A token that is no name of the tree. -/
theorem skip (t : Token) (h : Names ts os) : Names (t :: ts) os := by
  unfold Names
  rw [List.filter_cons]
  split
  · exact h.trans (List.sublist_cons_self _ _).subperm
  · exact h

theorem keep {t : Token} {o : Occurrence} (ht : t.kind = .identifier) (ho : o.name = t)
    (h : Names ts os) : Names (t :: ts) (o :: os) := by
  have hname : isName t = true := isNameKind_iff.mpr ht
  unfold Names
  rw [List.map_cons, ho, List.filter_cons_of_pos hname]
  exact (List.subperm_cons t).mpr h

theorem reorder (h : Names ts os) (hperm : os'.Perm os) : Names ts os' :=
  (hperm.map _).subperm.trans h

theorem followed (t : Token) (h : Names ts os) : Names (ts ++ [t]) os := by
  have hlast := h.append (nil [t])
  rwa [List.append_nil] at hlast

theorem inside (opening closing : Token) (h : Names ts os) :
    Names (opening :: (ts ++ [closing])) os := (h.followed closing).skip opening

/-- Tokens that are the names of parameters, and the commas between them. -/
theorem parameters {params : List Token} (h : Grammar.Parameters ts params) :
    Names ts (params.map (Open.declaring [[]] .variable)) := by
  induction h with
  | one h => exact keep h rfl (nil [])
  | cons hname _ _ ih => exact keep hname rfl (ih.skip _)

end Names

open Grammar

section

variable {distances : Distances} {V : Open}

/-- The names of a chain of operators are those of its operands, in order. -/
theorem occurrences_grouped (ℓ : Parsing.Level) (first : Expr) (rest : List (Token × Expr)) :
    exprOccurrences distances V (grouped ℓ first rest) =
      exprOccurrences distances V first ++ rest.flatMap fun o => exprOccurrences distances V o.2 := by
  induction rest generalizing first with
  | nil => exact (List.append_nil _).symm
  | cons o rest ih =>
    have hoperation : exprOccurrences distances V (operation ℓ first o.1 o.2) =
        exprOccurrences distances V first ++ exprOccurrences distances V o.2 := by
      cases ℓ <;> simp only [operation, exprOccurrences]
    have hfirst := ih (operation ℓ first o.1 o.2)
    rw [hoperation, List.append_assoc] at hfirst
    exact hfirst

theorem occurrences_applied (callee : Expr) (calls : List (Token × List Expr)) :
    exprOccurrences distances V (applied callee calls) =
      exprOccurrences distances V callee ++
        calls.flatMap fun c => exprsOccurrences distances V c.2 := by
  induction calls generalizing callee with
  | nil => exact (List.append_nil _).symm
  | cons c calls ih =>
    have hfirst := ih (.call callee c.1 c.2)
    rw [exprOccurrences, List.append_assoc] at hfirst
    exact hfirst

mutual

theorem names_expression {ts : List Token} {e : Expr} (h : Expression ts e) :
    Names ts (exprOccurrences distances V e) := by
  match h with
  | .assign id hname _ hvalue =>
    rw [exprOccurrences]
    exact .keep hname rfl ((names_expression hvalue).skip _)
  | .operators h => exact names_operators h

theorem names_operators {ℓ : Parsing.Level} {ts : List Token} {e : Expr} (h : Operators ℓ ts e) :
    Names ts (exprOccurrences distances V e) := by
  match h with
  | .mk hfirst hrest =>
    rw [occurrences_grouped]
    exact (names_operand hfirst).append (names_operations hrest)

theorem names_operand {ℓ : Parsing.Level} {ts : List Token} {e : Expr} (h : Operand ℓ ts e) :
    Names ts (exprOccurrences distances V e) := by
  match h with
  | .level _ h => exact names_operators h
  | .unary _ h => exact names_unary h

theorem names_operations {ℓ : Parsing.Level} {ts : List Token} {rest : List (Token × Expr)}
    (h : Operations ℓ ts rest) :
    Names ts (rest.flatMap fun o => exprOccurrences distances V o.2) := by
  match h with
  | .nil => exact .nil []
  | .cons _ hfirst hrest => exact ((names_operand hfirst).append (names_operations hrest)).skip _

theorem names_unary {ts : List Token} {e : Expr} (h : Unary ts e) :
    Names ts (exprOccurrences distances V e) := by
  match h with
  | .sign _ h =>
    rw [exprOccurrences]
    exact (names_unary h).skip _
  | .call h => exact names_call h

theorem names_call {ts : List Token} {e : Expr} (h : Call ts e) :
    Names ts (exprOccurrences distances V e) := by
  match h with
  | .mk hcallee hcalls =>
    rw [occurrences_applied]
    exact (names_primary hcallee).append (names_calls hcalls)

theorem names_calls {ts : List Token} {calls : List (Token × List Expr)} (h : Calls ts calls) :
    Names ts (calls.flatMap fun c => exprsOccurrences distances V c.2) := by
  match h with
  | .nil => exact .nil []
  | .empty _ _ hrest =>
    rw [List.flatMap_cons, exprsOccurrences, List.nil_append]
    exact ((names_calls hrest).skip _).skip _
  | .cons _ harguments _ _ hrest =>
    exact ((names_arguments harguments).append ((names_calls hrest).skip _)).skip _

theorem names_arguments {ts : List Token} {es : List Expr} (h : Arguments ts es) :
    Names ts (exprsOccurrences distances V es) := by
  match h with
  | .one h =>
    rw [exprsOccurrences, exprsOccurrences, List.append_nil]
    exact names_expression h
  | .cons hfirst _ hrest =>
    rw [exprsOccurrences]
    exact (names_expression hfirst).append ((names_arguments hrest).skip _)

/-- Each name in an operand without operators stands at one of its tokens. -/
theorem names_primary {ts : List Token} {e : Expr} (h : Primary ts e) :
    Names ts (exprOccurrences distances V e) := by
  match h with
  | .literal _ =>
    rw [exprOccurrences]
    exact .nil _
  | .name id hname =>
    rw [exprOccurrences]
    exact .keep hname rfl (.nil [])
  | .grouping _ h _ =>
    rw [exprOccurrences]
    exact (names_expression h).inside _ _

end

def optionOccurrences (distances : Distances) (V : Open) : Option Expr → List Occurrence
  | none => []
  | some e => exprOccurrences distances V e

theorem names_optionalExpression {ts : List Token} {e : Option Expr} (h : OptionalExpression ts e) :
    Names ts (optionOccurrences distances V e) := by
  cases h with
  | none => exact .nil []
  | some h => exact names_expression h

theorem names_expressionStatement {ts : List Token} {s : Stmt} (h : ExpressionStatement ts s) :
    Names ts (stmtOccurrences distances V s) := by
  obtain ⟨h, -⟩ := h
  rw [stmtOccurrences]
  exact (names_expression h).followed _

theorem names_letDeclaration {ts : List Token} {s : Stmt} (h : LetDeclaration ts s) :
    Names ts (stmtOccurrences distances V s) := by
  cases h with
  | plain _ hname _ =>
    rw [stmtOccurrences]
    exact (Names.keep hname rfl (.nil _)).skip _
  | initialized _ hname _ h _ =>
    rw [stmtOccurrences]
    exact (Names.keep hname rfl ((names_expression h).inside _ _)).skip _

/-- The parts of a loop stand in another order in the tree than in the text. -/
theorem names_whileForm {ts us vs ws : List Token} {initializer : Option Stmt}
    {condition increment : Option Expr} {body : Stmt}
    (hinitializer : ∀ V s, s ∈ initializer → Names ts (stmtOccurrences distances V s))
    (hcondition : ∀ V, Names us (optionOccurrences distances V condition))
    (hincrement : ∀ V, Names vs (optionOccurrences distances V increment))
    (hbody : ∀ V, Names ws (stmtOccurrences distances V body)) :
    Names (ts ++ (us ++ (vs ++ ws)))
      (stmtOccurrences distances V (whileForm initializer condition increment body)) := by
  have hdefault (V : Open) : exprOccurrences distances V
      (condition.getD (.literal (.bool true))) = optionOccurrences distances V condition := by
    cases condition with
    | none => exact exprOccurrences.eq_1 distances V _
    | some e => rfl
  have hloop (V : Open) : Names (us ++ (vs ++ ws)) (stmtOccurrences distances V
      (whileForm none condition increment body)) := by
    cases increment with
    | none =>
      rw [whileForm, stmtOccurrences, hdefault]
      exact (hcondition V).append ((Names.nil vs).append (hbody V))
    | some e =>
      rw [whileForm, stmtOccurrences, hdefault, stmtOccurrences, stmtsOccurrences,
        stmtsOccurrences, stmtsOccurrences, List.append_nil, stmtOccurrences]
      apply (hcondition V).append
      exact ((hincrement _).append (hbody _)).reorder List.perm_append_comm
  cases initializer with
  | none => exact (Names.nil ts).append (hloop V)
  | some s =>
    have hblock : whileForm (some s) condition increment body =
        .block [s, whileForm none condition increment body] := by
      cases increment <;> rfl
    rw [hblock, stmtOccurrences, stmtsOccurrences, stmtsOccurrences, stmtsOccurrences,
      List.append_nil]
    exact (hinitializer _ s rfl).append (hloop _)

theorem names_forInitializer {ts : List Token} {initializer : Option Stmt}
    (h : ForInitializer ts initializer) (V : Open) (s : Stmt) (hs : s ∈ initializer) :
    Names ts (stmtOccurrences distances V s) := by
  cases h with
  | none => cases hs
  | declaration h =>
    cases hs
    exact names_letDeclaration h
  | expression h =>
    cases hs
    exact names_expressionStatement h

theorem names_optionalParameters {ts params : List Token} (h : OptionalParameters ts params) :
    Names ts (params.map (Open.declaring [[]] .variable)) := by
  cases h with
  | none => exact .nil []
  | some h _ => exact .parameters h

end

section

variable {nearest : Bool} {distances : Distances}

mutual

/-- Each name in a list of declarations stands at one of its tokens. -/
theorem names_declarations {ts : List Token} {ss : List Stmt} (h : Declarations nearest ts ss)
    (V : Open) : Names ts (stmtsOccurrences distances V ss) := by
  match h with
  | .nil =>
    rw [stmtsOccurrences]
    exact .nil []
  | .cons hfirst hrest =>
    rw [stmtsOccurrences]
    exact (names_declaration hfirst V).append (names_declarations hrest _)

theorem names_declaration {ts : List Token} {s : Stmt} {isOpen : Bool}
    (h : Declaration nearest ts s isOpen) (V : Open) :
    Names ts (stmtOccurrences distances V s) := by
  match h with
  | .function _ hname _ hparams _ hbody =>
    rw [stmtOccurrences]
    apply Names.skip
    apply Names.keep hname rfl
    apply Names.skip
    exact (names_optionalParameters hparams).append ((names_block hbody _).skip _)
  | .letDeclaration h => exact names_letDeclaration h
  | .statement h => exact names_statement h V

theorem names_block {ts : List Token} {body : List Stmt} (h : Block nearest ts body) (V : Open) :
    Names ts (stmtsOccurrences distances V body) := by
  match h with
  | .mk _ hbody _ => exact (names_declarations hbody V).inside _ _

/-- Each name in a statement stands at one of its tokens, and no two at the same. -/
theorem names_statement {ts : List Token} {s : Stmt} {isOpen : Bool}
    (h : Statement nearest ts s isOpen) (V : Open) :
    Names ts (stmtOccurrences distances V s) := by
  match h with
  | .expression h => exact names_expressionStatement h
  | .forLoop _ _ hinitializer hcondition _ hincrement _ hbody =>
    apply Names.skip
    apply Names.skip
    -- the clauses are written in one order and stand in another in the loop that they make
    rw [← List.cons_append]
    apply names_whileForm (names_forInitializer hinitializer)
    · intro V
      exact names_optionalExpression hcondition
    · intro V
      exact (names_optionalExpression hincrement).skip _
    · intro V
      exact (names_statement hbody V).skip _
  | .ifThen _ _ hcondition _ hthen =>
    rw [stmtOccurrences]
    apply Names.skip
    apply Names.skip
    exact (names_expression hcondition).append ((names_statement hthen V).skip _)
  | .ifElse _ _ hcondition _ hthen _ _ helse =>
    rw [stmtOccurrences]
    apply Names.skip
    apply Names.skip
    apply (names_expression hcondition).append
    apply Names.skip
    exact (names_statement hthen V).append ((names_statement helse V).skip _)
  | .print _ h _ =>
    rw [stmtOccurrences]
    exact (names_expression h).inside _ _
  | .ret _ h _ =>
    cases h with
    | none =>
      rw [stmtOccurrences]
      exact .nil _
    | some h =>
      rw [stmtOccurrences]
      exact (names_expression h).inside _ _
  | .whileLoop _ _ hcondition _ hbody =>
    rw [stmtOccurrences]
    apply Names.skip
    apply Names.skip
    exact (names_expression hcondition).append ((names_statement hbody V).skip _)
  | .block h =>
    rw [stmtOccurrences]
    exact names_block h _

end

end

end LoxLang.Renaming

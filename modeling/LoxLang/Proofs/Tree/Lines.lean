import LoxLang.Proofs.Tree.Relabel

/-!
Trees on other lines. `mapLines` changes the line of every token of a tree and nothing else.
-/
namespace LoxLang

section

variable (f f' : ReferenceId → ReferenceId) (g g' : Token → Token)

mutual

/-- Labels that are changed twice are changed once by both changes. -/
theorem Expr.relabel_relabel (e : Expr) :
    (e.relabel f g).relabel f' g' = e.relabel (f' ∘ f) (g' ∘ g) := by
  match e with
  | .literal value => rfl
  | .grouping inner => exact congrArg _ (Expr.relabel_relabel inner)
  | .unary operator right => exact congrArg _ (Expr.relabel_relabel right)
  | .binary left operator right =>
    simp only [relabel, Expr.relabel_relabel left, Expr.relabel_relabel right, Function.comp]
  | .logical left operator right =>
    simp only [relabel, Expr.relabel_relabel left, Expr.relabel_relabel right, Function.comp]
  | .reference id name => rfl
  | .assign id name value => exact congrArg _ (Expr.relabel_relabel value)
  | .call callee paren arguments =>
    simp only [relabel, Expr.relabel_relabel callee, Expr.relabelAll_relabelAll arguments,
      Function.comp]

theorem Expr.relabelAll_relabelAll (es : List Expr) :
    Expr.relabelAll f' g' (Expr.relabelAll f g es) = Expr.relabelAll (f' ∘ f) (g' ∘ g) es := by
  match es with
  | [] => rfl
  | e :: es =>
    simp only [Expr.relabelAll, Expr.relabel_relabel e, Expr.relabelAll_relabelAll es]

end

mutual

/-- Labels that are changed twice are changed once by both changes. -/
theorem Stmt.relabel_relabel (s : Stmt) :
    (s.relabel f g).relabel f' g' = s.relabel (f' ∘ f) (g' ∘ g) := by
  match s with
  | .expression e => simp only [relabel, Expr.relabel_relabel]
  | .print e => simp only [relabel, Expr.relabel_relabel]
  | .declare name none => rfl
  | .declare name (some e) => simp only [relabel, Expr.relabel_relabel, Function.comp]
  | .block body => simp only [relabel, Stmt.relabelAll_relabelAll body]
  | .ifThen condition thenBranch =>
    simp only [relabel, Expr.relabel_relabel, Stmt.relabel_relabel thenBranch]
  | .ifElse condition thenBranch elseBranch =>
    simp only [relabel, Expr.relabel_relabel, Stmt.relabel_relabel thenBranch,
      Stmt.relabel_relabel elseBranch]
  | .whileLoop condition body =>
    simp only [relabel, Expr.relabel_relabel, Stmt.relabel_relabel body]
  | .function name params body =>
    simp only [relabel, Stmt.relabelAll_relabelAll body, List.map_map, Function.comp]
  | .ret keyword none => rfl
  | .ret keyword (some e) => simp only [relabel, Expr.relabel_relabel, Function.comp]

theorem Stmt.relabelAll_relabelAll (ss : List Stmt) :
    Stmt.relabelAll f' g' (Stmt.relabelAll f g ss) = Stmt.relabelAll (f' ∘ f) (g' ∘ g) ss := by
  match ss with
  | [] => rfl
  | s :: ss =>
    simp only [Stmt.relabelAll, Stmt.relabel_relabel s, Stmt.relabelAll_relabelAll ss]

end

end

mutual

theorem Expr.relabel_id (e : Expr) : e.relabel id id = e := by
  match e with
  | .literal value => rfl
  | .grouping inner => exact congrArg _ (Expr.relabel_id inner)
  | .unary operator right => exact congrArg _ (Expr.relabel_id right)
  | .binary left operator right =>
    simp only [relabel, Expr.relabel_id left, Expr.relabel_id right, id]
  | .logical left operator right =>
    simp only [relabel, Expr.relabel_id left, Expr.relabel_id right, id]
  | .reference id name => rfl
  | .assign id name value => exact congrArg _ (Expr.relabel_id value)
  | .call callee paren arguments =>
    simp only [relabel, Expr.relabel_id callee, Expr.relabelAll_id arguments, id]

theorem Expr.relabelAll_id (es : List Expr) : Expr.relabelAll id id es = es := by
  match es with
  | [] => rfl
  | e :: es => simp only [Expr.relabelAll, Expr.relabel_id e, Expr.relabelAll_id es]

end

mutual

theorem Stmt.relabel_id (s : Stmt) : s.relabel id id = s := by
  match s with
  | .expression e => simp only [relabel, Expr.relabel_id]
  | .print e => simp only [relabel, Expr.relabel_id]
  | .declare name none => rfl
  | .declare name (some e) => simp only [relabel, Expr.relabel_id, id]
  | .block body => simp only [relabel, Stmt.relabelAll_id body]
  | .ifThen condition thenBranch =>
    simp only [relabel, Expr.relabel_id, Stmt.relabel_id thenBranch]
  | .ifElse condition thenBranch elseBranch =>
    simp only [relabel, Expr.relabel_id, Stmt.relabel_id thenBranch, Stmt.relabel_id elseBranch]
  | .whileLoop condition body => simp only [relabel, Expr.relabel_id, Stmt.relabel_id body]
  | .function name params body =>
    simp only [relabel, Stmt.relabelAll_id body, List.map_id, id]
  | .ret keyword none => rfl
  | .ret keyword (some e) => simp only [relabel, Expr.relabel_id, id]

theorem Stmt.relabelAll_id (ss : List Stmt) : Stmt.relabelAll id id ss = ss := by
  match ss with
  | [] => rfl
  | s :: ss => simp only [Stmt.relabelAll, Stmt.relabel_id s, Stmt.relabelAll_id ss]

end

def Token.mapLine (g : Nat → Nat) (t : Token) : Token := { t with line := g t.line }

def Expr.mapLines (g : Nat → Nat) : Expr → Expr := Expr.relabel id (Token.mapLine g)

def Stmt.mapLines (g : Nat → Nat) : Stmt → Stmt := Stmt.relabel id (Token.mapLine g)

@[simp] theorem Token.kind_mapLine (g : Nat → Nat) (t : Token) : (t.mapLine g).kind = t.kind := rfl
@[simp] theorem Token.lexeme_mapLine (g : Nat → Nat) (t : Token) :
    (t.mapLine g).lexeme = t.lexeme := rfl

theorem Token.mapLine_comp (g h : Nat → Nat) :
    Token.mapLine h ∘ Token.mapLine g = Token.mapLine (h ∘ g) := rfl

theorem Stmt.mapLines_mapLines (g h : Nat → Nat) (s : Stmt) :
    (s.mapLines g).mapLines h = s.mapLines (h ∘ g) :=
  Stmt.relabel_relabel id id (Token.mapLine g) (Token.mapLine h) s

theorem Stmt.mapLines_id (s : Stmt) : s.mapLines id = s := Stmt.relabel_id s

namespace Expr

variable (g : Nat → Nat) (e l r c : Expr) (t : Token) (i : ReferenceId) (es : List Expr)

@[simp] theorem mapLines_literal (v : Literal) : (literal v).mapLines g = literal v := rfl
@[simp] theorem mapLines_grouping : (grouping e).mapLines g = grouping (e.mapLines g) := rfl
@[simp] theorem mapLines_unary : (unary t e).mapLines g = unary (t.mapLine g) (e.mapLines g) := rfl
@[simp] theorem mapLines_binary :
    (binary l t r).mapLines g = binary (l.mapLines g) (t.mapLine g) (r.mapLines g) := rfl
@[simp] theorem mapLines_logical :
    (logical l t r).mapLines g = logical (l.mapLines g) (t.mapLine g) (r.mapLines g) := rfl
@[simp] theorem mapLines_reference : (reference i t).mapLines g = reference i (t.mapLine g) := rfl
@[simp] theorem mapLines_assign :
    (assign i t e).mapLines g = assign i (t.mapLine g) (e.mapLines g) := rfl
@[simp] theorem mapLines_call :
    (call c t es).mapLines g = call (c.mapLines g) (t.mapLine g) (es.map (mapLines g)) := by
  rw [mapLines, relabel, relabelAll_eq_map]

end Expr

namespace Stmt

variable (g : Nat → Nat) (e : Expr) (s s' : Stmt) (t : Token) (ss : List Stmt) (ps : List Token)

@[simp] theorem mapLines_expression : (expression e).mapLines g = expression (e.mapLines g) := rfl
@[simp] theorem mapLines_print : (print e).mapLines g = print (e.mapLines g) := rfl
@[simp] theorem mapLines_declare (i : Option Expr) :
    (declare t i).mapLines g = declare (t.mapLine g) (i.map (Expr.mapLines g)) := by
  cases i <;> rfl
@[simp] theorem mapLines_block : (block ss).mapLines g = block (ss.map (mapLines g)) := by
  rw [mapLines, relabel, relabelAll_eq_map]
@[simp] theorem mapLines_ifThen :
    (ifThen e s).mapLines g = ifThen (e.mapLines g) (s.mapLines g) := rfl
@[simp] theorem mapLines_ifElse :
    (ifElse e s s').mapLines g = ifElse (e.mapLines g) (s.mapLines g) (s'.mapLines g) := rfl
@[simp] theorem mapLines_whileLoop :
    (whileLoop e s).mapLines g = whileLoop (e.mapLines g) (s.mapLines g) := rfl
@[simp] theorem mapLines_function :
    (function t ps ss).mapLines g =
      function (t.mapLine g) (ps.map (Token.mapLine g)) (ss.map (mapLines g)) := by
  rw [mapLines, relabel, relabelAll_eq_map]
@[simp] theorem mapLines_ret (v : Option Expr) :
    (ret t v).mapLines g = ret (t.mapLine g) (v.map (Expr.mapLines g)) := by cases v <;> rfl

end Stmt

end LoxLang

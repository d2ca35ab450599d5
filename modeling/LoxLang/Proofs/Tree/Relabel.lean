import LoxLang.Tree

/-!
Trees that differ in their labels only: in the ids of uses of variables, or in the tokens that
names, operators and errors stand at. `Expr.relabel` and `Stmt.relabel` change both kinds of label
and leave the shape of a tree as it is; two trees are the same up to ids if they agree once all ids
are forgotten.
-/
namespace LoxLang

variable (f : ReferenceId → ReferenceId) (g : Token → Token)

mutual

def Expr.relabel : Expr → Expr
  | .literal value => .literal value
  | .grouping inner => .grouping inner.relabel
  | .unary operator right => .unary (g operator) right.relabel
  | .binary left operator right => .binary left.relabel (g operator) right.relabel
  | .logical left operator right => .logical left.relabel (g operator) right.relabel
  | .reference id name => .reference (f id) (g name)
  | .assign id name value => .assign (f id) (g name) value.relabel
  | .call callee paren arguments => .call callee.relabel (g paren) (Expr.relabelAll arguments)

def Expr.relabelAll : List Expr → List Expr
  | [] => []
  | e :: es => e.relabel :: Expr.relabelAll es

end

mutual

def Stmt.relabel : Stmt → Stmt
  | .expression e => .expression (e.relabel f g)
  | .print e => .print (e.relabel f g)
  | .declare name none => .declare (g name) none
  | .declare name (some e) => .declare (g name) (some (e.relabel f g))
  | .block body => .block (Stmt.relabelAll body)
  | .ifThen condition thenBranch => .ifThen (condition.relabel f g) thenBranch.relabel
  | .ifElse condition thenBranch elseBranch =>
    .ifElse (condition.relabel f g) thenBranch.relabel elseBranch.relabel
  | .whileLoop condition body => .whileLoop (condition.relabel f g) body.relabel
  | .function name params body => .function (g name) (params.map g) (Stmt.relabelAll body)
  | .ret keyword none => .ret (g keyword) none
  | .ret keyword (some e) => .ret (g keyword) (some (e.relabel f g))

def Stmt.relabelAll : List Stmt → List Stmt
  | [] => []
  | s :: ss => s.relabel :: Stmt.relabelAll ss

end

theorem Expr.relabelAll_eq_map (es : List Expr) :
    Expr.relabelAll f g es = es.map (Expr.relabel f g) := by
  induction es with
  | nil => rfl
  | cons e es ih => rw [Expr.relabelAll, ih, List.map_cons]

theorem Stmt.relabelAll_eq_map (ss : List Stmt) :
    Stmt.relabelAll f g ss = ss.map (Stmt.relabel f g) := by
  induction ss with
  | nil => rfl
  | cons s ss ih => rw [Stmt.relabelAll, ih, List.map_cons]

def Expr.withoutIds : Expr → Expr := Expr.relabel (fun _ => 0) id

def Stmt.withoutIds : Stmt → Stmt := Stmt.relabel (fun _ => 0) id

namespace Expr

variable (e l r c : Expr) (t : Token) (i : ReferenceId) (es : List Expr)

@[simp] theorem withoutIds_literal (v : Literal) : (literal v).withoutIds = literal v := rfl
@[simp] theorem withoutIds_grouping : (grouping e).withoutIds = grouping e.withoutIds := rfl
@[simp] theorem withoutIds_unary : (unary t e).withoutIds = unary t e.withoutIds := rfl
@[simp] theorem withoutIds_binary :
    (binary l t r).withoutIds = binary l.withoutIds t r.withoutIds := rfl
@[simp] theorem withoutIds_logical :
    (logical l t r).withoutIds = logical l.withoutIds t r.withoutIds := rfl
@[simp] theorem withoutIds_reference : (reference i t).withoutIds = reference 0 t := rfl
@[simp] theorem withoutIds_assign : (assign i t e).withoutIds = assign 0 t e.withoutIds := rfl
@[simp] theorem withoutIds_call :
    (call c t es).withoutIds = call c.withoutIds t (es.map withoutIds) := by
  rw [withoutIds, relabel, relabelAll_eq_map]
  rfl

end Expr

namespace Stmt

variable (e : Expr) (s s' : Stmt) (t : Token) (ss : List Stmt) (ps : List Token)

@[simp] theorem withoutIds_expression : (expression e).withoutIds = expression e.withoutIds := rfl
@[simp] theorem withoutIds_print : (print e).withoutIds = print e.withoutIds := rfl
@[simp] theorem withoutIds_declare (i : Option Expr) :
    (declare t i).withoutIds = declare t (i.map Expr.withoutIds) := by cases i <;> rfl
@[simp] theorem withoutIds_block : (block ss).withoutIds = block (ss.map withoutIds) := by
  rw [withoutIds, relabel, relabelAll_eq_map]
@[simp] theorem withoutIds_ifThen :
    (ifThen e s).withoutIds = ifThen e.withoutIds s.withoutIds := rfl
@[simp] theorem withoutIds_ifElse :
    (ifElse e s s').withoutIds = ifElse e.withoutIds s.withoutIds s'.withoutIds := rfl
@[simp] theorem withoutIds_whileLoop :
    (whileLoop e s).withoutIds = whileLoop e.withoutIds s.withoutIds := rfl
@[simp] theorem withoutIds_function :
    (function t ps ss).withoutIds = function t ps (ss.map withoutIds) := by
  rw [withoutIds, relabel, relabelAll_eq_map, List.map_id]
  rfl
@[simp] theorem withoutIds_ret (v : Option Expr) :
    (ret t v).withoutIds = ret t (v.map Expr.withoutIds) := by cases v <;> rfl

end Stmt

end LoxLang

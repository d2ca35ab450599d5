import LoxLang.Tree

/-!
The ids that a tree holds. They are fresh in a range if each of them is in the range and none occurs
twice; freshness is stated by counting, so that the order of ids does not matter.
-/
namespace LoxLang

mutual

def Expr.ids : Expr → List ReferenceId
  | .literal _ => []
  | .grouping inner => inner.ids
  | .unary _ right => right.ids
  | .binary left _ right | .logical left _ right => left.ids ++ right.ids
  | .reference id _ => [id]
  | .assign id _ value => id :: value.ids
  | .call callee _ arguments => callee.ids ++ Expr.idsAll arguments

def Expr.idsAll : List Expr → List ReferenceId
  | [] => []
  | e :: es => e.ids ++ Expr.idsAll es

end

def Expr.idsOption : Option Expr → List ReferenceId
  | none => []
  | some e => e.ids

mutual

def Stmt.ids : Stmt → List ReferenceId
  | .expression e | .print e => e.ids
  | .declare _ initializer => Expr.idsOption initializer
  | .block body => Stmt.idsAll body
  | .ifThen condition thenBranch => condition.ids ++ thenBranch.ids
  | .ifElse condition thenBranch elseBranch => condition.ids ++ thenBranch.ids ++ elseBranch.ids
  | .whileLoop condition body => condition.ids ++ body.ids
  | .function _ _ body => Stmt.idsAll body
  | .ret _ value => Expr.idsOption value

def Stmt.idsAll : List Stmt → List ReferenceId
  | [] => []
  | s :: ss => s.ids ++ Stmt.idsAll ss

end

theorem Stmt.idsAll_append (ss ts : List Stmt) :
    Stmt.idsAll (ss ++ ts) = Stmt.idsAll ss ++ Stmt.idsAll ts := by
  induction ss with
  | nil => rfl
  | cons s ss ih => rw [List.cons_append, Stmt.idsAll, Stmt.idsAll, ih, List.append_assoc]

def Fresh (m n : Nat) (ids : List Nat) : Prop :=
  ∀ id : Nat, ids.count id ≤ if m ≤ id ∧ id < n then 1 else 0

namespace Fresh

variable {m n k : Nat} {ids ids' : List Nat}

theorem nil (m n : Nat) : Fresh m n [] := fun id => by simp

theorem mono (h : Fresh m n ids) (hcount : ∀ id, ids'.count id ≤ ids.count id) :
    Fresh m n ids' := fun id => Nat.le_trans (hcount id) (h id)

theorem append (h : Fresh m n ids) (h' : Fresh n k ids') (hmn : m ≤ n) (hnk : n ≤ k) :
    Fresh m k (ids ++ ids') := by
  intro id
  have hid := h id
  have hid' := h' id
  rw [List.count_append]
  split at hid <;> split at hid' <;> split <;> omega

theorem singleton (n : Nat) : Fresh n (n + 1) [n] := by
  intro id
  rw [List.count_singleton]
  by_cases h : n = id
  · simp [h]
  · simp [h]

theorem mem (h : Fresh m n ids) {id : Nat} (hid : id ∈ ids) : m ≤ id ∧ id < n := by
  have hpos := List.count_pos_iff.mpr hid
  have hle := h id
  split at hle
  · assumption
  · omega

theorem nodup (h : Fresh m n ids) : ids.Nodup := by
  refine List.nodup_iff_count.mpr fun id => Nat.le_trans (h id) ?_
  split <;> omega

end Fresh

end LoxLang

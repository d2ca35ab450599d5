import LoxLang.Tree

/-!
The places of a tree at which a static rule may be broken: names that are declared, names that are read
in an initializer, and the words of the statements that return. They are listed in the order in which a
walk over the tree comes to them.
-/
namespace LoxLang

mutual

def Expr.reads : Expr → List Token
  | .literal _ => []
  | .grouping inner => inner.reads
  | .unary _ right => right.reads
  | .binary left _ right | .logical left _ right => left.reads ++ right.reads
  | .reference _ name => [name]
  | .assign _ _ value => value.reads
  | .call callee _ arguments => callee.reads ++ Expr.readsAll arguments

def Expr.readsAll : List Expr → List Token
  | [] => []
  | e :: es => e.reads ++ Expr.readsAll es

end

def Expr.readsOption : Option Expr → List Token
  | none => []
  | some e => e.reads

mutual

def Stmt.sites : Stmt → List Token
  | .expression _ | .print _ => []
  | .declare name initializer => name :: Expr.readsOption initializer
  | .block body => Stmt.sitesAll body
  | .ifThen _ thenBranch => thenBranch.sites
  | .ifElse _ thenBranch elseBranch => thenBranch.sites ++ elseBranch.sites
  | .whileLoop _ body => body.sites
  | .function name params body => name :: (params ++ Stmt.sitesAll body)
  | .ret keyword _ => [keyword]

def Stmt.sitesAll : List Stmt → List Token
  | [] => []
  | s :: ss => s.sites ++ Stmt.sitesAll ss

end

theorem Stmt.sitesAll_append (ss ss' : List Stmt) :
    Stmt.sitesAll (ss ++ ss') = Stmt.sitesAll ss ++ Stmt.sitesAll ss' := by
  induction ss with
  | nil => rfl
  | cons s ss ih => rw [List.cons_append, Stmt.sitesAll, Stmt.sitesAll, ih, List.append_assoc]

end LoxLang

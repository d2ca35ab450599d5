import LoxLang.Tree

/-!
Trees as text: every node in parentheses, the operator first. Literals and names are written as
they are, so a tree without strings can be told from its text.
-/
namespace LoxLang

def Literal.text : Literal → String
  | nil => "nil"
  | bool true => "true"
  | bool false => "false"
  | number x => Number.treeText x
  | string s => s

namespace Expr

mutual

def text : Expr → String
  | literal value => value.text
  | grouping inner => "(group " ++ inner.text ++ ")"
  | unary operator right => "(" ++ operator.lexeme ++ " " ++ right.text ++ ")"
  | binary left operator right | logical left operator right =>
    "(" ++ operator.lexeme ++ " " ++ left.text ++ " " ++ right.text ++ ")"
  | reference _ name => name.lexeme
  | assign _ name value => "(= " ++ name.lexeme ++ " " ++ value.text ++ ")"
  | call callee _ arguments => "(call " ++ callee.text ++ argumentsText arguments ++ ")"

def argumentsText : List Expr → String
  | [] => ""
  | e :: es => " " ++ e.text ++ argumentsText es

end

end Expr

namespace Stmt

mutual

def text : Stmt → String
  | expression e => "(; " ++ e.text ++ ")"
  | print e => "(print " ++ e.text ++ ")"
  | declare name (some e) => "(let " ++ name.lexeme ++ " " ++ e.text ++ ")"
  | declare name none => "(let " ++ name.lexeme ++ ")"
  | block body => "(block" ++ bodyText body ++ ")"
  | ifThen condition thenBranch => "(if " ++ condition.text ++ " " ++ thenBranch.text ++ ")"
  | ifElse condition thenBranch elseBranch =>
    "(if " ++ condition.text ++ " " ++ thenBranch.text ++ " " ++ elseBranch.text ++ ")"
  | whileLoop condition body => "(while " ++ condition.text ++ " " ++ body.text ++ ")"
  | function name params body =>
    "(fun " ++ name.lexeme ++ " (" ++ " ".intercalate (params.map (·.lexeme)) ++ ")" ++
      bodyText body ++ ")"
  | ret _ (some e) => "(return " ++ e.text ++ ")"
  | ret _ none => "(return)"

def bodyText : List Stmt → String
  | [] => ""
  | s :: ss => " " ++ s.text ++ bodyText ss

end

end Stmt

end LoxLang

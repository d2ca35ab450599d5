import LoxLang.Evaluation

/-!
What is evaluated in the course of a run. A task is a tree that is evaluated on the way; it calls the
tasks that its own evaluation evaluates, each from the machine that the ones before have left. A task
of an expression tells the local variable whose initializer the expression is a part of, if it is one.
-/
namespace LoxLang

inductive Task
  | expr (own : Option String) (e : Expr)
  | exprs (own : Option String) (es : List Expr)
  | stmt (s : Stmt)
  | stmts (ss : List Stmt)

def Machine.ownName? (m : Machine) (name : Token) : Option String :=
  if m.current = .globals then none else some name.lexeme

def Machine.enter (m : Machine) (outer : Environment) : Machine :=
  { m with store := m.store.addTable, current := m.store.inside outer }

inductive Calls (n : Nat) : Task → Machine → Task → Machine → Prop
  | grouping {m : Machine} {own : Option String} {inner : Expr} :
      Calls n (.expr own (.grouping inner)) m (.expr own inner) m
  | unary {m : Machine} {own : Option String} {operator : Token} {right : Expr} :
      Calls n (.expr own (.unary operator right)) m (.expr own right) m
  | binaryLeft {m : Machine} {own : Option String} {operator : Token} {left right : Expr} :
      Calls n (.expr own (.binary left operator right)) m (.expr own left) m
  | binaryRight {m m' : Machine} {own : Option String} {operator : Token} {left right : Expr}
      {v : Value} (hleft : evaluate n left m = .ok v m') :
      Calls n (.expr own (.binary left operator right)) m (.expr own right) m'
  | logicalLeft {m : Machine} {own : Option String} {operator : Token} {left right : Expr} :
      Calls n (.expr own (.logical left operator right)) m (.expr own left) m
  | logicalRight {m m' : Machine} {own : Option String} {operator : Token} {left right : Expr}
      {v : Value} (hleft : evaluate n left m = .ok v m') (hdecides : decides operator.kind v = false) :
      Calls n (.expr own (.logical left operator right)) m (.expr own right) m'
  | assigned {m : Machine} {own : Option String} {id : ReferenceId} {name : Token} {value : Expr} :
      Calls n (.expr own (.assign id name value)) m (.expr own value) m
  | callee {m : Machine} {own : Option String} {callee : Expr} {paren : Token}
      {arguments : List Expr} :
      Calls n (.expr own (.call callee paren arguments)) m (.expr own callee) m
  | arguments {m m' : Machine} {own : Option String} {callee : Expr} {paren : Token}
      {arguments : List Expr} {v : Value} (hcallee : evaluate n callee m = .ok v m') :
      Calls n (.expr own (.call callee paren arguments)) m (.exprs own arguments) m'
  | body {m m₁ m₂ m₃ : Machine} {own : Option String} {callee : Expr} {paren : Token}
      {arguments : List Expr} {f : Closure} {vs : List Value}
      (hcallee : evaluate n callee m = .ok (.function f) m₁)
      (harguments : evaluateAll n arguments m₁ = .ok vs m₂)
      (harity : f.declaration.params.length = vs.length)
      (hbound : Run.bindArguments f.declaration.params vs (m₂.enter f.environment) = .ok () m₃) :
      Calls n (.expr own (.call callee paren arguments)) m (.stmts f.declaration.body) m₃
  | firstExpr {m : Machine} {own : Option String} {e : Expr} {es : List Expr} :
      Calls n (.exprs own (e :: es)) m (.expr own e) m
  | laterExprs {m m' : Machine} {own : Option String} {e : Expr} {es : List Expr} {v : Value}
      (hfirst : evaluate n e m = .ok v m') : Calls n (.exprs own (e :: es)) m (.exprs own es) m'
  | expression {m : Machine} {e : Expr} : Calls n (.stmt (.expression e)) m (.expr none e) m
  | print {m : Machine} {e : Expr} : Calls n (.stmt (.print e)) m (.expr none e) m
  | initializer {m : Machine} {name : Token} {e : Expr} :
      Calls n (.stmt (.declare name (some e))) m (.expr (m.ownName? name) e) m
  | block {m : Machine} {body : List Stmt} :
      Calls n (.stmt (.block body)) m (.stmts body) (m.enter m.current)
  | ifThenCondition {m : Machine} {condition : Expr} {thenBranch : Stmt} :
      Calls n (.stmt (.ifThen condition thenBranch)) m (.expr none condition) m
  | ifThenBranch {m m' : Machine} {condition : Expr} {thenBranch : Stmt} {v : Value}
      (hcondition : evaluate n condition m = .ok v m') (htruthy : v.isTruthy = true) :
      Calls n (.stmt (.ifThen condition thenBranch)) m (.stmt thenBranch) m'
  | ifElseCondition {m : Machine} {condition : Expr} {thenBranch elseBranch : Stmt} :
      Calls n (.stmt (.ifElse condition thenBranch elseBranch)) m (.expr none condition) m
  | ifElseBranch {m m' : Machine} {condition : Expr} {thenBranch elseBranch : Stmt} {v : Value}
      (hcondition : evaluate n condition m = .ok v m') :
      Calls n (.stmt (.ifElse condition thenBranch elseBranch)) m
        (.stmt (if v.isTruthy then thenBranch else elseBranch)) m'
  | whileCondition {m : Machine} {condition : Expr} {body : Stmt} :
      Calls n (.stmt (.whileLoop condition body)) m (.expr none condition) m
  | whileBody {m m' : Machine} {condition : Expr} {body : Stmt} {v : Value}
      (hcondition : evaluate n condition m = .ok v m') (htruthy : v.isTruthy = true) :
      Calls n (.stmt (.whileLoop condition body)) m (.stmt body) m'
  | whileAgain {m m₁ m₂ : Machine} {condition : Expr} {body : Stmt} {v : Value}
      (hcondition : evaluate n condition m = .ok v m₁) (htruthy : v.isTruthy = true)
      (hbody : execute n body m₁ = .ok () m₂) :
      Calls n (.stmt (.whileLoop condition body)) m (.stmt (.whileLoop condition body)) m₂
  | returned {m : Machine} {keyword : Token} {e : Expr} :
      Calls n (.stmt (.ret keyword (some e))) m (.expr none e) m
  | firstStmt {m : Machine} {s : Stmt} {ss : List Stmt} :
      Calls n (.stmts (s :: ss)) m (.stmt s) m
  | laterStmts {m m' : Machine} {s : Stmt} {ss : List Stmt}
      (hfirst : execute n s m = .ok () m') : Calls n (.stmts (s :: ss)) m (.stmts ss) m'

/-- In the course of a task with its fuel, another task is evaluated with the fuel left for it. -/
inductive Begins (n : Nat) (t : Task) (m : Machine) : Nat → Task → Machine → Prop
  | itself : Begins n t m n t m
  | call {k : Nat} {t' t'' : Task} {m' m'' : Machine} (h : Begins n t m (k + 1) t' m')
      (hcalls : Calls k t' m' t'' m'') : Begins n t m k t'' m''

end LoxLang

import Mathlib.Data.List.Forall2
import Mathlib.Data.List.Nodup
import LoxLang.Proofs.Lexical.Violations
import LoxLang.Proofs.Lexical.Walk

/-!
How far out the variable of a use stands, said of a tree and not of a walk over it. A use stands inside of
some scopes, and each scope has the names that are declared in it before the use. What a walk records for the
use is the number of scopes up to the first one with its name, whether or not the walk reports errors.
Main statement: `records_resolve`.
-/
namespace LoxLang.Lexical

open Resolution (Readiness walkExpr walkExprs walkValue bindParams walkStmt walkStmts)

inductive UsedIn (id : ReferenceId) (name : Token) : Expr → Prop
  | reference : UsedIn id name (.reference id name)
  | target {value : Expr} : UsedIn id name (.assign id name value)
  | value {id' : ReferenceId} {name' : Token} {value : Expr} (h : UsedIn id name value) :
      UsedIn id name (.assign id' name' value)
  | grouping {inner : Expr} (h : UsedIn id name inner) : UsedIn id name (.grouping inner)
  | unary {operator : Token} {right : Expr} (h : UsedIn id name right) :
      UsedIn id name (.unary operator right)
  | binaryLeft {left right : Expr} {operator : Token} (h : UsedIn id name left) :
      UsedIn id name (.binary left operator right)
  | binaryRight {left right : Expr} {operator : Token} (h : UsedIn id name right) :
      UsedIn id name (.binary left operator right)
  | logicalLeft {left right : Expr} {operator : Token} (h : UsedIn id name left) :
      UsedIn id name (.logical left operator right)
  | logicalRight {left right : Expr} {operator : Token} (h : UsedIn id name right) :
      UsedIn id name (.logical left operator right)
  | callee {callee : Expr} {paren : Token} {arguments : List Expr} (h : UsedIn id name callee) :
      UsedIn id name (.call callee paren arguments)
  | argument {callee e : Expr} {paren : Token} {before after : List Expr} (h : UsedIn id name e) :
      UsedIn id name (.call callee paren (before ++ e :: after))

/-- The scopes around a place, the innermost scope first, with the names declared in them so far. -/
abbrev Around := List (List String)

def Around.add (around : Around) (names : List String) : Around :=
  match around with
  | [] => []
  | scope :: outer => (scope ++ names) :: outer

/-- A use of a variable stands in the statement, each with the scopes around it. A name is declared from its
own initializer on, and that of a function in its own body. -/
inductive UsedWithin (id : ReferenceId) (name : Token) : Around → Stmt → Around → Prop
  | expression {a : Around} {e : Expr} (h : UsedIn id name e) : UsedWithin id name a (.expression e) a
  | print {a : Around} {e : Expr} (h : UsedIn id name e) : UsedWithin id name a (.print e) a
  | initializer {a : Around} {x : Token} {e : Expr} (h : UsedIn id name e) :
      UsedWithin id name a (.declare x (some e)) (a.add [x.lexeme])
  | block {a b : Around} {before after : List Stmt} {s : Stmt}
      (h : UsedWithin id name (namesOf before :: a) s b) :
      UsedWithin id name a (.block (before ++ s :: after)) b
  | ifThenCondition {a : Around} {condition : Expr} {thenBranch : Stmt}
      (h : UsedIn id name condition) : UsedWithin id name a (.ifThen condition thenBranch) a
  | ifThenBranch {a b : Around} {condition : Expr} {thenBranch : Stmt}
      (h : UsedWithin id name a thenBranch b) : UsedWithin id name a (.ifThen condition thenBranch) b
  | ifElseCondition {a : Around} {condition : Expr} {thenBranch elseBranch : Stmt}
      (h : UsedIn id name condition) :
      UsedWithin id name a (.ifElse condition thenBranch elseBranch) a
  | ifElseThen {a b : Around} {condition : Expr} {thenBranch elseBranch : Stmt}
      (h : UsedWithin id name a thenBranch b) :
      UsedWithin id name a (.ifElse condition thenBranch elseBranch) b
  | ifElseElse {a b : Around} {condition : Expr} {thenBranch elseBranch : Stmt}
      (h : UsedWithin id name a elseBranch b) :
      UsedWithin id name a (.ifElse condition thenBranch elseBranch) b
  | whileCondition {a : Around} {condition : Expr} {body : Stmt} (h : UsedIn id name condition) :
      UsedWithin id name a (.whileLoop condition body) a
  | whileBody {a b : Around} {condition : Expr} {body : Stmt} (h : UsedWithin id name a body b) :
      UsedWithin id name a (.whileLoop condition body) b
  | function {a b : Around} {x : Token} {params : List Token} {before after : List Stmt} {s : Stmt}
      (h : UsedWithin id name ((params.map (·.lexeme) ++ namesOf before) :: a.add [x.lexeme]) s b) :
      UsedWithin id name a (.function x params (before ++ s :: after)) b
  | ret {a : Around} {keyword : Token} {e : Expr} (h : UsedIn id name e) :
      UsedWithin id name a (.ret keyword (some e)) a

/-- A use stands somewhere in the program, inside of the given scopes. -/
def UsedAt (program : List Stmt) (id : ReferenceId) (name : Token) (around : Around) : Prop :=
  ∃ before s after, program = before ++ s :: after ∧ UsedWithin id name [] s around

/-- How many scopes out the innermost scope stands that has the name, if one has. -/
inductive LexicalDistance (x : String) : Around → Option Nat → Prop
  | found {inner outer : Around} {scope : List String} (hscope : x ∈ scope)
      (hinner : ∀ names ∈ inner, x ∉ names) :
      LexicalDistance x (inner ++ scope :: outer) (some inner.length)
  | global {around : Around} (h : ∀ names ∈ around, x ∉ names) : LexicalDistance x around none

def Around.distance? (around : Around) (x : String) : Option Nat := around.findIdx? (x ∈ ·)

/-- The search outward finds the innermost scope with the name. -/
theorem lexicalDistance_iff {x : String} {a : Around} {d : Option Nat} :
    LexicalDistance x a d ↔ a.distance? x = d := by
  constructor
  · intro h
    cases h with
    | global hnone =>
      rw [Around.distance?, List.findIdx?_eq_none_iff]
      exact fun names hnames => decide_eq_false (hnone names hnames)
    | @found inner outer scope hscope hinner =>
      rw [Around.distance?, List.findIdx?_append]
      have hmiss : inner.findIdx? (x ∈ ·) = none := by
        rw [List.findIdx?_eq_none_iff]
        exact fun names hnames => decide_eq_false (hinner names hnames)
      simp [hmiss, List.findIdx?_cons, hscope]
  · intro h
    cases d with
    | none =>
      rw [Around.distance?, List.findIdx?_eq_none_iff] at h
      exact .global fun names hnames => of_decide_eq_false (h names hnames)
    | some d =>
      obtain ⟨hlt, hscope, hinner⟩ := List.findIdx?_eq_some_iff_getElem.mp h
      -- the scopes before the one that is found, that one, and those around it
      have hsplit : a = a.take d ++ a[d] :: a.drop (d + 1) := by simp
      have hlength : (a.take d).length = d := List.length_take_of_le (Nat.le_of_lt hlt)
      have hfound : LexicalDistance x (a.take d ++ a[d] :: a.drop (d + 1))
          (some (a.take d).length) := by
        refine .found (of_decide_eq_true hscope) fun names hnames => ?_
        obtain ⟨i, hi, rfl⟩ := List.getElem_of_mem hnames
        rw [List.getElem_take]
        have hid : i < d := hlength ▸ hi
        have hearlier := hinner i hid
        exact fun hx => hearlier (decide_eq_true hx)
      rwa [← hsplit, hlength] at hfound

section

variable {id : ReferenceId} {name : Token}

theorem Expr.idsAll_append (es es' : List Expr) :
    Expr.idsAll (es ++ es') = Expr.idsAll es ++ Expr.idsAll es' := by
  induction es with
  | nil => rfl
  | cons e es ih => rw [List.cons_append, Expr.idsAll, Expr.idsAll, ih, List.append_assoc]

/-- The id of a use in an expression is one of those of the expression. -/
theorem UsedIn.mem_ids {e : Expr} (h : UsedIn id name e) : id ∈ e.ids := by
  induction h with
  | reference => exact List.mem_singleton.mpr rfl
  | target => exact List.mem_cons_self
  | value _ ih => exact List.mem_cons_of_mem _ ih
  | grouping _ ih => exact ih
  | unary _ ih => exact ih
  | binaryLeft _ ih => exact List.mem_append_left _ ih
  | binaryRight _ ih => exact List.mem_append_right _ ih
  | logicalLeft _ ih => exact List.mem_append_left _ ih
  | logicalRight _ ih => exact List.mem_append_right _ ih
  | callee _ ih => exact List.mem_append_left _ ih
  | argument _ ih =>
    apply List.mem_append_right
    rw [Expr.idsAll_append]
    exact List.mem_append_right _ (List.mem_append_left _ ih)

theorem mem_idsAll_of_mem_ids {s : Stmt} (h : id ∈ s.ids) (before after : List Stmt) :
    id ∈ Stmt.idsAll (before ++ s :: after) := by
  rw [Stmt.idsAll_append]
  exact List.mem_append_right _ (List.mem_append_left _ h)

/-- The id of a use in a statement is one of those of the statement. -/
theorem UsedWithin.mem_ids {a b : Around} {s : Stmt} (h : UsedWithin id name a s b) :
    id ∈ s.ids := by
  induction h with
  | expression h => exact h.mem_ids
  | print h => exact h.mem_ids
  | initializer h => exact h.mem_ids
  | block _ ih => exact mem_idsAll_of_mem_ids ih _ _
  | ifThenCondition h => exact List.mem_append_left _ h.mem_ids
  | ifThenBranch _ ih => exact List.mem_append_right _ ih
  | ifElseCondition h => exact List.mem_append_left _ (List.mem_append_left _ h.mem_ids)
  | ifElseThen _ ih => exact List.mem_append_left _ (List.mem_append_right _ ih)
  | ifElseElse _ ih => exact List.mem_append_right _ ih
  | whileCondition h => exact List.mem_append_left _ h.mem_ids
  | whileBody _ ih => exact List.mem_append_right _ ih
  | function _ ih => exact mem_idsAll_of_mem_ids ih _ _
  | ret h => exact h.mem_ids

mutual

/-- Each id of an expression is that of a use in it. -/
theorem exists_usedIn (e : Expr) (h : id ∈ e.ids) : ∃ name, UsedIn id name e := by
  match e with
  | .literal _ => cases h
  | .grouping inner =>
    obtain ⟨name, hinner⟩ := exists_usedIn inner h
    exact ⟨name, .grouping hinner⟩
  | .unary _ right =>
    obtain ⟨name, hright⟩ := exists_usedIn right h
    exact ⟨name, .unary hright⟩
  | .binary left _ right =>
    rcases List.mem_append.mp h with h | h
    · obtain ⟨name, hleft⟩ := exists_usedIn left h
      exact ⟨name, .binaryLeft hleft⟩
    · obtain ⟨name, hright⟩ := exists_usedIn right h
      exact ⟨name, .binaryRight hright⟩
  | .logical left _ right =>
    rcases List.mem_append.mp h with h | h
    · obtain ⟨name, hleft⟩ := exists_usedIn left h
      exact ⟨name, .logicalLeft hleft⟩
    · obtain ⟨name, hright⟩ := exists_usedIn right h
      exact ⟨name, .logicalRight hright⟩
  | .reference _ name =>
    cases List.mem_singleton.mp h
    exact ⟨name, .reference⟩
  | .assign _ name value =>
    rcases List.mem_cons.mp h with rfl | h
    · exact ⟨name, .target⟩
    · obtain ⟨name', hvalue⟩ := exists_usedIn value h
      exact ⟨name', .value hvalue⟩
  | .call callee _ arguments =>
    rcases List.mem_append.mp h with h | h
    · obtain ⟨name, hcallee⟩ := exists_usedIn callee h
      exact ⟨name, .callee hcallee⟩
    · obtain ⟨before, e', after, rfl, name, he'⟩ := exists_usedIn_of_mem arguments h
      exact ⟨name, .argument he'⟩

theorem exists_usedIn_of_mem (es : List Expr) (h : id ∈ Expr.idsAll es) :
    ∃ before e after, es = before ++ e :: after ∧ ∃ name, UsedIn id name e := by
  match es with
  | [] => cases h
  | e :: es =>
    rcases List.mem_append.mp h with h | h
    · exact ⟨[], e, es, rfl, exists_usedIn e h⟩
    · obtain ⟨before, e', after, rfl, hname⟩ := exists_usedIn_of_mem es h
      exact ⟨e :: before, e', after, rfl, hname⟩

end

mutual

/-- Each id of a statement is that of a use in it, inside of some scopes. -/
theorem exists_usedWithin (s : Stmt) (h : id ∈ s.ids) (a : Around) :
    ∃ name b, UsedWithin id name a s b := by
  match s with
  | .expression e =>
    obtain ⟨name, he⟩ := exists_usedIn e h
    exact ⟨name, a, .expression he⟩
  | .print e =>
    obtain ⟨name, he⟩ := exists_usedIn e h
    exact ⟨name, a, .print he⟩
  | .declare _ none => cases h
  | .declare x (some e) =>
    obtain ⟨name, he⟩ := exists_usedIn e h
    exact ⟨name, _, .initializer he⟩
  | .block body =>
    obtain ⟨before, s', after, rfl, hs'⟩ := exists_usedWithin_of_mem body h
    obtain ⟨name, b, hused⟩ := hs' (namesOf before :: a)
    exact ⟨name, b, .block hused⟩
  | .ifThen condition thenBranch =>
    rcases List.mem_append.mp h with h | h
    · obtain ⟨name, he⟩ := exists_usedIn condition h
      exact ⟨name, a, .ifThenCondition he⟩
    · obtain ⟨name, b, hthen⟩ := exists_usedWithin thenBranch h a
      exact ⟨name, b, .ifThenBranch hthen⟩
  | .ifElse condition thenBranch elseBranch =>
    rcases List.mem_append.mp h with h | h
    · rcases List.mem_append.mp h with h | h
      · obtain ⟨name, he⟩ := exists_usedIn condition h
        exact ⟨name, a, .ifElseCondition he⟩
      · obtain ⟨name, b, hthen⟩ := exists_usedWithin thenBranch h a
        exact ⟨name, b, .ifElseThen hthen⟩
    · obtain ⟨name, b, helse⟩ := exists_usedWithin elseBranch h a
      exact ⟨name, b, .ifElseElse helse⟩
  | .whileLoop condition body =>
    rcases List.mem_append.mp h with h | h
    · obtain ⟨name, he⟩ := exists_usedIn condition h
      exact ⟨name, a, .whileCondition he⟩
    · obtain ⟨name, b, hbody⟩ := exists_usedWithin body h a
      exact ⟨name, b, .whileBody hbody⟩
  | .function x params body =>
    obtain ⟨before, s', after, rfl, hs'⟩ := exists_usedWithin_of_mem body h
    obtain ⟨name, b, hused⟩ := hs' ((params.map (·.lexeme) ++ namesOf before) :: a.add [x.lexeme])
    exact ⟨name, b, .function hused⟩
  | .ret _ none => cases h
  | .ret _ (some e) =>
    obtain ⟨name, he⟩ := exists_usedIn e h
    exact ⟨name, a, .ret he⟩

theorem exists_usedWithin_of_mem (ss : List Stmt) (h : id ∈ Stmt.idsAll ss) :
    ∃ before s after, ss = before ++ s :: after ∧ ∀ a, ∃ name b, UsedWithin id name a s b := by
  match ss with
  | [] => cases h
  | s :: ss =>
    rcases List.mem_append.mp h with h | h
    · exact ⟨[], s, ss, rfl, exists_usedWithin s h⟩
    · obtain ⟨before, s', after, rfl, hs'⟩ := exists_usedWithin_of_mem ss h
      exact ⟨s :: before, s', after, rfl, hs'⟩

end

/-- The ids of a program are those of its uses of variables. -/
theorem mem_idsAll_iff {program : List Stmt} :
    id ∈ Stmt.idsAll program ↔ ∃ name around, UsedAt program id name around := by
  constructor
  · intro h
    obtain ⟨before, s, after, hprogram, hs⟩ := exists_usedWithin_of_mem program h
    obtain ⟨name, around, hused⟩ := hs []
    exact ⟨name, around, before, s, after, hprogram, hused⟩
  · rintro ⟨name, around, before, s, after, rfl, hused⟩
    exact mem_idsAll_of_mem_ids hused.mem_ids before after

end

abbrev HasAll : Scopes → Around → Prop :=
  List.Forall₂ fun scope names => ∀ x, scope.contains x = true ↔ x ∈ names

section

variable {σ : Scopes} {a : Around}

theorem Around.add_nil (a : Around) : a.add [] = a := by
  cases a with
  | nil => rfl
  | cons scope outer => rw [Around.add, List.append_nil]

theorem Around.add_add (a : Around) (names names' : List String) :
    (a.add names).add names' = a.add (names ++ names') := by
  cases a with
  | nil => rfl
  | cons scope outer => simp only [Around.add, List.append_assoc]

theorem HasAll.open (h : HasAll σ a) : HasAll (.empty :: σ) ([] :: a) := by
  refine .cons (fun x => ?_) h
  simp [Bindings.contains]

theorem HasAll.mark (h : HasAll σ a) (readiness : Readiness) (x : String) :
    HasAll (σ.mark readiness x) (a.add [x]) := by
  cases h with
  | nil => exact .nil
  | cons hscope houter =>
    refine .cons (fun y => ?_) houter
    rw [Bindings.contains, Bindings.find?_insert, List.mem_append, List.mem_singleton]
    by_cases hxy : x = y
    · simp [hxy]
    · rw [if_neg hxy]
      have hscope := hscope y
      rw [Bindings.contains] at hscope
      simp [hscope, Ne.symm hxy]

theorem HasAll.after (h : HasAll σ a) (s : Stmt) : HasAll (σ.after s) (a.add (namesOf [s])) := by
  unfold Scopes.after
  cases hname : declaredName? s with
  | none =>
    have hnames : namesOf [s] = [] := by simp [namesOf, hname]
    rw [hnames, Around.add_nil]
    exact h
  | some name =>
    have hnames : namesOf [s] = [name.lexeme] := by simp [namesOf, hname]
    rw [hnames]
    exact h.mark .defined name.lexeme

theorem HasAll.withParams {scope : Bindings Readiness} {names : List String}
    (h : HasAll (scope :: σ) (names :: a)) (params : List Token) :
    HasAll (withParams scope params :: σ) ((names ++ params.map (·.lexeme)) :: a) := by
  induction params generalizing names scope with
  | nil => rwa [List.map_nil, List.append_nil]
  | cons p params ih =>
    have hrest := ih (h.mark .defined p.lexeme)
    rwa [List.append_assoc] at hrest

/-- The search of a walk finds the innermost scope with the name. -/
theorem HasAll.distance?_eq (h : HasAll σ a) {x : String} {d : Option Nat}
    (hd : LexicalDistance x a d) : σ.distance? x = d := by
  rw [← lexicalDistance_iff.mp hd]
  induction h generalizing d with
  | nil => rfl
  | @cons scope names _ outer hscope _ ih =>
    have hsame : scope.contains x = decide (x ∈ names) := by
      rw [Bool.eq_iff_iff, decide_eq_true_iff]
      exact hscope x
    have houter := ih (lexicalDistance_iff.mpr rfl)
    rw [Scopes.distance?] at houter ⊢
    rw [Around.distance?] at houter ⊢
    rw [List.findIdx?_cons, List.findIdx?_cons, hsame, houter]

end

def Records (s s' : Resolution.State) (id : ReferenceId) (d : Option Nat) : Prop :=
  s.distances[id]? = none ∨ s.distances[id]? = d → s'.distances[id]? = d

section

variable {s s₁ s₂ s' : Resolution.State} {id : ReferenceId} {name : Token} {d : Option Nat}

/-- The parts of a walk before and after the one that comes to the use record nothing for it. -/
theorem Records.within (h : Records s₁ s₂ id d) (hbefore : s₁.distances[id]? = s.distances[id]?)
    (hafter : s'.distances[id]? = s₂.distances[id]?) : Records s s' id d := by
  intro hnone
  rw [hafter]
  apply h
  rwa [hbefore]

/-- Recording a use adds its distance, or nothing if the name is global. -/
theorem records_recordUse (s : Resolution.State) (id : ReferenceId) (name : Token) :
    Records s (s.recordUse id name) id (Scopes.distance? s.scopes name.lexeme) := by
  intro hnone
  rw [Resolution.State.recordUse]
  rw [Scopes.distance?] at hnone ⊢
  cases hd : s.scopes.findIdx? (·.contains name.lexeme) with
  | none =>
    rw [hd] at hnone
    simpa using hnone
  | some distance => simp

theorem records_read (s : Resolution.State) (id : ReferenceId) (name : Token) :
    Records s (s.read id name) id (Scopes.distance? s.scopes name.lexeme) := by
  rw [Resolution.State.read]
  split
  · exact records_recordUse (s.report .ownInitializer name) id name
  · exact records_recordUse s id name

/-- What is recorded for a use in one of two parts is kept by the other one. -/
theorem Records.left {ids ids' : List Nat} {C : Known → Prop} (h : Records s s₁ id d)
    (hnodup : (ids ++ ids').Nodup) (hid : id ∈ ids) (hafter : Walks s₁ s' ids' C) :
    Records s s' id d := by
  have hother : id ∉ ids' := List.disjoint_of_nodup_append hnodup hid
  exact h.within rfl (hafter.outside id hother)

theorem Records.right {ids ids' : List Nat} {C : Known → Prop} (h : Records s₁ s' id d)
    (hnodup : (ids ++ ids').Nodup) (hid : id ∈ ids') (hbefore : Walks s s₁ ids C) :
    Records s s' id d := by
  have hother : id ∉ ids := fun hleft => List.disjoint_of_nodup_append hnodup hleft hid
  exact h.within (hbefore.outside id hother) rfl

theorem walkExprs_append (es es' : List Expr) (s : Resolution.State) :
    walkExprs s (es ++ es') = walkExprs (walkExprs s es) es' := by
  induction es generalizing s with
  | nil => rw [List.nil_append, walkExprs]
  | cons e es ih => rw [List.cons_append, walkExprs, walkExprs, ih]

/-- A walk over an expression records the distance in the scopes that it is walked in. -/
theorem records_walkExpr {e : Expr} (h : UsedIn id name e) (hnodup : e.ids.Nodup)
    (s : Resolution.State) :
    Records s (walkExpr s e) id (Scopes.distance? s.scopes name.lexeme) := by
  induction h generalizing s with
  | reference =>
    rw [walkExpr]
    exact records_read s id name
  | @target value =>
    rw [walkExpr]
    obtain ⟨hscopes, hvalue⟩ := walks_walkExpr value s
    have htarget := records_recordUse (walkExpr s value) id name
    rw [hscopes] at htarget
    exact htarget.within (hvalue.outside id (List.nodup_cons.mp hnodup).1) rfl
  | @value id' name' value h ih =>
    rw [walkExpr]
    obtain ⟨hid', hnodup⟩ := List.nodup_cons.mp hnodup
    have hvalue := ih hnodup s
    have hother : id ∉ [id'] := by
      intro hmem
      rw [List.mem_singleton.mp hmem] at h
      exact hid' h.mem_ids
    exact hvalue.within rfl ((walks_recordUse _ id' name').outside id hother)
  | grouping _ ih =>
    rw [walkExpr]
    exact ih hnodup s
  | unary _ ih =>
    rw [walkExpr]
    exact ih hnodup s
  | @binaryLeft left right _ h ih =>
    rw [walkExpr]
    have hleft := ih hnodup.of_append_left s
    exact hleft.left hnodup h.mem_ids (walks_walkExpr right (walkExpr s left)).2
  | @binaryRight left right _ h ih =>
    rw [walkExpr]
    obtain ⟨hscopes, hwalks⟩ := walks_walkExpr left s
    have hright := ih hnodup.of_append_right (walkExpr s left)
    rw [hscopes] at hright
    exact hright.right hnodup h.mem_ids hwalks
  | @logicalLeft left right _ h ih =>
    rw [walkExpr]
    have hleft := ih hnodup.of_append_left s
    exact hleft.left hnodup h.mem_ids (walks_walkExpr right (walkExpr s left)).2
  | @logicalRight left right _ h ih =>
    rw [walkExpr]
    obtain ⟨hscopes, hwalks⟩ := walks_walkExpr left s
    have hright := ih hnodup.of_append_right (walkExpr s left)
    rw [hscopes] at hright
    exact hright.right hnodup h.mem_ids hwalks
  | @callee callee _ arguments h ih =>
    rw [walkExpr]
    have hcallee := ih hnodup.of_append_left s
    exact hcallee.left hnodup h.mem_ids (walks_walkExprs arguments (walkExpr s callee)).2
  | @argument callee e _ before after h ih =>
    rw [walkExpr, walkExprs_append, walkExprs]
    obtain ⟨hscopes, hcallee⟩ := walks_walkExpr callee s
    obtain ⟨hscopes', hbefore⟩ := walks_walkExprs before (walkExpr s callee)
    have hids := Expr.idsAll_append before (e :: after)
    have harguments : (Expr.idsAll before ++ (e.ids ++ Expr.idsAll after)).Nodup := by
      rw [Expr.ids, hids] at hnodup
      exact hnodup.of_append_right
    have he := ih harguments.of_append_right.of_append_left
      (walkExprs (walkExpr s callee) before)
    rw [hscopes', hscopes] at he
    have hrest := he.left harguments.of_append_right h.mem_ids
      (walks_walkExprs after (walkExpr (walkExprs (walkExpr s callee) before) e)).2
    have hmem : id ∈ e.ids ++ Expr.idsAll after := List.mem_append_left _ h.mem_ids
    have hall := hrest.right harguments hmem hbefore
    rw [Expr.ids, hids] at hnodup
    exact hall.right hnodup (List.mem_append_right _ hmem) hcallee

/-- In the scopes that stand around the use this is how far out its name is found. -/
theorem records_value {e : Expr} {b : Around} (h : UsedIn id name e) (hnodup : e.ids.Nodup)
    (hd : LexicalDistance name.lexeme b d) (hscopes : HasAll s.scopes b) :
    Records s (walkExpr s e) id d := by
  rw [← hscopes.distance?_eq hd]
  exact records_walkExpr h hnodup s

/-- The initializer is walked between the two marks of the name, which record nothing. -/
theorem records_initializer {e : Expr} {x : Token} {a : Around} (h : UsedIn id name e)
    (hnodup : e.ids.Nodup) (hd : LexicalDistance name.lexeme (a.add [x.lexeme]) d)
    (hscopes : HasAll s.scopes a) :
    Records s ((walkExpr (s.declare x) e).define x) id d := by
  have hdeclared : HasAll (s.declare x).scopes (a.add [x.lexeme]) := by
    rw [scopes_declare]
    exact hscopes.mark .declared x.lexeme
  have hdefine := (walks_define (walkExpr (s.declare x) e) x).2
  exact (records_value h hnodup hd hdeclared).within ((walks_declare s x).outside id nofun)
    (hdefine.outside id nofun)

/-- A condition is walked before the statement that hangs on it. -/
theorem records_condition {condition : Expr} {branch : Stmt} {b : Around}
    (h : UsedIn id name condition) (hshaped : Shaped branch)
    (hnodup : (condition.ids ++ branch.ids).Nodup) (hd : LexicalDistance name.lexeme b d)
    (hscopes : HasAll s.scopes b) (inFunction : Bool) :
    Records s (walkStmt inFunction (walkExpr s condition) branch) id d :=
  (records_value h hnodup.of_append_left hd hscopes).left hnodup h.mem_ids
    (walks_walkStmt branch hshaped inFunction (walkExpr s condition)).2

/-- The name of a function and its parameters are marked before its body is walked. -/
theorem HasAll.openFunction {a : Around} (hscopes : HasAll s.scopes a) (x : Token)
    (params : List Token) : HasAll (bindParams ((s.declare x).define x).openScope params).scopes
      (params.map (·.lexeme) :: a.add [x.lexeme]) := by
  rw [(walks_bindParams params (scopes_openFunction s x)).1]
  exact (hscopes.mark .defined x.lexeme).open.withParams params

theorem Records.body {x : Token} {params : List Token}
    (h : Records (bindParams ((s.declare x).define x).openScope params) s' id d) :
    Records s s'.closeScope id d := by
  refine h.within ?_ rfl
  rw [(walks_bindParams params (scopes_openFunction s x)).2.outside id nofun]
  exact (walks_declare_define s x).2.outside id nofun

theorem records_returned {e : Expr} {b : Around} (h : UsedIn id name e) (hnodup : e.ids.Nodup)
    (hd : LexicalDistance name.lexeme b d) (hscopes : HasAll s.scopes b) (inFunction : Bool)
    (keyword : Token) :
    Records s (walkExpr (if inFunction then s else s.report .topLevelReturn keyword) e) id d := by
  obtain ⟨hsame, hkeyword⟩ := walks_returnKeyword s inFunction keyword
  rw [← hsame] at hscopes
  exact (records_value h hnodup hd hscopes).within (hkeyword.outside id nofun) rfl

mutual

/-- A walk over a statement records for a use the number of scopes up to the one with its name. -/
theorem records_walkStmt (stmt : Stmt) (hshaped : Shaped stmt) (hnodup : stmt.ids.Nodup)
    {a b : Around} (h : UsedWithin id name a stmt b) (hd : LexicalDistance name.lexeme b d)
    (inFunction : Bool) {s : Resolution.State} (hscopes : HasAll s.scopes a) :
    Records s (walkStmt inFunction s stmt) id d := by
  match stmt with
  | .expression e =>
    rw [walkStmt]
    cases h with
    | expression he => exact records_value he hnodup hd hscopes
  | .print e =>
    rw [walkStmt]
    cases h with
    | print he => exact records_value he hnodup hd hscopes
  | .declare x initializer =>
    rw [walkStmt]
    cases h with
    | initializer he => exact records_initializer he hnodup hd hscopes
  | .block body =>
    rw [walkStmt]
    obtain ⟨before, t, after, hsplit, hused⟩ : ∃ before t after, body = before ++ t :: after ∧
        UsedWithin id name (Around.add ([] :: a) (namesOf before)) t b := by
      cases h with
      | block h => exact ⟨_, _, _, rfl, h⟩
    have hopened : HasAll s.openScope.scopes ([] :: a) := hscopes.open
    exact (records_walkStmts body hshaped hnodup hsplit hused hd inFunction hopened).within rfl rfl
  | .ifThen condition thenBranch =>
    rw [walkStmt]
    cases h with
    | ifThenCondition he => exact records_condition he hshaped.2 hnodup hd hscopes inFunction
    | ifThenBranch hthen =>
      obtain ⟨hsame, hcondition⟩ := walks_walkExpr condition s
      rw [← hsame] at hscopes
      exact (records_walkStmt thenBranch hshaped.2 hnodup.of_append_right hthen hd inFunction
        hscopes).right hnodup hthen.mem_ids hcondition
  | .ifElse condition thenBranch elseBranch =>
    rw [walkStmt]
    obtain ⟨hsame, hcondition⟩ := walks_walkExpr condition s
    have hthenWalk := (walks_walkStmt thenBranch hshaped.1.2 inFunction (walkExpr s condition)).2
    have helseWalk := (walks_walkStmt elseBranch hshaped.2.2 inFunction
      (walkStmt inFunction (walkExpr s condition) thenBranch)).2
    cases h with
    | ifElseCondition he =>
      have hboth := records_condition he hshaped.1.2 hnodup.of_append_left hd hscopes inFunction
      exact hboth.left hnodup (List.mem_append_left _ he.mem_ids) helseWalk
    | ifElseThen hthen =>
      rw [← hsame] at hscopes
      have hboth := (records_walkStmt thenBranch hshaped.1.2
        hnodup.of_append_left.of_append_right hthen hd inFunction hscopes).right
        hnodup.of_append_left hthen.mem_ids hcondition
      exact hboth.left hnodup (List.mem_append_right _ hthen.mem_ids) helseWalk
    | ifElseElse helse =>
      rw [← hsame, ← scopes_walkStmt_of_none hshaped.1.2 hshaped.1.1 inFunction] at hscopes
      exact (records_walkStmt elseBranch hshaped.2.2 hnodup.of_append_right helse hd inFunction
        hscopes).right hnodup helse.mem_ids (hcondition.seq hthenWalk)
  | .whileLoop condition body =>
    rw [walkStmt]
    cases h with
    | whileCondition he => exact records_condition he hshaped.2 hnodup hd hscopes inFunction
    | whileBody hbody =>
      obtain ⟨hsame, hcondition⟩ := walks_walkExpr condition s
      rw [← hsame] at hscopes
      exact (records_walkStmt body hshaped.2 hnodup.of_append_right hbody hd inFunction
        hscopes).right hnodup hbody.mem_ids hcondition
  | .function x params body =>
    rw [walkStmt]
    obtain ⟨before, t, after, hsplit, hused⟩ : ∃ before t after, body = before ++ t :: after ∧
        UsedWithin id name
          (Around.add (params.map (·.lexeme) :: a.add [x.lexeme]) (namesOf before)) t b := by
      cases h with
      | function h => exact ⟨_, _, _, rfl, h⟩
    exact (records_walkStmts body hshaped hnodup hsplit hused hd true
      (hscopes.openFunction x params)).body
  | .ret keyword value =>
    rw [walkStmt]
    cases h with
    | ret he => exact records_returned he hnodup hd hscopes inFunction keyword

/-- A walk over statements records it for a use in one of them. -/
theorem records_walkStmts (stmts : List Stmt) (hshaped : ShapedAll stmts)
    (hnodup : (Stmt.idsAll stmts).Nodup) {before after : List Stmt} {stmt : Stmt}
    (hsplit : stmts = before ++ stmt :: after) {a b : Around}
    (h : UsedWithin id name (a.add (namesOf before)) stmt b) (hd : LexicalDistance name.lexeme b d)
    (inFunction : Bool) {s : Resolution.State} (hscopes : HasAll s.scopes a) :
    Records s (walkStmts inFunction s stmts) id d := by
  match stmts with
  | [] => simp at hsplit
  | first :: rest =>
    rw [walkStmts]
    obtain ⟨hsame, hfirst⟩ := walks_walkStmt first hshaped.1 inFunction s
    cases before with
    | nil =>
      obtain ⟨rfl, rfl⟩ := List.cons.inj hsplit
      rw [namesOf, List.filterMap_nil, Around.add_nil] at h
      have hused := records_walkStmt first hshaped.1 hnodup.of_append_left h hd inFunction hscopes
      exact hused.left hnodup h.mem_ids
        (walks_walkStmts rest hshaped.2 inFunction (walkStmt inFunction s first)).2
    | cons first' before =>
      obtain ⟨rfl, hrest⟩ := List.cons.inj hsplit
      have hafter : HasAll (walkStmt inFunction s first).scopes (a.add (namesOf [first])) := by
        rw [hsame]
        exact hscopes.after first
      have hnames : namesOf ([first] ++ before) = namesOf [first] ++ namesOf before :=
        List.filterMap_append
      rw [← List.singleton_append, hnames, ← Around.add_add] at h
      have hused := records_walkStmts rest hshaped.2 hnodup.of_append_right hrest h hd inFunction
        hafter
      have hmem : id ∈ Stmt.idsAll rest := by
        rw [hrest]
        exact mem_idsAll_of_mem_ids h.mem_ids before after
      exact hused.right hnodup hmem hfirst

end

/-- For each use of a program how far out its variable stands is recorded, if nothing else has been
recorded for it before; for a use of a global variable nothing is. -/
theorem records_resolve {program : List Stmt} (hshaped : ShapedAll program)
    (hnodup : (Stmt.idsAll program).Nodup) {around : Around} (h : UsedAt program id name around)
    (hd : LexicalDistance name.lexeme around d) {distances : Distances}
    (hbefore : distances[id]? = none ∨ distances[id]? = d) :
    (resolve distances program).distances[id]? = d := by
  obtain ⟨before, stmt, after, hsplit, hused⟩ := h
  have hwalk := records_walkStmts program hshaped hnodup hsplit
    hused hd false (s := ⟨[], distances, #[]⟩) .nil
  exact hwalk hbefore

end

end LoxLang.Lexical

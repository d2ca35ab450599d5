import LoxLang.Resolution
import LoxLang.Proofs.Grammar.Shape
import LoxLang.Proofs.Tree.Sites

/-!
The static rules, said of a tree and not of a walk over it. Where a statement stands decides which rules
apply to it: whether a function surrounds it, and which names its scope has from before. The places where
a program breaks a rule are listed in the order of the tree. Main statements: `mem_violationsAll` and
`tokens_violations`.
-/
namespace LoxLang.Lexical

open ResolutionError (Cause)

structure Surroundings where
  inFunction : Bool
  /-- The names that were declared before in the same scope; none outside of all scopes. -/
  declared : Option (List String)

def Surroundings.outermost : Surroundings := ⟨false, none⟩

def namesOf (ss : List Stmt) : List String := ss.filterMap fun s => (declaredName? s).map (·.lexeme)

/-- A statement is the other one or stands within it, each with its surroundings. -/
inductive Inside : Surroundings → Stmt → Surroundings → Stmt → Prop
  | self {a : Surroundings} {s : Stmt} : Inside a s a s
  | block {a b : Surroundings} {before after : List Stmt} {s u : Stmt}
      (h : Inside ⟨a.inFunction, some (namesOf before)⟩ s b u) :
      Inside a (.block (before ++ s :: after)) b u
  | ifThen {a b : Surroundings} {condition : Expr} {thenBranch u : Stmt}
      (h : Inside a thenBranch b u) : Inside a (.ifThen condition thenBranch) b u
  | ifElseThen {a b : Surroundings} {condition : Expr} {thenBranch elseBranch u : Stmt}
      (h : Inside a thenBranch b u) : Inside a (.ifElse condition thenBranch elseBranch) b u
  | ifElseElse {a b : Surroundings} {condition : Expr} {thenBranch elseBranch u : Stmt}
      (h : Inside a elseBranch b u) : Inside a (.ifElse condition thenBranch elseBranch) b u
  | whileLoop {a b : Surroundings} {condition : Expr} {body u : Stmt}
      (h : Inside a body b u) : Inside a (.whileLoop condition body) b u
  | function {a b : Surroundings} {name : Token} {params : List Token} {before after : List Stmt}
      {s u : Stmt} (h : Inside ⟨true, some (params.map (·.lexeme) ++ namesOf before)⟩ s b u) :
      Inside a (.function name params (before ++ s :: after)) b u

inductive Breaks : Surroundings → Stmt → ResolutionError → Prop
  | topLevelReturn {a : Surroundings} {keyword : Token} {value : Option Expr}
      (h : a.inFunction = false) : Breaks a (.ret keyword value) ⟨.topLevelReturn, keyword⟩
  | declaration {a : Surroundings} {name : Token} {initializer : Option Expr} {names : List String}
      (h : a.declared = some names) (hname : name.lexeme ∈ names) :
      Breaks a (.declare name initializer) ⟨.alreadyDeclared name.lexeme, name⟩
  | ownInitializer {a : Surroundings} {name use : Token} {initializer : Option Expr}
      {names : List String} (h : a.declared = some names) (huse : use ∈ Expr.readsOption initializer)
      (hname : use.lexeme = name.lexeme) :
      Breaks a (.declare name initializer) ⟨.ownInitializer, use⟩
  | function {a : Surroundings} {name : Token} {params : List Token} {body : List Stmt}
      {names : List String} (h : a.declared = some names) (hname : name.lexeme ∈ names) :
      Breaks a (.function name params body) ⟨.alreadyDeclared name.lexeme, name⟩
  | parameter {a : Surroundings} {name p : Token} {before after : List Token} {body : List Stmt}
      (h : p.lexeme ∈ before.map (·.lexeme)) :
      Breaks a (.function name (before ++ p :: after) body) ⟨.alreadyDeclared p.lexeme, p⟩

def Violates (program : List Stmt) (e : ResolutionError) : Prop :=
  ∃ before s after b u, program = before ++ s :: after ∧ Inside .outermost s b u ∧ Breaks b u e

def clash (declared : Option (List String)) (name : Token) : List ResolutionError :=
  if name.lexeme ∈ declared.getD [] then [⟨.alreadyDeclared name.lexeme, name⟩] else []

def ownUses (declared : Option (List String)) (name : Token) (initializer : Option Expr) :
    List ResolutionError :=
  if declared.isSome then
    ((Expr.readsOption initializer).filter (·.lexeme == name.lexeme)).map (⟨.ownInitializer, ·⟩)
  else
    []

def paramClashes (earlier : List String) : List Token → List ResolutionError
  | [] => []
  | p :: ps => clash (some earlier) p ++ paramClashes (earlier ++ [p.lexeme]) ps

def Surroundings.after (a : Surroundings) (ss : List Stmt) : Surroundings :=
  { a with declared := a.declared.map (· ++ namesOf ss) }

mutual

def violations (a : Surroundings) : Stmt → List ResolutionError
  | .expression _ | .print _ => []
  | .declare name initializer => clash a.declared name ++ ownUses a.declared name initializer
  | .block body => violationsAll ⟨a.inFunction, some []⟩ body
  | .ifThen _ thenBranch => violations a thenBranch
  | .ifElse _ thenBranch elseBranch => violations a thenBranch ++ violations a elseBranch
  | .whileLoop _ body => violations a body
  | .function name params body =>
    clash a.declared name ++
      (paramClashes [] params ++ violationsAll ⟨true, some (params.map (·.lexeme))⟩ body)
  | .ret keyword _ => if a.inFunction then [] else [⟨.topLevelReturn, keyword⟩]

def violationsAll (a : Surroundings) : List Stmt → List ResolutionError
  | [] => []
  | s :: ss => violations a s ++ violationsAll (a.after [s]) ss

end

section

variable {a : Surroundings} {e : ResolutionError} {name : Token} {declared : Option (List String)}

theorem after_nil (a : Surroundings) : a.after [] = a := by
  obtain ⟨inFunction, declared⟩ := a
  cases declared <;> simp [Surroundings.after, namesOf]

theorem after_after (a : Surroundings) (ss ss' : List Stmt) :
    (a.after ss).after ss' = a.after (ss ++ ss') := by
  obtain ⟨inFunction, declared⟩ := a
  cases declared <;> simp [Surroundings.after, namesOf]

theorem mem_clash : e ∈ clash declared name ↔
    ∃ names, declared = some names ∧ name.lexeme ∈ names ∧ e = ⟨.alreadyDeclared name.lexeme, name⟩ := by
  cases declared with
  | none => simp [clash]
  | some names =>
    by_cases h : name.lexeme ∈ names <;> simp [clash, h]

/-- An own use stands in the initializer of a variable that is declared inside of a scope. -/
theorem mem_ownUses {initializer : Option Expr} : e ∈ ownUses declared name initializer ↔
    ∃ names use, declared = some names ∧ use ∈ Expr.readsOption initializer ∧
      use.lexeme = name.lexeme ∧ e = ⟨.ownInitializer, use⟩ := by
  cases declared with
  | none => simp [ownUses]
  | some names =>
    rw [ownUses, if_pos Option.isSome_some, List.mem_map]
    constructor
    · rintro ⟨use, huse, rfl⟩
      obtain ⟨huse, hname⟩ := List.mem_filter.mp huse
      exact ⟨names, use, rfl, huse, beq_iff_eq.mp hname, rfl⟩
    · rintro ⟨_, use, -, huse, hname, rfl⟩
      exact ⟨use, List.mem_filter.mpr ⟨huse, beq_iff_eq.mpr hname⟩, rfl⟩

/-- A parameter clashes if its name is that of an earlier parameter. -/
theorem mem_paramClashes {earlier : List String} {params : List Token} :
    e ∈ paramClashes earlier params ↔ ∃ before p after, params = before ++ p :: after ∧
      p.lexeme ∈ earlier ++ before.map (·.lexeme) ∧ e = ⟨.alreadyDeclared p.lexeme, p⟩ := by
  induction params generalizing earlier with
  | nil => simp [paramClashes]
  | cons p params ih =>
    rw [paramClashes, List.mem_append, mem_clash, ih]
    constructor
    · rintro (⟨names, hnames, hp, rfl⟩ | ⟨before, q, after, rfl, hq, rfl⟩)
      · cases hnames
        exact ⟨[], p, params, rfl, by simpa using hp, rfl⟩
      · exact ⟨p :: before, q, after, rfl, by simpa using hq, rfl⟩
    · rintro ⟨before, q, after, hparams, hq, rfl⟩
      cases before with
      | nil =>
        cases hparams
        exact .inl ⟨earlier, rfl, by simpa using hq, rfl⟩
      | cons p' before =>
        cases hparams
        exact .inr ⟨before, q, after, rfl, by simpa using hq, rfl⟩

end

/-- Statements of a list break rules where one of them does, in the surroundings that those before it
make. -/
theorem exists_cons_iff {a : Surroundings} {s : Stmt} {ss : List Stmt}
    {P : Surroundings → Stmt → Prop} :
    (∃ before t after, s :: ss = before ++ t :: after ∧ P (a.after before) t) ↔
      P a s ∨ ∃ before t after, ss = before ++ t :: after ∧ P ((a.after [s]).after before) t := by
  constructor
  · rintro ⟨before, t, after, hss, h⟩
    cases before with
    | nil =>
      cases hss
      exact .inl (by rwa [after_nil] at h)
    | cons s' before =>
      cases hss
      exact .inr ⟨before, t, after, rfl, by rwa [after_after]⟩
  · rintro (h | ⟨before, t, after, rfl, h⟩)
    · exact ⟨[], s, ss, rfl, by rwa [after_nil]⟩
    · exact ⟨s :: before, t, after, rfl, by rwa [after_after] at h⟩

def Faulty (a : Surroundings) (s : Stmt) (e : ResolutionError) : Prop :=
  ∃ b u, Inside a s b u ∧ Breaks b u e

section

variable {a : Surroundings} {e : ResolutionError}

theorem not_faulty_expression {x : Expr} : ¬Faulty a (.expression x) e := by
  rintro ⟨b, u, ⟨⟩, ⟨⟩⟩

theorem not_faulty_print {x : Expr} : ¬Faulty a (.print x) e := by
  rintro ⟨b, u, ⟨⟩, ⟨⟩⟩

/-- A variable breaks a rule by its name or by a use in its initializer. -/
theorem faulty_declare_iff {name : Token} {initializer : Option Expr} :
    Faulty a (.declare name initializer) e ↔
      e ∈ clash a.declared name ∨ e ∈ ownUses a.declared name initializer := by
  rw [mem_clash, mem_ownUses]
  constructor
  · rintro ⟨b, u, hinside, hbreaks⟩
    cases hinside
    cases hbreaks with
    | declaration h hname => exact .inl ⟨_, h, hname, rfl⟩
    | ownInitializer h huse hname => exact .inr ⟨_, _, h, huse, hname, rfl⟩
  · rintro (⟨names, h, hname, rfl⟩ | ⟨names, use, h, huse, hname, rfl⟩)
    · exact ⟨a, _, .self, .declaration h hname⟩
    · exact ⟨a, _, .self, .ownInitializer h huse hname⟩

/-- A block is at fault if one of its statements is, given the names declared before it. -/
theorem faulty_block_iff {body : List Stmt} :
    Faulty a (.block body) e ↔ ∃ before t after, body = before ++ t :: after ∧
      Faulty ⟨a.inFunction, some (namesOf before)⟩ t e := by
  constructor
  · rintro ⟨b, u, hinside, hbreaks⟩
    cases hinside with
    | self => cases hbreaks
    | block h => exact ⟨_, _, _, rfl, b, u, h, hbreaks⟩
  · rintro ⟨before, t, after, rfl, b, u, hinside, hbreaks⟩
    exact ⟨b, u, .block hinside, hbreaks⟩

/-- An `if` without an `else` is at fault if its branch is. -/
theorem faulty_ifThen_iff {condition : Expr} {thenBranch : Stmt} :
    Faulty a (.ifThen condition thenBranch) e ↔ Faulty a thenBranch e := by
  constructor
  · rintro ⟨b, u, hinside, hbreaks⟩
    cases hinside with
    | self => cases hbreaks
    | ifThen h => exact ⟨b, u, h, hbreaks⟩
  · rintro ⟨b, u, hinside, hbreaks⟩
    exact ⟨b, u, .ifThen hinside, hbreaks⟩

theorem faulty_ifElse_iff {condition : Expr} {thenBranch elseBranch : Stmt} :
    Faulty a (.ifElse condition thenBranch elseBranch) e ↔
      Faulty a thenBranch e ∨ Faulty a elseBranch e := by
  constructor
  · rintro ⟨b, u, hinside, hbreaks⟩
    cases hinside with
    | self => cases hbreaks
    | ifElseThen h => exact .inl ⟨b, u, h, hbreaks⟩
    | ifElseElse h => exact .inr ⟨b, u, h, hbreaks⟩
  · rintro (⟨b, u, hinside, hbreaks⟩ | ⟨b, u, hinside, hbreaks⟩)
    · exact ⟨b, u, .ifElseThen hinside, hbreaks⟩
    · exact ⟨b, u, .ifElseElse hinside, hbreaks⟩

theorem faulty_whileLoop_iff {condition : Expr} {body : Stmt} :
    Faulty a (.whileLoop condition body) e ↔ Faulty a body e := by
  constructor
  · rintro ⟨b, u, hinside, hbreaks⟩
    cases hinside with
    | self => cases hbreaks
    | whileLoop h => exact ⟨b, u, h, hbreaks⟩
  · rintro ⟨b, u, hinside, hbreaks⟩
    exact ⟨b, u, .whileLoop hinside, hbreaks⟩

/-- Parameters and body of a function share one scope. -/
theorem faulty_function_iff {name : Token} {params : List Token} {body : List Stmt} :
    Faulty a (.function name params body) e ↔
      e ∈ clash a.declared name ∨ e ∈ paramClashes [] params ∨
        ∃ before t after, body = before ++ t :: after ∧
          Faulty ⟨true, some (params.map (·.lexeme) ++ namesOf before)⟩ t e := by
  rw [mem_clash, mem_paramClashes]
  constructor
  · rintro ⟨b, u, hinside, hbreaks⟩
    cases hinside with
    | self =>
      cases hbreaks with
      | function h hname => exact .inl ⟨_, h, hname, rfl⟩
      | parameter hp => exact .inr (.inl ⟨_, _, _, rfl, hp, rfl⟩)
    | function h => exact .inr (.inr ⟨_, _, _, rfl, b, u, h, hbreaks⟩)
  · rintro (⟨names, h, hname, rfl⟩ | ⟨before, p, after, rfl, hp, rfl⟩ |
      ⟨before, t, after, rfl, b, u, hinside, hbreaks⟩)
    · exact ⟨a, _, .self, .function h hname⟩
    · exact ⟨a, _, .self, .parameter hp⟩
    · exact ⟨b, u, .function hinside, hbreaks⟩

/-- A `return` breaks a rule if it stands outside of all functions. -/
theorem faulty_ret_iff {keyword : Token} {value : Option Expr} :
    Faulty a (.ret keyword value) e ↔ a.inFunction = false ∧ e = ⟨.topLevelReturn, keyword⟩ := by
  constructor
  · rintro ⟨b, u, hinside, hbreaks⟩
    cases hinside
    cases hbreaks with
    | topLevelReturn h => exact ⟨h, rfl⟩
  · rintro ⟨h, rfl⟩
    exact ⟨a, _, .self, .topLevelReturn h⟩

end

mutual

/-- The list holds what breaks a rule in the statement or somewhere within it. -/
theorem mem_violations (s : Stmt) {a : Surroundings} {e : ResolutionError} :
    e ∈ violations a s ↔ Faulty a s e := by
  match s with
  | .expression _ =>
    rw [violations, iff_false_right not_faulty_expression]
    exact List.not_mem_nil
  | .print _ =>
    rw [violations, iff_false_right not_faulty_print]
    exact List.not_mem_nil
  | .declare name initializer => rw [violations, List.mem_append, faulty_declare_iff]
  | .block body =>
    rw [violations, mem_violationsAll body, faulty_block_iff]
    rfl
  | .ifThen _ thenBranch => rw [violations, mem_violations thenBranch, faulty_ifThen_iff]
  | .ifElse _ thenBranch elseBranch =>
    rw [violations, List.mem_append, mem_violations thenBranch, mem_violations elseBranch,
      faulty_ifElse_iff]
  | .whileLoop _ body => rw [violations, mem_violations body, faulty_whileLoop_iff]
  | .function name params body =>
    rw [violations, List.mem_append, List.mem_append, mem_violationsAll body, faulty_function_iff]
    rfl
  | .ret keyword _ =>
    rw [violations, faulty_ret_iff]
    cases a.inFunction <;> simp

theorem mem_violationsAll (ss : List Stmt) {a : Surroundings} {e : ResolutionError} :
    e ∈ violationsAll a ss ↔ ∃ before t after, ss = before ++ t :: after ∧
      Faulty (a.after before) t e := by
  match ss with
  | [] => simp [violationsAll]
  | s :: ss =>
    rw [violationsAll, List.mem_append, mem_violations s, mem_violationsAll ss]
    exact (exists_cons_iff (P := fun a' t => Faulty a' t e)).symm

end

theorem mem_violationsAll_outermost {program : List Stmt} {e : ResolutionError} :
    e ∈ violationsAll .outermost program ↔ Violates program e := by
  rw [mem_violationsAll]
  constructor
  · rintro ⟨before, s, after, h, b, u, hinside, hbreaks⟩
    exact ⟨before, s, after, b, u, h, hinside, hbreaks⟩
  · rintro ⟨before, s, after, b, u, h, hinside, hbreaks⟩
    exact ⟨before, s, after, h, b, u, hinside, hbreaks⟩

section

variable {declared : Option (List String)} {name : Token} {earlier : List String}

theorem tokens_clash : ((clash declared name).map (·.token)).Sublist [name] := by
  rw [clash]
  split
  · exact .refl _
  · exact List.nil_sublist _

theorem tokens_ownUses {initializer : Option Expr} :
    ((ownUses declared name initializer).map (·.token)).Sublist (Expr.readsOption initializer) := by
  rw [ownUses]
  split
  · rw [List.map_map]
    exact (List.map_id _).symm ▸ List.filter_sublist
  · exact List.nil_sublist _

theorem tokens_paramClashes {params : List Token} :
    ((paramClashes earlier params).map (·.token)).Sublist params := by
  induction params generalizing earlier with
  | nil => exact .refl _
  | cons p params ih =>
    rw [paramClashes, List.map_append]
    exact tokens_clash.append ih

end

mutual

/-- No two violations are at the same place, and they are listed in the order of the places. -/
theorem tokens_violations (s : Stmt) {a : Surroundings} :
    ((violations a s).map (·.token)).Sublist s.sites := by
  -- violations are listed by the same cases as the places, and in the same order
  match s with
  | .expression _ => exact .refl _
  | .print _ => exact .refl _
  | .declare name initializer =>
    rw [violations, List.map_append]
    exact tokens_clash.append tokens_ownUses
  | .block body => exact tokens_violationsAll body
  | .ifThen _ thenBranch => exact tokens_violations thenBranch
  | .ifElse _ thenBranch elseBranch =>
    rw [violations, List.map_append]
    exact (tokens_violations thenBranch).append (tokens_violations elseBranch)
  | .whileLoop _ body => exact tokens_violations body
  | .function name params body =>
    rw [violations, List.map_append, List.map_append]
    exact tokens_clash.append (tokens_paramClashes.append (tokens_violationsAll body))
  | .ret keyword _ =>
    rw [violations]
    split
    · exact List.nil_sublist _
    · exact .refl _

theorem tokens_violationsAll (ss : List Stmt) {a : Surroundings} :
    ((violationsAll a ss).map (·.token)).Sublist (Stmt.sitesAll ss) := by
  match ss with
  | [] => exact .refl _
  | s :: ss =>
    rw [violationsAll, List.map_append]
    exact (tokens_violations s).append (tokens_violationsAll ss)

end

end LoxLang.Lexical

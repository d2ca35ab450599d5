import LoxLang.Proofs.Lexical.Scoped
import LoxLang.Proofs.Renaming.Occurrences
import LoxLang.Proofs.Renaming.Trees
import LoxLang.Proofs.Tree.Lines

/-!
A local declaration gets another name, and so does every use that belongs to it. If nothing in the program
has the new name, what comes out is the same but for the name, and it agrees with its scopes again: no
scope gets a name twice, and each use means the declaration that it meant before. Tokens are told apart
by the places in their lines. Main statement: `stmts_changed`.
-/
namespace LoxLang.Renaming

open Lexical (Scopes ScopedExpr ScopedStmt ScopedStmts FreeParams)
open Lexical.Renaming (Pairs Paired Sight Respelled MarkAlike UseAlike NameAlike ExprAlike StmtAlike
  StmtsAlike)
open Resolution (Readiness)

structure Change where
  declaration : Nat
  changes : Nat → Bool
  old : String
  new : String

namespace Change

variable (c : Change)

def token (t : Token) : Token := if c.changes t.line then { t with lexeme := c.new } else t

def onLines (ℓ : Nat → Nat) (t : Token) : Token := (c.token t).mapLine ℓ

/-- The name of an occurrence is changed where it belongs to the declaration, and nowhere else. -/
structure Covers (o : Occurrence) : Prop where
  changes_iff : c.changes o.name.line = true ↔ o.declaration.map (·.line) = some c.declaration
  spelled : o.name.line = c.declaration → o.name.lexeme = c.old
  function : o.role = .function → o.name.line ≠ c.declaration
  fresh : o.name.lexeme ≠ c.new

structure Declares (t : Token) : Prop where
  changes_iff : c.changes t.line = true ↔ t.line = c.declaration
  spelled : t.line = c.declaration → t.lexeme = c.old
  fresh : t.lexeme ≠ c.new

structure Spells (t : Token) : Prop where
  old : c.changes t.line = true → t.lexeme = c.old
  fresh : t.lexeme ≠ c.new

variable {c}

theorem token_of_changes {t : Token} (h : c.changes t.line = true) :
    c.token t = { t with lexeme := c.new } := if_pos h

theorem token_of_not_changes {t : Token} (h : c.changes t.line = false) : c.token t = t :=
  if_neg (Bool.eq_false_iff.mp h)

theorem kind_token (t : Token) : (c.token t).kind = t.kind := by
  unfold token
  split <;> rfl

theorem line_token (t : Token) : (c.token t).line = t.line := by
  unfold token
  split <;> rfl

theorem Declares.spells {t : Token} (h : c.Declares t) : c.Spells t where
  old hchanges := h.spelled (h.changes_iff.mp hchanges)
  fresh := h.fresh

/-- Names that are equal after the change were equal before. -/
theorem Spells.eq_of_token_eq {t u : Token} (ht : c.Spells t) (hu : c.Spells u)
    (h : (c.token t).lexeme = (c.token u).lexeme) : t.lexeme = u.lexeme := by
  cases hct : c.changes t.line with
  | true =>
    cases hcu : c.changes u.line with
    | true => exact (ht.old hct).trans (hu.old hcu).symm
    | false =>
      rw [token_of_changes hct, token_of_not_changes hcu] at h
      exact absurd h.symm hu.fresh
  | false =>
    cases hcu : c.changes u.line with
    | true =>
      rw [token_of_not_changes hct, token_of_changes hcu] at h
      exact absurd h ht.fresh
    | false =>
      rw [token_of_not_changes hct, token_of_not_changes hcu] at h
      exact h

theorem Spells.respelled {t : Token} (h : c.Spells t) (ℓ : Nat → Nat) :
    Respelled c.old c.new (t.mapLine ℓ) (c.onLines ℓ t) := by
  unfold onLines
  cases hc : c.changes t.line with
  | true =>
    right
    rw [token_of_changes hc]
    exact ⟨h.old hc, rfl⟩
  | false =>
    left
    rw [token_of_not_changes hc]

theorem markAlike (ℓ : Nat → Nat) (t : Token) : MarkAlike (t.mapLine ℓ) (c.onLines ℓ t) where
  kind := kind_token t
  line := congrArg ℓ (line_token t)

end Change

section

variable {c : Change}

def Change.pair (c : Change) (t : Token) : String × String := (t.lexeme, (c.token t).lexeme)

theorem lexeme_of_find? {ts : List Token} {a : String} {t : Token}
    (h : ts.find? (·.lexeme == a) = some t) : t.lexeme = a := by
  have hbeq := List.find?_some h
  exact beq_iff_eq.mp hbeq

/-- If a name is changed exactly if the innermost declaration of it is, then both mean the same after the
change. -/
theorem paired_of_find? {ts : List Token} (hts : ∀ t ∈ ts, c.Declares t) {name : Token}
    (hfresh : name.lexeme ≠ c.new)
    (h : c.changes name.line = true ↔
      (ts.find? (·.lexeme == name.lexeme)).map (·.line) = some c.declaration) :
    Paired (ts.map c.pair) name.lexeme (c.token name).lexeme := by
  induction ts with
  | nil =>
    have hc : c.changes name.line = false := Bool.eq_false_iff.mpr fun hc => nomatch h.mp hc
    rw [Change.token_of_not_changes hc]
    exact rfl
  | cons t ts ih =>
    have ht := hts t List.mem_cons_self
    have hrest : ∀ u ∈ ts, c.Declares u := fun u hu => hts u (List.mem_cons_of_mem t hu)
    by_cases hsame : t.lexeme = name.lexeme
    · left
      have hbeq : (t.lexeme == name.lexeme) = true := beq_iff_eq.mpr hsame
      rw [List.find?_cons, hbeq] at h
      have hboth : c.changes name.line = true ↔ c.changes t.line = true :=
        h.trans (Option.some_inj.trans ht.changes_iff.symm)
      refine ⟨hsame.symm, ?_⟩
      show (c.token name).lexeme = (c.token t).lexeme
      unfold Change.token
      rw [if_congr hboth rfl rfl]
      split
      · rfl
      · exact hsame.symm
    · right
      have hbeq : (t.lexeme == name.lexeme) = false := beq_eq_false_iff_ne.mpr hsame
      rw [List.find?_cons, hbeq] at h
      have hname : c.Spells name := by
        refine ⟨fun hc => ?_, hfresh⟩
        obtain ⟨u, hfind, hu⟩ := Option.map_eq_some_iff.mp (h.mp hc)
        have hspelled := (hrest u (List.mem_of_find?_eq_some hfind)).spelled hu
        exact (lexeme_of_find? hfind).symm.trans hspelled
      exact ⟨Ne.symm hsame, fun heq => hsame (ht.spells.eq_of_token_eq hname heq.symm),
        ih hrest h⟩

end

section

variable (c : Change)

structure TracksScope (ts : List Token) (scope scope' : Bindings Readiness) : Prop where
  declares : ∀ t ∈ ts, c.Declares t
  contains : ∀ a, scope.contains a = true ↔ ∃ t ∈ ts, t.lexeme = a
  changed : ∀ b r, scope'.find? b = some r →
    ∃ t ∈ ts, (c.token t).lexeme = b ∧ scope.find? t.lexeme = some r

inductive Tracks : Open → Scopes → Scopes → Prop
  | nil : Tracks [] [] []
  | cons {ts : List Token} {V : Open} {scope scope' : Bindings Readiness} {σ σ' : Scopes}
      (hscope : TracksScope c ts scope scope') (hrest : Tracks V σ σ') :
      Tracks (ts :: V) (scope :: σ) (scope' :: σ')

variable {c} {ts : List Token} {scope scope' : Bindings Readiness} {V : Open} {σ σ' : Scopes}
  {name : Token}

theorem TracksScope.empty : TracksScope c [] .empty .empty where
  declares := nofun
  contains a := by
    rw [Bindings.contains, Bindings.find?_empty]
    simp
  changed b r h := by
    rw [Bindings.find?_empty] at h
    cases h

/-- A name that is new to a scope is new to it after the change. -/
theorem TracksScope.free (h : TracksScope c ts scope scope') (hname : c.Declares name)
    (hfree : scope.contains name.lexeme = false) :
    scope'.contains (c.token name).lexeme = false := by
  rw [Bool.eq_false_iff]
  intro hcontains
  obtain ⟨r, hr⟩ := Option.isSome_iff_exists.mp hcontains
  obtain ⟨t, ht, hlexeme, -⟩ := h.changed _ r hr
  have hsame := (h.declares t ht).spells.eq_of_token_eq hname.spells hlexeme
  have hin := (h.contains name.lexeme).mpr ⟨t, ht, hsame⟩
  rw [hfree] at hin
  cases hin

/-- A declaration in the innermost scope keeps both sides in step. -/
theorem TracksScope.insert (h : TracksScope c ts scope scope') (hname : c.Declares name)
    (hfree : scope.contains name.lexeme = false) (readiness : Readiness) :
    TracksScope c (name :: ts) (scope.insert name.lexeme readiness)
      (scope'.insert (c.token name).lexeme readiness) where
  declares := List.forall_mem_cons.mpr ⟨hname, h.declares⟩
  contains a := by
    have hold := h.contains a
    unfold Bindings.contains at hold ⊢
    rw [Bindings.find?_insert, List.exists_mem_cons_iff]
    split
    · next heq => exact iff_of_true rfl (.inl heq)
    · next hne => exact hold.trans (or_iff_right hne).symm
  changed b r hb := by
    rw [Bindings.find?_insert] at hb
    split at hb
    · next heq =>
      rw [← Option.some.inj hb]
      exact ⟨name, List.mem_cons_self, heq, Bindings.find?_insert_self ..⟩
    · obtain ⟨t, ht, hlexeme, hfind⟩ := h.changed b r hb
      have hne : name.lexeme ≠ t.lexeme := by
        intro heq
        rw [heq, Bindings.contains, hfind] at hfree
        cases hfree
      refine ⟨t, List.mem_cons_of_mem name ht, hlexeme, ?_⟩
      rw [Bindings.find?_insert_of_ne hne]
      exact hfind

theorem Tracks.open (h : Tracks c V σ σ') : Tracks c ([] :: V) (.empty :: σ) (.empty :: σ') :=
  .cons .empty h

theorem Tracks.declares (h : Tracks c V σ σ') : ∀ t ∈ V.flatten, c.Declares t := by
  induction h with
  | nil => exact nofun
  | cons hscope _ ih =>
    rw [List.flatten_cons]
    exact List.forall_mem_append.mpr ⟨hscope.declares, ih⟩

theorem Tracks.free (h : Tracks c V σ σ') (hname : V ≠ [] → c.Declares name)
    (hfree : σ.Free name.lexeme) : Scopes.Free σ' (c.token name).lexeme := by
  cases h with
  | nil => exact nofun
  | cons hscope _ =>
    rintro _ ⟨⟩
    exact hscope.free (hname (List.cons_ne_nil _ _)) (hfree _ rfl)

theorem Tracks.mark (h : Tracks c V σ σ') (hname : V ≠ [] → c.Declares name)
    (hfree : σ.Free name.lexeme) (readiness : Readiness) :
    Tracks c (V.add name) (σ.mark readiness name.lexeme)
      (Scopes.mark σ' readiness (c.token name).lexeme) := by
  cases h with
  | nil => exact .nil
  | cons hscope hrest =>
    exact .cons (hscope.insert (hname (List.cons_ne_nil _ _)) (hfree _ rfl) readiness) hrest

/-- A name that may be read may be read under its new spelling. -/
theorem Tracks.ready (h : Tracks c V σ σ') (hname : c.Spells name)
    (hready : σ.Ready name.lexeme) : Scopes.Ready σ' (c.token name).lexeme := by
  cases h with
  | nil => exact nofun
  | cons hscope _ =>
    rintro _ ⟨⟩ hdeclared
    obtain ⟨t, ht, hlexeme, hfind⟩ := hscope.changed _ _ hdeclared
    have hsame := (hscope.declares t ht).spells.eq_of_token_eq hname hlexeme
    exact hready _ rfl (hsame ▸ hfind)

/-- The scope that a name is found in has the innermost declaration of the name. -/
theorem Tracks.declaration?_eq (h : Tracks c V σ σ') (name : Token) :
    V.declaration? (σ.distance? name.lexeme) name =
      V.flatten.find? (·.lexeme == name.lexeme) := by
  induction h with
  | nil => rfl
  | @cons ts V scope scope' σ σ' hscope _ ih =>
    have hcontains := hscope.contains name.lexeme
    unfold Scopes.distance? at ih ⊢
    rw [List.findIdx?_cons, List.flatten_cons, List.find?_append]
    split
    · next hin =>
      obtain ⟨t, ht, hlexeme⟩ := hcontains.mp hin
      have hfound : (ts.find? (·.lexeme == name.lexeme)).isSome = true :=
        List.find?_isSome.mpr ⟨t, ht, beq_iff_eq.mpr hlexeme⟩
      obtain ⟨u, hu⟩ := Option.isSome_iff_exists.mp hfound
      rw [hu, Option.some_or]
      exact hu
    · next hout =>
      have hnone : ts.find? (·.lexeme == name.lexeme) = none := by
        rw [List.find?_eq_none]
        intro t ht hlexeme
        exact hout (hcontains.mpr ⟨t, ht, beq_iff_eq.mp hlexeme⟩)
      rw [hnone, Option.none_or, ← ih]
      cases σ.findIdx? (·.contains name.lexeme) <;> rfl

/-- Parameters are declared one after the other. -/
theorem TracksScope.params (h : TracksScope c ts scope scope') {params : List Token}
    (hparams : ∀ p ∈ params, c.Declares p) (hfree : FreeParams scope params) (ℓ : Nat → Nat) :
    TracksScope c (params.reverse ++ ts) (Lexical.withParams scope params)
        (Lexical.withParams scope' (params.map (c.onLines ℓ))) ∧
      FreeParams scope' (params.map (c.onLines ℓ)) := by
  induction params generalizing ts scope scope' with
  | nil => exact ⟨h, trivial⟩
  | cons p params ih =>
    obtain ⟨hfirst, hrest⟩ := hfree
    have hp := hparams p List.mem_cons_self
    obtain ⟨htracks, hfreeRest⟩ := ih (h.insert hp hfirst .defined)
      (fun q hq => hparams q (List.mem_cons_of_mem p hq)) hrest
    refine ⟨?_, h.free hp hfirst, hfreeRest⟩
    rw [List.reverse_cons, List.append_assoc]
    exact htracks

end

section

variable {c : Change}

def sight (c : Change) : Open → Sight
  | [] => .outermost
  | scope :: outer => .inside ((scope :: outer).flatten.map c.pair)

theorem pairs_sight (V : Open) : (sight c V).pairs = V.flatten.map c.pair := by
  cases V <;> rfl

theorem sight_open (V : Open) : sight c ([] :: V) = .inside (sight c V).pairs := by
  rw [pairs_sight]
  rfl

variable (ℓ : Nat → Nat)

theorem sight_add (V : Open) (name : Token) :
    sight c (V.add name) = (sight c V).add (name.mapLine ℓ) (c.onLines ℓ name) := by
  cases V <;> rfl

theorem sight_after (V : Open) (f f' : ReferenceId → ReferenceId) (s : Stmt) :
    sight c (V.after s) =
      (sight c V).after (s.relabel f (Token.mapLine ℓ)) (s.relabel f' (c.onLines ℓ)) := by
  rcases s with _ | _ | ⟨name, _ | _⟩ | _ | _ | _ | _ | ⟨name, _, _⟩ | ⟨_, _ | _⟩
  case declare.none => exact sight_add ℓ V name
  case declare.some => exact sight_add ℓ V name
  case function => exact sight_add ℓ V name
  all_goals rfl

theorem withParams_map (Γ : Pairs) (params : List Token) :
    Lexical.Renaming.withParams Γ (params.map (Token.mapLine ℓ)) (params.map (c.onLines ℓ)) =
      params.reverse.map c.pair ++ Γ := by
  induction params generalizing Γ with
  | nil => rfl
  | cons p params ih =>
    rw [List.map_cons, List.map_cons, Lexical.Renaming.withParams, ih, List.reverse_cons,
      List.map_append, List.append_assoc]
    rfl

theorem sight_params (V : Open) (params : List Token) :
    sight c (params.reverse :: V) =
      .inside (Lexical.Renaming.withParams (sight c V).pairs (params.map (Token.mapLine ℓ))
        (params.map (c.onLines ℓ))) := by
  rw [withParams_map, pairs_sight, ← List.map_append]
  rfl

end

section

variable {c : Change} {distances : Distances} {V : Open} {σ σ' : Scopes} {name : Token}

/-- A declaration of a covered name. -/
theorem declares_of_covers {role : Role} (h : c.Covers (V.declaring role name)) (hV : V ≠ []) :
    c.Declares name where
  changes_iff := by
    have hchanges := h.changes_iff
    have hdeclared : (V.declaring role name).declaration = some name :=
      if_neg (fun hempty => hV (List.isEmpty_iff.mp hempty))
    rw [hdeclared, Option.map_some, Option.some_inj] at hchanges
    exact hchanges
  spelled := h.spelled
  fresh := h.fresh

/-- Outside of all scopes no name is changed at its declaration. -/
theorem token_of_covers {role : Role} (h : c.Covers (Open.declaring [] role name)) :
    c.token name = name :=
  Change.token_of_not_changes (Bool.eq_false_iff.mpr fun hc => nomatch h.changes_iff.mp hc)

/-- The name of a function stays. -/
theorem token_of_function (h : c.Covers (V.declaring .function name)) : c.token name = name := by
  cases V with
  | nil => exact token_of_covers h
  | cons scope outer =>
    have hname := declares_of_covers h (List.cons_ne_nil _ _)
    exact Change.token_of_not_changes
      (Bool.eq_false_iff.mpr fun hc => h.function rfl (hname.changes_iff.mp hc))

/-- A declaration whose occurrence is covered declares one variable on both sides. -/
theorem nameAlike_of_covers {role : Role} (h : c.Covers (V.declaring role name)) (ℓ : Nat → Nat) :
    NameAlike c.old c.new (sight c V) (name.mapLine ℓ) (c.onLines ℓ name) := by
  cases V with
  | nil =>
    rw [Change.onLines, token_of_covers h]
    exact ⟨.inl rfl, fun _ => rfl⟩
  | cons scope outer =>
    have hname := declares_of_covers h (List.cons_ne_nil _ _)
    exact ⟨hname.spells.respelled ℓ, nofun⟩

section

variable (htracks : Tracks c V σ σ') {id : ReferenceId}
  (hknown : distances[id]? = σ.distance? name.lexeme) (h : c.Covers (V.use distances id name))

include htracks hknown h

theorem changes_iff_of_use : c.changes name.line = true ↔
    (V.flatten.find? (·.lexeme == name.lexeme)).map (·.line) = some c.declaration := by
  have hchanges := h.changes_iff
  unfold Open.use at hchanges
  rw [hknown, htracks.declaration?_eq] at hchanges
  exact hchanges

/-- A changed use is spelled like its declaration. -/
theorem spells_of_use : c.Spells name where
  old hc := by
    obtain ⟨t, hfind, ht⟩ :=
      Option.map_eq_some_iff.mp ((changes_iff_of_use htracks hknown h).mp hc)
    have hspelled := (htracks.declares t (List.mem_of_find?_eq_some hfind)).spelled ht
    exact (lexeme_of_find? hfind).symm.trans hspelled
  fresh := h.fresh

theorem useAlike_of_covers (ℓ : Nat → Nat) :
    UseAlike c.old c.new (sight c V).pairs (name.mapLine ℓ) (c.onLines ℓ name) where
  paired := by
    rw [pairs_sight]
    exact paired_of_find? htracks.declares h.fresh (changes_iff_of_use htracks hknown h)
  respelled := (spells_of_use htracks hknown h).respelled ℓ

end

abbrev anything : Lexical.Known := fun _ _ => True

variable (ℓ : Nat → Nat) (f f' : ReferenceId → ReferenceId)

theorem mem_exprsOccurrences {e : Expr} {es : List Expr} (he : e ∈ es) {o : Occurrence}
    (ho : o ∈ exprOccurrences distances V e) : o ∈ exprsOccurrences distances V es := by
  induction es with
  | nil => cases he
  | cons e' es ih =>
    rw [exprsOccurrences]
    rcases List.mem_cons.mp he with rfl | he
    · exact List.mem_append_left _ ho
    · exact List.mem_append_right _ (ih he)

/-- An expression is the same but for the name, and agrees with its scopes after the change. -/
theorem expr_changed (htracks : Tracks c V σ σ') {e : Expr}
    (h : ScopedExpr (fun id d => distances[id]? = d) σ e)
    (hcovers : ∀ o ∈ exprOccurrences distances V e, c.Covers o) :
    ExprAlike c.old c.new (sight c V).pairs (e.relabel f (Token.mapLine ℓ))
        (e.relabel f' (c.onLines ℓ)) ∧
      ScopedExpr anything σ' (e.relabel f' (c.onLines ℓ)) := by
  induction h with
  | literal value => exact ⟨.literal value, .literal value⟩
  | grouping _ ih =>
    rw [exprOccurrences] at hcovers
    obtain ⟨halike, hscoped⟩ := ih hcovers
    exact ⟨.grouping halike, .grouping hscoped⟩
  | @unary operator _ _ ih =>
    rw [exprOccurrences] at hcovers
    obtain ⟨halike, hscoped⟩ := ih hcovers
    exact ⟨.unary (Change.markAlike ℓ operator) halike, .unary hscoped⟩
  | @binary left right operator _ _ ihl ihr =>
    rw [exprOccurrences, List.forall_mem_append] at hcovers
    obtain ⟨hleft, hleftScoped⟩ := ihl hcovers.1
    obtain ⟨hright, hrightScoped⟩ := ihr hcovers.2
    exact ⟨.binary (Change.markAlike ℓ operator) hleft hright, .binary hleftScoped hrightScoped⟩
  | @logical left right operator _ _ ihl ihr =>
    rw [exprOccurrences, List.forall_mem_append] at hcovers
    obtain ⟨hleft, hleftScoped⟩ := ihl hcovers.1
    obtain ⟨hright, hrightScoped⟩ := ihr hcovers.2
    exact ⟨.logical (Change.markAlike ℓ operator) hleft hright, .logical hleftScoped hrightScoped⟩
  | @reference id name hknown hready =>
    rw [exprOccurrences] at hcovers
    -- a use is changed exactly where its declaration is, and keeps its distance
    have huse := hcovers _ (List.mem_singleton.mpr rfl)
    exact ⟨.reference _ _ (useAlike_of_covers htracks hknown huse ℓ),
      .reference trivial (htracks.ready (spells_of_use htracks hknown huse) hready)⟩
  | @assign id name value _ hknown ih =>
    rw [exprOccurrences, List.forall_mem_cons] at hcovers
    obtain ⟨halike, hscoped⟩ := ih hcovers.2
    exact ⟨.assign _ _ (useAlike_of_covers htracks hknown hcovers.1 ℓ) halike,
      .assign hscoped trivial⟩
  | @call callee paren arguments _ _ ih iha =>
    rw [exprOccurrences, List.forall_mem_append] at hcovers
    obtain ⟨hcallee, hcalleeScoped⟩ := ih hcovers.1
    have harguments (a : Expr) (ha : a ∈ arguments) :=
      iha a ha fun o ho => hcovers.2 o (mem_exprsOccurrences ha ho)
    rw [Expr.relabel, Expr.relabel, Expr.relabelAll_eq_map, Expr.relabelAll_eq_map]
    refine ⟨.call (Change.markAlike ℓ paren) hcallee ?_, .call hcalleeScoped ?_⟩
    · rw [List.forall₂_map_left_iff, List.forall₂_map_right_iff, List.forall₂_same]
      exact fun a ha => (harguments a ha).1
    · rw [List.forall_mem_map]
      exact fun a ha => (harguments a ha).2

theorem declaredName?_relabel (g : Token → Token) (s : Stmt) :
    declaredName? (s.relabel f g) = (declaredName? s).map g := by
  rcases s with _ | _ | ⟨_, _ | _⟩ | _ | _ | _ | _ | _ | ⟨_, _ | _⟩ <;> rfl

theorem declaredName?_relabel_of_none (g : Token → Token) {s : Stmt} (hnone : declaredName? s = none) :
    declaredName? (s.relabel f g) = none := by
  rw [declaredName?_relabel, hnone, Option.map_none]

theorem respelled_params {params : List Token} (h : ∀ p ∈ params, c.Declares p) :
    List.Forall₂ (Respelled c.old c.new) (params.map (Token.mapLine ℓ))
      (params.map (c.onLines ℓ)) := by
  rw [List.forall₂_map_left_iff, List.forall₂_map_right_iff, List.forall₂_same]
  exact fun p hp => (h p hp).spells.respelled ℓ

/-- What a statement declares is declared after it, before the change and after. -/
theorem Tracks.after (htracks : Tracks c V σ σ') {s : Stmt}
    (h : ScopedStmt (fun id d => distances[id]? = d) σ s)
    (hcovers : ∀ o ∈ stmtOccurrences distances V s, c.Covers o) :
    Tracks c (V.after s) (σ.after s) (Scopes.after σ' (s.relabel f' (c.onLines ℓ))) := by
  have hname {role : Role} {name : Token} (h : c.Covers (V.declaring role name)) :
      V ≠ [] → c.Declares name := declares_of_covers h
  cases h with
  | declare hfree =>
    rw [stmtOccurrences] at hcovers
    exact htracks.mark (hname (hcovers _ List.mem_cons_self)) hfree .defined
  | initialized hfree _ =>
    rw [stmtOccurrences] at hcovers
    exact htracks.mark (hname (hcovers _ List.mem_cons_self)) hfree .defined
  | function hfree _ _ =>
    rw [stmtOccurrences] at hcovers
    exact htracks.mark (hname (hcovers _ List.mem_cons_self)) hfree .defined
  | _ => exact htracks

mutual

/-- A statement is the same but for the name, and agrees with its scopes after the change. -/
theorem stmt_changed {V : Open} {σ σ' : Scopes} (htracks : Tracks c V σ σ') {s : Stmt}
    (h : ScopedStmt (fun id d => distances[id]? = d) σ s)
    (hcovers : ∀ o ∈ stmtOccurrences distances V s, c.Covers o) :
    StmtAlike c.old c.new (sight c V) (s.relabel f (Token.mapLine ℓ))
        (s.relabel f' (c.onLines ℓ)) ∧
      ScopedStmt anything σ' (s.relabel f' (c.onLines ℓ)) := by
  match s, h with
  | .expression e, .expression h =>
    rw [stmtOccurrences] at hcovers
    obtain ⟨halike, hscoped⟩ := expr_changed ℓ f f' htracks h hcovers
    exact ⟨.expression halike, .expression hscoped⟩
  | .print e, .print h =>
    rw [stmtOccurrences] at hcovers
    obtain ⟨halike, hscoped⟩ := expr_changed ℓ f f' htracks h hcovers
    exact ⟨.print halike, .print hscoped⟩
  | .declare name none, .declare hfree =>
    rw [stmtOccurrences] at hcovers
    have hname := hcovers _ List.mem_cons_self
    exact ⟨.declare (nameAlike_of_covers hname ℓ),
      .declare (htracks.free (declares_of_covers hname) hfree)⟩
  | .declare name (some e), .initialized hfree h =>
    rw [stmtOccurrences, List.forall_mem_cons] at hcovers
    obtain ⟨hname, hcovers⟩ := hcovers
    have hdeclares := declares_of_covers hname
    obtain ⟨halike, hscoped⟩ :=
      expr_changed ℓ f f' (htracks.mark hdeclares hfree .declared) h hcovers
    rw [sight_add ℓ] at halike
    exact ⟨.initialized (nameAlike_of_covers hname ℓ) halike,
      .initialized (htracks.free hdeclares hfree) hscoped⟩
  | .block body, .block h =>
    rw [stmtOccurrences] at hcovers
    obtain ⟨halike, hscoped⟩ := stmts_changed htracks.open h hcovers
    rw [sight_open] at halike
    exact ⟨.block halike, .block hscoped⟩
  | .ifThen condition thenBranch, .ifThen hcondition hthen hnone =>
    rw [stmtOccurrences, List.forall_mem_append] at hcovers
    obtain ⟨halike, hscoped⟩ := expr_changed ℓ f f' htracks hcondition hcovers.1
    obtain ⟨hthenAlike, hthenScoped⟩ := stmt_changed htracks hthen hcovers.2
    exact ⟨.ifThen halike hthenAlike,
      .ifThen hscoped hthenScoped (declaredName?_relabel_of_none f' _ hnone)⟩
  | .ifElse condition thenBranch elseBranch, .ifElse hcondition hthen helse hnone hnone' =>
    rw [stmtOccurrences, List.forall_mem_append, List.forall_mem_append] at hcovers
    obtain ⟨halike, hscoped⟩ := expr_changed ℓ f f' htracks hcondition hcovers.1
    obtain ⟨hthenAlike, hthenScoped⟩ := stmt_changed htracks hthen hcovers.2.1
    obtain ⟨helseAlike, helseScoped⟩ := stmt_changed htracks helse hcovers.2.2
    exact ⟨.ifElse halike hthenAlike helseAlike,
      .ifElse hscoped hthenScoped helseScoped
        (declaredName?_relabel_of_none f' _ hnone) (declaredName?_relabel_of_none f' _ hnone')⟩
  | .whileLoop condition body, .whileLoop hcondition hbody hnone =>
    rw [stmtOccurrences, List.forall_mem_append] at hcovers
    obtain ⟨halike, hscoped⟩ := expr_changed ℓ f f' htracks hcondition hcovers.1
    obtain ⟨hbodyAlike, hbodyScoped⟩ := stmt_changed htracks hbody hcovers.2
    exact ⟨.whileLoop halike hbodyAlike,
      .whileLoop hscoped hbodyScoped (declaredName?_relabel_of_none f' _ hnone)⟩
  | .function name params body, .function hfree hparams hbody =>
    rw [stmtOccurrences, List.forall_mem_cons, List.forall_mem_append] at hcovers
    obtain ⟨hname, hparamsCover, hcovers⟩ := hcovers
    have hdeclares := declares_of_covers hname
    have hparamsDeclare (p : Token) (hp : p ∈ params) : c.Declares p :=
      declares_of_covers (hparamsCover _ (List.mem_map_of_mem hp)) (List.cons_ne_nil _ _)
    have hmark := htracks.mark hdeclares hfree .defined
    obtain ⟨hscope, hfreeParams⟩ := TracksScope.empty.params hparamsDeclare hparams ℓ
    rw [List.append_nil] at hscope
    obtain ⟨halike, hscoped⟩ := stmts_changed (.cons hscope hmark) hbody hcovers
    rw [sight_params ℓ, sight_add ℓ] at halike
    have htoken := token_of_function hname
    have hsame : c.onLines ℓ name = name.mapLine ℓ := congrArg (Token.mapLine ℓ) htoken
    have hfreeName := htracks.free hdeclares hfree
    rw [htoken] at hfreeName hscoped
    rw [hsame] at halike
    rw [Stmt.relabel, Stmt.relabel, hsame]
    exact ⟨.function _ (respelled_params ℓ hparamsDeclare) halike,
      .function hfreeName hfreeParams hscoped⟩
  | .ret keyword none, .ret => exact ⟨.ret _ _, .ret⟩
  | .ret keyword (some e), .retValue h =>
    rw [stmtOccurrences] at hcovers
    obtain ⟨halike, hscoped⟩ := expr_changed ℓ f f' htracks h hcovers
    exact ⟨.retValue _ _ halike, .retValue hscoped⟩

/-- Statements whose occurrences are covered are the same but for the name. -/
theorem stmts_changed {V : Open} {σ σ' : Scopes} (htracks : Tracks c V σ σ') {ss : List Stmt}
    (h : ScopedStmts (fun id d => distances[id]? = d) σ ss)
    (hcovers : ∀ o ∈ stmtsOccurrences distances V ss, c.Covers o) :
    StmtsAlike c.old c.new (sight c V) (Stmt.relabelAll f (Token.mapLine ℓ) ss)
        (Stmt.relabelAll f' (c.onLines ℓ) ss) ∧
      ScopedStmts anything σ' (Stmt.relabelAll f' (c.onLines ℓ) ss) := by
  match ss, h with
  | [], .nil => exact ⟨.nil, .nil⟩
  | s :: ss, .cons hfirst hrest =>
    rw [stmtsOccurrences, List.forall_mem_append] at hcovers
    obtain ⟨halike, hscoped⟩ := stmt_changed htracks hfirst hcovers.1
    obtain ⟨hrestAlike, hrestScoped⟩ :=
      stmts_changed (htracks.after ℓ f' hfirst hcovers.1) hrest hcovers.2
    rw [sight_after ℓ V f f'] at hrestAlike
    exact ⟨.cons halike hrestAlike, .cons hscoped hrestScoped⟩

end

end

end LoxLang.Renaming

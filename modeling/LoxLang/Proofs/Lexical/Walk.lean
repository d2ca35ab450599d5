import Std.Data.TreeMap.Lemmas
import LoxLang.Proofs.Lexical.Scoped
import LoxLang.Proofs.Tree.Ids

/-!
A walk that reports nothing leaves behind a tree that agrees with its scopes. What a walk records is
about the ids of the tree it walks and no others, so the records of one part outlast the walks over the
others if no two uses share an id. Main statement: `scoped_resolve`.
-/
namespace LoxLang.Lexical

open Resolution (Readiness walkExpr walkExprs walkValue bindParams walkStmt walkStmts)

section

variable {s s₁ s₂ : Resolution.State} {ids ids' : List Nat} {C C' : Known → Prop}

/-- From one state to another, a walk over a tree with the given ids: if it reports nothing, the tree
satisfies a condition on what is known. -/
structure Walks (s s' : Resolution.State) (ids : List Nat) (C : Known → Prop) : Prop where
  errors : s.errors.size ≤ s'.errors.size
  outside : ∀ id, id ∉ ids → s'.distances[id]? = s.distances[id]?
  agrees : s'.errors.size = s.errors.size → ids.Nodup →
    (∀ id ∈ ids, s.distances[id]? = none) →
    ∀ known : Known, (∀ id ∈ ids, known id s'.distances[id]?) → C known

namespace Walks

theorem mono (h : Walks s s₁ ids C) (le : ∀ known, C known → C' known) : Walks s s₁ ids C' :=
  { h with agrees := fun he hn hd known hk => le known (h.agrees he hn hd known hk) }

theorem perm (h : Walks s s₁ ids C) (hperm : ids.Perm ids') : Walks s s₁ ids' C where
  errors := h.errors
  outside id hid := h.outside id fun hid' => hid (hperm.mem_iff.mp hid')
  agrees he hnodup hnone known hknown :=
    h.agrees he (hperm.nodup_iff.mpr hnodup) (fun id hid => hnone id (hperm.mem_iff.mp hid)) known
      fun id hid => hknown id (hperm.mem_iff.mp hid)

/-- Something that is no use of a variable: names are marked, scopes opened and closed. -/
theorem still (herrors : s.errors.size ≤ s₁.errors.size) (hdistances : s₁.distances = s.distances)
    (h : s₁.errors.size = s.errors.size → ∀ known, C known) : Walks s s₁ [] C where
  errors := herrors
  outside _ _ := by rw [hdistances]
  agrees he _ _ known _ := h he known

/-- Walks may be put one after the other. -/
theorem seq (h : Walks s s₁ ids C) (h' : Walks s₁ s₂ ids' C') :
    Walks s s₂ (ids ++ ids') fun known => C known ∧ C' known where
  errors := Nat.le_trans h.errors h'.errors
  outside id hid := by
    rw [List.mem_append, not_or] at hid
    rw [h'.outside id hid.2, h.outside id hid.1]
  agrees he hnodup hnone known hknown := by
    obtain ⟨hn, hn', hdisjoint⟩ := List.nodup_append.mp hnodup
    have hle := h.errors
    have hle' := h'.errors
    constructor
    · refine h.agrees (by omega) hn (fun id hid => hnone id (List.mem_append_left _ hid)) known ?_
      intro id hid
      have hlast := hknown id (List.mem_append_left _ hid)
      rwa [h'.outside id fun hid' => hdisjoint id hid id hid' rfl] at hlast
    · refine h'.agrees (by omega) hn' (fun id hid => ?_) known fun id hid =>
        hknown id (List.mem_append_right _ hid)
      rw [h.outside id fun hid' => hdisjoint id hid' id hid rfl]
      exact hnone id (List.mem_append_right _ hid)

/-- A scope that is opened and closed again around a walk. -/
theorem scope (h : Walks s.openScope s₁ ids C) : Walks s s₁.closeScope ids C :=
  ⟨h.errors, h.outside, h.agrees⟩

end Walks

theorem scopes_recordUse (s : Resolution.State) (id : ReferenceId) (name : Token) :
    (s.recordUse id name).scopes = s.scopes := by
  unfold Resolution.State.recordUse
  split <;> rfl

theorem walks_recordUse (s : Resolution.State) (id : ReferenceId) (name : Token) :
    Walks s (s.recordUse id name) [id] fun known =>
      known id (Scopes.distance? s.scopes name.lexeme) := by
  rw [Resolution.State.recordUse, Scopes.distance?]
  cases s.scopes.findIdx? (·.contains name.lexeme) with
  | none =>
    refine ⟨Nat.le_refl _, fun _ _ => rfl, fun _ _ hnone known hknown => ?_⟩
    have hid := hknown id (List.mem_singleton.mpr rfl)
    rwa [hnone id (List.mem_singleton.mpr rfl)] at hid
  | some distance =>
    refine ⟨Nat.le_refl _, fun id' hid' => ?_, fun _ _ _ known hknown => ?_⟩
    · have hne : id ≠ id' := fun h => hid' (List.mem_singleton.mpr h.symm)
      simp [Std.TreeMap.getElem?_insert, hne]
    · have hid := hknown id (List.mem_singleton.mpr rfl)
      simpa using hid

/-- A walk that reports nothing has met no read of a name that waits for its initializer. -/
theorem walks_read (s : Resolution.State) (id : ReferenceId) (name : Token) :
    Walks s (s.read id name) [id] fun known =>
      Scopes.Ready s.scopes name.lexeme ∧ known id (Scopes.distance? s.scopes name.lexeme) := by
  rw [Resolution.State.read]
  by_cases hown : s.inOwnInitializer name = true
  · rw [if_pos hown]
    have hreport : Walks s (s.report .ownInitializer name) [] fun _ =>
        Scopes.Ready s.scopes name.lexeme :=
      .still (by simp [Resolution.State.report]) rfl fun he => by
        simp [Resolution.State.report] at he
    exact hreport.seq (walks_recordUse _ id name)
  · rw [if_neg hown]
    -- no report: the innermost scope does not have the name as one whose initializer is walked
    have hready : Scopes.Ready s.scopes name.lexeme := by
      intro scope hscope hdeclared
      apply hown
      unfold Resolution.State.inOwnInitializer
      cases hs : s.scopes with
      | nil =>
        rw [hs] at hscope
        cases hscope
      | cons scope' outer =>
        rw [hs] at hscope
        cases hscope
        simp [hdeclared]
    exact (walks_recordUse s id name).mono fun known hknown => ⟨hready, hknown⟩

theorem scopes_read (s : Resolution.State) (id : ReferenceId) (name : Token) :
    (s.read id name).scopes = s.scopes := by
  rw [Resolution.State.read, scopes_recordUse]
  split <;> rfl

end

mutual

/-- A walk over an expression leaves the scopes as they are. -/
theorem walks_walkExpr (e : Expr) (s : Resolution.State) :
    (walkExpr s e).scopes = s.scopes ∧
      Walks s (walkExpr s e) e.ids fun known => ScopedExpr known s.scopes e := by
  match e with
  | .literal value =>
    rw [walkExpr]
    exact ⟨rfl, .still (Nat.le_refl _) rfl fun _ _ => .literal value⟩
  | .grouping inner =>
    rw [walkExpr]
    obtain ⟨hscopes, hwalks⟩ := walks_walkExpr inner s
    exact ⟨hscopes, hwalks.mono fun _ => .grouping⟩
  | .unary operator right =>
    rw [walkExpr]
    obtain ⟨hscopes, hwalks⟩ := walks_walkExpr right s
    exact ⟨hscopes, hwalks.mono fun _ => .unary⟩
  | .binary left operator right =>
    rw [walkExpr]
    obtain ⟨hscopes, hleft⟩ := walks_walkExpr left s
    obtain ⟨hscopes', hright⟩ := walks_walkExpr right (walkExpr s left)
    rw [hscopes] at hscopes' hright
    exact ⟨hscopes', (hleft.seq hright).mono fun _ h => .binary h.1 h.2⟩
  | .logical left operator right =>
    rw [walkExpr]
    obtain ⟨hscopes, hleft⟩ := walks_walkExpr left s
    obtain ⟨hscopes', hright⟩ := walks_walkExpr right (walkExpr s left)
    rw [hscopes] at hscopes' hright
    exact ⟨hscopes', (hleft.seq hright).mono fun _ h => .logical h.1 h.2⟩
  | .reference id name =>
    rw [walkExpr]
    exact ⟨scopes_read s id name, (walks_read s id name).mono fun _ h => .reference h.2 h.1⟩
  | .assign id name value =>
    rw [walkExpr]
    obtain ⟨hscopes, hvalue⟩ := walks_walkExpr value s
    have htarget := walks_recordUse (walkExpr s value) id name
    rw [hscopes] at htarget
    have hperm : (value.ids ++ [id]).Perm (Expr.assign id name value).ids := List.perm_append_comm
    refine ⟨(scopes_recordUse _ id name).trans hscopes, ?_⟩
    exact ((hvalue.seq htarget).perm hperm).mono fun _ h => .assign h.1 h.2
  | .call callee paren arguments =>
    rw [walkExpr]
    obtain ⟨hscopes, hcallee⟩ := walks_walkExpr callee s
    obtain ⟨hscopes', harguments⟩ := walks_walkExprs arguments (walkExpr s callee)
    rw [hscopes] at hscopes' harguments
    exact ⟨hscopes', (hcallee.seq harguments).mono fun _ h => .call h.1 h.2⟩

/-- The expressions of a list are walked in order, within the same scopes. -/
theorem walks_walkExprs (es : List Expr) (s : Resolution.State) :
    (walkExprs s es).scopes = s.scopes ∧
      Walks s (walkExprs s es) (Expr.idsAll es) fun known =>
        ∀ e ∈ es, ScopedExpr known s.scopes e := by
  match es with
  | [] =>
    rw [walkExprs]
    exact ⟨rfl, .still (Nat.le_refl _) rfl fun _ _ => nofun⟩
  | e :: es =>
    rw [walkExprs]
    obtain ⟨hscopes, hfirst⟩ := walks_walkExpr e s
    obtain ⟨hscopes', hrest⟩ := walks_walkExprs es (walkExpr s e)
    rw [hscopes] at hscopes' hrest
    refine ⟨hscopes', (hfirst.seq hrest).mono fun _ h e' he' => ?_⟩
    rcases List.mem_cons.mp he' with rfl | he'
    · exact h.1
    · exact h.2 e' he'

end

section

variable {σ outer : Scopes} {scope : Bindings Readiness}

theorem insert_insert_self (t : Bindings Readiness) (x : String) (a b : Readiness) :
    (t.insert x a).insert x b = t.insert x b := by
  obtain ⟨entries⟩ := t
  simp only [Bindings.insert, Bindings.mk.injEq]
  induction entries with
  | nil => simp [Bindings.insertIn]
  | cons entry rest ih =>
    by_cases h : entry.1 = x
    · simp [Bindings.insertIn, h]
    · simp [Bindings.insertIn, h, ih]

theorem mark_mark (σ : Scopes) (x : String) (a b : Readiness) :
    (σ.mark a x).mark b x = σ.mark b x := by
  cases σ with
  | nil => rfl
  | cons scope outer => simp [Scopes.mark, insert_insert_self]

theorem scopes_mark (s : Resolution.State) (readiness : Readiness) (name : Token) :
    (s.mark readiness name).scopes = Scopes.mark s.scopes readiness name.lexeme := by
  unfold Resolution.State.mark Scopes.mark
  cases hs : s.scopes with
  | nil => exact hs
  | cons scope outer => rfl

theorem walks_mark (s : Resolution.State) (readiness : Readiness) (name : Token) :
    Walks s (s.mark readiness name) [] fun _ => True := by
  have hmark : (s.mark readiness name).errors = s.errors ∧
      (s.mark readiness name).distances = s.distances := by
    unfold Resolution.State.mark
    split <;> exact ⟨rfl, rfl⟩
  exact .still (Nat.le_of_eq (by rw [hmark.1])) hmark.2 fun _ _ => trivial

theorem scopes_declare (s : Resolution.State) (name : Token) :
    (s.declare name).scopes = Scopes.mark s.scopes .declared name.lexeme := by
  rw [← scopes_mark]
  unfold Resolution.State.declare
  simp only
  split <;> rfl

/-- A declaration reports a name that the innermost scope has. -/
theorem walks_declare (s : Resolution.State) (name : Token) :
    Walks s (s.declare name) [] fun _ => Scopes.Free s.scopes name.lexeme := by
  have hmark := walks_mark s .declared name
  unfold Resolution.State.declare
  simp only
  by_cases hclash : s.clashes name = true
  · rw [if_pos hclash]
    have hreport : Walks (s.mark .declared name)
        ((s.mark .declared name).report (.alreadyDeclared name.lexeme) name) [] fun _ =>
        Scopes.Free s.scopes name.lexeme :=
      .still (by simp [Resolution.State.report]) rfl fun he => by
        simp [Resolution.State.report] at he
    exact (hmark.seq hreport).mono fun _ h => h.2
  · rw [if_neg hclash]
    refine hmark.mono fun _ _ scope hscope => ?_
    unfold Resolution.State.clashes at hclash
    cases hs : s.scopes with
    | nil =>
      rw [hs] at hscope
      cases hscope
    | cons scope' outer =>
      rw [hs] at hscope
      cases hscope
      rw [hs] at hclash
      exact Bool.eq_false_iff.mpr hclash

theorem walks_define (s : Resolution.State) (name : Token) :
    (s.define name).scopes = Scopes.mark s.scopes .defined name.lexeme ∧
      Walks s (s.define name) [] fun _ => True :=
  ⟨scopes_mark s .defined name, walks_mark s .defined name⟩

/-- A name that is declared and at once defined. -/
theorem walks_declare_define (s : Resolution.State) (name : Token) :
    ((s.declare name).define name).scopes = Scopes.mark s.scopes .defined name.lexeme ∧
      Walks s ((s.declare name).define name) [] fun _ => Scopes.Free s.scopes name.lexeme := by
  obtain ⟨hscopes, hdefine⟩ := walks_define (s.declare name) name
  rw [scopes_declare, mark_mark] at hscopes
  exact ⟨hscopes, ((walks_declare s name).seq hdefine).mono fun _ h => h.1⟩

/-- The parameters of a function are bound inside of a scope around which its name is marked. -/
theorem scopes_openFunction (s : Resolution.State) (name : Token) :
    ((s.declare name).define name).openScope.scopes =
      .empty :: Scopes.mark s.scopes .defined name.lexeme :=
  congrArg _ (walks_declare_define s name).1

/-- Walking parameters without a report adds them to the scope, each with a name of its own. -/
theorem walks_bindParams (params : List Token) {s : Resolution.State} {scope : Bindings Readiness}
    {outer : Scopes} (hs : s.scopes = scope :: outer) :
    (bindParams s params).scopes = withParams scope params :: outer ∧
      Walks s (bindParams s params) [] fun _ => FreeParams scope params := by
  induction params generalizing s scope with
  | nil => exact ⟨hs, .still (Nat.le_refl _) rfl fun _ _ => trivial⟩
  | cons p params ih =>
    obtain ⟨hscopes, hfirst⟩ := walks_declare_define s p
    rw [hs] at hscopes hfirst
    obtain ⟨hscopes', hrest⟩ := ih hscopes
    exact ⟨hscopes', (hfirst.seq hrest).mono fun _ h => ⟨h.1 scope rfl, h.2⟩⟩

end

def Scopes.afterAll (σ : Scopes) (ss : List Stmt) : Scopes := ss.foldl Scopes.after σ

/-- Statements change the innermost scope only. -/
theorem tail_afterAll (scope : Bindings Readiness) (outer : Scopes) (ss : List Stmt) :
    (Scopes.afterAll (scope :: outer) ss).tail = outer := by
  induction ss generalizing scope with
  | nil => rfl
  | cons s ss ih =>
    rw [Scopes.afterAll, List.foldl_cons]
    cases hname : declaredName? s with
    | none =>
      rw [Scopes.after, hname]
      exact ih scope
    | some name =>
      rw [Scopes.after, hname]
      exact ih _

theorem afterAll_nil (ss : List Stmt) : Scopes.afterAll [] ss = [] := by
  induction ss with
  | nil => rfl
  | cons s ss ih =>
    have hafter : Scopes.after [] s = [] := by
      unfold Scopes.after
      split <;> rfl
    rw [Scopes.afterAll, List.foldl_cons, hafter]
    exact ih

/-- The keyword of a `return` may be reported, and no more. -/
theorem walks_returnKeyword (s : Resolution.State) (inFunction : Bool) (keyword : Token) :
    (if inFunction then s else s.report .topLevelReturn keyword).scopes = s.scopes ∧
      Walks s (if inFunction then s else s.report .topLevelReturn keyword) [] fun _ => True := by
  split
  · exact ⟨rfl, .still (Nat.le_refl _) rfl fun _ _ => trivial⟩
  · exact ⟨rfl, .still (by simp [Resolution.State.report]) rfl fun _ _ => trivial⟩

theorem walks_walkValue (value : Option Expr) (s : Resolution.State) :
    (walkValue s value).scopes = s.scopes ∧
      Walks s (walkValue s value) (Expr.idsOption value) fun known =>
        ∀ e ∈ value, ScopedExpr known s.scopes e := by
  cases value with
  | none => exact ⟨rfl, .still (Nat.le_refl _) rfl fun _ _ => nofun⟩
  | some e =>
    obtain ⟨hscopes, hwalks⟩ := walks_walkExpr e s
    refine ⟨hscopes, hwalks.mono fun _ h e' he' => ?_⟩
    cases he'
    exact h

mutual

/-- A statement that is walked without a report agrees with its scopes, and leaves them as its declaration
does. -/
theorem walks_walkStmt (stmt : Stmt) (hshaped : Shaped stmt) (inFunction : Bool)
    (s : Resolution.State) :
    (walkStmt inFunction s stmt).scopes = Scopes.after s.scopes stmt ∧
      Walks s (walkStmt inFunction s stmt) stmt.ids fun known => ScopedStmt known s.scopes stmt := by
  match stmt with
  | .expression e =>
    rw [walkStmt]
    obtain ⟨hscopes, hwalks⟩ := walks_walkExpr e s
    exact ⟨hscopes, hwalks.mono fun _ => .expression⟩
  | .print e =>
    rw [walkStmt]
    obtain ⟨hscopes, hwalks⟩ := walks_walkExpr e s
    exact ⟨hscopes, hwalks.mono fun _ => .print⟩
  | .declare name initializer =>
    rw [walkStmt]
    -- the initializer is walked while the name is marked as declared, and not yet as defined
    have hdeclare := walks_declare s name
    obtain ⟨hvalue, hwalks⟩ := walks_walkValue initializer (s.declare name)
    rw [scopes_declare] at hvalue hwalks
    obtain ⟨hscopes, hdefine⟩ := walks_define (walkValue (s.declare name) initializer) name
    rw [hvalue, mark_mark] at hscopes
    refine ⟨hscopes, ?_⟩
    have hall := (hdeclare.seq hwalks).seq hdefine
    rw [List.nil_append, List.append_nil] at hall
    refine hall.mono fun known h => ?_
    cases initializer with
    | none => exact .declare h.1.1
    | some e => exact .initialized h.1.1 (h.1.2 e rfl)
  | .block body =>
    rw [walkStmt]
    obtain ⟨hscopes, hbody⟩ := walks_walkStmts body hshaped inFunction s.openScope
    have hclosed := (congrArg List.tail hscopes).trans (tail_afterAll _ _ body)
    exact ⟨hclosed, hbody.scope.mono fun _ => .block⟩
  | .ifThen condition thenBranch =>
    rw [walkStmt]
    obtain ⟨hnone, hshaped⟩ := hshaped
    obtain ⟨hscopes, hcondition⟩ := walks_walkExpr condition s
    obtain ⟨hscopes', hthen⟩ :=
      walks_walkStmt thenBranch hshaped inFunction (walkExpr s condition)
    rw [Scopes.after_of_none hnone] at hscopes'
    rw [hscopes] at hscopes' hthen
    exact ⟨hscopes', (hcondition.seq hthen).mono fun _ h => .ifThen h.1 h.2 hnone⟩
  | .ifElse condition thenBranch elseBranch =>
    rw [walkStmt]
    obtain ⟨⟨hnone, hshaped⟩, hnone', hshaped'⟩ := hshaped
    obtain ⟨hscopes, hcondition⟩ := walks_walkExpr condition s
    obtain ⟨hscopes', hthen⟩ :=
      walks_walkStmt thenBranch hshaped inFunction (walkExpr s condition)
    obtain ⟨hscopes'', helse⟩ := walks_walkStmt elseBranch hshaped' inFunction
      (walkStmt inFunction (walkExpr s condition) thenBranch)
    rw [Scopes.after_of_none hnone] at hscopes'
    rw [hscopes] at hscopes' hthen
    rw [Scopes.after_of_none hnone'] at hscopes''
    rw [hscopes'] at hscopes'' helse
    exact ⟨hscopes'', ((hcondition.seq hthen).seq helse).mono fun _ h =>
      .ifElse h.1.1 h.1.2 h.2 hnone hnone'⟩
  | .whileLoop condition body =>
    rw [walkStmt]
    obtain ⟨hnone, hshaped⟩ := hshaped
    obtain ⟨hscopes, hcondition⟩ := walks_walkExpr condition s
    obtain ⟨hscopes', hbody⟩ := walks_walkStmt body hshaped inFunction (walkExpr s condition)
    rw [Scopes.after_of_none hnone] at hscopes'
    rw [hscopes] at hscopes' hbody
    exact ⟨hscopes', (hcondition.seq hbody).mono fun _ h => .whileLoop h.1 h.2 hnone⟩
  | .function name params body =>
    rw [walkStmt]
    have hname := (walks_declare_define s name).2
    obtain ⟨hparams, hwalksParams⟩ := walks_bindParams params (scopes_openFunction s name)
    obtain ⟨hbody, hwalksBody⟩ := walks_walkStmts body hshaped true
      (bindParams ((s.declare name).define name).openScope params)
    rw [hparams] at hbody hwalksBody
    have hall := hname.seq (hwalksParams.seq hwalksBody).scope
    rw [List.nil_append, List.nil_append] at hall
    exact ⟨(congrArg List.tail hbody).trans (tail_afterAll _ _ body),
      hall.mono fun _ h => .function h.1 h.2.1 h.2.2⟩
  | .ret keyword value =>
    rw [walkStmt]
    obtain ⟨hsame, hkeyword⟩ := walks_returnKeyword s inFunction keyword
    obtain ⟨hscopes, hvalue⟩ :=
      walks_walkValue value (if inFunction then s else s.report .topLevelReturn keyword)
    rw [hsame] at hscopes hvalue
    refine ⟨hscopes, (hkeyword.seq hvalue).mono fun known h => ?_⟩
    cases value with
    | none => exact .ret
    | some e => exact .retValue (h.2 e rfl)

/-- Statements that are walked without a report agree with their scopes. -/
theorem walks_walkStmts (stmts : List Stmt) (hshaped : ShapedAll stmts) (inFunction : Bool)
    (s : Resolution.State) :
    (walkStmts inFunction s stmts).scopes = Scopes.afterAll s.scopes stmts ∧
      Walks s (walkStmts inFunction s stmts) (Stmt.idsAll stmts) fun known =>
        ScopedStmts known s.scopes stmts := by
  match stmts with
  | [] =>
    rw [walkStmts]
    exact ⟨rfl, .still (Nat.le_refl _) rfl fun _ _ => .nil⟩
  | stmt :: stmts =>
    rw [walkStmts]
    obtain ⟨hscopes, hfirst⟩ := walks_walkStmt stmt hshaped.1 inFunction s
    obtain ⟨hscopes', hrest⟩ :=
      walks_walkStmts stmts hshaped.2 inFunction (walkStmt inFunction s stmt)
    rw [hscopes] at hscopes' hrest
    exact ⟨hscopes', (hfirst.seq hrest).mono fun _ h => .cons h.1 h.2⟩

end

/-- A branch or a loop body, which declares nothing, is left in the scopes that it was walked in. -/
theorem scopes_walkStmt_of_none {stmt : Stmt} (hshaped : Shaped stmt)
    (hnone : declaredName? stmt = none) (inFunction : Bool) (s : Resolution.State) :
    (walkStmt inFunction s stmt).scopes = s.scopes :=
  (walks_walkStmt stmt hshaped inFunction s).1.trans (Scopes.after_of_none hnone)

/-- A program that breaks no rule of scopes agrees with its scopes, as far as uses are recorded. -/
theorem scoped_resolve {distances : Distances} {program : List Stmt} (hshaped : ShapedAll program)
    (herrors : (resolve distances program).errors = []) (hnodup : (Stmt.idsAll program).Nodup)
    (hnone : ∀ id ∈ Stmt.idsAll program, distances[id]? = none) {known : Known}
    (hknown : ∀ id ∈ Stmt.idsAll program, known id (resolve distances program).distances[id]?) :
    ScopedStmts known [] program := by
  have hwalks := (walks_walkStmts program hshaped false ⟨[], distances, #[]⟩).2
  refine hwalks.agrees ?_ hnodup hnone known hknown
  have hlength := congrArg List.length herrors
  simpa [resolve] using hlength

/-- What was recorded for other uses is kept. -/
theorem distances_resolve_of_notMem {distances : Distances} {program : List Stmt}
    (hshaped : ShapedAll program) {id : ReferenceId} (hid : id ∉ Stmt.idsAll program) :
    (resolve distances program).distances[id]? = distances[id]? :=
  (walks_walkStmts program hshaped false ⟨[], distances, #[]⟩).2.outside id hid

end LoxLang.Lexical

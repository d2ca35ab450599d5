import Mathlib.Data.List.TakeWhile
import LoxLang.Proofs.Grammar.Shape
import LoxLang.Proofs.Parsing.Advances

/-!
Where reading statements and declarations gets to and what it leaves behind. A declaration that is begun
takes a token, whether it goes well or not, and what is read fits the tokens taken: it has the shape of
the grammar, and the places at which static rules may be broken stand in their order among the tokens.
Main statement: `moves_readAll`.
-/
namespace LoxLang.Parsing

open Grammar

section

variable {α β : Type} {G : List Token → α → Prop} {H : List Token → β → Prop}

/-- How a step ends that started in `s` and is to go through the next semicolon: behind the semicolon, or
at an error before it. -/
inductive Closing (G : List Token → α → Prop) (s : State) : EStateM.Result SyntaxError State α → Prop
  | ok {s' : State} {ts rest : List Token} {es : List SyntaxError} {semicolon : Token} {a : α}
      (h : Moves .within s s' ts es) (hrest : s'.rest = semicolon :: rest)
      (hsemicolon : semicolon.kind = .symbol .semicolon) (ha : G (ts ++ [semicolon]) a) :
      Closing G s (.ok a s'.advance)
  | error {s' : State} {ts : List Token} {es : List SyntaxError} {e : SyntaxError}
      (h : Moves .within s s' ts es) (he : Aborts s s' es e) : Closing G s (.error e s')

def Closes (p : Parse α) (G : List Token → α → Prop) : Prop :=
  ∀ s : State, s.last.kind = .eof → Closing G s (p s)

namespace Closing

variable {s s₁ : State} {ts : List Token} {es : List SyntaxError}
  {r : EStateM.Result SyntaxError State α}

theorem after (h : Moves .within s s₁ ts es) (hr : Closing (fun us a => G (ts ++ us) a) s₁ r) :
    Closing G s r := by
  cases hr with
  | ok h' hrest hsemicolon ha =>
    exact .ok (h.trans h') hrest hsemicolon (by rwa [List.append_assoc])
  | error h' he => exact .error (h.trans h') (he.after h)

theorem mono {G' : List Token → α → Prop} (h : Closing G s r) (le : ∀ ts a, G ts a → G' ts a) :
    Closing G' s r := by
  cases h with
  | ok h hrest hsemicolon ha => exact .ok h hrest hsemicolon (le _ _ ha)
  | error h he => exact .error h he

theorem outcome (h : Closing G s r) : Outcome .any G s r := by
  cases h with
  | ok h hrest hsemicolon ha =>
    have hmoves := h.toAny.trans (moves_advance hrest trivial)
    exact .ok hmoves ha
  | error h he => exact .error h.toAny he

end Closing

namespace Closes

variable {p : Parse α} {f : α → Parse β}

/-- A step within a statement may come before one that goes through its semicolon. -/
theorem bind (hp : Advances .within p G)
    (hf : ∀ a, Closes (f a) fun us b => ∀ ts, G ts a → H (ts ++ us) b) : Closes (p >>= f) H := by
  intro s hs
  have hfirst := hp s hs
  cases h : p s with
  | ok a s₁ =>
    rw [h] at hfirst
    obtain @⟨_, ts, es, _, hmoves, ha⟩ := hfirst
    rw [bind_of_ok h]
    exact .after hmoves ((hf a s₁ (by rw [hmoves.last, hs])).mono fun us b hb => hb ts ha)
  | error e s₁ =>
    rw [h] at hfirst
    obtain _ | ⟨hmoves, he⟩ := hfirst
    rw [bind_of_error h]
    exact .error hmoves he

theorem mono {G' : List Token → α → Prop} (h : Closes p G) (le : ∀ ts a, G ts a → G' ts a) :
    Closes p G' := fun s hs => (h s hs).mono le

theorem ite {c : Prop} [Decidable c] {q : Parse α} (hp : c → Closes p G) (hq : ¬c → Closes q G) :
    Closes (if c then p else q) G := by
  split
  · exact hp ‹_›
  · exact hq ‹_›

theorem advances (h : Closes p G) : Advances .any p G := fun s hs => (h s hs).outcome

/-- The semicolon itself. -/
theorem semicolon {cause : SyntaxError.Cause} (hcause : cause.isLimit = false) {a : α}
    (h : ∀ t : Token, t.kind = .symbol .semicolon → G [t] a) :
    Closes (do
      let _ ← expectSymbol .semicolon cause
      return a) G := by
  intro s hs
  by_cases hsemicolon : ∃ t rest, s.rest = t :: rest ∧ t.kind = .symbol .semicolon
  · obtain ⟨t, rest, hrest, ht⟩ := hsemicolon
    rw [bind_of_ok (expectSymbol_of_rest hrest ht)]
    exact .ok .refl hrest ht (h t ht)
  · have hnot : ∀ t ∈ s.rest.head?, t.kind ≠ .symbol .semicolon := by
      intro t ht hk
      obtain ⟨rest, hrest⟩ := List.head?_eq_some_iff.mp ht
      exact hsemicolon ⟨t, rest, hrest, hk⟩
    rw [bind_of_error (expectSymbol_of_not cause hnot)]
    exact .error .refl ⟨hcause, anchors_errorHere s cause, Nat.le_refl _, List.forall_mem_nil _⟩

end Closes

end

section

variable (fuel : Nat)

theorem closes_expressionStatement : Closes (expressionStatement fuel) fun ts s =>
    Simple ts s ∧ declaredName? s = none := by
  refine .bind (advances_expression fuel) fun e => .semicolon rfl ?_
  intro semicolon hsemicolon ts hts
  exact ⟨.expression hts hsemicolon, rfl⟩

theorem closes_printStatement : Closes (printStatement fuel) fun ts s =>
    ∀ word : Token, word.kind = .keyword .printKw → Simple (word :: ts) s := by
  refine .bind (advances_expression fuel) fun e => .semicolon rfl ?_
  intro semicolon hsemicolon ts hts word hword
  exact .print hword hts hsemicolon

theorem closes_returnStatement (word : Token) : Closes (returnStatement fuel word) fun ts s =>
    word.kind = .keyword .returnKw → Simple (word :: ts) s := by
  refine .bind (.seesSymbol .semicolon) fun ends => .ite ?_ ?_
  · rintro rfl
    refine .bind (.value none) fun value => .semicolon rfl ?_
    rintro semicolon hsemicolon us ⟨rfl, rfl⟩ ts rfl hword
    exact .ret hword hsemicolon
  · intro hends
    refine .bind ((advances_expression fuel).map some) fun value => .semicolon rfl ?_
    rintro semicolon hsemicolon us ⟨e, rfl, he⟩ ts rfl hword
    exact .retValue hword he hsemicolon

theorem closes_letDeclaration : Closes (letDeclaration fuel) fun ts s =>
    ∀ word : Token, word.kind = .keyword .letKw → Simple (word :: ts) s := by
  refine .bind (.expectIdentifier (by simp [Manner.within]) rfl) fun name =>
    .bind (.takesSymbol (by simp [Manner.within])) fun assigns => .ite ?_ ?_
  · rintro rfl
    refine .bind ((advances_expression fuel).map some) fun initializer => .semicolon rfl ?_
    rintro semicolon hsemicolon vs ⟨e, rfl, he⟩ us (⟨h, -⟩ | ⟨-, sign, rfl, hsign⟩) ts ⟨rfl, hname⟩
      word hword
    · cases h
    · exact .initialized hword hname hsign he hsemicolon
  · intro hassigns
    refine .bind (.value none) fun initializer => .semicolon rfl ?_
    rintro semicolon hsemicolon vs ⟨rfl, rfl⟩ us (⟨-, rfl⟩ | ⟨h, -⟩) ts ⟨rfl, hname⟩ word hword
    · exact .declare hword hname hsemicolon
    · exact absurd h hassigns

end

def FitsAll (ts : List Token) (ss : List Stmt) : Prop := ShapedAll ss ∧ (Stmt.sitesAll ss).Sublist ts

def Fits (ts : List Token) (s : Stmt) : Prop :=
  declaredName? s = none ∧ FitsAll ts [s]

section

variable {ts us : List Token} {s : Stmt} {ss : List Stmt}

theorem fitsAll_singleton : FitsAll ts [s] ↔ Shaped s ∧ s.sites.Sublist ts := by
  simp [FitsAll, ShapedAll, Stmt.sitesAll]

theorem FitsAll.nil : FitsAll ts [] := ⟨trivial, List.nil_sublist ts⟩

theorem FitsAll.append {ss' : List Stmt} (h : FitsAll ts ss) (h' : FitsAll us ss') :
    FitsAll (ts ++ us) (ss ++ ss') := by
  refine ⟨?_, by rw [Stmt.sitesAll_append]; exact h.2.append h'.2⟩
  obtain ⟨h, -⟩ := h
  induction ss with
  | nil => exact h'.1
  | cons s ss ih => exact ⟨h.1, ih h.2⟩

theorem FitsAll.sublist (h : FitsAll ts ss) (hts : ts.Sublist us) : FitsAll us ss :=
  ⟨h.1, h.2.trans hts⟩

theorem fitsAll_of_simple (h : Simple ts s) : FitsAll ts [s] :=
  fitsAll_singleton.mpr ⟨h.shaped, h.sites_sublist⟩

/-- A simple statement that is no declaration fits its tokens. -/
theorem fits_of_simple {word : Token} (h : Simple (word :: ts) s) (hword : word.kind ≠ .keyword .letKw) :
    Fits (word :: ts) s := by
  refine ⟨?_, fitsAll_of_simple h⟩
  generalize hus : word :: ts = us at h
  cases h with
  | declare hlet =>
    cases hus
    exact absurd hlet hword
  | initialized hlet =>
    cases hus
    exact absurd hlet hword
  | print => rfl
  | ret => rfl
  | retValue => rfl
  | expression => rfl

theorem sites_forLoop (initializer : Option Stmt) (condition increment : Option Expr) (body : Stmt) :
    (forLoop initializer condition increment body).sites =
      Stmt.sitesAll initializer.toList ++ body.sites := by
  cases initializer <;> cases increment <;> simp [forLoop, Stmt.sites, Stmt.sitesAll]

/-- The loop that a `for` stands for fits the tokens of its clauses and its body. -/
theorem fits_forLoop {initializer : Option Stmt} (condition increment : Option Expr) {body : Stmt}
    (hinitializer : FitsAll ts initializer.toList) (hbody : Fits us body) :
    Fits (ts ++ us) (forLoop initializer condition increment body) := by
  obtain ⟨hnone, hbody⟩ := hbody
  obtain ⟨hshaped, hsites⟩ := fitsAll_singleton.mp hbody
  have hshape : ∀ s ∈ initializer, Shaped s := by
    rintro s ⟨⟩
    exact hinitializer.1.1
  obtain ⟨hnone', hshaped'⟩ : declaredName? (whileForm initializer condition increment body) = none ∧
      Shaped (whileForm initializer condition increment body) :=
    shaped_whileForm hshape hnone hshaped
  rw [← forLoop_eq_whileForm] at hnone' hshaped'
  refine ⟨hnone', fitsAll_singleton.mpr ⟨hshaped', ?_⟩⟩
  rw [sites_forLoop]
  exact hinitializer.2.append hsites

end

section

variable (fuel : Nat) {inner : Parse Stmt} {item : Recover (Option Stmt)}

/-- The first clause of a `for` may be a declaration, an expression or nothing. -/
theorem advances_forInitializer :
    Advances .any (forInitializer fuel) fun ts initializer => FitsAll ts initializer.toList := by
  refine .bind (.takesSymbol trivial) fun absent => .ite (fun _ => .pure fun _ _ => .nil) fun _ =>
    .bind (.take? fun _ _ => trivial) fun word => ?_
  cases word with
  | some word =>
    refine ((closes_letDeclaration fuel).advances.map some).mono ?_
    rintro vs _ ⟨s, rfl, hs⟩ us ⟨rfl, hword⟩ ts -
    have h := fitsAll_of_simple (hs word (kind_of_isKeyword (hword word rfl)))
    exact h.sublist (List.sublist_append_right _ _)
  | none =>
    refine ((closes_expressionStatement fuel).advances.map some).mono ?_
    rintro vs _ ⟨s, rfl, hs, -⟩ us - ts -
    have h := fitsAll_of_simple hs
    exact h.sublist ((List.sublist_append_right _ _).trans (List.sublist_append_right _ _))

theorem advances_forClause {closing : Symbol} {cause : SyntaxError.Cause} (h : cause.isLimit = false) :
    Advances .any (forClause fuel closing cause) fun _ _ => True := by
  refine .bind (.seesSymbol closing) fun absent => .ite (fun _ => ?_) fun _ => ?_
  · exact .bind (.value none) fun clause => .bind (.expectSymbol trivial h) fun _ => .pure fun _ _ _ _ _ _ =>
      trivial
  · exact .bind ((advances_expression fuel).toAny.map some) fun clause =>
      .bind (.expectSymbol trivial h) fun _ => .pure fun _ _ _ _ _ _ => trivial

/-- The clauses of a `for` are taken in the order of the text. -/
theorem advances_forStatement (h : Advances .any inner Fits) :
    Advances .any (forStatement fuel inner) Fits := by
  refine .bind (.expectSymbol trivial rfl) fun opening => .bind (advances_forInitializer fuel)
    fun initializer => .bind (advances_forClause fuel rfl) fun condition =>
    .bind (advances_forClause fuel rfl) fun increment => .bind h fun body => .pure ?_
  intro ys hbody xs _ ws _ vs hinitializer us _
  have h := fits_forLoop condition increment hinitializer hbody
  refine ⟨h.1, h.2.sublist ?_⟩
  have hsub : (vs ++ ys).Sublist (vs ++ (ws ++ (xs ++ ys))) :=
    (List.Sublist.refl vs).append (List.sublist_append_of_sublist_right
      (List.sublist_append_right _ _))
  simpa using hsub.trans (List.sublist_append_right us _)

theorem advances_ifStatement (h : Advances .any inner Fits) :
    Advances .any (ifStatement fuel inner) Fits := by
  refine .bind (.expectSymbol trivial rfl) fun opening => .bind (advances_expression fuel).toAny
    fun condition => .bind (.expectSymbol trivial rfl) fun closing => .bind h fun thenBranch =>
    .bind (.take? fun _ _ => trivial) fun elseWord => ?_
  cases elseWord with
  | some elseWord =>
    refine .bind h fun elseBranch => .pure ?_
    rintro ys ⟨hnone', helse⟩ xs - ws ⟨hnone, hthen⟩ vs - us - ts -
    obtain ⟨hshaped, hsites⟩ := fitsAll_singleton.mp hthen
    obtain ⟨hshaped', hsites'⟩ := fitsAll_singleton.mp helse
    refine ⟨rfl, fitsAll_singleton.mpr ⟨⟨⟨hnone, hshaped⟩, hnone', hshaped'⟩, ?_⟩⟩
    have hsub : (thenBranch.sites ++ elseBranch.sites).Sublist (ws ++ (xs ++ ys)) :=
      hsites.append (hsites'.trans (List.sublist_append_right _ _))
    simpa [Stmt.sites] using hsub.trans (List.sublist_append_right (ts ++ us ++ vs) _)
  | none =>
    refine .pure ?_
    rintro xs ⟨rfl, -⟩ ws ⟨hnone, hthen⟩ vs - us - ts -
    obtain ⟨hshaped, hsites⟩ := fitsAll_singleton.mp hthen
    refine ⟨rfl, fitsAll_singleton.mpr ⟨⟨hnone, hshaped⟩, ?_⟩⟩
    simpa [Stmt.sites] using hsites.trans (List.sublist_append_right (ts ++ us ++ vs) _)

theorem advances_whileStatement (h : Advances .any inner Fits) :
    Advances .any (whileStatement fuel inner) Fits := by
  refine .bind (.expectSymbol trivial rfl) fun opening => .bind (advances_expression fuel).toAny
    fun condition => .bind (.expectSymbol trivial rfl) fun closing => .bind h fun body => .pure ?_
  rintro ws ⟨hnone, hbody⟩ vs - us - ts -
  obtain ⟨hshaped, hsites⟩ := fitsAll_singleton.mp hbody
  refine ⟨rfl, fitsAll_singleton.mpr ⟨⟨hnone, hshaped⟩, ?_⟩⟩
  simpa [Stmt.sites] using hsites.trans (List.sublist_append_right (ts ++ us ++ vs) _)

def Proceeds (item : Recover (Option Stmt)) : Prop :=
  ∀ s : State, s.last.kind = .eof → s.rest ≠ [] → ∃ ts es,
    Moves .any s (item s).2 ts es ∧ ts ≠ [] ∧ FitsAll ts (item s).1.toList

theorem block_succ (item : Recover (Option Stmt)) (s : State) : block item (fuel + 1) s =
    (if isSymbol .rightBrace s.current.kind || s.rest.isEmpty then do
      let _ ← expectSymbol .rightBrace .braceAfterBlock
      return []
    else do
      let first ← unstopped item
      return first.toList ++ (← block item fuel)) s := rfl

/-- What follows the opening brace of a block. -/
theorem advances_block (h : Proceeds item) : Advances .any (block item fuel) FitsAll := by
  have closes : Advances .any (do
      let _ ← expectSymbol .rightBrace .braceAfterBlock
      return []) FitsAll :=
    .bind (.expectSymbol trivial rfl) fun _ => .pure fun _ _ => .nil
  induction fuel with
  | zero => exact closes
  | succ fuel ih =>
    intro s hs
    rw [block_succ]
    split
    · exact closes s hs
    · next hmore =>
      have hrest : s.rest ≠ [] := by
        intro hrest
        simp [hrest] at hmore
      obtain ⟨ts, es, hmoves, -, hfits⟩ := h s hs hrest
      have hfirst : unstopped item s = .ok (item s).1 (item s).2 := rfl
      rw [bind_of_ok hfirst]
      have hall : Advances .any (do return (item s).1.toList ++ (← block item fuel)) fun us ss =>
          FitsAll (ts ++ us) ss := by
        refine .bind ih fun rest => .pure fun us hus => ?_
        rw [List.append_nil]
        exact hfits.append hus
      exact .after hmoves (hall _ (by rw [hmoves.last, hs]))

theorem advances_parameters : Advances .any
    (parenthesized (expect isIdentifier .parameterName) .tooManyParameters fuel)
    fun ts params => params.Sublist ts := by
  refine (advances_parenthesized (L := fun ts params => params.Sublist ts)
    (.expectIdentifier trivial rfl) rfl trivial trivial ?_ ?_ fuel).mono ?_
  · rintro ts name ⟨rfl, -⟩
    exact List.Sublist.refl _
  · rintro ts us comma name names ⟨rfl, -⟩ - hnames
    exact (hnames.cons comma).cons_cons name
  · rintro ts params (⟨rfl, rfl⟩ | hparams)
    · exact List.Sublist.refl _
    · exact hparams

/-- The name, the parameters and the body of a function are taken in order. -/
theorem advances_function (h : Proceeds item) :
    Advances .any (function fuel item) fun ts s => FitsAll ts [s] := by
  refine .bind (.expectIdentifier trivial rfl) fun name => .bind (.expectSymbol trivial rfl) fun opening =>
    .bind (advances_parameters fuel) fun params => .bind (.expectSymbol trivial rfl) fun closing =>
    .bind (.expectSymbol trivial rfl) fun brace => .bind (advances_block fuel h) fun body => .pure ?_
  rintro ys ⟨hshaped, hsites⟩ xs - ws - vs hparams us - ts ⟨rfl, -⟩
  refine fitsAll_singleton.mpr ⟨hshaped, ?_⟩
  have hsub : (params ++ Stmt.sitesAll body).Sublist (vs ++ (ws ++ xs ++ ys)) :=
    hparams.append (hsites.trans (List.sublist_append_right _ _))
  simpa [Stmt.sites] using (hsub.trans (List.sublist_append_right us _)).cons_cons name

end

section

variable {α : Type}

/-- A step that takes a token unless it stops at once, and has recorded fewer errors than it has taken
tokens where it stops later. -/
def Starts (p : Parse Stmt) (G : List Token → Stmt → Prop) : Prop :=
  ∀ s : State, s.last.kind = .eof → ∃ s' ts es, Moves .any s s' ts es ∧
    ((∃ a, p s = .ok a s' ∧ ts ≠ [] ∧ G ts a) ∨
      ∃ e, p s = .error e s' ∧ Aborts s s' es e ∧ (ts = [] ∨ stopping es < ts.length))

namespace Starts

variable {p : Parse Stmt} {G G' : List Token → Stmt → Prop}

theorem mono (h : Starts p G) (le : ∀ ts s, G ts s → G' ts s) : Starts p G' := by
  intro s hs
  obtain ⟨s', ts, es, hmoves, ⟨a, ha, hne, hG⟩ | herror⟩ := h s hs
  · exact ⟨s', ts, es, hmoves, .inl ⟨a, ha, hne, le _ _ hG⟩⟩
  · exact ⟨s', ts, es, hmoves, .inr herror⟩

theorem advances (h : Starts p G) : Advances .any p G := by
  intro s hs
  obtain ⟨s', ts, es, hmoves, ⟨a, ha, -, hG⟩ | ⟨e, he, haborts, -⟩⟩ := h s hs
  · rw [ha]
    exact .ok hmoves hG
  · rw [he]
    exact .error hmoves haborts

/-- A step that closes a statement has taken a token. One that stops has taken more tokens than it has
recorded errors, or none at all. -/
theorem closing {s : State} {r : EStateM.Result SyntaxError State Stmt} (h : Closing G s r) :
    ∃ s' ts es, Moves .any s s' ts es ∧ ((∃ a, r = .ok a s' ∧ ts ≠ [] ∧ G ts a) ∨
      ∃ e, r = .error e s' ∧ Aborts s s' es e ∧ (ts = [] ∨ stopping es < ts.length)) := by
  cases h with
  | ok h hrest hsemicolon ha =>
    exact ⟨_, _, _, h.toAny.trans (moves_advance hrest trivial), .inl ⟨_, rfl, by simp, ha⟩⟩
  | @error s' ts es e h he =>
    refine ⟨_, _, _, h.toAny, .inr ⟨_, rfl, he, ?_⟩⟩
    rw [h.stopping_within]
    cases ts with
    | nil => exact .inl rfl
    | cons t ts => exact .inr (Nat.succ_pos _)

theorem closes (h : Closes p G) : Starts p G := fun s hs => closing (h s hs)

theorem fail {cause : SyntaxError.Cause} (h : cause.isLimit = false) : Starts (fail cause) G :=
  fun s _ => ⟨s, [], [], .refl, .inr ⟨_, rfl,
    ⟨h, anchors_errorHere s cause, Nat.le_refl _, List.forall_mem_nil _⟩, .inl rfl⟩⟩

/-- The first token is taken before any error is recorded. -/
theorem current {f : Token → Parse Stmt}
    (h : ∀ t, Starts (f t) G ∨ t.kind ≠ .eof ∧ ∃ q : Parse Stmt,
      f t = (do advance; q) ∧ Advances .any q fun us b => G (t :: us) b) :
    Starts (do f (← Parsing.current)) G := by
  intro s hs
  change ∃ s' ts es, Moves .any s s' ts es ∧ ((∃ a, f s.current s = .ok a s' ∧ ts ≠ [] ∧ G ts a) ∨
    ∃ e, f s.current s = .error e s' ∧ Aborts s s' es e ∧ (ts = [] ∨ stopping es < ts.length))
  rcases h s.current with h | ⟨hk, q, hq, hadvances⟩
  · exact h s hs
  cases hrest : s.rest with
  | nil =>
    refine absurd ?_ hk
    simpa [State.current, hrest] using hs
  | cons t rest =>
    rw [current_of_rest hrest] at hadvances hq ⊢
    have hmoves : Moves .any s s.advance [t] [] := moves_advance hrest trivial
    have hread := hadvances s.advance (by rw [hmoves.last, hs])
    have hsame : f t s = q s.advance := by rw [hq]; rfl
    rw [hsame]
    generalize q s.advance = r at hread
    cases hread with
    | @ok s' ts es a h ha => exact ⟨s', t :: ts, es, hmoves.trans h, .inl ⟨a, rfl, by simp, ha⟩⟩
    | @error s' ts es e h he =>
      -- the token taken first makes up for the error at which the step stops
      refine ⟨s', t :: ts, es, hmoves.trans h, .inr ⟨e, rfl, he.after hmoves, .inr ?_⟩⟩
      exact Nat.lt_succ_of_le h.few

end Starts

end

/-- Going on at the next statement drops a front part of the tokens. -/
theorem nextStatement_eq_append (previous : Token) (ts : List Token) :
    ∃ us, ts = us ++ (nextStatement previous ts).1 ∧ us.length = (nextStatement previous ts).2 := by
  induction ts generalizing previous with
  | nil => exact ⟨[], rfl, rfl⟩
  | cons t ts ih =>
    rw [nextStatement]
    split
    · exact ⟨[], rfl, rfl⟩
    · obtain ⟨us, hts, hlength⟩ := ih t
      exact ⟨t :: us, congrArg (t :: ·) hts, congrArg (· + 1) hlength⟩

theorem resume_of_rest_nil {s : State} (hs : s.rest = []) : s.resume = s := by
  rw [State.resume, hs]

theorem resume_of_rest {s : State} {t : Token} {rest : List Token} (hs : s.rest = t :: rest) :
    s.resume = { s with
      rest := (nextStatement t rest).1
      position := s.position + 1 + (nextStatement t rest).2 } := by
  rw [State.resume, hs]

/-- Going on after an error passes over tokens, one at least if there is one. -/
theorem moves_resume (s : State) :
    ∃ us, Moves .any s s.resume us [] ∧ (s.rest ≠ [] → us ≠ []) := by
  cases hrest : s.rest with
  | nil =>
    rw [resume_of_rest_nil hrest]
    exact ⟨[], .refl, fun h => absurd rfl h⟩
  | cons t rest =>
    obtain ⟨us, hus, hlength⟩ := nextStatement_eq_append t rest
    rw [resume_of_rest hrest]
    refine ⟨t :: us, ?_, fun _ => by simp⟩
    exact {
      rest := by rw [hrest, List.cons_append, ← hus]
      position := by simp only [List.length_cons, hlength]; omega
      last := rfl
      errors := (List.append_nil _).symm
      takes := fun _ _ => trivial
      records := List.forall_mem_nil _
      anchored := List.forall_mem_nil _
      behind := List.forall_mem_nil _
      ordered := .nil
      few := Nat.zero_le _ }

/-- The error of a step that has stopped is recorded when reading has gone on. -/
theorem Moves.recorded {s s₁ s' : State} {ts us : List Token} {es : List SyntaxError} {e : SyntaxError}
    (h : Moves .any s s₁ ts es) (he : Aborts s s₁ es e) (h' : Moves .any s₁ s' us [])
    (hfew : stopping es < (ts ++ us).length) : Moves .any s (s'.record e) (ts ++ us) (es ++ [e]) := by
  have hall := h.trans h'
  rw [List.append_nil] at hall
  exact {
    rest := hall.rest
    position := hall.position
    last := hall.last
    errors := by simp [State.record, hall.errors]
    takes := fun _ _ => trivial
    records := fun _ _ => trivial
    anchored := List.forall_mem_append.mpr ⟨hall.anchored, List.forall_mem_singleton.mpr he.anchored⟩
    behind := List.forall_mem_append.mpr ⟨hall.behind,
      List.forall_mem_singleton.mpr (Nat.le_trans he.behind h'.position_le)⟩
    ordered := List.pairwise_append.mpr ⟨hall.ordered, List.pairwise_singleton _ _, fun e' he' =>
      List.forall_mem_singleton.mpr (he.ordered e' he')⟩
    few := by
      have hone : stopping [e] = 1 := by simp [stopping, he.stopping]
      have happend : stopping (es ++ [e]) = stopping es + stopping [e] := List.countP_append
      omega }

theorem resume_record (s : State) (e : SyntaxError) : (s.record e).resume = s.resume.record e := by
  obtain ⟨rest, position, last, nextId, errors⟩ := s
  cases rest <;> rfl

/-- A declaration with an error is passed over, so that a token is taken in any case. -/
theorem proceeds_recovering {p : Parse Stmt} (h : Starts p fun ts s => FitsAll ts [s]) :
    Proceeds (recovering p) := by
  intro s hs hrest
  obtain ⟨s', ts, es, hmoves, ⟨a, ha, hne, hfits⟩ | ⟨e, he, haborts, hfew⟩⟩ := h s hs
  · have hrecovering : recovering p s = (some a, s') := by simp only [recovering, ha]
    rw [hrecovering]
    exact ⟨ts, es, hmoves, hne, hfits⟩
  · have hrecovering : recovering p s = (none, s'.resume.record e) := by
      simp only [recovering, he, resume_record]
    rw [hrecovering]
    obtain ⟨us, hmoves', hne⟩ := moves_resume s'
    -- fewer errors stop a statement than there are tokens: recovery takes one more after the error
    have hlt : stopping es < (ts ++ us).length := by
      have hle := hmoves.few
      rw [List.length_append]
      by_cases hend : s'.rest = []
      · have hts : ts ≠ [] := by
          intro hts
          rw [hmoves.rest, hts, hend] at hrest
          exact hrest rfl
        rcases hfew with hfew | hfew
        · exact absurd hfew hts
        · omega
      · have hpos := List.length_pos_iff.mpr (hne hend)
        omega
    refine ⟨ts ++ us, es ++ [e], hmoves.recorded haborts hmoves' hlt, ?_, .nil⟩
    exact List.ne_nil_of_length_pos (Nat.zero_lt_of_lt hlt)

/-- Statements and declarations take a token and record errors in order, by induction on the fuel. -/
theorem starts_statement_declaration (fuel : Nat) :
    Starts (statement fuel) Fits ∧ Proceeds (declaration fuel) := by
  induction fuel with
  | zero => exact ⟨.fail rfl, proceeds_recovering (.fail rfl)⟩
  | succ fuel ih =>
    obtain ⟨hstatement, hdeclaration⟩ := ih
    have keep {q : Parse Stmt} {t : Token} (h : Advances .any q Fits) :
        Advances .any q fun us s => Fits (t :: us) s :=
      h.mono fun us s hs => ⟨hs.1, hs.2.sublist (List.sublist_cons_self t us)⟩
    constructor
    · refine .current fun t => ?_
      split
      · next hk => exact .inr ⟨by simp [hk], _, rfl, keep (advances_forStatement fuel hstatement.advances)⟩
      · next hk => exact .inr ⟨by simp [hk], _, rfl, keep (advances_ifStatement fuel hstatement.advances)⟩
      · next hk => exact .inr ⟨by simp [hk], _, rfl, keep (advances_whileStatement fuel hstatement.advances)⟩
      · next hk =>
        refine .inr ⟨by simp [hk], _, rfl, (closes_returnStatement fuel t).advances.mono fun us s hs => ?_⟩
        exact fits_of_simple (hs hk) (by simp [hk])
      · next hk =>
        refine .inr ⟨by simp [hk], _, rfl, keep (.bind (advances_block fuel hdeclaration) fun body =>
          .pure ?_)⟩
        intro ts hbody
        rw [List.append_nil]
        exact ⟨rfl, fitsAll_singleton.mpr hbody⟩
      · next hk =>
        refine .inr ⟨by simp [hk], _, rfl, (closes_printStatement fuel).advances.mono fun us s hs => ?_⟩
        exact fits_of_simple (hs t hk) (by simp [hk])
      · refine .inl (.closes ((closes_expressionStatement fuel).mono fun us s hs => ?_))
        exact ⟨hs.2, fitsAll_of_simple hs.1⟩
    · refine proceeds_recovering (.current fun t => ?_)
      split
      · next hk =>
        refine .inr ⟨by simp [hk], _, rfl, (advances_function fuel hdeclaration).mono fun us s hs => ?_⟩
        exact hs.sublist (List.sublist_cons_self t us)
      · next hk =>
        refine .inr ⟨by simp [hk], _, rfl, (closes_letDeclaration fuel).advances.mono fun us s hs => ?_⟩
        exact fitsAll_of_simple (hs t hk)
      · exact .inl (hstatement.mono fun _ _ hs => hs.2)

theorem moves_of_rest_eq_nil {s : State} (h : s.rest = []) : Moves .any s s s.rest [] := by
  rw [h]
  exact .refl

/-- With fuel for each token a program reads up to the end of the input. -/
theorem moves_program {item : Recover (Option Stmt)} (h : Proceeds item) {fuel : Nat} {s : State}
    (hs : s.last.kind = .eof) (hfuel : s.rest.length ≤ fuel) : ∃ es,
    Moves .any s (program item fuel s).2 s.rest es ∧ FitsAll s.rest (program item fuel s).1 := by
  induction fuel generalizing s with
  | zero =>
    have hrest : s.rest = [] := List.length_eq_zero_iff.mp (Nat.le_zero.mp hfuel)
    exact ⟨[], moves_of_rest_eq_nil hrest, .nil⟩
  | succ fuel ih =>
    by_cases hrest : s.rest = []
    · rw [program_of_rest_eq_nil hrest]
      exact ⟨[], moves_of_rest_eq_nil hrest, .nil⟩
    rw [program_of_rest_ne_nil hrest]
    obtain ⟨ts, es, hmoves, hne, hfits⟩ := h s hs hrest
    have hlength : (item s).2.rest.length ≤ fuel := by
      have hpos := List.length_pos_iff.mpr hne
      rw [hmoves.rest, List.length_append] at hfuel
      omega
    obtain ⟨es', hmoves', hfits'⟩ := ih (by rw [hmoves.last, hs]) hlength
    rw [hmoves.rest]
    exact ⟨es ++ es', hmoves.trans hmoves', hfits.append hfits'⟩

/-- What is read of a list of tokens that has an end: the tokens before the first end, and that end. -/
theorem exists_eq_body_append {tokens : List Token} (h : ∃ t ∈ tokens, t.kind = .eof)
    (nextId : ReferenceId) :
    ∃ after, tokens = body tokens ++ (State.start nextId tokens).last :: after := by
  have hsplit : body tokens ++ tokens.dropWhile (!·.kind.isEof) = tokens := List.takeWhile_append_dropWhile
  cases hdrop : tokens.dropWhile (!·.kind.isEof) with
  | nil =>
    obtain ⟨t, ht, hk⟩ := h
    have hnot := List.dropWhile_eq_nil_iff.mp hdrop t ht
    simp [hk, TokenKind.isEof] at hnot
  | cons last after =>
    refine ⟨after, ?_⟩
    have hlast : (State.start nextId tokens).last = last := by simp only [State.start, hdrop]
    rw [hlast, ← hdrop, hsplit]

/-- Reading a program takes all tokens up to the first end of the input. -/
theorem moves_readAll (nextId : ReferenceId) (tokens : List Token) :
    Moves .any (State.start nextId tokens) (readAll nextId tokens).2 (body tokens)
        (parse nextId tokens).errors ∧
      FitsAll (body tokens) (parse nextId tokens).statements := by
  obtain ⟨es, hmoves, hfits⟩ := moves_program (starts_statement_declaration _).2
    (kind_last_start nextId tokens)
    (Nat.le_trans (Nat.le_mul_of_pos_left _ Nat.two_pos) (Nat.le_add_right _ 2))
  have herrors : es = (parse nextId tokens).errors := hmoves.errors.symm
  rw [← herrors]
  exact ⟨hmoves, hfits⟩

end LoxLang.Parsing

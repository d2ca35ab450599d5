import LoxLang.Proofs.Running.FullOutput

/-!
Every step comes back to the environment that it was begun in, on every way out of it, and records
nothing of uses. Each table is linked to the one that stands around it: links are made for new tables only, so
what stood around a table before a step stands around it afterwards. Main statement: `restoring`.
-/
namespace LoxLang

abbrev Links := Address → Option Address → Prop

namespace Links

def Along (links : Links) : Environment → Prop
  | [] => True
  | a :: outer => links a outer.head? ∧ Along links outer

structure Single (links : Links) (n : Nat) : Prop where
  bounded : ∀ a o, links a o → a < n
  unique : ∀ a o o', links a o → links a o' → o = o'

def insert (links : Links) (n : Address) (o : Option Address) : Links :=
  fun a o' => links a o' ∨ a = n ∧ o' = o

/-- Of `n` tables there have come to be `n'`: what was linked still is, and nothing else stands around a
table that there was before. -/
structure Extends (links : Links) (n : Nat) (links' : Links) (n' : Nat) : Prop where
  tables : n ≤ n'
  keeps : ∀ a o, links a o → links' a o
  old : ∀ a o, a < n → links' a o → links a o
  single : links.Single n → links'.Single n'

theorem Extends.refl (links : Links) (n : Nat) : links.Extends n links n where
  tables := Nat.le_refl n
  keeps _ _ h := h
  old _ _ _ h := h
  single h := h

theorem Extends.trans {links links' links'' : Links} {n n' n'' : Nat}
    (h : links.Extends n links' n') (h' : links'.Extends n' links'' n'') :
    links.Extends n links'' n'' where
  tables := Nat.le_trans h.tables h'.tables
  keeps a o hlink := h'.keeps a o (h.keeps a o hlink)
  old a o ha hlink := h.old a o ha (h'.old a o (Nat.lt_of_lt_of_le ha h.tables) hlink)
  single hsingle := h'.single (h.single hsingle)

/-- The first table that is not there yet can be linked to anything. -/
theorem extends_insert (links : Links) (n : Nat) (o : Option Address) :
    links.Extends n (links.insert n o) (n + 1) where
  tables := Nat.le_succ n
  keeps _ _ h := .inl h
  old a o' ha h := by
    rcases h with h | ⟨rfl, -⟩
    · exact h
    · exact absurd ha (Nat.lt_irrefl a)
  single hsingle := by
    constructor
    · intro a o' h
      rcases h with h | ⟨rfl, -⟩
      · exact Nat.lt_succ_of_lt (hsingle.bounded a o' h)
      · exact Nat.lt_succ_self a
    · intro a o₁ o₂ h₁ h₂
      have hnew (o' : Option Address) : ¬links n o' := fun h =>
        Nat.lt_irrefl n (hsingle.bounded n o' h)
      rcases h₁ with h₁ | ⟨rfl, rfl⟩
      · rcases h₂ with h₂ | ⟨rfl, rfl⟩
        · exact hsingle.unique a o₁ o₂ h₁ h₂
        · exact absurd h₁ (hnew o₁)
      · rcases h₂ with h₂ | ⟨-, rfl⟩
        · exact absurd h₂ (hnew o₂)
        · rfl

theorem Along.mono {links links' : Links} (le : ∀ a o, links a o → links' a o) {e : Environment}
    (h : links.Along e) : links'.Along e := by
  induction e with
  | nil => trivial
  | cons a outer ih => exact ⟨le a _ h.1, ih h.2⟩

end Links

def Value.Obeys (links : Links) : Value → Prop
  | .function f => links.Along f.environment
  | _ => True

structure Machine.Obeys (m : Machine) (links : Links) : Prop where
  current : links.Along m.current
  stored : ∀ a x v, m.store.readTable a x = some v → v.Obeys links

def Machine.tables (m : Machine) : Nat := m.store.tables.size

theorem Value.Obeys.mono {links links' : Links} (le : ∀ a o, links a o → links' a o) {v : Value}
    (h : v.Obeys links) : v.Obeys links' := by
  cases v with
  | function f => exact Links.Along.mono le h
  | _ => trivial

/-- A step has ended in the environment that it was begun in, with nothing else recorded, and has left
all tables where they stood. What it gives is as `P` says. -/
structure Restored {α : Type} (links : Links) (P : Links → α → Prop) (m : Machine)
    (r : EStateM.Result Signal Machine α) : Prop where
  current : (reached r).current = m.current
  distances : (reached r).distances = m.distances
  linked : ∃ links', links.Extends m.tables links' (reached r).tables ∧
    (reached r).Obeys links' ∧ (∀ x m', r = .ok x m' → P links' x) ∧
    ∀ v m', r = .error (.returned v) m' → v.Obeys links'

def Restores {α : Type} (links : Links) (P : Links → α → Prop) (a : Run α) : Prop :=
  ∀ m : Machine, m.Obeys links → Restored links P m (a m)

section

variable {α β : Type} {links : Links} {P : Links → α → Prop} {Q : Links → β → Prop} {a : Run α}
  {f : α → Run β} {m m' : Machine}

theorem Restored.ok {links' : Links} {x : α} (hcurrent : m'.current = m.current)
    (hdistances : m'.distances = m.distances)
    (hextends : links.Extends m.tables links' m'.tables) (hobeys : m'.Obeys links')
    (h : P links' x) : Restored links P m (.ok x m') := by
  refine ⟨hcurrent, hdistances, links', hextends, hobeys, ?_, ?_⟩
  · intro y m₁ hok
    cases hok
    exact h
  · intro v m₁ herror
    cases herror

theorem Restored.error {links' : Links} {signal : Signal} (hcurrent : m'.current = m.current)
    (hdistances : m'.distances = m.distances)
    (hextends : links.Extends m.tables links' m'.tables) (hobeys : m'.Obeys links')
    (h : ∀ v, signal = .returned v → v.Obeys links') :
    Restored links P m (.error signal m') := by
  refine ⟨hcurrent, hdistances, links', hextends, hobeys, ?_, ?_⟩
  · intro y m₁ hok
    cases hok
  · intro v m₁ herror
    cases herror
    exact h v rfl

theorem restores_pure {x : α} (h : P links x) : Restores links P (pure x) := fun m hobeys =>
  .ok rfl rfl (.refl links m.tables) hobeys h

theorem restores_throw {signal : Signal} (h : ∀ v, signal = .returned v → v.Obeys links) :
    Restores links P (throw signal : Run α) := fun m hobeys =>
  .error rfl rfl (.refl links m.tables) hobeys h

/-- The second step is begun with the links that the first one has made. -/
theorem Restores.bind (ha : Restores links P a)
    (hf : ∀ links' x, (∀ b o, links b o → links' b o) → P links' x → Restores links' Q (f x)) :
    Restores links Q (a >>= f) := by
  intro m hobeys
  have hfirst := ha m hobeys
  obtain ⟨links₁, hextends, hobeys₁, hvalue, hreturned⟩ := hfirst.linked
  cases hm : a m with
  | error signal m₁ =>
    rw [hm] at hfirst hextends hobeys₁ hreturned
    rw [bind_of_error hm]
    refine .error hfirst.current hfirst.distances hextends hobeys₁ ?_
    rintro v rfl
    exact hreturned v m₁ rfl
  | ok x m₁ =>
    rw [hm] at hfirst hextends hobeys₁
    rw [bind_of_ok hm]
    have hsecond := hf links₁ x hextends.keeps (hvalue x m₁ hm) m₁ hobeys₁
    obtain ⟨links₂, hextends', hobeys₂, hrest⟩ := hsecond.linked
    exact ⟨hsecond.current.trans hfirst.current, hsecond.distances.trans hfirst.distances, links₂,
      hextends.trans hextends', hobeys₂, hrest⟩

theorem Restores.ite {c : Prop} [Decidable c] {b : Run α} (ha : Restores links P a)
    (hb : Restores links P b) : Restores links P (if c then a else b) := by
  split
  · exact ha
  · exact hb

theorem restores_stop (t : Token) (cause : RuntimeError.Cause) :
    Restores links P (Run.stop t cause) :=
  restores_throw fun _ => nofun

theorem restores_runtime (e : RuntimeError) :
    Restores links P (throw (.runtime e) : Run α) :=
  restores_throw fun _ => nofun

theorem restores_exhausted : Restores links P (throw .exhausted : Run α) :=
  restores_throw fun _ => nofun

theorem restores_get : Restores links (fun links' m => m.Obeys links') (get : Run Machine) := by
  intro m hobeys
  exact .ok rfl rfl (.refl links m.tables) hobeys hobeys

theorem restores_locate (id : ReferenceId) (name : Token) :
    Restores links (fun _ _ => True) (Run.locate id name) := by
  intro m hobeys
  simp only [Run.locate]
  split
  · exact restores_pure trivial m hobeys
  · exact restores_runtime _ m hobeys

theorem restores_read (id : ReferenceId) (name : Token) :
    Restores links Value.Obeys (Run.read id name) := by
  apply (restores_locate id name).bind
  intro links₁ address _ _
  apply restores_get.bind
  intro links₂ m _ hobeys
  cases hread : m.store.readTable address name.lexeme with
  | none => exact restores_runtime _
  | some v => exact restores_pure (hobeys.stored address name.lexeme v hread)

/-- A value that goes along the links can be written anywhere. -/
theorem Machine.Obeys.write (h : m.Obeys links) {v : Value} (hv : v.Obeys links) (address : Address)
    (x : String) :
    ({ m with store := m.store.writeTable address x v } : Machine).Obeys links where
  current := h.current
  stored b y w hread := by
    rw [Store.readTable_writeTable] at hread
    split at hread
    · cases hread
      exact hv
    · exact h.stored b y w hread

theorem restores_write {v : Value} (hv : v.Obeys links) (address : Address) (x : String) :
    Restores links (fun _ _ => True)
      (modify fun m => { m with store := m.store.writeTable address x v } : Run Unit) := by
  intro m hobeys
  have htables : (m.store.writeTable address x v).tables.size = m.tables := Array.size_modify ..
  refine .ok rfl rfl ?_ (hobeys.write hv address x) trivial
  show links.Extends m.tables links (m.store.writeTable address x v).tables.size
  rw [htables]
  exact .refl links m.tables

theorem restores_assign (id : ReferenceId) (name : Token) {v : Value} (hv : v.Obeys links) :
    Restores links (fun _ _ => True) (Run.assign id name v) := by
  apply (restores_locate id name).bind
  intro links₁ address hle _
  exact restores_write (hv.mono hle) address name.lexeme

/-- A value may be stored if its environment goes along the links. -/
theorem restores_define (x : String) {v : Value} (hv : v.Obeys links) :
    Restores links (fun _ _ => True) (Run.define x v) := by
  intro m hobeys
  have hdefine : Run.define x v m =
      .ok () { m with store := m.store.define m.current x v } := rfl
  rw [hdefine]
  cases hcurrent : m.current with
  | nil => exact .ok hcurrent.symm rfl (.refl links m.tables) ⟨trivial, hobeys.stored⟩ trivial
  | cons address outer =>
    have hwrite := restores_write hv address x m hobeys
    rw [← hcurrent]
    have hstore : m.store.define m.current x v = m.store.writeTable address x v := by
      rw [hcurrent]
      rfl
    rw [hstore]
    exact hwrite

theorem restores_makeClosure (d : FunctionDecl) :
    Restores links Value.Obeys (Run.makeClosure d) := by
  intro m hobeys
  exact .ok rfl rfl (.refl links m.tables) ⟨hobeys.current, hobeys.stored⟩ hobeys.current

theorem restores_print (text : String) : Restores links (fun _ _ => True) (Run.print text) := by
  intro m hobeys
  simp only [Run.print]
  split
  · exact .ok rfl rfl (.refl links m.tables) ⟨hobeys.current, hobeys.stored⟩ trivial
  · refine .error rfl rfl (.refl links m.tables) ⟨hobeys.current, hobeys.stored⟩ ?_
    intro v h
    cases h

theorem restores_readClock : Restores links (fun _ _ => True) Run.readClock := by
  intro m hobeys
  exact .ok rfl rfl (.refl links m.tables) ⟨hobeys.current, hobeys.stored⟩ trivial

theorem restores_orStop {Q : Links → α → Prop} (t : Token) {result : Except RuntimeError.Cause α}
    (h : ∀ a, result = .ok a → Q links a) : Restores links Q (Run.orStop t result) := by
  cases result with
  | ok a => exact restores_pure (h a rfl)
  | error cause => exact restores_stop t cause

theorem Value.obeys_ofLiteral (links : Links) (l : Literal) : Value.Obeys links (.ofLiteral l) := by
  cases l <;> trivial

/-- Parameters get their values in the innermost table. -/
theorem restores_bindArguments (params : List Token) {vs : List Value}
    (hvs : ∀ v ∈ vs, v.Obeys links) :
    Restores links (fun _ _ => True) (Run.bindArguments params vs) := by
  induction params generalizing links vs with
  | nil =>
    cases vs <;> exact restores_pure trivial
  | cons p ps ih =>
    cases vs with
    | nil => exact restores_pure trivial
    | cons v vs =>
      apply (restores_define p.lexeme (hvs v List.mem_cons_self)).bind
      intro links₁ _ hle _
      apply ih
      intro w hw
      exact (hvs w (List.mem_cons_of_mem v hw)).mono hle

/-- A native function hands on at most what it is given. -/
theorem restores_callNative (paren : Token) (f : NativeFunction) {vs : List Value}
    (hvs : ∀ v ∈ vs, v.Obeys links) :
    Restores links Value.Obeys (Run.callNative paren f vs) := by
  apply (restores_orStop (Q := fun _ _ => True) paren fun _ _ => trivial).bind
  intro links₁ _ hle _
  apply restores_readClock.bind
  intro links₂ now hle' _
  apply restores_orStop paren
  intro v hv
  rcases isPlain_or_mem_of_result hv with ⟨l, rfl⟩ | hmem
  · exact Value.obeys_ofLiteral links₂ l
  · exact ((hvs v hmem).mono hle).mono hle'

/-- A step in another environment comes back to where it was begun. -/
theorem restores_inEnvironment {e : Environment} (he : links.Along e) (h : Restores links P a) :
    Restores links P (Run.inEnvironment e a) := by
  intro m hobeys
  have hstep := h { m with current := e } ⟨he, hobeys.stored⟩
  obtain ⟨links', hextends, hobeys', hvalue, hreturned⟩ := hstep.linked
  have hback : links'.Along m.current := hobeys.current.mono hextends.keeps
  have hdistances := hstep.distances
  simp only [Run.inEnvironment]
  cases hm : a { m with current := e } with
  | ok x m' =>
    rw [hm] at hextends hobeys' hvalue hdistances
    exact .ok rfl hdistances hextends ⟨hback, hobeys'.stored⟩ (hvalue x m' rfl)
  | error signal m' =>
    rw [hm] at hextends hobeys' hreturned hdistances
    refine .error rfl hdistances hextends ⟨hback, hobeys'.stored⟩ ?_
    rintro v rfl
    exact hreturned v m' rfl

/-- The new table is linked to the innermost one of the environment around it. -/
theorem restores_inNewScope {outer : Environment} (houter : links.Along outer)
    (h : ∀ links', (∀ b o, links b o → links' b o) → Restores links' P a) :
    Restores links P (Run.inNewScope outer a) := by
  intro m hobeys
  have hinsert := Links.extends_insert links m.tables outer.head?
  have htables : ({ m with store := m.store.addTable } : Machine).tables = m.tables + 1 :=
    Array.size_push ..
  have hadded : ({ m with store := m.store.addTable } : Machine).Obeys
      (links.insert m.tables outer.head?) := by
    constructor
    · exact hobeys.current.mono hinsert.keeps
    · intro b x v hread
      rw [Store.readTable_addTable] at hread
      exact (hobeys.stored b x v hread).mono hinsert.keeps
  have hscope : (links.insert m.tables outer.head?).Along (m.store.inside outer) :=
    ⟨.inr ⟨rfl, rfl⟩, houter.mono hinsert.keeps⟩
  have hstep := restores_inEnvironment hscope (h _ hinsert.keeps) _ hadded
  obtain ⟨links', hextends, hrest⟩ := hstep.linked
  rw [htables] at hextends
  exact ⟨hstep.current, hstep.distances, links', hinsert.trans hextends, hrest⟩

/-- A value that is returned goes along the links, as any other does. -/
theorem restores_catchReturn {body : Run Unit} (h : Restores links (fun _ _ => True) body) :
    Restores links Value.Obeys (Run.catchReturn body) := by
  intro m hobeys
  have hbody := h m hobeys
  obtain ⟨links', hextends, hobeys', -, hreturned⟩ := hbody.linked
  have hcurrent := hbody.current
  have hdistances := hbody.distances
  simp only [Run.catchReturn]
  cases hm : body m with
  | ok u m' =>
    rw [hm] at hcurrent hdistances hextends hobeys'
    exact .ok hcurrent hdistances hextends hobeys' trivial
  | error signal m' =>
    rw [hm] at hcurrent hdistances hextends hobeys' hreturned
    cases signal with
    | returned v => exact .ok hcurrent hdistances hextends hobeys' (hreturned v m' rfl)
    | _ =>
      refine .error hcurrent hdistances hextends hobeys' ?_
      intro v h
      cases h

end

structure Restoring (n : Nat) : Prop where
  evaluate : ∀ links e, Restores links Value.Obeys (evaluate n e)
  evaluateAll : ∀ links es, Restores links (fun links' vs => ∀ v ∈ vs, v.Obeys links')
    (evaluateAll n es)
  execute : ∀ links s, Restores links (fun _ _ => True) (execute n s)
  executeAll : ∀ links ss, Restores links (fun _ _ => True) (executeAll n ss)

section

variable {n : Nat} {links : Links}

theorem restoring_zero : Restoring 0 where
  evaluate links e := by
    rw [evaluate]
    exact restores_exhausted
  evaluateAll links es := by
    rw [evaluateAll]
    exact restores_exhausted
  execute links s := by
    rw [execute]
    exact restores_exhausted
  executeAll links ss := by
    rw [executeAll]
    exact restores_exhausted

/-- A call comes back to where it was begun. -/
theorem restores_call (ih : Restoring n) (paren : Token) {callee : Value}
    (hcallee : callee.Obeys links) {vs : List Value} (hvs : ∀ v ∈ vs, v.Obeys links) :
    Restores links Value.Obeys (Run.call paren callee vs (executeAll n)) := by
  cases callee with
  | native f => exact restores_callNative paren f hvs
  | function f =>
    apply (restores_orStop (Q := fun _ _ => True) paren fun _ _ => trivial).bind
    intro links₁ _ hle _
    -- the body is run inside of the environment of the function, not of the call
    apply restores_catchReturn
    apply restores_inNewScope (hcallee.mono hle : links₁.Along f.environment)
    intro links₂ hle'
    have hvs₂ : ∀ v ∈ vs, v.Obeys links₂ := fun v hv => ((hvs v hv).mono hle).mono hle'
    apply (restores_bindArguments f.declaration.params hvs₂).bind
    intro links₃ _ _ _
    exact ih.executeAll links₃ f.declaration.body
  | _ => exact restores_stop paren _

/-- One unit of fuel more for expressions, one case for each form. -/
theorem restores_evaluate (ih : Restoring n) (links : Links) (e : Expr) :
    Restores links Value.Obeys (evaluate (n + 1) e) := by
  cases e with
  | literal value =>
    rw [evaluate]
    exact restores_pure (Value.obeys_ofLiteral links value)
  | grouping inner =>
    rw [evaluate]
    exact ih.evaluate links inner
  | unary operator right =>
    rw [evaluate]
    apply (ih.evaluate links right).bind
    intro _ v _ _
    apply restores_orStop operator
    intro u hu
    obtain ⟨l, rfl⟩ := isPlain_of_unaryResult hu
    exact Value.obeys_ofLiteral _ l
  | binary left operator right =>
    rw [evaluate]
    apply (ih.evaluate links left).bind
    intro links₁ v _ _
    apply (ih.evaluate links₁ right).bind
    intro _ w _ _
    apply restores_orStop operator
    intro u hu
    obtain ⟨l, rfl⟩ := isPlain_of_binaryResult hu
    exact Value.obeys_ofLiteral _ l
  | logical left operator right =>
    rw [evaluate]
    apply (ih.evaluate links left).bind
    intro links₁ v _ hv
    apply Restores.ite
    · exact restores_pure hv
    · exact ih.evaluate links₁ right
  | reference id name =>
    rw [evaluate]
    exact restores_read id name
  | assign id name value =>
    rw [evaluate]
    apply (ih.evaluate links value).bind
    intro links₁ v _ hv
    apply (restores_assign id name hv).bind
    intro links₂ _ hle _
    exact restores_pure (hv.mono hle)
  | call callee paren arguments =>
    rw [evaluate]
    apply (ih.evaluate links callee).bind
    intro links₁ v _ hv
    apply (ih.evaluateAll links₁ arguments).bind
    intro links₂ vs hle hvs
    exact restores_call ih paren (hv.mono hle) hvs

theorem restores_evaluateAll (ih : Restoring n) (links : Links) (es : List Expr) :
    Restores links (fun links' vs => ∀ v ∈ vs, v.Obeys links') (evaluateAll (n + 1) es) := by
  cases es with
  | nil =>
    rw [evaluateAll]
    · exact restores_pure fun v h => absurd h List.not_mem_nil
    · exact Nat.succ_ne_zero n
  | cons e es =>
    rw [evaluateAll]
    apply (ih.evaluate links e).bind
    intro links₁ v _ hv
    apply (ih.evaluateAll links₁ es).bind
    intro links₂ vs hle hvs
    apply restores_pure
    intro w hw
    rcases List.mem_cons.mp hw with rfl | hw
    · exact hv.mono hle
    · exact hvs w hw

/-- One unit of fuel more for statements, one case for each form. -/
theorem restores_execute (ih : Restoring n) (links : Links) (s : Stmt) :
    Restores links (fun _ _ => True) (execute (n + 1) s) := by
  cases s with
  | expression e =>
    rw [execute]
    apply (ih.evaluate links e).bind
    intro _ _ _ _
    exact restores_pure trivial
  | print e =>
    rw [execute]
    apply (ih.evaluate links e).bind
    intro _ v _ _
    exact restores_print v.text
  | declare name initializer =>
    cases initializer with
    | none =>
      rw [execute]
      exact restores_define name.lexeme trivial
    | some e =>
      rw [execute]
      apply (ih.evaluate links e).bind
      intro _ v _ hv
      exact restores_define name.lexeme hv
  | block body =>
    rw [execute]
    apply restores_get.bind
    intro links₁ m _ hobeys
    apply restores_inNewScope hobeys.current
    intro links₂ _
    exact ih.executeAll links₂ body
  | ifThen condition thenBranch =>
    rw [execute]
    apply (ih.evaluate links condition).bind
    intro links₁ v _ _
    apply Restores.ite
    · exact ih.execute links₁ thenBranch
    · exact restores_pure trivial
  | ifElse condition thenBranch elseBranch =>
    rw [execute]
    apply (ih.evaluate links condition).bind
    intro links₁ v _ _
    apply Restores.ite
    · exact ih.execute links₁ thenBranch
    · exact ih.execute links₁ elseBranch
  | whileLoop condition body =>
    rw [execute]
    apply (ih.evaluate links condition).bind
    intro links₁ v _ _
    apply Restores.ite
    · apply (ih.execute links₁ body).bind
      intro links₂ _ _ _
      exact ih.execute links₂ (.whileLoop condition body)
    · exact restores_pure trivial
  | function name params body =>
    rw [execute]
    apply (restores_makeClosure _).bind
    intro _ v _ hv
    exact restores_define name.lexeme hv
  | ret keyword value =>
    cases value with
    | none =>
      rw [execute]
      apply restores_throw
      intro v hv
      cases hv
      trivial
    | some e =>
      rw [execute]
      apply (ih.evaluate links e).bind
      intro _ v _ hv
      apply restores_throw
      intro w hw
      cases hw
      exact hv

theorem restores_executeAll (ih : Restoring n) (links : Links) (ss : List Stmt) :
    Restores links (fun _ _ => True) (executeAll (n + 1) ss) := by
  cases ss with
  | nil =>
    rw [executeAll]
    · exact restores_pure trivial
    · exact Nat.succ_ne_zero n
  | cons s ss =>
    rw [executeAll]
    apply (ih.execute links s).bind
    intro links₁ _ _ _
    exact ih.executeAll links₁ ss

end

/-- Whatever is run, it comes back to where it was begun. -/
theorem restoring (n : Nat) : Restoring n := by
  -- on the fuel: a function body is run with less than its call
  induction n with
  | zero => exact restoring_zero
  | succ n ih =>
    exact ⟨restores_evaluate ih, restores_evaluateAll ih, restores_execute ih, restores_executeAll ih⟩

/-- However a step inside of an environment has ended, the program is back where it was and as much is
recorded as before; and along whatever links the environments went, they still do. -/
structure Unmoved {α : Type} (P : Links → α → Prop) (inside : Environment) (m : Machine)
    (r : EStateM.Result Signal Machine α) : Prop where
  current : (reached r).current = m.current
  distances : (reached r).distances = m.distances
  restored : ∀ links : Links, m.Obeys links → links.Along inside → Restored links P m r

/-- What holds along all links shows that the environments have not moved. -/
theorem Restores.unmoved {α : Type} {P : Links → α → Prop} {inside : Environment} {a : Run α}
    (h : ∀ links : Links, links.Along inside → Restores links P a) (m : Machine) :
    Unmoved P inside m (a m) := by
  -- along links from everywhere to everywhere all environments go
  let anywhere : Links := fun _ _ => True
  have halong (e : Environment) : anywhere.Along e := by
    induction e with
    | nil => trivial
    | cons a outer ih => exact ⟨trivial, ih⟩
  have hobeys : m.Obeys anywhere := by
    refine ⟨halong m.current, fun a x v _ => ?_⟩
    cases v with
    | function f => exact halong f.environment
    | _ => trivial
  have hend := h anywhere (halong inside) m hobeys
  exact ⟨hend.current, hend.distances, fun links hobeys hinside => h links hinside m hobeys⟩

/-- A program is left where it was begun, with as much recorded as before. -/
theorem unmoved_interpret (fuel : Nat) (program : List Stmt) (m : Machine) :
    (interpret fuel program m).2.current = m.current ∧
      (interpret fuel program m).2.distances = m.distances := by
  have hunmoved : Unmoved (fun _ _ => True) m.current m (executeAll fuel program m) :=
    Restores.unmoved (fun links _ => (restoring fuel).executeAll links program) m
  rw [← reached_executeAll]
  exact ⟨hunmoved.current, hunmoved.distances⟩

end LoxLang

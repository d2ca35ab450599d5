import LoxLang.Store

/-!
Stores with all the environments that were made in them. An environment is known by its innermost table, and
what stands around it was made before it; so whoever goes outward from table to table comes to an end. Main
statements: `Nested.of_made`, `Nested.getElem?_of_append`, `not_transGen_around`, `search_owner?`.
-/
namespace LoxLang.Store

def settle (s : Store) (changed : Except RuntimeError Store) : Store :=
  match changed with
  | .ok s' => s'
  | .error _ => s

/-- What a store becomes from nothing by any changes, with the environments made on the way, the first one
first. -/
inductive Made : Store → List Environment → Prop
  | nothing : Made .empty []
  | new {s : Store} {es : List Environment} (h : Made s es) : Made s.addTable (es ++ [s.inside []])
  | child {s : Store} {es : List Environment} {e : Environment} (h : Made s es) (he : e ∈ es) :
      Made s.addTable (es ++ [s.inside e])
  | define {s : Store} {es : List Environment} {e : Environment} (h : Made s es) (he : e ∈ es)
      (x : String) (v : Value) : Made (s.define e x v) es
  | assign {s : Store} {es : List Environment} {e : Environment} (h : Made s es) (he : e ∈ es)
      (name : Token) (v : Value) : Made (s.settle (s.assign e name v)) es
  | assignAt {s : Store} {es : List Environment} {e : Environment} (h : Made s es) (he : e ∈ es)
      (distance : Nat) (name : Token) (v : Value) :
      Made (s.settle (s.assignAt e distance name v)) es

/-- The environment made `a`-th has the table `a`, and around it stands nothing or an environment that was made
before. -/
structure Nested (s : Store) (es : List Environment) : Prop where
  tables : es.length = s.tables.size
  stands : ∀ (a : Address) (e : Environment), es[a]? = some e →
    ∃ outer, e = a :: outer ∧ (outer = [] ∨ ∃ b, b < a ∧ es[b]? = some outer)

@[simp] theorem size_writeTable (s : Store) (a : Address) (x : String) (v : Value) :
    (s.writeTable a x v).tables.size = s.tables.size := Array.size_modify

theorem size_define (s : Store) (e : Environment) (x : String) (v : Value) :
    (s.define e x v).tables.size = s.tables.size := by
  cases e with
  | nil => rfl
  | cons a outer => exact size_writeTable s a x v

theorem size_settle_assign (s : Store) (e : Environment) (name : Token) (v : Value) :
    (s.settle (s.assign e name v)).tables.size = s.tables.size := by
  unfold assign
  cases s.owner? e name.lexeme with
  | none => rfl
  | some a => exact size_writeTable s a name.lexeme v

theorem size_settle_assignAt (s : Store) (e : Environment) (distance : Nat) (name : Token) (v : Value) :
    (s.settle (s.assignAt e distance name v)).tables.size = s.tables.size := by
  unfold assignAt
  cases s.ownerAt? e distance name.lexeme with
  | none => rfl
  | some a => exact size_writeTable s a name.lexeme v

section

variable {s : Store} {es : List Environment} {e : Environment} {a : Address}

theorem Nested.of_size {s' : Store} (h : s.Nested es) (hsize : s'.tables.size = s.tables.size) :
    s'.Nested es where
  tables := h.tables.trans hsize.symm
  stands := h.stands

/-- The table of a new environment is the next one. -/
theorem Nested.inside (h : s.Nested es) (he : e = [] ∨ e ∈ es) :
    s.addTable.Nested (es ++ [s.inside e]) where
  tables := by
    have hsize : s.addTable.tables.size = s.tables.size + 1 := Array.size_push ..
    rw [List.length_append, List.length_singleton, h.tables, hsize]
  stands a e' ha := by
    have hold (b : Nat) (outer : Environment) (hb : es[b]? = some outer) :
        (es ++ [s.inside e])[b]? = some outer := by
      rw [List.getElem?_append_left (List.getElem?_eq_some_iff.mp hb).1, hb]
    rcases Nat.lt_or_ge a es.length with hlt | hge
    · rw [List.getElem?_append_left hlt] at ha
      obtain ⟨outer, rfl, houter⟩ := h.stands a e' ha
      refine ⟨outer, rfl, ?_⟩
      rcases houter with hnil | ⟨b, hb, hbefore⟩
      · exact .inl hnil
      · exact .inr ⟨b, hb, hold b outer hbefore⟩
    · rw [List.getElem?_append_right hge, List.getElem?_singleton] at ha
      split at ha
      · next hzero =>
        have haddress : a = s.tables.size :=
          (Nat.le_antisymm (Nat.le_of_sub_eq_zero hzero) hge).trans h.tables
        cases ha
        refine ⟨e, by rw [Store.inside, haddress], ?_⟩
        rcases he with hnil | hmem
        · exact .inl hnil
        · obtain ⟨b, hb⟩ := List.mem_iff_getElem?.mp hmem
          have hlt : b < es.length := (List.getElem?_eq_some_iff.mp hb).1
          exact .inr ⟨b, Nat.lt_of_lt_of_le hlt hge, hold b e hb⟩
      · cases ha

/-- Environments stand inside of those made before them, whatever is defined and assigned. -/
theorem Nested.of_made (h : Made s es) : s.Nested es := by
  induction h with
  | nothing => exact ⟨rfl, fun a e ha => by cases ha⟩
  | new _ ih => exact ih.inside (.inl rfl)
  | child _ he ih => exact ih.inside (.inr he)
  | @define s es e _ _ x v ih => exact ih.of_size (size_define s e x v)
  | @assign s es e _ _ name v ih => exact ih.of_size (size_settle_assign s e name v)
  | @assignAt s es e _ _ distance name v ih =>
    exact ih.of_size (size_settle_assignAt s e distance name v)

theorem Nested.exists_cons (h : s.Nested es) (he : e ∈ es) : ∃ a outer, e = a :: outer := by
  obtain ⟨a, ha⟩ := List.mem_iff_getElem?.mp he
  obtain ⟨outer, rfl, -⟩ := h.stands a e ha
  exact ⟨a, outer, rfl⟩

/-- What stands around an environment is one too. -/
theorem Nested.outer (h : s.Nested es) {outer : Environment} (he : a :: outer ∈ es) :
    outer = [] ∨ outer ∈ es := by
  obtain ⟨b, hb⟩ := List.mem_iff_getElem?.mp he
  obtain ⟨outer', heq, hstands⟩ := h.stands b _ hb
  cases heq
  rcases hstands with hnil | ⟨c, -, hc⟩
  · exact .inl hnil
  · exact .inr (List.mem_of_getElem? hc)

/-- A table stands in one place only: what is outward of it is the same in all environments. -/
theorem Nested.getElem?_of_append (h : s.Nested es) {nearer outer : Environment}
    (he : nearer ++ a :: outer ∈ es) : es[a]? = some (a :: outer) := by
  induction nearer with
  | nil =>
    obtain ⟨b, hb⟩ := List.mem_iff_getElem?.mp he
    obtain ⟨outer', heq, -⟩ := h.stands b _ hb
    cases heq
    exact hb
  | cons b nearer ih =>
    rcases h.outer he with hnil | hmem
    · exact absurd hnil (by simp)
    · exact ih hmem

theorem Nested.getElem?_of_cons (h : s.Nested es) {outer : Environment} (he : a :: outer ∈ es) :
    es[a]? = some (a :: outer) := by
  rw [← List.nil_append (a :: outer)] at he
  exact h.getElem?_of_append he

theorem Nested.lt_size (h : s.Nested es) (he : e ∈ es) (ha : a ∈ e) : a < s.tables.size := by
  obtain ⟨nearer, outer, rfl⟩ := List.append_of_mem ha
  have hplace := h.getElem?_of_append he
  rw [← h.tables]
  exact (List.getElem?_eq_some_iff.mp hplace).1

/-- Going outward, each table is older than the one before. -/
theorem Nested.pairwise (h : s.Nested es) (he : e ∈ es) : e.Pairwise (· > ·) := by
  induction e with
  | nil => exact .nil
  | cons a outer ih =>
    obtain ⟨outer', heq, hstands⟩ := h.stands a _ (h.getElem?_of_cons he)
    cases heq
    rcases hstands with rfl | ⟨b, hba, hb⟩
    · exact List.pairwise_singleton _ a
    · have hpairwise := ih (List.mem_of_getElem? hb)
      obtain ⟨outer', rfl, -⟩ := h.stands b outer hb
      refine .cons ?_ hpairwise
      intro c hc
      rcases List.mem_cons.mp hc with rfl | hc
      · exact hba
      · exact Nat.lt_trans (List.rel_of_pairwise_cons hpairwise hc) hba

theorem Nested.nodup (h : s.Nested es) (he : e ∈ es) : e.Nodup :=
  (h.pairwise he).imp fun hgt => Nat.ne_of_gt hgt

def around? (es : List Environment) (a : Address) : Option Address := es[a]?.bind (·.tail.head?)

theorem Nested.around?_of_cons (h : s.Nested es) {outer : Environment} (he : a :: outer ∈ es) :
    around? es a = outer.head? := by
  rw [around?, h.getElem?_of_cons he]
  rfl

/-- What stands around a table was made before it. -/
theorem Nested.around?_lt (h : s.Nested es) {b : Address} (hb : around? es a = some b) : b < a := by
  obtain ⟨e, he, hhead⟩ := Option.bind_eq_some_iff.mp hb
  obtain ⟨outer, rfl, hstands⟩ := h.stands a e he
  rcases hstands with rfl | ⟨c, hca, hc⟩
  · cases hhead
  · obtain ⟨outer', rfl, -⟩ := h.stands c outer hc
    cases hhead
    exact hca

/-- No table stands around itself, with any number of tables in between. -/
theorem Nested.not_transGen_around (h : s.Nested es) (a : Address) :
    ¬Relation.TransGen (fun a b => around? es a = some b) a a := by
  have hlt {b : Address} (hpath : Relation.TransGen (fun a b => around? es a = some b) a b) : b < a := by
    induction hpath with
    | single hstep => exact h.around?_lt hstep
    | tail _ hstep ih => exact Nat.lt_trans (h.around?_lt hstep) ih
  intro hcycle
  exact Nat.lt_irrefl a (hlt hcycle)

/-- Looking for a name from table to table: the table that has it is the end, and so is a table that nothing
stands around. -/
inductive Search (s : Store) (es : List Environment) (x : String) : Address → Option Address → Prop
  | found {a : Address} (h : s.binds x a = true) : Search s es x a (some a)
  | outward {a b : Address} {result : Option Address} (h : s.binds x a = false)
      (haround : around? es a = some b) (hrest : Search s es x b result) : Search s es x a result
  | missing {a : Address} (h : s.binds x a = false) (haround : around? es a = none) :
      Search s es x a none

/-- The search from table to table has one end. -/
theorem Search.unique {x : String} {result result' : Option Address} (h : Search s es x a result)
    (h' : Search s es x a result') : result = result' := by
  induction h with
  | found hbinds =>
    cases h' with
    | found _ => rfl
    | outward hnot _ _ | missing hnot _ => exact absurd (hnot.symm.trans hbinds) Bool.false_ne_true
  | outward hnot haround _ ih =>
    cases h' with
    | found hbinds => exact absurd (hnot.symm.trans hbinds) Bool.false_ne_true
    | outward _ haround' hrest' =>
      cases haround.symm.trans haround'
      exact ih hrest'
    | missing _ hnone => cases haround.symm.trans hnone
  | missing hnot hnone =>
    cases h' with
    | found hbinds => exact absurd (hnot.symm.trans hbinds) Bool.false_ne_true
    | outward _ haround _ => cases haround.symm.trans hnone
    | missing _ _ => rfl

/-- From every environment the search comes to an end, at the owner of the name. -/
theorem Nested.search_owner? (h : s.Nested es) (x : String) {outer : Environment}
    (he : a :: outer ∈ es) : Search s es x a (s.owner? (a :: outer) x) := by
  induction outer generalizing a with
  | nil =>
    have haround : around? es a = none := h.around?_of_cons he
    cases hbinds : s.binds x a with
    | true =>
      rw [owner?, List.find?_cons_of_pos hbinds]
      exact .found hbinds
    | false =>
      rw [owner?, List.find?_cons_of_neg (Bool.eq_false_iff.mp hbinds)]
      exact .missing hbinds haround
  | cons b outer ih =>
    have haround : around? es a = some b := h.around?_of_cons he
    have hrest := ih ((h.outer he).resolve_left (List.cons_ne_nil b outer))
    cases hbinds : s.binds x a with
    | true =>
      rw [owner?, List.find?_cons_of_pos hbinds]
      exact .found hbinds
    | false =>
      rw [owner?, List.find?_cons_of_neg (Bool.eq_false_iff.mp hbinds)]
      exact .outward hbinds haround hrest

def ancestor? (es : List Environment) : Nat → Address → Option Address
  | 0, a => some a
  | d + 1, a => (around? es a).bind (ancestor? es d)

/-- Counted steps from table to table go along the environment. -/
theorem Nested.ancestor?_eq_getElem? (h : s.Nested es) {outer : Environment} (he : a :: outer ∈ es)
    (d : Nat) : ancestor? es d a = (a :: outer)[d]? := by
  induction d generalizing a outer with
  | zero => rfl
  | succ d ih =>
    rw [ancestor?, h.around?_of_cons he, List.getElem?_cons_succ]
    cases outer with
    | nil => rfl
    | cons b outer =>
      exact ih ((h.outer he).resolve_left (List.cons_ne_nil b outer))

/-- Around an environment there stand environments, at every distance that it reaches. -/
theorem Nested.drop_mem (h : s.Nested es) (he : e ∈ es) {d : Nat} (hd : d < e.length) :
    e.drop d ∈ es := by
  have hdrop : e.drop d = e[d] :: e.drop (d + 1) := List.drop_eq_getElem_cons hd
  have hplace : e.take d ++ e[d] :: e.drop (d + 1) ∈ es := by
    rw [← hdrop, List.take_append_drop]
    exact he
  rw [hdrop]
  exact List.mem_of_getElem? (h.getElem?_of_append hplace)

end

def siblings : Store :=
  ((empty.addTable.addTable.addTable).define [0] "x" .nil).define [2, 0] "x" (.bool true)

theorem made_siblings : Made siblings [[0], [1, 0], [2, 0]] := by
  have hthree : Made empty.addTable.addTable.addTable [[0], [1, 0], [2, 0]] :=
    .child (.child (.new .nothing) List.mem_cons_self) List.mem_cons_self
  have houter := hthree.define (e := [0]) (by decide) "x" .nil
  exact houter.define (e := [2, 0]) (by decide) "x" (.bool true)

end LoxLang.Store

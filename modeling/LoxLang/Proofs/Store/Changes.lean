import LoxLang.Proofs.Store.Made
import Mathlib.Data.List.Find
import Mathlib.Data.List.Nodup

/-!
What definitions and assignments change. Through however many environments a table can be seen, a write is
read back by those for which the table is the owner of the name, and by nobody else. Main statement:
`changes_only_owned`.
-/
namespace LoxLang.Store

/-- Of all environments on the way outward from `e`, `o` is the nearest one that has the name in its own
table. -/
def Owns (s : Store) (e : Environment) (x : String) (o : Environment) : Prop :=
  ∃ nearer a outer, o = a :: outer ∧ e = nearer ++ o ∧ s.binds x a = true ∧
    ∀ b ∈ nearer, s.binds x b = false

/-- Going outward from `f` leads to `e`, and no table on the way has the name. -/
def Reaches (s : Store) (f : Environment) (x : String) (e : Environment) : Prop :=
  ∃ nearer, f = nearer ++ e ∧ ∀ b ∈ nearer, s.binds x b = false

/-- From one store to another, the name gets a new value for those of the environments of which `P` holds, and
whatever else is looked for is found as before or missed as before. -/
structure ChangesOnly (s s' : Store) (es : List Environment) (x : String) (v : Value)
    (P : Environment → Prop) : Prop where
  changed : ∀ f ∈ es, P f → ∀ t : Token, t.lexeme = x → s'.get f t = .ok v
  kept : ∀ f ∈ es, ∀ t : Token, t.lexeme ≠ x ∨ ¬P f → s'.get f t = s.get f t

section

variable {s s' : Store} {es : List Environment} {e f : Environment} {a : Address} {x y : String}
  {v w : Value} {name : Token}

theorem binds_iff : s.binds x a = true ↔ ∃ v, s.readTable a x = some v := Option.isSome_iff_exists

theorem owner?_eq_some_iff : s.owner? e x = some a ↔ ∃ outer, s.Owns e x (a :: outer) := by
  rw [owner?, List.find?_eq_some_iff_append]
  constructor
  · rintro ⟨hbinds, nearer, outer, rfl, hnearer⟩
    exact ⟨outer, nearer, a, outer, rfl, rfl, hbinds, fun b hb => by simpa using hnearer b hb⟩
  · rintro ⟨outer, nearer, _, _, ⟨⟩, rfl, hbinds, hnearer⟩
    exact ⟨hbinds, nearer, outer, rfl, fun b hb => by simp [hnearer b hb]⟩

theorem get?_eq_some_iff :
    s.get? e x = some v ↔ ∃ a, s.owner? e x = some a ∧ s.readTable a x = some v :=
  Option.bind_eq_some_iff

theorem binds_of_owner? (h : s.owner? e x = some a) : s.binds x a = true := List.find?_some h

theorem get_eq_ok_iff : s.get e name = .ok v ↔ s.get? e name.lexeme = some v := by
  unfold get
  cases s.get? e name.lexeme <;> simp

/-- A name can be read where it has an owner. -/
theorem exists_get_iff : (∃ v, s.get e name = .ok v) ↔ ∃ a, s.owner? e name.lexeme = some a := by
  constructor
  · rintro ⟨v, hv⟩
    obtain ⟨a, howner, -⟩ := get?_eq_some_iff.mp (get_eq_ok_iff.mp hv)
    exact ⟨a, howner⟩
  · rintro ⟨a, howner⟩
    obtain ⟨v, hv⟩ := binds_iff.mp (binds_of_owner? howner)
    exact ⟨v, get_eq_ok_iff.mpr (get?_eq_some_iff.mpr ⟨a, howner, hv⟩)⟩

theorem get_congr (h : s'.get? f name.lexeme = s.get? f name.lexeme) :
    s'.get f name = s.get f name := by
  unfold get
  rw [h]

/-- An assignment writes to the table of the owner, if there is one. -/
theorem assign_eq_ok_iff :
    s.assign e name v = .ok s' ↔
      ∃ a, s.owner? e name.lexeme = some a ∧ s' = s.writeTable a name.lexeme v := by
  unfold assign
  cases s.owner? e name.lexeme <;> simp [eq_comm]

theorem exists_assign_iff :
    (∃ s', s.assign e name v = .ok s') ↔ ∃ a, s.owner? e name.lexeme = some a := by
  simp only [assign_eq_ok_iff]
  constructor
  · rintro ⟨s', a, howner, -⟩
    exact ⟨a, howner⟩
  · rintro ⟨a, howner⟩
    exact ⟨_, a, howner, rfl⟩

/-- A name with the same owner and the same entry there has the same value. -/
theorem get?_of_binds (h : ∀ b, s'.binds y b = s.binds y b)
    (hread : ∀ b, s.owner? f y = some b → s'.readTable b y = s.readTable b y) :
    s'.get? f y = s.get? f y := by
  have howner : s'.owner? f y = s.owner? f y := by
    unfold owner?
    rw [funext h]
  rw [get?, get?, howner]
  cases hcase : s.owner? f y with
  | none => rfl
  | some b => exact hread b hcase

/-- Another name is found where it was. -/
theorem get?_writeTable_of_ne (h : y ≠ x) : (s.writeTable a x v).get? f y = s.get? f y := by
  have hread (b : Address) : (s.writeTable a x v).readTable b y = s.readTable b y := by
    rw [readTable_writeTable, if_neg fun hwritten => h hwritten.2.2.symm]
  exact get?_of_binds (fun b => by rw [binds, binds, hread]) fun b _ => hread b

/-- A write to a table that has the name changes what is read by those whose owner the table is. -/
theorem get?_writeTable_of_binds (hsize : a < s.tables.size) (hbinds : s.binds x a = true) :
    (s.writeTable a x v).get? f x = if s.owner? f x = some a then some v else s.get? f x := by
  have hkept (b : Address) (hb : b ≠ a) : (s.writeTable a x v).readTable b x = s.readTable b x := by
    rw [readTable_writeTable, if_neg fun hwritten => hb hwritten.2.1.symm]
  have hwritten : (s.writeTable a x v).readTable a x = some v := by
    rw [readTable_writeTable, if_pos ⟨hsize, rfl, rfl⟩]
  have hall (b : Address) : (s.writeTable a x v).binds x b = s.binds x b := by
    by_cases hb : b = a
    · rw [hb, hbinds, binds, hwritten]
      rfl
    · rw [binds, binds, hkept b hb]
  split
  · next howner =>
    have howner' : (s.writeTable a x v).owner? f x = some a := by
      rw [← howner, owner?, owner?, funext hall]
    exact get?_eq_some_iff.mpr ⟨a, howner', hwritten⟩
  · next howner =>
    refine get?_of_binds hall fun b hb => hkept b ?_
    rintro rfl
    exact howner hb

/-- A write to a table that the search does not come to is not read. -/
theorem get?_writeTable_of_before {nearer outer : Environment} (hf : f = nearer ++ outer)
    (hnearer : a ∉ nearer) (hend : outer = [] ∨ ∃ b ∈ nearer, s.binds x b = true) :
    (s.writeTable a x v).get? f x = s.get? f x := by
  have hread (b : Address) (hb : b ∈ nearer) :
      (s.writeTable a x v).readTable b x = s.readTable b x := by
    rw [readTable_writeTable, if_neg]
    rintro ⟨-, rfl, -⟩
    exact hnearer hb
  have hfind : nearer.find? ((s.writeTable a x v).binds x) = nearer.find? (s.binds x) := by
    apply List.find?_congr
    intro b hb
    rw [binds, binds, hread b hb]
  have hstays (s' : Store) (hs' : outer = [] ∨ ∃ b ∈ nearer, s'.binds x b = true) :
      s'.owner? f x = nearer.find? (s'.binds x) := by
    rw [owner?, hf, List.find?_append]
    rcases hs' with rfl | hb
    · rw [List.find?_nil, Option.or_none]
    · exact Option.or_of_isSome (List.find?_isSome.mpr hb)
  have hend' : outer = [] ∨ ∃ b ∈ nearer, (s.writeTable a x v).binds x b = true := by
    refine hend.imp_right ?_
    rintro ⟨b, hb, hbinds⟩
    exact ⟨b, hb, by rw [binds, hread b hb]; exact hbinds⟩
  rw [get?, get?, hstays _ hend', hstays _ hend, hfind]
  cases hcase : nearer.find? (s.binds x) with
  | none => rfl
  | some b => exact hread b (List.mem_of_find?_eq_some hcase)

/-- A write to a table is read by those that come to the table before they come to the name. -/
theorem get?_writeTable_of_reaches {outer : Environment} (hsize : a < s.tables.size)
    (h : s.Reaches f x (a :: outer)) : (s.writeTable a x v).get? f x = some v := by
  obtain ⟨nearer, rfl, hnearer⟩ := h
  have hwritten : (s.writeTable a x v).readTable a x = some v := by
    rw [readTable_writeTable, if_pos ⟨hsize, rfl, rfl⟩]
  have hbinds : (s.writeTable a x v).binds x a = true := binds_iff.mpr ⟨v, hwritten⟩
  have howner : (s.writeTable a x v).owner? (nearer ++ a :: outer) x = some a := by
    induction nearer with
    | nil => exact List.find?_cons_of_pos hbinds
    | cons b nearer ih =>
      have ih := ih fun c hc => hnearer c (List.mem_cons_of_mem b hc)
      by_cases hb : b = a
      · rw [hb]
        exact List.find?_cons_of_pos hbinds
      · have hnot : ¬(s.writeTable a x v).binds x b = true := by
          rw [binds, readTable_writeTable, if_neg fun hwritten => hb hwritten.2.1.symm]
          exact Bool.eq_false_iff.mp (hnearer b List.mem_cons_self)
        exact (List.find?_cons_of_neg hnot).trans ih
  exact get?_eq_some_iff.mpr ⟨a, howner, hwritten⟩

/-- An assignment changes the name for those that have the same owner of it. -/
theorem changesOnly_assign (h : s.Nested es) (he : e ∈ es) {o : Environment}
    (howner : s.Owns e name.lexeme o) (hassign : s.assign e name v = .ok s') :
    ChangesOnly s s' es name.lexeme v fun f => s.Owns f name.lexeme o := by
  obtain ⟨nearer, a, outer, rfl, rfl, hbinds, hnearer⟩ := howner
  have ha : s.owner? (nearer ++ a :: outer) name.lexeme = some a :=
    owner?_eq_some_iff.mpr ⟨outer, nearer, a, outer, rfl, rfl, hbinds, hnearer⟩
  obtain ⟨b, hb, rfl⟩ := assign_eq_ok_iff.mp hassign
  cases ha.symm.trans hb
  have hsize : a < s.tables.size := h.lt_size he (List.mem_append_right nearer List.mem_cons_self)
  have hplace := h.getElem?_of_append he
  constructor
  · intro f _ hf t ht
    have howner : s.owner? f name.lexeme = some a := owner?_eq_some_iff.mpr ⟨outer, hf⟩
    rw [get_eq_ok_iff, ht, get?_writeTable_of_binds hsize hbinds, if_pos howner]
  · intro f hf t ht
    by_cases hname : t.lexeme = name.lexeme
    · refine get_congr ?_
      rw [hname, get?_writeTable_of_binds hsize hbinds, if_neg]
      intro howner
      obtain ⟨outer', hf'⟩ := owner?_eq_some_iff.mp howner
      obtain ⟨nearer', _, _, ⟨⟩, hsplit, -⟩ := id hf'
      have hplace' := h.getElem?_of_append (hsplit ▸ hf)
      cases hplace.symm.trans hplace'
      exact ht.elim (fun hne => hne hname) fun hnot => hnot hf'
    · exact get_congr (get?_writeTable_of_ne hname)

/-- A definition changes the name for those that come to the environment with the name not found. -/
theorem changesOnly_define (h : s.Nested es) (he : e ∈ es) (x : String) (v : Value) :
    ChangesOnly s (s.define e x v) es x v fun f => s.Reaches f x e := by
  obtain ⟨a, outer, rfl⟩ := h.exists_cons he
  have hsize : a < s.tables.size := h.lt_size he List.mem_cons_self
  have hplace := h.getElem?_of_cons he
  constructor
  · intro f _ hf t ht
    rw [get_eq_ok_iff, ht]
    exact get?_writeTable_of_reaches hsize hf
  · intro f hf t ht
    refine get_congr ?_
    by_cases hname : t.lexeme = x
    · rw [hname]
      by_cases ha : a ∈ f
      · obtain ⟨nearer, outer', rfl⟩ := List.append_of_mem ha
        cases hplace.symm.trans (h.getElem?_of_append hf)
        have hnodup := h.nodup hf
        have hnearer : a ∉ nearer := fun hmem =>
          List.disjoint_of_nodup_append hnodup hmem List.mem_cons_self
        have hnot := ht.resolve_left fun hne => hne hname
        have hfound : ∃ b ∈ nearer, s.binds x b = true := by
          by_contra hnone
          refine hnot ⟨nearer, rfl, fun b hb => Bool.eq_false_iff.mpr fun hbinds => ?_⟩
          exact hnone ⟨b, hb, hbinds⟩
        exact get?_writeTable_of_before rfl hnearer (.inr hfound)
      · exact get?_writeTable_of_before (List.append_nil f).symm ha (.inl rfl)
    · exact get?_writeTable_of_ne hname

/-- A change that fails changes nothing. -/
theorem settle_of_error {changed : Except RuntimeError Store} {err : RuntimeError}
    (h : changed = .error err) : s.settle changed = s := by
  rw [h]
  rfl

end

/-- An assignment succeeds where the name can be read, which is where it has an owner, and changes the name for
exactly those environments that have the same owner of it; a definition changes it for exactly those that come
to the environment with the name not found nearer by. An assignment that fails, outward or at a distance,
changes nothing. No table stands around itself, and so the search for a name from table to table
has one end, which is its owner. -/
theorem changes_only_owned {s : Store} {es : List Environment} (h : Made s es) {e : Environment}
    (he : e ∈ es) (name : Token) (v : Value) :
    ((∃ s', s.assign e name v = .ok s') ↔ ∃ w, s.get e name = .ok w) ∧
    ((∃ w, s.get e name = .ok w) ↔ ∃ o, s.Owns e name.lexeme o) ∧
    (∀ s' o, s.assign e name v = .ok s' → s.Owns e name.lexeme o →
      ChangesOnly s s' es name.lexeme v fun f => s.Owns f name.lexeme o) ∧
    ChangesOnly s (s.define e name.lexeme v) es name.lexeme v
      (fun f => s.Reaches f name.lexeme e) ∧
    (∀ err, s.assign e name v = .error err → s.settle (s.assign e name v) = s) ∧
    (∀ d err, s.assignAt e d name v = .error err → s.settle (s.assignAt e d name v) = s) ∧
    (∀ a, ¬Relation.TransGen (fun a b => around? es a = some b) a a) ∧
    ∃ a outer, e = a :: outer ∧
      ∀ result, Search s es name.lexeme a result ↔ result = s.owner? e name.lexeme := by
  have hnested := Nested.of_made h
  refine ⟨exists_assign_iff.trans exists_get_iff.symm, ?_, ?_, ?_, ?_, ?_, ?_, ?_⟩
  · rw [exists_get_iff]
    constructor
    · rintro ⟨a, howner⟩
      obtain ⟨outer, howns⟩ := owner?_eq_some_iff.mp howner
      exact ⟨a :: outer, howns⟩
    · rintro ⟨o, howns⟩
      obtain ⟨nearer, a, outer, rfl, -⟩ := id howns
      exact ⟨a, owner?_eq_some_iff.mpr ⟨outer, howns⟩⟩
  · intro s' o hassign howns
    exact changesOnly_assign hnested he howns hassign
  · exact changesOnly_define hnested he name.lexeme v
  · exact fun err => settle_of_error
  · exact fun d err => settle_of_error
  · exact hnested.not_transGen_around
  · obtain ⟨a, outer, rfl⟩ := hnested.exists_cons he
    have hsearch := hnested.search_owner? name.lexeme he
    refine ⟨a, outer, rfl, fun result => ?_⟩
    constructor
    · intro h
      exact h.unique hsearch
    · rintro rfl
      exact hsearch

/-- An assignment from one of two siblings is seen outside of both, and not from the sibling that has a variable
of its own. -/
theorem changes_only_owned_siblings : ∃ s',
    siblings.assign [1, 0] ⟨.identifier, "x", 1⟩ (.bool false) = .ok s' ∧
      s'.get [0] ⟨.identifier, "x", 2⟩ = .ok (.bool false) ∧
      s'.get [2, 0] ⟨.identifier, "x", 3⟩ = .ok (.bool true) := by
  obtain ⟨-, -, hassign, -⟩ := changes_only_owned made_siblings (e := [1, 0]) (by decide)
    ⟨.identifier, "x", 1⟩ (.bool false)
  have howns (nearer : Environment) (hnearer : ∀ b ∈ nearer, siblings.binds "x" b = false) :
      siblings.Owns (nearer ++ [0]) "x" [0] := ⟨nearer, 0, [], rfl, rfl, rfl, hnearer⟩
  have hchanges := hassign _ [0] rfl (howns [1] (by decide))
  refine ⟨_, rfl, ?_, ?_⟩
  · exact hchanges.changed [0] (by decide) (howns [] nofun) _ rfl
  · rw [hchanges.kept [2, 0] (by decide) ⟨.identifier, "x", 3⟩]
    · rfl
    · refine .inr ?_
      rintro ⟨nearer, a, outer, ⟨⟩, hsplit, -, hnearer⟩
      have hmem : 2 ∈ nearer := by
        cases nearer with
        | nil => cases hsplit
        | cons b nearer =>
          obtain ⟨rfl, -⟩ := List.cons.inj hsplit
          exact List.mem_cons_self
      exact absurd (hnearer 2 hmem) (by decide)

end LoxLang.Store

import LoxLang.Proofs.Store.Changes

/-!
Variables at a distance. Going so many tables outward and looking there agrees with looking outward for the
name, if the distance is that of the nearest table that has the name; at other distances it finds what is
shadowed, or nothing. Main statement: `atDistance_agrees`.
-/
namespace LoxLang.Store

section

variable {s s' : Store} {es : List Environment} {e : Environment} {a : Address} {d : Nat} {x : String}
  {v w : Value} {name : Token}

theorem ownerAt?_eq_some_iff :
    s.ownerAt? e d x = some a ↔ e[d]? = some a ∧ s.binds x a = true := Option.filter_eq_some_iff

theorem getAt_eq_ok_iff :
    s.getAt e d name = .ok v ↔
      ∃ a, s.ownerAt? e d name.lexeme = some a ∧ s.readTable a name.lexeme = some v := by
  have hread : s.getAt? e d name.lexeme = some v ↔
      ∃ a, s.ownerAt? e d name.lexeme = some a ∧ s.readTable a name.lexeme = some v :=
    Option.bind_eq_some_iff
  rw [← hread, getAt]
  cases s.getAt? e d name.lexeme <;> simp

/-- A variable can be read at a distance exactly if the table there has it. -/
theorem exists_getAt_iff :
    (∃ v, s.getAt e d name = .ok v) ↔ ∃ a, s.ownerAt? e d name.lexeme = some a := by
  simp only [getAt_eq_ok_iff]
  constructor
  · rintro ⟨v, a, ha, -⟩
    exact ⟨a, ha⟩
  · rintro ⟨a, ha⟩
    obtain ⟨v, hv⟩ := binds_iff.mp (ownerAt?_eq_some_iff.mp ha).2
    exact ⟨v, a, ha, hv⟩

theorem assignAt_of_ownerAt? (h : s.ownerAt? e d name.lexeme = some a) (v : Value) :
    s.assignAt e d name v = .ok (s.writeTable a name.lexeme v) := by
  rw [assignAt, h]

/-- The owner of a name stands at the least distance at which there is a table with the name. -/
theorem owner?_eq_ownerAt? (h : s.ownerAt? e d x = some a)
    (hleast : ∀ d' < d, ∀ b, s.ownerAt? e d' x ≠ some b) : s.owner? e x = some a := by
  obtain ⟨hplace, hbinds⟩ := ownerAt?_eq_some_iff.mp h
  obtain ⟨hlt, hget⟩ := List.getElem?_eq_some_iff.mp hplace
  refine List.find?_eq_some_iff_getElem.mpr ⟨hbinds, d, hlt, hget, fun d' hd' => ?_⟩
  have hlt' : d' < e.length := Nat.lt_trans hd' hlt
  cases hcase : s.binds x e[d'] with
  | false => rfl
  | true =>
    have hfound := ownerAt?_eq_some_iff.mpr ⟨List.getElem?_eq_getElem hlt', hcase⟩
    exact absurd hfound (hleast d' hd' _)

/-- A name has an owner if there is a table with the name at some distance. -/
theorem exists_ownerAt?_iff :
    (∃ d a, s.ownerAt? e d x = some a) ↔ ∃ a, s.owner? e x = some a := by
  constructor
  · rintro ⟨d, a, h⟩
    obtain ⟨hplace, hbinds⟩ := ownerAt?_eq_some_iff.mp h
    exact Option.isSome_iff_exists.mp
      (List.find?_isSome.mpr ⟨a, List.mem_of_getElem? hplace, hbinds⟩)
  · rintro ⟨a, h⟩
    obtain ⟨d, hd⟩ := List.mem_iff_getElem?.mp (List.mem_of_find?_eq_some h)
    exact ⟨d, a, ownerAt?_eq_some_iff.mpr ⟨hd, binds_of_owner? h⟩⟩

/-- What stands at a distance belongs to the environment that stands there. -/
theorem get_drop_of_ownerAt? (h : s.ownerAt? e d name.lexeme = some a)
    (hv : s.readTable a name.lexeme = some v) : s.get (e.drop d) name = .ok v := by
  obtain ⟨hplace, hbinds⟩ := ownerAt?_eq_some_iff.mp h
  obtain ⟨hlt, rfl⟩ := List.getElem?_eq_some_iff.mp hplace
  have howner : s.owner? (e.drop d) name.lexeme = some e[d] := by
    rw [List.drop_eq_getElem_cons hlt]
    exact List.find?_cons_of_pos hbinds
  exact get_eq_ok_iff.mpr (get?_eq_some_iff.mpr ⟨_, howner, hv⟩)

/-- A write at a distance is read back there. -/
theorem ownerAt?_writeTable (hsize : a < s.tables.size) (h : s.ownerAt? e d x = some a) :
    (s.writeTable a x v).ownerAt? e d x = some a ∧ (s.writeTable a x v).readTable a x = some v := by
  have hread : (s.writeTable a x v).readTable a x = some v := by
    rw [readTable_writeTable, if_pos ⟨hsize, rfl, rfl⟩]
  have hplace := (ownerAt?_eq_some_iff.mp h).1
  exact ⟨ownerAt?_eq_some_iff.mpr ⟨hplace, binds_iff.mpr ⟨v, hread⟩⟩, hread⟩

/-- What is shadowed can be read and written at its distance, and nobody who looks for the name sees it. -/
theorem shadowed_at (h : s.Nested es) (he : e ∈ es) {d' : Nat} (hd : d < d')
    (howner : s.ownerAt? e d name.lexeme = some a) (hfound : s.owner? e name.lexeme = some a)
    (hw : s.getAt e d' name = .ok w) :
    s.get (e.drop d') name = .ok w ∧ ∀ v, ∃ s', s.assignAt e d' name v = .ok s' ∧
      s'.getAt e d' name = .ok v ∧ s'.get (e.drop d') name = .ok v ∧
      s'.get e name = s.get e name := by
  obtain ⟨b, hb, hread⟩ := getAt_eq_ok_iff.mp hw
  refine ⟨get_drop_of_ownerAt? hb hread, fun v => ?_⟩
  obtain ⟨hplace, hbinds⟩ := ownerAt?_eq_some_iff.mp hb
  have hsize : b < s.tables.size := h.lt_size he (List.mem_of_getElem? hplace)
  obtain ⟨hb', hread'⟩ := ownerAt?_writeTable (v := v) hsize hb
  refine ⟨_, assignAt_of_ownerAt? hb v, getAt_eq_ok_iff.mpr ⟨b, hb', hread'⟩,
    get_drop_of_ownerAt? hb' hread', get_congr ?_⟩
  have hne : s.owner? e name.lexeme ≠ some b := by
    intro hsame
    cases hfound.symm.trans hsame
    obtain ⟨hlt, hget⟩ := List.getElem?_eq_some_iff.mp (ownerAt?_eq_some_iff.mp howner).1
    obtain ⟨hlt', hget'⟩ := List.getElem?_eq_some_iff.mp hplace
    have heq : d = d' := (List.getElem_inj (h.nodup he)).mp (hget.trans hget'.symm)
    exact Nat.ne_of_lt hd heq
  rw [get?_writeTable_of_binds hsize hbinds, if_neg hne]

/-- Where no table with the name stands at the distance, looking there fails as looking outward fails. -/
theorem undefined_at (h : ∀ a, e[d]? = some a → s.binds name.lexeme a = false) :
    s.getAt e d name = .error (.undefined name) ∧
      ∀ v, s.assignAt e d name v = .error (.undefined name) := by
  have hnone : s.ownerAt? e d name.lexeme = none := by
    cases hcase : s.ownerAt? e d name.lexeme with
    | none => rfl
    | some a =>
      obtain ⟨hplace, hbinds⟩ := ownerAt?_eq_some_iff.mp hcase
      exact absurd ((h a hplace).symm.trans hbinds) Bool.false_ne_true
  constructor
  · rw [getAt, getAt?, hnone]
    rfl
  · intro v
    rw [assignAt, hnone]

theorem error_of_get {err : RuntimeError} (h : s.get e name = .error err) : err = .undefined name := by
  unfold get at h
  cases hcase : s.get? e name.lexeme with
  | none =>
    rw [hcase] at h
    cases h
    rfl
  | some v =>
    rw [hcase] at h
    cases h

theorem error_of_assign {err : RuntimeError} (h : s.assign e name v = .error err) :
    err = .undefined name := by
  unfold assign at h
  cases hcase : s.owner? e name.lexeme with
  | none =>
    rw [hcase] at h
    cases h
    rfl
  | some a =>
    rw [hcase] at h
    cases h

end

/-- A name can be read outward if it can be read at some distance; at the least such distance both give the same
value, and assigning gives the same store. At a larger distance what is read and written is the shadowed
variable of the environment that stands there, which changes nothing for those who look outward. At all other
distances both fail, with the error that looking outward for the name fails with, and nothing changes. A distance
counts steps from table to table. -/
theorem atDistance_agrees {s : Store} {es : List Environment} (h : Made s es) {e : Environment}
    (he : e ∈ es) (name : Token) :
    ((∃ v, s.get e name = .ok v) ↔ ∃ d v, s.getAt e d name = .ok v) ∧
    (∀ d, (∃ v, s.getAt e d name = .ok v) → (∀ d' < d, ¬∃ v, s.getAt e d' name = .ok v) →
      s.get e name = s.getAt e d name ∧
      (∀ v, ∃ s', s.assign e name v = .ok s' ∧ s.assignAt e d name v = .ok s') ∧
      ∀ d' > d, ∀ w, s.getAt e d' name = .ok w →
        e.drop d' ∈ es ∧ s.get (e.drop d') name = .ok w ∧
        ∀ v, ∃ s', s.assignAt e d' name v = .ok s' ∧ s'.getAt e d' name = .ok v ∧
          s'.get (e.drop d') name = .ok v ∧ s'.get e name = s.get e name) ∧
    (∀ d, (∀ a, e[d]? = some a → s.binds name.lexeme a = false) →
      s.getAt e d name = .error (.undefined name) ∧
      ∀ v, s.assignAt e d name v = .error (.undefined name) ∧
        s.settle (s.assignAt e d name v) = s) ∧
    (∀ f err, s.get f name = .error err → err = .undefined name) ∧
    (∀ f v err, s.assign f name v = .error err → err = .undefined name) ∧
    (RuntimeError.undefined name).line = name.line ∧
    (RuntimeError.undefined name).message = "Undefined variable '" ++ name.lexeme ++ "'." ∧
    ∃ a outer, e = a :: outer ∧ ∀ d, e[d]? = ancestor? es d a := by
  have hnested := Nested.of_made h
  refine ⟨?_, ?_, ?_, fun _ _ => error_of_get, fun _ _ _ => error_of_assign, rfl, rfl, ?_⟩
  · simp only [exists_get_iff, exists_getAt_iff, exists_ownerAt?_iff]
  · intro d hd hleast
    obtain ⟨a, ha⟩ := exists_getAt_iff.mp hd
    -- the table at the least distance that has the name is the owner of the name
    have howner : s.owner? e name.lexeme = some a := by
      refine owner?_eq_ownerAt? ha fun d' hd' b hb => ?_
      exact hleast d' hd' (exists_getAt_iff.mpr ⟨b, hb⟩)
    refine ⟨?_, ?_, ?_⟩
    · obtain ⟨v, hv⟩ := hd
      obtain ⟨b, hb, hread⟩ := getAt_eq_ok_iff.mp hv
      cases ha.symm.trans hb
      rw [hv, get_eq_ok_iff, get?_eq_some_iff]
      exact ⟨a, howner, hread⟩
    · intro v
      exact ⟨_, assign_eq_ok_iff.mpr ⟨a, howner, rfl⟩, assignAt_of_ownerAt? ha v⟩
    · intro d' hd' w hw
      obtain ⟨b, hb, -⟩ := getAt_eq_ok_iff.mp hw
      have hlt : d' < e.length := (List.getElem?_eq_some_iff.mp (ownerAt?_eq_some_iff.mp hb).1).1
      exact ⟨hnested.drop_mem he hlt, shadowed_at hnested he hd' ha howner hw⟩
  · intro d hd
    obtain ⟨hget, hassign⟩ := undefined_at hd
    exact ⟨hget, fun v => ⟨hassign v, settle_of_error (hassign v)⟩⟩
  · obtain ⟨a, outer, rfl⟩ := hnested.exists_cons he
    exact ⟨a, outer, rfl, fun d => (hnested.ancestor?_eq_getElem? he d).symm⟩

/-- Of two variables of one name the outer one is assigned, and the inner one is still what is found. -/
theorem atDistance_agrees_siblings : ∃ s',
    siblings.assignAt [2, 0] 1 ⟨.identifier, "x", 1⟩ (.bool false) = .ok s' ∧
      s'.get [0] ⟨.identifier, "x", 1⟩ = .ok (.bool false) ∧
      s'.get [2, 0] ⟨.identifier, "x", 1⟩ = .ok (.bool true) := by
  obtain ⟨-, hleast, -⟩ := atDistance_agrees made_siblings (e := [2, 0]) (by decide)
    ⟨.identifier, "x", 1⟩
  obtain ⟨-, -, hshadowed⟩ := hleast 0 ⟨.bool true, rfl⟩ nofun
  obtain ⟨-, -, hwrite⟩ := hshadowed 1 Nat.zero_lt_one .nil rfl
  obtain ⟨s', hassign, -, houter, hinner⟩ := hwrite (.bool false)
  exact ⟨s', hassign, houter, hinner.trans rfl⟩

end LoxLang.Store

import LoxLang.Proofs.Lexical.World

/-!
The changes of state that a program makes, on both sides at once: a location is taken, a value is
written, a table is added. After each of them machine and reference are still in the same state.
-/
namespace LoxLang.Lexical

open World

section

variable {W : World} {m : Machine} {r : State}

theorem place_of_fill {l k : Location} {p : Place} (h : (W.fill l).places[k]? = some p) :
    ∃ b, W.places[k]? = some ⟨p.address, p.name, b⟩ ∧ p.isSet = (b || decide (l = k)) := by
  rw [fill, List.getElem?_modify] at h
  cases hp : W.places[k]? with
  | none => simp [hp] at h
  | some p' =>
    simp only [hp, Option.map_eq_map, Option.map_some, Option.some.injEq] at h
    subst h
    by_cases hk : l = k
    · exact ⟨p'.isSet, by simp [hk], by simp [hk]⟩
    · exact ⟨p'.isSet, by simp [hk], by simp [hk]⟩

theorem Same.rel_mono {W' : World} (le : Extends W W') {o : Option LoxLang.Value} {o' : Option Value}
    (h : Option.Rel (Same W) o o') : Option.Rel (Same W') o o' := by
  cases h with
  | none => exact .none
  | some h => exact .some (h.mono le)

/-- A value is written to the entry that a location is. -/
theorem Related.fill (h : Related W m r) {l : Location} {a : Address} {x : String} {b : Bool}
    (hp : W.places[l]? = some ⟨a, x, b⟩) {v : LoxLang.Value} {v' : Value}
    (hv : Same (W.fill l) v v') :
    Related (W.fill l) { m with store := m.store.writeTable a x v } (r.setLocation l v') := by
  have hle := extends_fill W l
  have hla : 0 < a ∧ a < W.tables := h.inside l _ hp
  have hsize : a < m.store.tables.size := by
    rw [h.tables]
    exact hla.2
  have hl : l < r.locations.length := by
    rw [h.count]
    exact (List.getElem?_eq_some_iff.mp hp).1
  refine { h with
    tables := ?_, count := ?_, distinct := ?_, inside := ?_, value := ?_, placed := ?_,
    globals := ?_ }
  · exact (Array.size_modify ..).trans h.tables
  · rw [State.setLocation, World.fill, List.length_set, List.length_modify, h.count]
  · intro k k' p p' hk hk' haddress hname
    obtain ⟨_, hk, -⟩ := place_of_fill hk
    obtain ⟨_, hk', -⟩ := place_of_fill hk'
    exact h.distinct k k' _ _ hk hk' haddress hname
  · intro k p hk
    obtain ⟨_, hk, -⟩ := place_of_fill hk
    have hinside := h.inside k _ hk
    exact hinside
  · intro k p hk
    obtain ⟨b', hk, hset⟩ := place_of_fill hk
    rw [Store.readTable_writeTable, State.valueAt?, State.setLocation, List.getElem?_set]
    by_cases hlk : l = k
    · subst hlk
      rw [hp] at hk
      cases hk
      rw [if_pos ⟨hsize, rfl, rfl⟩, if_pos rfl, if_pos hl]
      exact ⟨.some hv, by simp [hset]⟩
    · have hne : ¬(a < m.store.tables.size ∧ a = p.address ∧ x = p.name) := fun heq =>
        hlk (h.distinct l k _ _ hp hk heq.2.1 heq.2.2)
      rw [if_neg hne, if_neg hlk]
      obtain ⟨hrel, hsome⟩ := h.value k _ hk
      exact ⟨Same.rel_mono hle hrel, by simp [hsome, hset, hlk]⟩
  · intro a' y ha' hsome
    rw [Store.readTable_writeTable] at hsome
    by_cases heq : a < m.store.tables.size ∧ a = a' ∧ x = y
    · obtain ⟨-, rfl, rfl⟩ := heq
      obtain ⟨b', hp', -⟩ := hle.places l _ hp
      exact ⟨l, _, hp', rfl, rfl⟩
    · rw [if_neg heq] at hsome
      obtain ⟨k, p, hk, haddress, hname⟩ := h.placed a' y ha' hsome
      obtain ⟨b', hk', -⟩ := hle.places k _ hk
      exact ⟨k, _, hk', haddress, hname⟩
  · intro y
    rw [Store.readTable_writeTable, if_neg fun heq => Nat.ne_of_gt hla.1 heq.2.1]
    exact Same.rel_mono hle (h.globals y)

/-- A global variable gets a value. -/
theorem Related.setGlobal (h : Related W m r) (x : String) {v : LoxLang.Value} {v' : Value}
    (hv : Same W v v') :
    Related W { m with store := m.store.writeTable 0 x v } (r.setGlobal x v') := by
  have hother {a : Address} (ha : 0 < a) (y : String) :
      (m.store.writeTable 0 x v).readTable a y = m.store.readTable a y := by
    rw [Store.readTable_writeTable, if_neg fun heq => Nat.ne_of_lt ha heq.2.1]
  refine { h with tables := ?_, value := ?_, placed := ?_, globals := ?_ }
  · exact (Array.size_modify ..).trans h.tables
  · intro l p hp
    rw [hother (h.inside l p hp).1]
    exact h.value l p hp
  · intro a y ha hsome
    rw [hother ha] at hsome
    exact h.placed a y ha hsome
  · intro y
    have hsize : 0 < m.store.tables.size := by
      rw [h.tables]
      exact h.positive
    rw [Store.readTable_writeTable, State.setGlobal, Bindings.find?_insert]
    by_cases hxy : x = y
    · rw [if_pos ⟨hsize, rfl, hxy⟩, if_pos hxy]
      exact .some hv
    · rw [if_neg fun hall => hxy hall.2.2, if_neg hxy]
      exact h.globals y

theorem place_of_push {a : Address} {x : String} {l : Location} {p : Place}
    (h : (W.push a x).places[l]? = some p) :
    W.places[l]? = some p ∨ l = W.places.length ∧ p = ⟨a, x, false⟩ := by
  rw [push, List.getElem?_append] at h
  split at h
  · exact .inl h
  · next hl =>
    have hlt := (List.getElem?_eq_some_iff.mp h).1
    rw [List.length_singleton] at hlt
    have hlen : l = W.places.length :=
      Nat.le_antisymm (Nat.sub_eq_zero_iff_le.mp (Nat.lt_one_iff.mp hlt)) (Nat.not_lt.mp hl)
    rw [hlen, Nat.sub_self] at h
    exact .inr ⟨hlen, (Option.some.inj h).symm⟩

theorem place_push (W : World) (a : Address) (x : String) :
    (W.push a x).places[W.places.length]? = some ⟨a, x, false⟩ := by simp [push]

theorem place_push_of_place {a : Address} {x : String} {l : Location} {p : Place}
    (h : W.places[l]? = some p) : (W.push a x).places[l]? = some p := by
  rw [push, List.getElem?_append_left (List.getElem?_eq_some_iff.mp h).1, h]

/-- The reference takes a location, whose place is an entry that no other location has. -/
theorem Related.push (h : Related W m r) {a : Address} {x : String} (hpos : 0 < a)
    (hlt : a < W.tables)
    (hfree : ∀ (l : Location) (p : Place), W.places[l]? = some p → p.address = a → p.name ≠ x) :
    Related (W.push a x) m r.take := by
  have hle : Extends W (W.push a x) := (keeps_push (A := (· = a)) rfl).extends
  have hnone : m.store.readTable a x = none := by
    cases hread : m.store.readTable a x with
    | none => rfl
    | some v =>
      obtain ⟨l, p, hp, haddress, hname⟩ := h.placed a x hpos (by rw [hread]; rfl)
      exact absurd hname (hfree l p hp haddress)
  refine { h with
    count := ?_, distinct := ?_, inside := ?_, value := ?_, placed := ?_, globals := ?_ }
  · simp [World.push, State.take, h.count]
  · intro l l' p p' hl hl' haddress hname
    rcases place_of_push hl with hl | ⟨rfl, rfl⟩ <;> rcases place_of_push hl' with hl' | ⟨rfl, rfl⟩
    · exact h.distinct l l' p p' hl hl' haddress hname
    · exact absurd hname (hfree l p hl haddress)
    · exact absurd hname.symm (hfree l' p' hl' haddress.symm)
    · rfl
  · intro l p hl
    rcases place_of_push hl with hl | ⟨rfl, rfl⟩
    · exact h.inside l p hl
    · exact ⟨hpos, hlt⟩
  · intro l p hl
    rw [State.valueAt?, State.take, List.getElem?_append]
    rcases place_of_push hl with hl | ⟨rfl, rfl⟩
    · have hlength : l < r.locations.length := by
        rw [h.count]
        exact (List.getElem?_eq_some_iff.mp hl).1
      rw [if_pos hlength]
      obtain ⟨hrel, hsome⟩ := h.value l p hl
      exact ⟨Same.rel_mono hle hrel, hsome⟩
    · rw [if_neg (by rw [h.count]; exact Nat.lt_irrefl _), hnone, h.count, Nat.sub_self]
      exact ⟨.none, rfl⟩
  · intro a' y ha' hsome
    obtain ⟨l, p, hl, haddress, hname⟩ := h.placed a' y ha' hsome
    exact ⟨l, p, place_push_of_place hl, haddress, hname⟩
  · exact fun y => Same.rel_mono hle (h.globals y)

/-- Where the program is does not show in its state. -/
theorem Related.setCurrent (h : Related W m r) (e : Environment) :
    Related W { m with current := e } r := { h with }

/-- Another table, without entries, keeps both sides in the same state. -/
theorem Related.addTable (h : Related W m r) :
    Related W.addTable { m with store := m.store.addTable } r := by
  have hle := extends_addTable W
  refine { h with
    tables := ?_, positive := ?_, inside := ?_, value := ?_, placed := ?_, globals := ?_ }
  · simp [World.addTable, Store.addTable, h.tables]
  · exact Nat.succ_pos _
  · intro l p hp
    obtain ⟨hpos, hlt⟩ := h.inside l p hp
    exact ⟨hpos, Nat.lt_succ_of_lt hlt⟩
  · intro l p hp
    rw [Store.readTable_addTable]
    obtain ⟨hrel, hsome⟩ := h.value l p hp
    exact ⟨Same.rel_mono hle hrel, hsome⟩
  · intro a x ha hsome
    rw [Store.readTable_addTable] at hsome
    exact h.placed a x ha hsome
  · intro x
    rw [Store.readTable_addTable]
    exact Same.rel_mono hle (h.globals x)

/-- More is recorded of uses, and more is known. -/
theorem Related.learn (h : Related W m r) {distances : Distances} {known : Known}
    (le : ∀ id d, W.known id d → known id d) (hknown : ∀ id d, known id d → distances[id]? = d) :
    Related { W with distances := distances, known := known } { m with distances := distances } r := by
  have hle : Extends W { W with distances := distances, known := known } :=
    ⟨le, Nat.le_refl _, fun _ p hp => ⟨p.isSet, hp, fun hset => hset⟩⟩
  refine { h with value := ?_, globals := ?_, distances := rfl, known := hknown }
  · intro l p hp
    obtain ⟨hrel, hsome⟩ := h.value l p hp
    exact ⟨Same.rel_mono hle hrel, hsome⟩
  · exact fun x => Same.rel_mono hle (h.globals x)

end

end LoxLang.Lexical

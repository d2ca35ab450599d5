import LoxLang.Proofs.Lexical.Evaluation
import LoxLang.Proofs.Lexical.Scoped
import LoxLang.Proofs.Values

/-!
How the tables of a machine stand for the locations of the reference. A world says, for each location,
which entry of which table it is, and whether it has a value; the entries of different locations
differ. An environment fits the names in sight if each name's location is the entry of that name as
far out as the scopes say. Later worlds know more locations and give values to some that had none.
-/
namespace LoxLang.Lexical

structure Place where
  address : Address
  name : String
  isSet : Bool

structure World where
  places : List Place
  tables : Nat
  distances : Distances
  /-- The part of it that uses in function values and in the program may rely on. -/
  known : Known
  /-- Does the output take everything? If not, a program may be broken off where the reference is not. -/
  lossless : Bool

namespace World

def push (W : World) (a : Address) (x : String) : World :=
  { W with places := W.places ++ [⟨a, x, false⟩] }

def fill (W : World) (l : Location) : World :=
  { W with places := W.places.modify l fun p => { p with isSet := true } }

def addTable (W : World) : World := { W with tables := W.tables + 1 }

structure Extends (W W' : World) : Prop where
  known : ∀ id d, W.known id d → W'.known id d
  tables : W.tables ≤ W'.tables
  places : ∀ (l : Location) (p : Place), W.places[l]? = some p →
    ∃ b, W'.places[l]? = some ⟨p.address, p.name, b⟩ ∧ (p.isSet = true → b = true)

/-- A later world with the same values, whose new locations are at new tables or at addresses of a
given kind. -/
structure Keeps (A : Address → Prop) (W W' : World) : Prop where
  known : W'.known = W.known
  distances : W'.distances = W.distances
  lossless : W'.lossless = W.lossless
  tables : W.tables ≤ W'.tables
  places : ∃ added, W'.places = W.places ++ added ∧ ∀ p ∈ added, W.tables ≤ p.address ∨ A p.address

theorem Extends.refl (W : World) : Extends W W where
  known _ _ h := h
  tables := Nat.le_refl _
  places _ p h := ⟨p.isSet, h, fun hp => hp⟩

theorem Extends.trans {W W' W'' : World} (h : Extends W W') (h' : Extends W' W'') :
    Extends W W'' where
  known id d hid := h'.known id d (h.known id d hid)
  tables := Nat.le_trans h.tables h'.tables
  places l p hp := by
    obtain ⟨b, hb, hset⟩ := h.places l p hp
    obtain ⟨b', hb', hset'⟩ := h'.places l _ hb
    exact ⟨b', hb', fun hp => hset' (hset hp)⟩

theorem extends_fill (W : World) (l : Location) : Extends W (W.fill l) where
  known _ _ h := h
  tables := Nat.le_refl _
  places k p hp := by
    by_cases hk : l = k
    · exact ⟨true, by simp [fill, hk, hp], fun _ => rfl⟩
    · exact ⟨p.isSet, by simp [fill, hk, hp], fun h => h⟩

theorem extends_addTable (W : World) : Extends W W.addTable where
  known _ _ h := h
  tables := Nat.le_succ _
  places _ p h := ⟨p.isSet, h, fun hp => hp⟩

section

variable {A A' : Address → Prop} {W W' W'' : World}

theorem Keeps.refl (W : World) : Keeps A W W where
  known := rfl
  distances := rfl
  lossless := rfl
  tables := Nat.le_refl _
  places := ⟨[], by simp, by simp⟩

/-- Later worlds of later worlds are later worlds. -/
theorem Keeps.trans (h : Keeps A W W') (h' : Keeps A W' W'') : Keeps A W W'' where
  known := h'.known.trans h.known
  distances := h'.distances.trans h.distances
  lossless := h'.lossless.trans h.lossless
  tables := Nat.le_trans h.tables h'.tables
  places := by
    obtain ⟨added, hadded, hp⟩ := h.places
    obtain ⟨added', hadded', hp'⟩ := h'.places
    refine ⟨added ++ added', by rw [hadded', hadded, List.append_assoc], fun p hmem => ?_⟩
    rcases List.mem_append.mp hmem with hmem | hmem
    · exact hp p hmem
    · exact (hp' p hmem).imp_left (Nat.le_trans h.tables)

theorem Keeps.mono (h : Keeps A W W') (hA : ∀ a, A a → W.tables ≤ a ∨ A' a) : Keeps A' W W' where
  known := h.known
  distances := h.distances
  lossless := h.lossless
  tables := h.tables
  places := by
    obtain ⟨added, hadded, hp⟩ := h.places
    exact ⟨added, hadded, fun p hmem => (hp p hmem).elim .inl (hA p.address)⟩

theorem Keeps.place (h : Keeps A W W') {l : Location} {p : Place} (hp : W.places[l]? = some p) :
    W'.places[l]? = some p := by
  obtain ⟨added, hadded, -⟩ := h.places
  have hlt : l < W.places.length := (List.getElem?_eq_some_iff.mp hp).1
  rw [hadded, List.getElem?_append_left hlt, hp]

theorem Keeps.extends (h : Keeps A W W') : Extends W W' where
  known id d hid := by rwa [h.known]
  tables := h.tables
  places l p hp := ⟨p.isSet, h.place hp, fun hset => hset⟩

theorem keeps_addTable (W : World) : Keeps A W W.addTable where
  known := rfl
  distances := rfl
  lossless := rfl
  tables := Nat.le_succ _
  places := ⟨[], by simp [addTable], by simp⟩

theorem keeps_push {a : Address} {x : String} (ha : A a) : Keeps A W (W.push a x) where
  known := rfl
  distances := rfl
  lossless := rfl
  tables := Nat.le_refl _
  places := ⟨[⟨a, x, false⟩], rfl, fun p hp => by
    rw [List.mem_singleton.mp hp]
    exact .inr ha⟩

end

end World

open World

structure Fits (W : World) (σ : Scopes) (e : Environment) (names : Names) : Prop where
  length : e.length = σ.length + 1
  outermost : σ = [] → e = .globals
  global : ∀ x, σ.distance? x = none → names.find? x = none
  inner : ∀ x d, σ.distance? x = some d → ∃ l a b, names.find? x = some l ∧ e[d]? = some a ∧
    W.places[l]? = some ⟨a, x, b⟩ ∧
      (∀ scope, σ[d]? = some scope → scope.find? x = some .defined → b = true)

theorem Fits.mono {W W' : World} {σ : Scopes} {e : Environment} {names : Names}
    (h : Fits W σ e names) (le : Extends W W') : Fits W' σ e names where
  length := h.length
  outermost := h.outermost
  global := h.global
  inner x d hd := by
    obtain ⟨l, a, b, hl, ha, hp, hset⟩ := h.inner x d hd
    obtain ⟨b', hp', hb'⟩ := le.places l _ hp
    exact ⟨l, a, b', hl, ha, hp', fun scope hscope hx => hb' (hset scope hscope hx)⟩

def withoutIds (d : FunctionDecl) : FunctionDecl := { d with body := d.body.map Stmt.withoutIds }

structure ScopedFunction (known : Known) (σ : Scopes) (d : FunctionDecl) : Prop where
  params : FreeParams .empty d.params
  body : ScopedStmts known (withParams .empty d.params :: σ) d.body

theorem ScopedFunction.mono {known known' : Known} (le : ∀ id d, known id d → known' id d)
    {σ : Scopes} {d : FunctionDecl} (h : ScopedFunction known σ d) : ScopedFunction known' σ d :=
  ⟨h.params, h.body.mono le⟩

inductive SameFunction (W : World) : LoxLang.Closure → Closure → Prop
  | mk (identity : Nat) {d : FunctionDecl} {σ : Scopes} {e : Environment} {names : Names}
      (hfits : Fits W σ e names) (hsettled : σ.Settled) (hscoped : ScopedFunction W.known σ d) :
      SameFunction W ⟨identity, d, e⟩ ⟨identity, withoutIds d, names⟩

abbrev Same (W : World) : LoxLang.Value → Value → Prop := ValueOf.Alike (SameFunction W)

abbrev SameAll (W : World) : List LoxLang.Value → List Value → Prop := List.Forall₂ (Same W)

inductive SameSignal (W : World) : LoxLang.Signal → Signal → Prop
  | returned {v : LoxLang.Value} {v' : Value} (h : Same W v v') :
      SameSignal W (.returned v) (.returned v')
  | runtime (e : RuntimeError) : SameSignal W (.runtime e) (.runtime e)
  | exhausted : SameSignal W .exhausted .exhausted

section

variable {W W' : World} {v : LoxLang.Value} {v' : Value}

theorem lookalike_sameFunction (W : World) : Lookalike (SameFunction W) where
  identity h := by
    cases h
    rfl
  name h := by
    cases h
    rfl

theorem Same.mono (h : Same W v v') (le : Extends W W') : Same W' v v' := by
  refine ValueOf.Alike.mono h fun hfunction => ?_
  cases hfunction with
  | mk identity hfits hsettled hscoped =>
    exact .mk identity (hfits.mono le) hsettled (hscoped.mono le.known)

theorem SameAll.mono {vs : List LoxLang.Value} {vs' : List Value} (h : SameAll W vs vs')
    (le : Extends W W') : SameAll W' vs vs' := by
  induction h with
  | nil => exact .nil
  | cons h _ ih => exact .cons (h.mono le) ih

end

/-- The machine and the reference are in the same state. -/
structure Related (W : World) (m : Machine) (r : State) : Prop where
  tables : m.store.tables.size = W.tables
  positive : 0 < W.tables
  count : r.locations.length = W.places.length
  distinct : ∀ (l l' : Location) (p p' : Place), W.places[l]? = some p → W.places[l']? = some p' →
    p.address = p'.address → p.name = p'.name → l = l'
  inside : ∀ (l : Location) (p : Place), W.places[l]? = some p → 0 < p.address ∧ p.address < W.tables
  value : ∀ (l : Location) (p : Place), W.places[l]? = some p →
    Option.Rel (Same W) (m.store.readTable p.address p.name) (r.valueAt? l) ∧
      (m.store.readTable p.address p.name).isSome = p.isSet
  placed : ∀ a x, 0 < a → (m.store.readTable a x).isSome = true →
    ∃ (l : Location) (p : Place), W.places[l]? = some p ∧ p.address = a ∧ p.name = x
  globals : ∀ x, Option.Rel (Same W) (m.store.readTable 0 x) (r.globals.find? x)
  distances : m.distances = W.distances
  known : ∀ id d, W.known id d → W.distances[id]? = d
  nextFunction : m.nextFunction = r.nextFunction
  clock : m.clock = r.clock
  readings : m.readings = r.readings
  output : W.lossless = true →
    m.output.written = r.output ∧ m.output.capacity = none ∧ m.output.flushFails = false

def Innermost (W : World) (σ : Scopes) (e : Environment) : Prop :=
  ∀ scope outer, σ = scope :: outer → ∃ a inner, e = a :: inner ∧ 0 < a ∧ a < W.tables ∧
    ∀ (l : Location) (p : Place), W.places[l]? = some p → p.address = a →
      scope.contains p.name = true

/-- New tables and what stands in them leave the places of the innermost table as they are. -/
theorem Innermost.keeps {W W' : World} {σ : Scopes} {e : Environment} (h : Innermost W σ e)
    (hkeeps : Keeps (fun _ => False) W W') : Innermost W' σ e := by
  intro scope outer hσ
  obtain ⟨a, inner, he, hpos, hlt, hplaces⟩ := h scope outer hσ
  refine ⟨a, inner, he, hpos, Nat.lt_of_lt_of_le hlt hkeeps.tables, fun l p hp hpa => ?_⟩
  obtain ⟨added, hadded, hnew⟩ := hkeeps.places
  rw [hadded] at hp
  by_cases hl : l < W.places.length
  · rw [List.getElem?_append_left hl] at hp
    exact hplaces l p hp hpa
  · rw [List.getElem?_append_right (Nat.not_lt.mp hl)] at hp
    rcases hnew p (List.mem_of_getElem? hp) with hge | hfalse
    · exact absurd hlt (Nat.not_lt.mpr (hpa ▸ hge))
    · exact absurd hfalse id

end LoxLang.Lexical

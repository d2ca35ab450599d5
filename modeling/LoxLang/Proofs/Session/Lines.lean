import LoxLang.Proofs.Parsing.Relabelled
import LoxLang.Proofs.Running.Lines
import LoxLang.Proofs.Session.Reports

/-!
Texts and diagnostics on other lines. Items on other lines are read as the same tree on these lines, the
same rules are broken, and the same is recorded. Newlines in front of a text put it on later lines.
-/
namespace LoxLang

def Diagnostic.mapLine (g : Nat → Nat) : Diagnostic → Diagnostic
  | lexical line message => lexical (g line) message
  | anchored line place message => anchored (g line) place message
  | runtime line message => runtime (g line) message
  | output message => output message

section

variable {g : Nat → Nat}

@[simp] theorem Diagnostic.isStatic_mapLine (d : Diagnostic) :
    (d.mapLine g).isStatic = d.isStatic := by cases d <;> rfl

theorem Outcome.diagnostic?_mapLine (o : Outcome) :
    (o.mapLine g).diagnostic? = o.diagnostic?.map (Diagnostic.mapLine g) := by cases o <;> rfl

theorem Outcome.mapLine_eq_exhausted_iff {o : Outcome} :
    o.mapLine g = .exhausted ↔ o = .exhausted := by cases o <;> simp [Outcome.mapLine]

def Front.mapLines (g : Nat → Nat) (f : Front) : Front where
  statements := f.statements.map (Stmt.mapLines g)
  diagnostics := f.diagnostics.map (Diagnostic.mapLine g)
  nextId := f.nextId

theorem filterMap_token?_mapLine (items : List Item) :
    (items.map (Item.mapLine g)).filterMap Item.token? =
      (items.filterMap Item.token?).map (Token.mapLine g) := by
  rw [List.filterMap_map, List.map_filterMap]
  congr 1
  funext i
  cases i <;> rfl

theorem filterMap_error?_mapLine (items : List Item) :
    ((items.map (Item.mapLine g)).filterMap Item.error?).map (·.diagnostic) =
      ((items.filterMap Item.error?).map (·.diagnostic)).map (Diagnostic.mapLine g) := by
  rw [List.filterMap_map, List.map_filterMap, List.map_filterMap, List.map_filterMap]
  congr 1
  funext i
  cases i <;> rfl

def Front.ofItems (nextId : ReferenceId) (items : List Item) : Front where
  statements := (parse nextId (items.filterMap Item.token?)).statements
  diagnostics := (items.filterMap Item.error?).map (·.diagnostic) ++
    (parse nextId (items.filterMap Item.token?)).errors.map (·.diagnostic)
  nextId := (parse nextId (items.filterMap Item.token?)).nextId

theorem Front.ofItems_mapLine (nextId : ReferenceId) {items : List Item}
    (h : ∃ t ∈ items.filterMap Item.token?, t.kind = .eof) :
    ofItems nextId (items.map (Item.mapLine g)) = (ofItems nextId items).mapLines g := by
  have hparse : parse nextId ((items.filterMap Item.token?).map (Token.mapLine g)) = _ :=
    parse_relabel (g := Token.mapLine g) (fun _ => rfl) 0 nextId h
  unfold ofItems mapLines
  rw [filterMap_token?_mapLine, filterMap_error?_mapLine, hparse]
  simp only [List.map_append, List.map_map]
  rfl

/-- On other lines a text is read as its items on the other lines are. -/
theorem Front.mapLines_ofText (nextId : ReferenceId) (text : String) :
    (ofText nextId text).mapLines g = ofItems nextId ((scan text).map (Item.mapLine g)) :=
  (ofItems_mapLine nextId (exists_eof_mem_tokensOf text)).symm

/-- On other lines a program breaks the same rules, and the same is recorded of it. -/
theorem resolve_mapLines (distances : Distances) (p : List Stmt) :
    (resolve distances (p.map (Stmt.mapLines g))).distances = (resolve distances p).distances ∧
      (resolve distances (p.map (Stmt.mapLines g))).errors.map (·.diagnostic) =
        ((resolve distances p).errors.map (·.diagnostic)).map (Diagnostic.mapLine g) := by
  have hlearns : Resolution.Learns id Eq := fun _ _ _ _ h => by rw [h, id]
  obtain ⟨hdistances, herrors⟩ := Resolution.resolve_relabel (g := Token.mapLine g)
    (fun _ => rfl) hlearns (rfl : distances = distances) p
  have hmapped : Stmt.mapLines g = Stmt.relabel id (Token.mapLine g) := rfl
  rw [hmapped, ← hdistances, herrors, List.map_map, List.map_map]
  exact ⟨rfl, rfl⟩

end

def below (k : Nat) (text : String) : String := String.ofList (List.replicate k '\n') ++ text

theorem toList_below (k : Nat) (text : String) :
    (below k text).toList = List.replicate k '\n' ++ text.toList := by
  rw [below, String.toList_append, String.toList_ofList]

@[simp] theorem below_zero (text : String) : below 0 text = text :=
  String.toList_inj.mp (toList_below 0 text)

theorem newlines_below (k : Nat) (text : String) : newlines (below k text) = k + newlines text := by
  rw [below, newlines_append, newlines, String.toList_ofList, List.count_replicate_self]

theorem itemsFrom_below (k : Nat) (text : String) :
    itemsFrom 1 (below k text).toList = itemsFrom (1 + k) text.toList := by
  rw [toList_below, itemsFrom_newlines]

theorem scan_below (k : Nat) (text : String) :
    scan (below k text) = (scan text).map (Item.mapLine (· + k)) := by
  have hend : 1 + (k + newlines text) = 1 + newlines text + k := by omega
  rw [scan_eq, scan_eq, itemsFrom_below, itemsFrom_add, newlines_below, List.map_append, hend]
  rfl

/-- Below some newlines a text is read on later lines. -/
theorem Front.ofText_below (nextId : ReferenceId) (k : Nat) (text : String) :
    ofText nextId (below k text) = (ofText nextId text).mapLines (· + k) := by
  rw [mapLines_ofText, ← scan_below]
  rfl

theorem Accepted.below {text : String} (h : Accepted text) (k : Nat) :
    Accepted (below k text) := by
  unfold Accepted
  rw [Front.ofText_below]
  obtain ⟨-, herrors⟩ := resolve_mapLines (g := (· + k)) ∅ (Front.ofText 0 text).statements
  rw [h.2] at herrors
  exact ⟨List.map_eq_nil_iff.mpr h.1, List.map_eq_nil_iff.mp herrors⟩

end LoxLang

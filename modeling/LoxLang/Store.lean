import LoxLang.Bindings
import LoxLang.RuntimeError
import LoxLang.Value

/-!
All variables of a running program: one table for each scope that was ever opened. An environment
lists the tables that can be seen, innermost first; a name belongs to the first table of the list
that has it, or is looked for in the one table that stands a given distance out.
-/
namespace LoxLang

structure Store where
  tables : Array (Bindings Value)

namespace Store

def empty : Store := ⟨#[]⟩

def addTable (s : Store) : Store := ⟨s.tables.push .empty⟩

/-- The environment of a scope opened inside of another one; its table is the next to be added. -/
def inside (s : Store) (e : Environment) : Environment := s.tables.size :: e

def readTable (s : Store) (a : Address) (x : String) : Option Value :=
  s.tables[a]?.bind (·.find? x)

def writeTable (s : Store) (a : Address) (x : String) (v : Value) : Store :=
  ⟨s.tables.modify a (·.insert x v)⟩

def binds (s : Store) (x : String) (a : Address) : Bool := (s.readTable a x).isSome

def define (s : Store) (e : Environment) (x : String) (v : Value) : Store :=
  match e with
  | [] => s
  | a :: _ => s.writeTable a x v

def owner? (s : Store) (e : Environment) (x : String) : Option Address := e.find? (s.binds x)

def get? (s : Store) (e : Environment) (x : String) : Option Value :=
  (s.owner? e x).bind (s.readTable · x)

def get (s : Store) (e : Environment) (name : Token) : Except RuntimeError Value :=
  match s.get? e name.lexeme with
  | some v => .ok v
  | none => .error (.undefined name)

def assign (s : Store) (e : Environment) (name : Token) (v : Value) :
    Except RuntimeError Store :=
  match s.owner? e name.lexeme with
  | some a => .ok (s.writeTable a name.lexeme v)
  | none => .error (.undefined name)

def ownerAt? (s : Store) (e : Environment) (distance : Nat) (x : String) : Option Address :=
  e[distance]?.filter (s.binds x)

def getAt? (s : Store) (e : Environment) (distance : Nat) (x : String) : Option Value :=
  (s.ownerAt? e distance x).bind (s.readTable · x)

def getAt (s : Store) (e : Environment) (distance : Nat) (name : Token) :
    Except RuntimeError Value :=
  match s.getAt? e distance name.lexeme with
  | some v => .ok v
  | none => .error (.undefined name)

def assignAt (s : Store) (e : Environment) (distance : Nat) (name : Token) (v : Value) :
    Except RuntimeError Store :=
  match s.ownerAt? e distance name.lexeme with
  | some a => .ok (s.writeTable a name.lexeme v)
  | none => .error (.undefined name)

@[simp] theorem readTable_empty (a : Address) (x : String) : empty.readTable a x = none := by
  simp [readTable, empty]

/-- A new table has no names, and the others keep theirs. -/
@[simp] theorem readTable_addTable (s : Store) (a : Address) (x : String) :
    s.addTable.readTable a x = s.readTable a x := by
  unfold readTable addTable
  by_cases h : a = s.tables.size
  · subst h
    simp
  · rw [Array.getElem?_push, if_neg h]

/-- Writing changes one name of one table, if there is that table. -/
theorem readTable_writeTable (s : Store) (a b : Address) (x y : String) (v : Value) :
    (s.writeTable a x v).readTable b y =
      if a < s.tables.size ∧ a = b ∧ x = y then some v else s.readTable b y := by
  unfold readTable writeTable
  rw [Array.getElem?_modify]
  by_cases hab : a = b
  · subst hab
    by_cases ha : a < s.tables.size
    · by_cases hxy : x = y <;> simp [ha, hxy, Bindings.find?_insert]
    · simp [ha]
  · simp [hab]

/-- What is read after a write is what was written or what was there before. -/
theorem readTable_of_writeTable {s : Store} {a b : Address} {x y : String} {v w : Value}
    (h : (s.writeTable a x v).readTable b y = some w) : w = v ∨ s.readTable b y = some w := by
  rw [readTable_writeTable] at h
  split at h
  · exact .inl (Option.some.inj h).symm
  · exact .inr h

theorem readTable_of_define {s : Store} {e : Environment} {a : Address} {x y : String} {v w : Value}
    (h : (s.define e x v).readTable a y = some w) : w = v ∨ s.readTable a y = some w := by
  cases e with
  | nil => exact .inr h
  | cons b outer => exact readTable_of_writeTable h

end Store

end LoxLang

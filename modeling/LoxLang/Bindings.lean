/-!
Finite tables from names to anything. What a table says is what `find?` says; `insert` changes it at
one name and nowhere else.
-/
namespace LoxLang

structure Bindings (α : Type) where
  entries : List (String × α)

namespace Bindings

variable {α : Type}

def empty : Bindings α := ⟨[]⟩

def findIn (x : String) : List (String × α) → Option α
  | [] => none
  | (y, a) :: rest => if y = x then some a else findIn x rest

def insertIn (x : String) (a : α) : List (String × α) → List (String × α)
  | [] => [(x, a)]
  | (y, b) :: rest => if y = x then (y, a) :: rest else (y, b) :: insertIn x a rest

def find? (t : Bindings α) (x : String) : Option α := findIn x t.entries

def contains (t : Bindings α) (x : String) : Bool := (t.find? x).isSome

def insert (t : Bindings α) (x : String) (a : α) : Bindings α := ⟨insertIn x a t.entries⟩

@[simp] theorem find?_empty (x : String) : (empty : Bindings α).find? x = none := rfl

/-- Inserting a name changes what is found under it and under no other name. -/
theorem find?_insert (t : Bindings α) (x y : String) (a : α) :
    (t.insert x a).find? y = if x = y then some a else t.find? y := by
  unfold find? insert
  induction t.entries with
  | nil => simp [insertIn, findIn]
  | cons e rest ih =>
    by_cases h : e.1 = x
    · by_cases hy : x = y <;> simp [insertIn, findIn, h, hy]
    · by_cases hy : e.1 = y
      · have hyx : ¬y = x := fun hyx => h (hy.trans hyx)
        simp [insertIn, findIn, hy, hyx, Ne.symm hyx]
      · simp [insertIn, findIn, h, hy, ih]

@[simp] theorem find?_insert_self (t : Bindings α) (x : String) (a : α) :
    (t.insert x a).find? x = some a := by simp [find?_insert]

theorem find?_insert_of_ne {x y : String} (h : x ≠ y) (t : Bindings α) (a : α) :
    (t.insert x a).find? y = t.find? y := by simp [find?_insert, h]

end Bindings

end LoxLang

/-!
A byte stream that may run out of room. The first bytes of a text that does not fit are kept, and
from then on nothing fits.
-/
namespace LoxLang

structure Stream where
  written : ByteArray
  /-- How many bytes it takes in all; without a capacity it takes any number. -/
  capacity : Option Nat
  flushFails : Bool

namespace Stream

inductive Failure
  | full
  | flush
  deriving DecidableEq, Repr

def Failure.message : Failure → String
  | full => "disk full"
  | flush => "flush failed"

def ofCapacity (capacity : Option Nat) (flushFails : Bool) : Stream :=
  ⟨ByteArray.empty, capacity, flushFails⟩

def unlimited : Stream := ofCapacity none false

def fits (s : Stream) (text : String) : Bool :=
  match s.capacity with
  | none => true
  | some n => s.written.size + text.utf8ByteSize ≤ n

def accepted (s : Stream) (text : String) : ByteArray :=
  match s.capacity with
  | none => text.toUTF8
  | some n => text.toUTF8.extract 0 (n - s.written.size)

def write (s : Stream) (text : String) : Stream :=
  { s with written := s.written ++ s.accepted text }

def since (s : Stream) (n : Nat) : ByteArray := s.written.extract n s.written.size

@[simp] theorem capacity_write (s : Stream) (text : String) :
    (s.write text).capacity = s.capacity := rfl

@[simp] theorem flushFails_write (s : Stream) (text : String) :
    (s.write text).flushFails = s.flushFails := rfl

/-- Without a capacity all of a text is kept. -/
theorem written_write_of_capacity_eq_none {s : Stream} (h : s.capacity = none) (text : String) :
    (s.write text).written = s.written ++ text.toUTF8 := by
  simp [write, accepted, h]

end Stream

end LoxLang

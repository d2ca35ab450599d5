import LoxLang.Diagnostic
import LoxLang.Stream

/-!
Where diagnostics go: a stream, and two latches that remember what kind of diagnostic has been
reported. The latches do not depend on whether the stream could take the text.
-/
namespace LoxLang

structure Reporter where
  stream : Stream
  /-- Has a static error been reported since the last reset? -/
  hadError : Bool
  /-- Has a runtime error or a failure of the output ever been reported? -/
  hadRuntimeError : Bool

namespace Reporter

def ofStream (stream : Stream) : Reporter := ⟨stream, false, false⟩

def report (r : Reporter) (d : Diagnostic) : Reporter where
  stream := r.stream.write (d.text ++ "\n")
  hadError := r.hadError || d.isStatic
  hadRuntimeError := r.hadRuntimeError || !d.isStatic

def reportAll (r : Reporter) (ds : List Diagnostic) : Reporter := ds.foldl report r

/-- Forgets static errors; runtime errors are never forgotten. -/
def reset (r : Reporter) : Reporter := { r with hadError := false }

/-- The first latch is set by the static ones among the diagnostics. -/
theorem hadError_reportAll (r : Reporter) (ds : List Diagnostic) :
    (r.reportAll ds).hadError = (r.hadError || ds.any (·.isStatic)) := by
  unfold reportAll
  induction ds generalizing r with
  | nil => simp
  | cons d ds ih => simp [ih, report, Bool.or_assoc]

/-- The second latch is set by the others. -/
theorem hadRuntimeError_reportAll (r : Reporter) (ds : List Diagnostic) :
    (r.reportAll ds).hadRuntimeError = (r.hadRuntimeError || ds.any (!·.isStatic)) := by
  unfold reportAll
  induction ds generalizing r with
  | nil => simp
  | cons d ds ih => simp [ih, report, Bool.or_assoc]

end Reporter

end LoxLang

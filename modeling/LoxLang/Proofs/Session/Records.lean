import Mathlib
import LoxLang.Proofs.Lexical.Uses
import LoxLang.Proofs.Parsing.AdvancesStatements
import LoxLang.Proofs.Running.Restored
import LoxLang.Proofs.Session.Runs

/-!
All trees that are read in a session, and what is recorded for them. The ids of uses are different in all of
the trees; once a tree has been walked, what is recorded for each of its uses is how far out the variable
stands in the tree, and it stays recorded whatever is read, walked or run afterwards. Main statement:
`records_exact`.
-/
namespace LoxLang.Session

open Lexical Parsing

structure Reading where
  statements : List Stmt
  resolved : Bool

structure Process where
  session : Session
  readings : List Reading

namespace Process

def ids (p : Process) : List ReferenceId := p.readings.flatMap fun t => Stmt.idsAll t.statements

/-- Anything that is done in a session: tokens are read, a tree is walked that was read at any time before,
statements are run, or something is reported or forgotten. -/
inductive Step : Process → Process → Prop
  | read (s : Session) (readings : List Reading) (tokens : List Token) :
      Step ⟨s, readings⟩ ⟨{ s with nextId := (parse s.nextId tokens).nextId },
        readings ++ [⟨(parse s.nextId tokens).statements, false⟩]⟩
  | resolve (s : Session) (before after : List Reading) (t : Reading) :
      Step ⟨s, before ++ t :: after⟩
        ⟨{ s with machine := { s.machine with
            distances := (LoxLang.resolve s.machine.distances t.statements).distances } },
          before ++ ⟨t.statements, true⟩ :: after⟩
  | interpret (s : Session) (readings : List Reading) (fuel : Nat) (program : List Stmt) :
      Step ⟨s, readings⟩
        ⟨{ s with machine := (LoxLang.interpret fuel program s.machine).2 }, readings⟩
  | report (s : Session) (readings : List Reading) (reporter : Reporter) :
      Step ⟨s, readings⟩ ⟨{ s with reporter := reporter }, readings⟩

inductive Reached : Process → Prop
  | start (output diagnostics : Stream) (clock : Clock) :
      Reached ⟨.start output diagnostics clock, []⟩
  | step {p q : Process} (h : p.Reached) (hstep : Step p q) : Reached q

abbrev Steps : Process → Process → Prop := Relation.ReflTransGen Step

theorem Reached.steps {p q : Process} (h : p.Reached) (hsteps : Steps p q) : q.Reached := by
  induction hsteps with
  | refl => exact h
  | tail _ hstep ih => exact .step ih hstep

/-- All ids are different and have been given out; what is recorded is recorded for walked trees, and is the
distance of each of their uses. -/
structure Exact (p : Process) : Prop where
  shaped : ∀ t ∈ p.readings, ShapedAll t.statements
  fresh : Fresh 0 p.session.nextId p.ids
  outside : ∀ id, p.session.nextId ≤ id → p.session.machine.distances[id]? = none
  unresolved : ∀ t ∈ p.readings, t.resolved = false → ∀ id ∈ Stmt.idsAll t.statements,
    p.session.machine.distances[id]? = none
  resolved : ∀ t ∈ p.readings, t.resolved = true → ∀ id name around,
    UsedAt t.statements id name around →
      LexicalDistance name.lexeme around p.session.machine.distances[id]?

section

variable {s : Session} {readings : List Reading} {p q : Process}

theorem mem_ids {t : Reading} (h : t ∈ p.readings) {id : ReferenceId}
    (hid : id ∈ Stmt.idsAll t.statements) : id ∈ p.ids := List.mem_flatMap.mpr ⟨t, h, hid⟩

theorem mem_idsAll_of_usedAt {program : List Stmt} {id : ReferenceId} {name : Token} {around : Around}
    (h : UsedAt program id name around) : id ∈ Stmt.idsAll program :=
  mem_idsAll_iff.mpr ⟨name, around, h⟩

theorem exact_start (output diagnostics : Stream) (clock : Clock) :
    Exact ⟨.start output diagnostics clock, []⟩ where
  shaped := nofun
  fresh := .nil 0 0
  outside _ _ := Std.TreeMap.getElem?_emptyc
  unresolved := nofun
  resolved := nofun

/-- A new tree has new ids, so what was recorded before stays exact. -/
theorem Exact.read (h : Exact ⟨s, readings⟩) (tokens : List Token) :
    Exact ⟨{ s with nextId := (parse s.nextId tokens).nextId },
      readings ++ [⟨(parse s.nextId tokens).statements, false⟩]⟩ := by
  obtain ⟨hle, hfresh⟩ := fresh_parse s.nextId tokens
  constructor
  · intro t ht
    rcases List.mem_append.mp ht with ht | ht
    · exact h.shaped t ht
    · rw [List.mem_singleton.mp ht]
      exact (moves_readAll s.nextId tokens).2.1
  · have hids : ids ⟨{ s with nextId := (parse s.nextId tokens).nextId },
        readings ++ [⟨(parse s.nextId tokens).statements, false⟩]⟩ =
        ids ⟨s, readings⟩ ++ Stmt.idsAll (parse s.nextId tokens).statements := by
      simp only [ids, List.flatMap_append, List.flatMap_singleton]
    rw [hids]
    exact h.fresh.append hfresh (Nat.zero_le _) hle
  · intro id hid
    exact h.outside id (Nat.le_trans hle hid)
  · intro t ht hresolved id hid
    rcases List.mem_append.mp ht with ht | ht
    · exact h.unresolved t ht hresolved id hid
    · rw [List.mem_singleton.mp ht] at hid
      exact h.outside id (hfresh.mem hid).1
  · intro t ht hresolved
    rcases List.mem_append.mp ht with ht | ht
    · exact h.resolved t ht hresolved
    · rw [List.mem_singleton.mp ht] at hresolved
      cases hresolved

section

variable {before after : List Reading} {t u : Reading} {id : ReferenceId}

/-- The trees after `t` has been walked: `t`, and those that were read before and after it. -/
theorem mem_walked_iff : u ∈ before ++ ⟨t.statements, true⟩ :: after ↔
    u = ⟨t.statements, true⟩ ∨ u ∈ before ∨ u ∈ after := by
  rw [List.mem_append, List.mem_cons]
  exact or_left_comm

theorem mem_of_mem_others (hu : u ∈ before ∨ u ∈ after) : u ∈ before ++ t :: after := by
  rcases hu with hu | hu
  · exact List.mem_append_left _ hu
  · exact List.mem_append_right _ (List.mem_cons_of_mem _ hu)

/-- A tree that is walked keeps its ids. -/
theorem ids_walked {s' : Session} : ids ⟨s', before ++ ⟨t.statements, true⟩ :: after⟩ =
    ids ⟨s, before ++ t :: after⟩ := by
  simp only [ids, List.flatMap_append, List.flatMap_cons]

theorem Exact.nodup (h : Exact ⟨s, before ++ t :: after⟩) :
    (before.flatMap (fun t => Stmt.idsAll t.statements) ++
      (Stmt.idsAll t.statements ++ after.flatMap fun t => Stmt.idsAll t.statements)).Nodup := by
  have hnodup := h.fresh.nodup
  simpa only [ids, List.flatMap_append, List.flatMap_cons] using hnodup

/-- The other trees have other ids. -/
theorem Exact.notMem_of_other (h : Exact ⟨s, before ++ t :: after⟩) (hu : u ∈ before ∨ u ∈ after)
    (hid : id ∈ Stmt.idsAll u.statements) : id ∉ Stmt.idsAll t.statements := by
  intro hid'
  have hmem {ts : List Reading} (hu : u ∈ ts) : id ∈ ts.flatMap fun t => Stmt.idsAll t.statements :=
    List.mem_flatMap.mpr ⟨u, hu, hid⟩
  rcases hu with hu | hu
  · exact List.disjoint_of_nodup_append h.nodup (hmem hu) (List.mem_append_left _ hid')
  · exact List.disjoint_of_nodup_append h.nodup.of_append_right hid' (hmem hu)

/-- A walk over one tree changes nothing for the others. -/
theorem Exact.distances_other (h : Exact ⟨s, before ++ t :: after⟩) (hu : u ∈ before ∨ u ∈ after)
    (hid : id ∈ Stmt.idsAll u.statements) :
    (LoxLang.resolve s.machine.distances t.statements).distances[id]? = s.machine.distances[id]? :=
  distances_resolve_of_notMem (h.shaped t (List.mem_append_right _ List.mem_cons_self))
    (h.notMem_of_other hu hid)

/-- A walk over a tree records the distance of each of its uses, as any walk over it before has. -/
theorem Exact.distances_walked (h : Exact ⟨s, before ++ t :: after⟩) {name : Token} {around : Around}
    (hused : UsedAt t.statements id name around) :
    LexicalDistance name.lexeme around
      (LoxLang.resolve s.machine.distances t.statements).distances[id]? := by
  have ht : t ∈ before ++ t :: after := List.mem_append_right _ List.mem_cons_self
  have hd : LexicalDistance name.lexeme around (around.distance? name.lexeme) :=
    lexicalDistance_iff.mpr rfl
  have hbefore : s.machine.distances[id]? = none ∨
      s.machine.distances[id]? = around.distance? name.lexeme := by
    cases hwalked : t.resolved with
    | false => exact .inl (h.unresolved t ht hwalked id (mem_idsAll_of_usedAt hused))
    | true =>
      have hsame := h.resolved t ht hwalked id name around hused
      exact .inr (lexicalDistance_iff.mp hsame).symm
  have hrecorded := records_resolve (h.shaped t ht) h.nodup.of_append_right.of_append_left hused hd
    hbefore
  exact hrecorded.symm ▸ hd

/-- Walking a tree records the distances of its own uses only. -/
theorem Exact.resolve (h : Exact ⟨s, before ++ t :: after⟩) :
    Exact ⟨{ s with machine := { s.machine with
        distances := (LoxLang.resolve s.machine.distances t.statements).distances } },
      before ++ ⟨t.statements, true⟩ :: after⟩ := by
  have ht : t ∈ before ++ t :: after := List.mem_append_right _ List.mem_cons_self
  have hshaped : ShapedAll t.statements := h.shaped t ht
  constructor
  · intro u hu
    rcases mem_walked_iff.mp hu with rfl | hu
    · exact hshaped
    · exact h.shaped u (mem_of_mem_others hu)
  · rw [ids_walked]
    exact h.fresh
  · intro id hid
    have hout : id ∉ Stmt.idsAll t.statements := fun hin =>
      Nat.lt_irrefl id (Nat.lt_of_lt_of_le (h.fresh.mem (mem_ids ht hin)).2 hid)
    exact (distances_resolve_of_notMem hshaped hout).trans (h.outside id hid)
  · intro u hu hresolved id hid
    rcases mem_walked_iff.mp hu with rfl | hu
    · cases hresolved
    · exact (h.distances_other hu hid).trans (h.unresolved u (mem_of_mem_others hu) hresolved id hid)
  · intro u hu hresolved id name around hused
    rcases mem_walked_iff.mp hu with rfl | hu
    · exact h.distances_walked hused
    · have hsame := h.distances_other hu (mem_idsAll_of_usedAt hused)
      exact hsame.symm ▸ h.resolved u (mem_of_mem_others hu) hresolved id name around hused

end

/-- Every step keeps the records exact. -/
theorem Exact.step (h : p.Exact) (hstep : Step p q) : q.Exact := by
  cases hstep with
  | read s readings tokens => exact h.read tokens
  | resolve s before after t => exact h.resolve
  | interpret s readings fuel program =>
    have hsame := (unmoved_interpret fuel program s.machine).2
    exact ⟨h.shaped, h.fresh, hsame.symm ▸ h.outside, hsame.symm ▸ h.unresolved,
      hsame.symm ▸ h.resolved⟩
  | report s readings reporter => exact ⟨h.shaped, h.fresh, h.outside, h.unresolved, h.resolved⟩

theorem Reached.exact (h : p.Reached) : p.Exact := by
  induction h with
  | start output diagnostics clock => exact exact_start output diagnostics clock
  | step _ hstep ih => exact ih.step hstep

/-- A tree that has been walked stays as it is among the readings. -/
theorem mem_of_step (hstep : Step p q) {t : Reading} (ht : t ∈ p.readings)
    (hresolved : t.resolved = true) : t ∈ q.readings := by
  cases hstep with
  | read s readings tokens => exact List.mem_append_left _ ht
  | resolve s before after u =>
    rcases List.mem_append.mp ht with ht | ht
    · exact List.mem_append_left _ ht
    · rcases List.mem_cons.mp ht with rfl | ht
      · rw [← hresolved]
        exact List.mem_append_right _ List.mem_cons_self
      · exact List.mem_append_right _ (List.mem_cons_of_mem _ ht)
  | interpret s readings fuel program => exact ht
  | report s readings reporter => exact ht

theorem mem_of_steps (hsteps : Steps p q) {t : Reading} (ht : t ∈ p.readings)
    (hresolved : t.resolved = true) : t ∈ q.readings := by
  induction hsteps with
  | refl => exact ht
  | tail _ hstep ih => exact mem_of_step hstep ih hresolved

/-- The run of a text reads one more tree, and walks it unless there is a static error. -/
theorem steps_of_run {s' : Session} {fuel : Nat} {text : String} (hrun : s.run fuel text = some s') :
    Steps ⟨s, readings⟩ ⟨s', readings ++ [⟨(Front.ofText s.nextId text).statements,
      !(s.reporter.reportAll (Front.ofText s.nextId text).diagnostics).hadError⟩]⟩ := by
  have hread := Step.read s readings (tokensOf text)
  have hreport := Step.report { s with nextId := (Front.ofText s.nextId text).nextId }
    (readings ++ [⟨(Front.ofText s.nextId text).statements, false⟩])
    (s.reporter.reportAll (Front.ofText s.nextId text).diagnostics)
  have hfront : Steps ⟨s, readings⟩ _ := (Relation.ReflTransGen.single hread).tail hreport
  rw [run, prepare] at hrun
  simp only at hrun
  cases hfound : (s.reporter.reportAll (Front.ofText s.nextId text).diagnostics).hadError with
  | true =>
    rw [hfound, if_pos rfl] at hrun
    cases hrun
    exact hfront
  | false =>
    simp only [hfound, Bool.false_eq_true, if_false] at hrun
    have hresolve := hfront.tail (Step.resolve _ readings [] _)
    have hready := hresolve.tail (Step.report _ _
      ((s.reporter.reportAll (Front.ofText s.nextId text).diagnostics).reportAll
        ((LoxLang.resolve s.machine.distances
          (Front.ofText s.nextId text).statements).errors.map (·.diagnostic))))
    split at hrun
    · next s₁ heq =>
      obtain ⟨-, rfl⟩ := Prod.mk.inj heq
      cases hrun
      exact hready
    · next program s₁ heq =>
      obtain ⟨-, rfl⟩ := Prod.mk.inj heq
      have hend := hready.tail (Step.interpret _ _ fuel program)
      simp only [runPrepared] at hrun
      split at hrun
      · cases hrun
      · next outcome machine heq' =>
        cases hrun
        rw [heq'] at hend
        exact hend.tail (Step.report _ _ _)

end

end Process

/-- However a session has come to be: no two uses in its trees have the same id. Every id of a tree is that of a
use in it; nothing is recorded for it before the tree is walked, and then it is recorded how many scopes out the
innermost one stands that has the name, and nothing if none has it. Nothing that is done afterwards changes
what is recorded for a tree. The run of a text is one of the things that can be done. -/
theorem records_exact {p : Process} (h : p.Reached) :
    p.ids.Nodup ∧
    (∀ t ∈ p.readings,
      (∀ id, id ∈ Stmt.idsAll t.statements ↔ ∃ name around, UsedAt t.statements id name around) ∧
      (t.resolved = false → ∀ id ∈ Stmt.idsAll t.statements,
        p.session.machine.distances[id]? = none) ∧
      (t.resolved = true → ∀ id name around, UsedAt t.statements id name around →
        LexicalDistance name.lexeme around p.session.machine.distances[id]?)) ∧
    (∀ q, Process.Steps p q → ∀ t ∈ p.readings, t.resolved = true → t ∈ q.readings ∧
      ∀ id ∈ Stmt.idsAll t.statements,
        q.session.machine.distances[id]? = p.session.machine.distances[id]?) ∧
    ∀ fuel text s', p.session.run fuel text = some s' → Process.Steps p
      ⟨s', p.readings ++ [⟨(Front.ofText p.session.nextId text).statements,
        !(p.session.reporter.reportAll
          (Front.ofText p.session.nextId text).diagnostics).hadError⟩]⟩ := by
  have hexact := h.exact
  refine ⟨hexact.fresh.nodup, ?_, ?_, ?_⟩
  · intro t ht
    exact ⟨fun id => mem_idsAll_iff, hexact.unresolved t ht, hexact.resolved t ht⟩
  · intro q hsteps t ht hresolved
    have hq := Process.mem_of_steps hsteps ht hresolved
    refine ⟨hq, fun id hid => ?_⟩
    obtain ⟨name, around, hused⟩ := mem_idsAll_iff.mp hid
    -- the innermost scope with a name is one, so what is recorded later is what was recorded
    have hbefore := hexact.resolved t ht hresolved id name around hused
    have hafter := (h.steps hsteps).exact.resolved t hq hresolved id name around hused
    exact (lexicalDistance_iff.mp hafter).symm.trans (lexicalDistance_iff.mp hbefore)
  · intro fuel text s' hrun
    exact Process.steps_of_run hrun

/-- The variable of a block is used in a block inside of it, one scope further in. -/
theorem records_exact_innerBlock :
    ∃ s, (start .unlimited .unlimited fun _ => .ok 0).run 9 "\x7b let a; \x7b a; \x7d \x7d" = some s ∧
      s.machine.distances[0]? = some 1 := by
  let a : Token := ⟨.identifier, "a", 1⟩
  have hstatements : (Front.ofText 0 "\x7b let a; \x7b a; \x7d \x7d").statements =
      [.block [.declare a none, .block [.expression (.reference 0 a)]]] := by
    cbv
  have hends : ((start .unlimited .unlimited fun _ => .ok 0).run 9
      "\x7b let a; \x7b a; \x7d \x7d").isSome = true := by
    decide +kernel
  obtain ⟨s, hrun⟩ := Option.isSome_iff_exists.mp hends
  have hstart : Process.Reached ⟨start .unlimited .unlimited fun _ => .ok 0, []⟩ := .start _ _ _
  have hsteps := (records_exact hstart).2.2.2 9 _ s hrun
  obtain ⟨-, hread, -⟩ := records_exact (hstart.steps hsteps)
  have hwalked : (!((start .unlimited .unlimited fun _ => .ok 0).reporter.reportAll
      (Front.ofText 0 "\x7b let a; \x7b a; \x7d \x7d").diagnostics).hadError) = true := by
    decide +kernel
  have hrecorded := (hread _ (List.mem_singleton.mpr rfl)).2.2 hwalked 0 a [[], ["a"]]
  have hinner : UsedWithin 0 a [namesOf [.declare a none]]
      (.block ([] ++ .expression (.reference 0 a) :: [])) [[], ["a"]] :=
    .block (.expression .reference)
  have houter : UsedWithin 0 a []
      (.block ([.declare a none] ++ .block [.expression (.reference 0 a)] :: [])) [[], ["a"]] :=
    .block hinner
  have hused : UsedAt (Front.ofText 0 "\x7b let a; \x7b a; \x7d \x7d").statements 0 a
      [[], ["a"]] := by
    rw [hstatements]
    exact ⟨[], _, [], rfl, houter⟩
  exact ⟨s, hrun, (lexicalDistance_iff.mp (hrecorded hused)).symm⟩

end LoxLang.Session

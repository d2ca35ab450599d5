import LoxLang.Proofs.Lexical.Simulation
import LoxLang.Proofs.Lexical.Walk
import LoxLang.Proofs.Session.Runs

/-!
The world of a session. It is kept from run to run, whatever the sources are: what is recorded for a
source is about new ids, and what function values of earlier sources rely on is not touched. A program
that is ready to be run agrees with its scopes in the world of its session.
-/
namespace LoxLang.Lexical

open World

theorem within_outermost (W : World) : Within W [] .globals .outermost where
  fits :=
    { length := rfl
      outermost := fun _ => rfl
      global := fun _ _ => rfl
      inner := nofun }
  outermost := by simp
  innermost := nofun
  settled := Scopes.settled_nil

section

variable {W : World} {m : Machine} {r : State} {program : List Stmt}

/-- Nothing that a program does outside of all scopes takes the machine out of the states that the
reference has; and if all output is taken, the program ends as in the reference. -/
theorem related_interpret (n : Nat) (hrelated : Related W m r) (hcurrent : m.current = .globals)
    (hscoped : ScopedStmts W.known [] program) :
    ∃ W' r', Keeps (· ∈ Environment.globals.head?) W W' ∧
      Related W' (LoxLang.interpret n program m).2 r' ∧
      (LoxLang.interpret n program m).2.current = .globals ∧
      (W.lossless = true → interpret n (program.map Stmt.withoutIds) r =
        ((LoxLang.interpret n program m).1, r')) := by
  -- the reference may have gone on where the machine broke off, unless all output is taken
  have hends := (follows n).executeAll (within_outermost W) hscoped m r hrelated hcurrent
  unfold LoxLang.interpret interpret
  generalize LoxLang.executeAll n program m = x at hends ⊢
  generalize executeAll n .outermost (program.map Stmt.withoutIds) r = y at hends ⊢
  have hflush {W' : World} {m' : Machine} {r' : State} (hkeeps : Keeps (· ∈ [0].head?) W W')
      (hrelated : Related W' m' r') (hlossless : W.lossless = true) : m'.flush = .finished := by
    have houtput := hrelated.output (hkeeps.lossless.trans hlossless)
    rw [Machine.flush, houtput.2.2]
    rfl
  cases hends with
  | @ok _ _ r' _ _ hkeeps hrelated hcurrent _ =>
    refine ⟨_, r', hkeeps, hrelated, hcurrent, fun hl => ?_⟩
    exact congrArg (·, r') (hflush hkeeps hrelated hl).symm
  | @error _ _ r' _ _ hkeeps hrelated hcurrent h =>
    cases h with
    | returned _ =>
      refine ⟨_, r', hkeeps, hrelated, hcurrent, fun hl => ?_⟩
      exact congrArg (·, r') (hflush hkeeps hrelated hl).symm
    | runtime e => exact ⟨_, _, hkeeps, hrelated, hcurrent, fun _ => rfl⟩
    | exhausted => exact ⟨_, _, hkeeps, hrelated, hcurrent, fun _ => rfl⟩
  | broken hkeeps hrelated hcurrent hlossy =>
    refine ⟨_, _, hkeeps, hrelated, hcurrent, fun hl => ?_⟩
    rw [hlossy] at hl
    cases hl

end

structure Matches (W : World) (s : LoxLang.Session) (r : State) : Prop where
  related : Related W s.machine r
  current : s.machine.current = .globals
  used : ∀ id d, W.known id d → id < s.nextId
  unrecorded : ∀ id, s.nextId ≤ id → s.machine.distances[id]? = none

def knownAfter (W : World) (s : LoxLang.Session) (text : String) : Known := fun id d =>
  W.known id d ∨ id ∈ Stmt.idsAll (Front.ofText s.nextId text).statements ∧
    (s.resolved text).distances[id]? = d

section

variable {W : World} {s s' : LoxLang.Session} {r : State} {text : String}

/-- What is known stays true while the uses of a text are recorded, which are new. -/
theorem Matches.learn (h : Matches W s r)
    (hshaped : ShapedAll (Front.ofText s.nextId text).statements) {known : Known}
    (le : ∀ id d, W.known id d → known id d)
    (hknown : ∀ id d, known id d → knownAfter W s text id d) (reporter : Reporter) :
    Matches { W with distances := (s.resolved text).distances, known := known }
      ⟨s.resolved text, reporter, (Front.ofText s.nextId text).nextId⟩ r := by
  obtain ⟨hle, hfresh⟩ := fresh_ofText s.nextId text
  refine ⟨h.related.learn le ?_, h.current, ?_, ?_⟩
  · intro id d hid
    rcases hknown id d hid with hid | ⟨-, hid⟩
    · have hlt := h.used id d hid
      have hout : id ∉ Stmt.idsAll (Front.ofText s.nextId text).statements := fun hmem =>
        Nat.not_lt.mpr (hfresh.mem hmem).1 hlt
      rw [← h.related.known id d hid, ← h.related.distances]
      exact distances_resolve_of_notMem hshaped hout
    · exact hid
  · intro id d hid
    rcases hknown id d hid with hid | ⟨hid, -⟩
    · exact Nat.lt_of_lt_of_le (h.used id d hid) hle
    · exact (hfresh.mem hid).2
  · intro id hid
    have hout : id ∉ Stmt.idsAll (Front.ofText s.nextId text).statements := fun hmem =>
      Nat.not_lt.mpr hid (hfresh.mem hmem).2
    exact (distances_resolve_of_notMem hshaped hout).trans
      (h.unrecorded id (Nat.le_trans hle hid))

theorem shaped_of_diagnostics {nextId : ReferenceId}
    (h : (Front.ofText nextId text).diagnostics = []) :
    ShapedAll (Front.ofText nextId text).statements :=
  shapedAll_declarations
    (Parsing.declarations_of_parse ((diagnostics_ofText_eq_nil_iff nextId text).mp h).2)

/-- However the preparation of a text ends, the state of the session is that of the reference. -/
theorem Matches.prepare (h : Matches W s r) (text : String) :
    ∃ W', W'.lossless = W.lossless ∧ Matches W' (s.prepare text).2 r ∧
      ∀ program, (s.prepare text).1 = some program → ScopedStmts W'.known [] program := by
  have hprepared := LoxLang.Session.prepared s text
  obtain ⟨hle, hfresh⟩ := fresh_ofText s.nextId text
  generalize s.prepare text = p at hprepared ⊢
  cases hprepared with
  | unread reporter =>
    refine ⟨W, rfl, ⟨h.related, h.current, ?_, ?_⟩, nofun⟩
    · exact fun id d hid => Nat.lt_of_lt_of_le (h.used id d hid) hle
    · exact fun id hid => h.unrecorded id (Nat.le_trans hle hid)
  | unresolved reporter hread =>
    have hlearned := h.learn (shaped_of_diagnostics hread) (fun _ _ hid => hid)
      (fun _ _ hid => .inl hid) reporter
    exact ⟨{ W with distances := (s.resolved text).distances }, rfl, hlearned, nofun⟩
  | ready hread hresolved hlatch =>
    have hshaped := shaped_of_diagnostics hread
    have le : ∀ id d, W.known id d → knownAfter W s text id d := fun _ _ hid => .inl hid
    have hlearned := h.learn hshaped le (fun _ _ hid => hid) s.reporter
    refine ⟨{ W with distances := (s.resolved text).distances, known := knownAfter W s text }, rfl,
      hlearned, fun program hprogram => ?_⟩
    cases hprogram
    refine scoped_resolve hshaped hresolved hfresh.nodup ?_ ?_
    · exact fun id hid => h.unrecorded id (hfresh.mem hid).1
    · exact fun id hid => .inr ⟨hid, rfl⟩

/-- Running records nothing of uses. -/
theorem Matches.keeps (h : Matches W s r) {A : Address → Prop} {W' : World} {m : Machine}
    {r' : State} (hkeeps : Keeps A W W') (hrelated : Related W' m r')
    (hcurrent : m.current = .globals) (reporter : Reporter) :
    Matches W' ⟨m, reporter, s.nextId⟩ r' where
  related := hrelated
  current := hcurrent
  used id d hid := h.used id d (hkeeps.known ▸ hid)
  unrecorded id hid := by
    have hdistances : m.distances = s.machine.distances :=
      hrelated.distances.trans (hkeeps.distances.trans h.related.distances.symm)
    change m.distances[id]? = none
    rw [hdistances]
    exact h.unrecorded id hid

/-- Once a program has been run, the session is in a state of the reference; it is the one in which the
reference ends if all output is taken. -/
theorem Matches.interpret (h : Matches W s r) {program : List Stmt}
    (hscoped : ScopedStmts W.known [] program) (n : Nat) :
    ∃ W' r', W'.lossless = W.lossless ∧
      (∀ reporter, Matches W' ⟨(LoxLang.interpret n program s.machine).2, reporter, s.nextId⟩ r') ∧
      (W.lossless = true → Lexical.interpret n (program.map Stmt.withoutIds) r =
        ((LoxLang.interpret n program s.machine).1, r')) := by
  obtain ⟨W', r', hkeeps, hrelated, hcurrent, hresult⟩ :=
    related_interpret n h.related h.current hscoped
  exact ⟨W', r', hkeeps.lossless, h.keeps hkeeps hrelated hcurrent, hresult⟩

/-- A program that runs to its end leaves the session and the reference in the same state. -/
theorem Matches.runPrepared (h : Matches W s r) {program : List Stmt}
    (hscoped : ScopedStmts W.known [] program) {n : Nat}
    (hrun : s.runPrepared n program = some s') :
    ∃ W' r', W'.lossless = W.lossless ∧ Matches W' s' r' := by
  obtain ⟨W', r', hlossless, hmatches, -⟩ := h.interpret hscoped n
  obtain ⟨machine, reporter, nextId⟩ := s
  unfold LoxLang.Session.runPrepared at hrun
  simp only at hmatches hrun
  generalize LoxLang.interpret n program machine = x at hmatches hrun
  obtain ⟨outcome, machine'⟩ := x
  cases outcome with
  | exhausted => cases hrun
  | _ =>
    cases hrun
    exact ⟨W', r', hlossless, hmatches _⟩

/-- A text that is run leaves the session and the reference in the same state, whatever its end. -/
theorem Matches.run (h : Matches W s r) {n : Nat} (hrun : s.run n text = some s') :
    ∃ W' r', W'.lossless = W.lossless ∧ Matches W' s' r' := by
  obtain ⟨W', hlossless, hprepared, hscoped⟩ := h.prepare text
  unfold LoxLang.Session.run at hrun
  generalize s.prepare text = p at hrun hprepared hscoped
  obtain ⟨_ | program, s₁⟩ := p
  · cases hrun
    exact ⟨W', r, hlossless, hprepared⟩
  · obtain ⟨W'', r', hlossless', hmatches⟩ := hprepared.runPrepared (hscoped program rfl) hrun
    exact ⟨W'', r', hlossless'.trans hlossless, hmatches⟩

end

theorem readTable_start (output : Stream) (clock : Clock) (a : Address) (x : String) :
    (Machine.start output clock).store.readTable a x =
      if a = 0 ∧ "clock" = x then some (.native Machine.clockFunction) else none := by
  have hsize : 0 < Store.empty.addTable.tables.size := Nat.one_pos
  change (Store.empty.addTable.writeTable 0 "clock" _).readTable a x = _
  rw [Store.readTable_writeTable, Store.readTable_addTable, Store.readTable_empty]
  by_cases h : a = 0 ∧ "clock" = x
  · rw [if_pos h, if_pos ⟨hsize, h.1.symm, h.2⟩]
  · rw [if_neg h, if_neg fun h' => h ⟨h'.2.1.symm, h'.2.2⟩]

/-- Before any source, both sides have the clock as their only variable. -/
theorem matches_start {output : Stream} (diagnostics : Stream) (clock : Clock)
    {lossless : Bool} (houtput : lossless = true → output = .unlimited) :
    Matches ⟨[], 1, ∅, fun _ _ => False, lossless⟩ (.start output diagnostics clock)
      (.start clock) where
  related :=
    { tables := rfl
      positive := Nat.one_pos
      count := rfl
      distinct := nofun
      inside := nofun
      value := nofun
      placed := by
        intro a x ha hsome
        rw [LoxLang.Session.start, readTable_start, if_neg fun h => Nat.ne_of_gt ha h.1] at hsome
        cases hsome
      globals := by
        intro x
        rw [LoxLang.Session.start, readTable_start, State.start, Bindings.find?_insert]
        by_cases hx : "clock" = x
        · rw [if_pos ⟨rfl, hx⟩, if_pos hx]
          exact .some (.native _)
        · rw [if_neg fun h => hx h.2, if_neg hx]
          exact .none
      distances := rfl
      known := nofun
      nextFunction := rfl
      clock := rfl
      readings := rfl
      output := fun hlossless => by
        rw [houtput hlossless]
        exact ⟨rfl, rfl, rfl⟩ }
  current := rfl
  used := nofun
  unrecorded _ _ := rfl

/-- Whatever a session has run, the reference has a state that is the same. -/
theorem exists_matches {output diagnostics : Stream} {s : LoxLang.Session}
    (h : s.Reachable output diagnostics) {lossless : Bool}
    (houtput : lossless = true → output = .unlimited) :
    ∃ W r, W.lossless = lossless ∧ Matches W s r := by
  induction h with
  | start clock => exact ⟨_, _, rfl, matches_start diagnostics clock houtput⟩
  | run _ hrun ih =>
    obtain ⟨W, r, hlossless, hmatches⟩ := ih
    obtain ⟨W', r', hlossless', hmatches'⟩ := hmatches.run hrun
    exact ⟨W', r', hlossless'.trans hlossless, hmatches'⟩
  | reset _ ih =>
    obtain ⟨W, r, hlossless, hmatches⟩ := ih
    exact ⟨W, r, hlossless, { hmatches with }⟩

end LoxLang.Lexical

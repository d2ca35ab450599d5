import LoxLang.Proofs.Running.FullOutput
import LoxLang.Proofs.Session.Reports

/-!
A source run with room for `n` bytes of output. What is kept is the first `n` bytes of what the source
prints with all room. If that is everything, nothing else differs; otherwise the run stops at the line
that there is no room for, and reports that and nothing else. Main theorem: `run_fullOutput`.
-/
namespace LoxLang.Session

def limitOutput (n : Nat) (s : Session) : Session := { s with machine := s.machine.limit n }

section

variable {s s' : Session} {fuel n : Nat} {text : String}

theorem start_limitOutput (n : Nat) (diagnostics : Stream) (clock : Clock) :
    (start .unlimited diagnostics clock).limitOutput n =
      start (.ofCapacity (some n) false) diagnostics clock := by
  have hempty : ByteArray.empty.extract 0 n = ByteArray.empty := by simp
  have houtput : Stream.unlimited.limit n = Stream.ofCapacity (some n) false :=
    congrArg (Stream.mk · (some n) false) hempty
  show Session.mk ((Machine.start .unlimited clock).withOutput (Stream.unlimited.limit n)) _ 0 = _
  rw [houtput]
  rfl

/-- Reading a text and the static rules have nothing to do with the output. -/
theorem prepare_limitOutput (n : Nat) (s : Session) (text : String) :
    (s.limitOutput n).prepare text =
      ((s.prepare text).1, (s.prepare text).2.limitOutput n) := by
  unfold prepare limitOutput
  simp only
  split <;> rfl

theorem output_prepare (s : Session) (text : String) :
    (s.prepare text).2.machine.output = s.machine.output := by
  have hprepared := prepared s text
  generalize s.prepare text = p at hprepared ⊢
  cases hprepared <;> rfl

/-- Nothing was found wrong with a text that is ready to be run, and the reporter is as it was. -/
theorem findings_of_ready {program : List Stmt} {ready : Session}
    (h : s.prepare text = (some program, ready)) :
    s.findings text = [] ∧ ready.reporter = s.reporter := by
  have hnone : s.reporter.reportAll [] = s.reporter := rfl
  have hprepared := prepared s text
  rw [h] at hprepared
  cases hprepared with
  | ready hread hresolved hlatch =>
    refine ⟨?_, rfl⟩
    simp [findings, hread, hnone, hlatch, hresolved]

/-- A program leaves the machine that it ended with. -/
theorem machine_of_ended {result : Outcome × Machine} (h : s.ended result = some s') :
    s'.machine = result.2 := by
  obtain ⟨outcome, machine⟩ := result
  cases outcome <;> cases h <;> rfl

theorem ended_limitOutput (n : Nat) (s : Session) (result : Outcome × Machine) :
    (s.limitOutput n).ended (result.1, result.2.limit n) = (s.ended result).map (limitOutput n) := by
  obtain ⟨outcome, machine⟩ := result
  cases outcome <;> rfl

/-- The run stops at a line that it prints, and what it reports last is that the output is full. -/
structure StopsFull (n fuel : Nat) (text : String) (s : Session) (program : List Stmt)
    (ready : Session) (p : Machine) (line : String) : Prop where
  prepare_eq : s.prepare text = (some program, ready)
  fullAt : FullAt n fuel program ready.machine p line
  run_eq : (s.limitOutput n).run fuel text =
    some ⟨{ p with output := (p.output.write line).limit n, current := ready.machine.current },
      ready.reporter.report (.output "disk full"), ready.nextId⟩
  reported_eq : (s.limitOutput n).reported fuel text = [.output "disk full"]

/-- With limited room the run of a source goes as with all room, or it stops at a line. -/
theorem run_limitOutput (hunlimited : s.machine.output.capacity = none)
    (hroom : s.machine.output.written.size ≤ n) (h : s.run fuel text = some s') :
    (s'.machine.output.written.size ≤ n ∧
      (s.limitOutput n).run fuel text = some (s'.limitOutput n) ∧
      (s.limitOutput n).reported fuel text = s.reported fuel text) ∨
    ∃ program ready p line, StopsFull n fuel text s program ready p line ∧
      (p.output.write line).Grows s'.machine.output := by
  have hlimited := prepare_limitOutput n s text
  have houtput := output_prepare s text
  have hfindings : (s.limitOutput n).findings text = s.findings text := rfl
  rcases hprepare : s.prepare text with ⟨_ | program, ready⟩
  · rw [hprepare] at hlimited houtput
    have hs' : ready = s' := by
      rw [run, hprepare] at h
      exact Option.some.inj h
    left
    refine ⟨?_, ?_, ?_⟩
    · rw [← hs', houtput]
      exact hroom
    · rw [run, hlimited, ← hs']
    · rw [reported, reported, hlimited, hprepare, hfindings]
  · rw [hprepare] at hlimited houtput
    have hfirst : ready.machine.output.capacity = none := by rw [houtput, hunlimited]
    have hsize : ready.machine.output.written.size ≤ n := by rwa [houtput]
    have hrun : s.run fuel text = ready.ended (interpret fuel program ready.machine) := by
      rw [run, hprepare]
      rfl
    have hrun' : (s.limitOutput n).run fuel text =
        (ready.limitOutput n).ended (interpret fuel program (ready.machine.limit n)) := by
      rw [run, hlimited]
      rfl
    have hreported' : (s.limitOutput n).reported fuel text =
        s.findings text ++ (interpret fuel program (ready.machine.limit n)).1.diagnostic?.toList := by
      rw [reported, hlimited, hfindings]
      rfl
    have hmachine : s'.machine = (interpret fuel program ready.machine).2 :=
      machine_of_ended (hrun.symm.trans h)
    rcases interpret_limit (k := fuel) program hfirst hsize with ⟨hfits, heq⟩ | ⟨p, line, hfull⟩
    · left
      refine ⟨?_, ?_, ?_⟩
      · rw [hmachine]
        exact hfits
      · rw [hrun', heq, ended_limitOutput, ← hrun, h]
        rfl
      · rw [hreported', heq, reported, hprepare]
    · refine .inr ⟨program, ready, p, line, ⟨hprepare, hfull, ?_, ?_⟩, ?_⟩
      · rw [hrun', hfull.stops]
        rfl
      · rw [hreported', (findings_of_ready hprepare).1, hfull.stops]
        rfl
      · rw [hmachine]
        exact hfull.grows

end

/-- With room for `n` bytes a source that is run first prints the first `n` bytes of what it prints with
all room. If that is everything, the same is reported; otherwise the run stops at the line that there is no
room for, and nothing but that is reported. -/
theorem run_fullOutput {clock : Clock} {fuel : Nat} {text : String} {s : Session}
    (h : (start .unlimited .unlimited clock).run fuel text = some s) (n : Nat) :
    let unlimited := start .unlimited .unlimited clock
    let limited := start (.ofCapacity (some n) false) .unlimited clock
    ∃ t, limited.run fuel text = some t ∧
      t.machine.output.written = s.machine.output.written.extract 0 n ∧
      (s.machine.output.written.size ≤ n → t.reporter = s.reporter ∧
        limited.reported fuel text = unlimited.reported fuel text) ∧
      (n < s.machine.output.written.size →
        limited.reported fuel text = [.output "disk full"] ∧
        t.reporter.stream.written = "disk full\n".toUTF8 ∧
        t.reporter.hadError = false ∧ t.reporter.hadRuntimeError = true ∧
        ∃ program ready p line, unlimited.prepare text = (some program, ready) ∧
          FullAt n fuel program ready.machine p line ∧
          t.machine = { p with output := (p.output.write line).limit n, current := .globals }) := by
  intro unlimited limited
  have hlimited : limited = unlimited.limitOutput n := (start_limitOutput n .unlimited clock).symm
  rw [hlimited]
  -- either all that is printed fits, or there is a line that does not
  rcases run_limitOutput (s := unlimited) (n := n) rfl (Nat.zero_le n) h with
    ⟨hfits, hrun, hreported⟩ | ⟨program, ready, p, line, hstops, hgrows⟩
  · refine ⟨s.limitOutput n, hrun, rfl, fun _ => ⟨rfl, hreported⟩, ?_⟩
    intro hmore
    omega
  · have hsize := hgrows.size_le
    have hfull := hstops.fullAt.full
    have hcurrent : ready.machine.current = .globals := by
      have hprepared := prepared unlimited text
      rw [hstops.prepare_eq] at hprepared
      cases hprepared
      rfl
    have hreporter := (findings_of_ready hstops.prepare_eq).2
    refine ⟨_, hstops.run_eq, ?_, ?_, fun _ => ⟨hstops.reported_eq, ?_, ?_, ?_, ?_⟩⟩
    · exact (hgrows.extract_eq (Nat.le_of_lt hfull)).symm
    · intro hall
      omega
    · rw [hreporter]
      rfl
    · rw [hreporter]
      rfl
    · rw [hreporter]
      rfl
    · refine ⟨program, ready, p, line, hstops.prepare_eq, hstops.fullAt, ?_⟩
      rw [hcurrent]

/-- There is room for the first line of a function and for a part of the second one. -/
theorem run_fullOutput_secondLine :
    ∃ t, (start (.ofCapacity (some 4) false) .unlimited fun _ => .ok 0).run 20
        "fun f() \x7b print \"ab\"; print \"cd\"; \x7d f(); print f;" = some t ∧
      t.machine.output.written = "ab\nc".toUTF8 ∧
      t.reporter.stream.written = "disk full\n".toUTF8 ∧
      t.reporter.hadError = false ∧ t.reporter.hadRuntimeError = true := by
  have hall : ((start .unlimited .unlimited fun _ => .ok 0).run 20
      "fun f() \x7b print \"ab\"; print \"cd\"; \x7d f(); print f;").map
        (·.machine.output.written) = some "ab\ncd\n<fn f>\n".toUTF8 := by
    decide +kernel
  obtain ⟨s, h, hwritten⟩ := Option.map_eq_some_iff.mp hall
  obtain ⟨t, hrun, hkept, -, hfull⟩ := run_fullOutput h 4
  have hmore : 4 < s.machine.output.written.size := by
    rw [hwritten]
    decide +kernel
  have hcut : "ab\ncd\n<fn f>\n".toUTF8.extract 0 4 = "ab\nc".toUTF8 := by decide +kernel
  rw [hwritten, hcut] at hkept
  obtain ⟨-, htext, hlatch, hruntime, -⟩ := hfull hmore
  exact ⟨t, hrun, hkept, htext, hlatch, hruntime⟩

end LoxLang.Session

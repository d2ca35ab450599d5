import LoxLang.CommandLine.Program
import LoxLang.Proofs.Running.FullOutput
import LoxLang.Proofs.Session.Rejected

/-!
One script in the three modes of the command line. What showing the tokens finds wrong, showing the trees
finds first, and what that finds wrong, running finds first; the exit code of a run tells what kind of
diagnostics there were. Main theorem: `modes_agree`.
-/
namespace LoxLang

namespace Session

variable {s s' : Session} {fuel : Nat} {text : String}

/-- What is wrong with the text is found first, and if anything is, there is no more to be found. -/
theorem reported_ofText (s : Session) (fuel : Nat) (text : String) :
    ∃ rest, s.reported fuel text = (Front.ofText s.nextId text).diagnostics ++ rest ∧
      ((Front.ofText s.nextId text).diagnostics ≠ [] → rest = []) := by
  have hall : ∀ d ∈ (Front.ofText s.nextId text).diagnostics, d.isStatic = true :=
    fun _ => isStatic_of_mem_diagnostics
  have hstatic := hadError_reportAll_static s.reporter hall
  by_cases hread : (Front.ofText s.nextId text).diagnostics = []
  · exact ⟨s.reported fuel text, by rw [hread, List.nil_append], fun h => absurd hread h⟩
  · have hset : (s.reporter.reportAll (Front.ofText s.nextId text).diagnostics).hadError = true := by
      apply Bool.of_not_eq_false
      intro h
      exact hread (hstatic.mp h).2
    refine ⟨[], ?_, fun _ => rfl⟩
    simp only [reported, findings, prepare, hset, if_true]

/-- Either static errors are reported and nothing is done, or at most one runtime error is reported. -/
theorem reported_cases (hlatch : s.reporter.hadError = false)
    (hunlimited : s.machine.output.capacity = none) (hflush : s.machine.output.flushFails = false)
    (hrun : s.run fuel text = some s') :
    (∃ d ∈ s.reported fuel text, d.isStatic = true) ∧
        (∀ d ∈ s.reported fuel text, d.isStatic = true) ∧ s'.machine.output = s.machine.output ∨
      s.reported fuel text = [] ∨ ∃ line message, s.reported fuel text = [.runtime line message] := by
  by_cases hstatic : ∃ d ∈ s.reported fuel text, d.isStatic = true
  · left
    obtain ⟨hnone, houtput, -⟩ := prepare_of_static hlatch hstatic
    have hfindings : s.reported fuel text = s.findings text := by
      unfold reported
      generalize s.prepare text = p at hnone
      obtain ⟨_ | program, t⟩ := p
      · exact List.append_nil _
      · cases hnone
    refine ⟨hstatic, ?_, ?_⟩
    · intro d hd
      rw [hfindings] at hd
      exact isStatic_of_mem_findings hd
    · unfold run at hrun
      generalize s.prepare text = p at hnone houtput hrun
      obtain ⟨_ | program, t⟩ := p
      · cases hrun
        exact houtput
      · cases hnone
  · right
    have hnone : s.findings text = [] := by
      apply List.eq_nil_iff_forall_not_mem.mpr
      intro d hd
      exact hstatic ⟨d, List.mem_append_left _ hd, isStatic_of_mem_findings hd⟩
    have hprepared := prepared s text
    unfold reported
    rw [hnone, List.nil_append]
    generalize s.prepare text = p at hprepared
    cases hprepared with
    | unread => exact .inl rfl
    | unresolved => exact .inl rfl
    | ready =>
      have hend := fst_interpret_ne_output (k := fuel) (m := s.resolved text)
        (Front.ofText s.nextId text).statements hunlimited hflush
      simp only
      generalize (interpret fuel (Front.ofText s.nextId text).statements (s.resolved text)).1 = o
        at hend
      cases o with
      | finished => exact .inl rfl
      | exhausted => exact .inl rfl
      | runtime e => exact .inr ⟨_, _, rfl⟩
      | output failure => exact absurd rfl (hend failure)

end Session

namespace CommandLine

theorem foldl_unlines (out : ByteArray) (texts : List String) :
    texts.foldl (fun out text => out ++ (text ++ "\n").toUTF8) out = out ++ unlines texts := by
  induction texts generalizing out with
  | nil => exact ByteArray.append_empty.symm
  | cons text texts ih =>
    have hrest := ih ((ByteArray.empty) ++ (text ++ "\n").toUTF8)
    unfold unlines
    rw [List.foldl_cons, List.foldl_cons, ih, hrest, ByteArray.empty_append, ByteArray.append_assoc]

theorem unlines_cons (text : String) (texts : List String) :
    unlines (text :: texts) = (text ++ "\n").toUTF8 ++ unlines texts := by
  have h := foldl_unlines (ByteArray.empty ++ (text ++ "\n").toUTF8) texts
  rwa [ByteArray.empty_append] at h

theorem unlines_append (texts texts' : List String) :
    unlines (texts ++ texts') = unlines texts ++ unlines texts' := by
  show (texts ++ texts').foldl _ ByteArray.empty = _
  rw [List.foldl_append, foldl_unlines]
  rfl

/-- Every line has its newline, so nothing is written only if there are no lines. -/
theorem unlines_eq_empty_iff {texts : List String} : unlines texts = ByteArray.empty ↔ texts = [] := by
  constructor
  · intro h
    cases texts with
    | nil => rfl
    | cons text texts =>
      have hsize := congrArg ByteArray.size h
      have hline : (text ++ "\n").toUTF8.size = text.utf8ByteSize + 1 :=
        String.utf8ByteSize_append
      rw [unlines_cons, ByteArray.size_append, hline, ByteArray.size_empty] at hsize
      omega
  · intro h
    rw [h]
    rfl

/-- What diagnostics look like on a stream without a limit. -/
theorem written_reportAll {r : Reporter} (hunlimited : r.stream.capacity = none)
    (ds : List Diagnostic) :
    (r.reportAll ds).stream.written = r.stream.written ++ unlines (ds.map (·.text)) := by
  induction ds generalizing r with
  | nil => exact ByteArray.append_empty.symm
  | cons d ds ih =>
    have hfirst : (r.report d).stream.written = r.stream.written ++ (d.text ++ "\n").toUTF8 :=
      Stream.written_write_of_capacity_eq_none hunlimited _
    have hrest := ih (r := r.report d) hunlimited
    rw [List.map_cons, unlines_cons, ← ByteArray.append_assoc, ← hfirst]
    exact hrest

def Mode.flags : Mode → List Flag
  | run => []
  | tokens false => [.tokens]
  | tokens true => [.json, .tokens]
  | ast => [.ast]

def Mode.command (mode : Mode) (name : String) : Request := .invoke ⟨mode.flags, [name]⟩

def Mode.arguments (mode : Mode) (name : String) : List String :=
  mode.flags.reverse.map Flag.name ++ ["--", name]

/-- The flags of a mode are read back from its arguments; after `--` any name but the empty one is a script.
-/
theorem ofArguments_command (mode : Mode) {name : String} (hname : name ≠ "") :
    Request.ofArguments (mode.arguments name) = mode.command name := by
  have hscript (i : Invocation) (hi : i.isConsistent = true) (hnone : i.scripts = []) :
      readScripts i [name] = .invoke ⟨i.flags, [name]⟩ := by
    have hkept : Invocation.isConsistent ⟨i.flags, [name]⟩ = true := hi
    rw [readScripts, addScript, if_neg hname, readScripts, hnone, List.nil_append, if_pos hkept]
  cases mode with
  | run => exact hscript ⟨[], []⟩ rfl rfl
  | ast => exact hscript ⟨[.ast], []⟩ rfl rfl
  | tokens json =>
    cases json with
    | false => exact hscript ⟨[.tokens], []⟩ rfl rfl
    | true => exact hscript ⟨[.json, .tokens], []⟩ rfl rfl

variable {fuel : Nat} {w : World} {name text : String} {content : List UInt8}

theorem mode_flags (mode : Mode) (scripts : List String) :
    Invocation.mode ⟨mode.flags, scripts⟩ = mode ∧
      Invocation.has ⟨mode.flags, scripts⟩ .log = false := by
  cases mode with
  | run => exact ⟨rfl, rfl⟩
  | ast => exact ⟨rfl, rfl⟩
  | tokens json => cases json <;> exact ⟨rfl, rfl⟩

theorem run_command (mode : Mode) (hfile : w.file name = .bytes content)
    (htext : Text.Utf8.decode content = .ok text) :
    run fuel (mode.command name) w = (respond fuel mode text (freshSession w.clock)).map
      fun (response, _) => ⟨response.status.exitCode, response.out, response.err⟩ := by
  obtain ⟨hmode, hlog⟩ := mode_flags mode [name]
  unfold run Mode.command runInvocation
  simp only [hlog, hmode, Bool.false_eq_true, if_false, runScript, readScript, hfile, htext]

/-- How the three modes fare with one script, if `ds` is what is reported when it is run. -/
structure Agree (ds : List Diagnostic) (tokens trees plain : Result) : Prop where
  trees_of_tokens : tokens.exitCode = 1 → trees.exitCode = 1
  plain_of_trees : trees.exitCode = 1 → plain.exitCode = 1
  err_tokens : ∃ rest, trees.err = tokens.err ++ rest
  err_trees : ∃ rest, plain.err = trees.err ++ rest
  err_of_trees : trees.exitCode = 1 → plain.err = trees.err
  err_plain : plain.err = unlines (ds.map (·.text))
  static_iff : plain.exitCode = 1 ↔ ∃ d ∈ ds, d.isStatic = true
  static_only : plain.exitCode = 1 →
    plain.out = ByteArray.empty ∧ ∀ d ∈ ds, d.isStatic = true
  runtime_iff : plain.exitCode = 2 ↔ ∃ line message, ds = [.runtime line message]
  fine_iff : plain.exitCode = 0 ↔ plain.err = ByteArray.empty

theorem exitCode_listing (lines : List String) (ds : List Diagnostic) :
    (Response.listing lines ds).status.exitCode = 1 ↔ ds ≠ [] := by
  cases ds with
  | nil => simp [Response.listing, Status.exitCode]
  | cons d ds => simp [Response.listing, Status.exitCode]

theorem since_zero (s : Stream) : s.since 0 = s.written := ByteArray.extract_zero_size

/-- What is written when a source is the first one that is run, in terms of what is reported. -/
theorem respond_run {clock : Clock} {response : Response} {s' : Session}
    (h : respond fuel .run text (freshSession clock) = some (response, s')) :
    let ds := (freshSession clock).reported fuel text
    (freshSession clock).run fuel text = some s' ∧ response.out = s'.machine.output.written ∧
      response.err = unlines (ds.map (·.text)) ∧
      response.status = (if ds.any (!·.isStatic) then .runtimeError
        else if ds.any (·.isStatic) then .staticError else .fine) := by
  intro ds
  obtain ⟨t, hrun, heq⟩ := Option.map_eq_some_iff.mp h
  cases heq
  have hreporter := Session.reporter_run hrun
  have herror := Reporter.hadError_reportAll (freshSession clock).reporter ds
  have hruntime := Reporter.hadRuntimeError_reportAll (freshSession clock).reporter ds
  have hwritten := written_reportAll (r := (freshSession clock).reporter) rfl ds
  rw [← hreporter] at herror hruntime hwritten
  have hempty : (freshSession clock).reporter.stream.written = ByteArray.empty := rfl
  refine ⟨hrun, since_zero _, ?_, ?_⟩
  · rw [hempty, ByteArray.empty_append] at hwritten
    exact (since_zero _).trans hwritten
  · have hclear : (freshSession clock).reporter.hadError = false := rfl
    have hclear' : (freshSession clock).reporter.hadRuntimeError = false := rfl
    show statusOf s' = _
    rw [statusOf, herror, hruntime, hclear, hclear', Bool.false_or, Bool.false_or]

/-- How the run of a source ends that is the first one: with static errors and without any output, with
nothing to report, or with one runtime error. -/
inductive Ended (response : Response) : List Diagnostic → Prop
  | static {ds : List Diagnostic} (hcode : response.status.exitCode = 1)
      (hsome : ∃ d ∈ ds, d.isStatic = true) (hall : ∀ d ∈ ds, d.isStatic = true)
      (hout : response.out = ByteArray.empty) : Ended response ds
  | fine (hcode : response.status.exitCode = 0) : Ended response []
  | runtime (line : Nat) (message : String) (hcode : response.status.exitCode = 2) :
      Ended response [.runtime line message]

/-- The exit code and the diagnostics of a first run go together in one of the three ways. -/
theorem ended_run {clock : Clock} {response : Response} {s' : Session}
    (h : respond fuel .run text (freshSession clock) = some (response, s')) :
    Ended response ((freshSession clock).reported fuel text) := by
  obtain ⟨hrun, hout, -, hstatus⟩ := respond_run h
  have hcases := Session.reported_cases (s := freshSession clock) rfl rfl rfl hrun
  generalize (freshSession clock).reported fuel text = ds at hstatus hcases ⊢
  rcases hcases with ⟨hsome, hall, houtput⟩ | rfl | ⟨line, message, rfl⟩
  · have hno : ds.any (!·.isStatic) = false :=
      List.any_eq_false.mpr fun d hd => by simp [hall d hd]
    have hyes : ds.any (·.isStatic) = true := List.any_eq_true.mpr hsome
    rw [hno, hyes] at hstatus
    exact .static (congrArg Status.exitCode hstatus) hsome hall
      (hout.trans (congrArg (·.written) houtput))
  · exact .fine (congrArg Status.exitCode hstatus)
  · exact .runtime line message (congrArg Status.exitCode hstatus)

namespace Ended

variable {response : Response} {ds : List Diagnostic} (h : Ended response ds)

include h

theorem static_iff : response.status.exitCode = 1 ↔ ∃ d ∈ ds, d.isStatic = true := by
  cases h with
  | static hcode hsome => exact iff_of_true hcode hsome
  | fine hcode => simp [hcode]
  | runtime line message hcode => simp [hcode, Diagnostic.isStatic]

/-- A run with static errors writes nothing and reports nothing else. -/
theorem static_only (hcode : response.status.exitCode = 1) :
    response.out = ByteArray.empty ∧ ∀ d ∈ ds, d.isStatic = true := by
  cases h with
  | static _ _ hall hout => exact ⟨hout, hall⟩
  | fine hcode' =>
    rw [hcode'] at hcode
    cases hcode
  | runtime _ _ hcode' =>
    rw [hcode'] at hcode
    cases hcode

theorem runtime_iff :
    response.status.exitCode = 2 ↔ ∃ line message, ds = [.runtime line message] := by
  cases h with
  | static hcode _ hall =>
    rw [hcode]
    refine ⟨nofun, ?_⟩
    rintro ⟨line, message, rfl⟩
    cases hall _ List.mem_cons_self
  | fine hcode => simp [hcode]
  | runtime line message hcode => exact iff_of_true hcode ⟨line, message, rfl⟩

theorem fine_iff : response.status.exitCode = 0 ↔ ds = [] := by
  cases h with
  | static hcode hsome =>
    rw [hcode]
    refine ⟨nofun, ?_⟩
    rintro rfl
    obtain ⟨d, hd, -⟩ := hsome
    cases hd
  | fine hcode => exact iff_of_true hcode rfl
  | runtime line message hcode => simp [hcode]

end Ended

/-- For every script that is a text and whose run ends, the three modes of the command line agree on what
is wrong with it. They are what the arguments of the program ask for, whatever the script is called. -/
theorem modes_agree {plain : Result} (hfile : w.file name = .bytes content)
    (htext : Text.Utf8.decode content = .ok text)
    (hplain : run fuel (Mode.run.command name) w = some plain) (json : Bool) :
    (∃ tokens trees, run fuel ((Mode.tokens json).command name) w = some tokens ∧
      run fuel (Mode.ast.command name) w = some trees ∧
      Agree ((freshSession w.clock).reported fuel text) tokens trees plain) ∧
    (name ≠ "" → ∀ mode : Mode, Request.ofArguments (mode.arguments name) = mode.command name) := by
  refine ⟨?_, fun hname mode => ofArguments_command mode hname⟩
  rw [run_command .run hfile htext] at hplain
  rw [run_command (.tokens json) hfile htext, run_command .ast hfile htext]
  obtain ⟨⟨response, s'⟩, hrespond, rfl⟩ := Option.map_eq_some_iff.mp hplain
  obtain ⟨-, -, herr, -⟩ := respond_run hrespond
  have hended := ended_run hrespond
  obtain ⟨rest, hreported, hlast⟩ :=
    Session.reported_ofText (freshSession w.clock) fuel text
  generalize (freshSession w.clock).reported fuel text = ds at herr hreported hended ⊢
  -- what is wrong with the text: what its scan finds, and what its grammar finds
  let lexical := ((scan text).filterMap Item.error?).map (·.diagnostic)
  let front := Front.ofText 0 text
  obtain ⟨syntactic, hfront⟩ : ∃ syntactic, front.diagnostics = lexical ++ syntactic := ⟨_, rfl⟩
  change ds = front.diagnostics ++ rest at hreported
  change front.diagnostics ≠ [] → rest = [] at hlast
  refine ⟨_, _, rfl, rfl, ?_⟩
  constructor
  case trees_of_tokens =>
    intro h
    have hlexical := (exitCode_listing _ lexical).mp h
    apply (exitCode_listing _ front.diagnostics).mpr
    rw [hfront]
    exact fun hnone => hlexical (List.append_eq_nil_iff.mp hnone).1
  case plain_of_trees =>
    intro h
    obtain ⟨d, hd⟩ := List.exists_mem_of_ne_nil _ ((exitCode_listing _ front.diagnostics).mp h)
    apply hended.static_iff.mpr
    refine ⟨d, ?_, Session.isStatic_of_mem_diagnostics hd⟩
    rw [hreported]
    exact List.mem_append_left _ hd
  case err_tokens =>
    refine ⟨unlines (syntactic.map (·.text)), ?_⟩
    show unlines (front.diagnostics.map (·.text)) = unlines (lexical.map (·.text)) ++ _
    rw [hfront, List.map_append, unlines_append]
  case err_trees =>
    refine ⟨unlines (rest.map (·.text)), ?_⟩
    show response.err = unlines (front.diagnostics.map (·.text)) ++ _
    rw [herr, hreported, List.map_append, unlines_append]
  case err_of_trees =>
    intro h
    have hnone := hlast ((exitCode_listing _ front.diagnostics).mp h)
    show response.err = unlines (front.diagnostics.map (·.text))
    rw [herr, hreported, hnone, List.append_nil]
  case err_plain => exact herr
  case static_iff => exact hended.static_iff
  case static_only => exact hended.static_only
  case runtime_iff => exact hended.runtime_iff
  case fine_iff =>
    show response.status.exitCode = 0 ↔ response.err = _
    rw [herr, unlines_eq_empty_iff, List.map_eq_nil_iff]
    exact hended.fine_iff

/-- Only the run finds that a variable is not there. -/
theorem modes_agree_undefined :
    let w : World := ⟨fun _ => .bytes "print nil; print a;".toUTF8.data.toList, [], fun _ => .ok 0⟩
    ∃ plain tokens trees, run 20 (Mode.run.command "script") w = some plain ∧
      run 20 ((Mode.tokens true).command "script") w = some tokens ∧
      run 20 (Mode.ast.command "script") w = some trees ∧
      Agree [.runtime 1 "Undefined variable 'a'."] tokens trees plain ∧
      Request.ofArguments ["--tokens", "--json", "--", "script"] =
        (Mode.tokens true).command "script" := by
  intro w
  have htext : Text.Utf8.decode "print nil; print a;".toUTF8.data.toList =
      .ok "print nil; print a;" := by decide +kernel
  have hends : (run 20 (Mode.run.command "script") w).isSome = true := by decide +kernel
  have hreported : (freshSession w.clock).reported 20 "print nil; print a;" =
      [.runtime 1 "Undefined variable 'a'."] := by decide +kernel
  obtain ⟨plain, hplain⟩ := Option.isSome_iff_exists.mp hends
  obtain ⟨⟨tokens, trees, htokens, htrees, hagree⟩, harguments⟩ := modes_agree rfl htext hplain true
  rw [hreported] at hagree
  exact ⟨plain, tokens, trees, hplain, htokens, htrees, hagree,
    harguments (by decide) (.tokens true)⟩

end CommandLine

end LoxLang

import LoxLang.Proofs.Lexical.Refinement
import LoxLang.Proofs.Lexical.Sequence
import LoxLang.Proofs.Session.Lowered

/-!
A program fed in pieces. Accepted sources that are run one after the other, all but the last one without
anything to report, do the same as the one source they are together: the same is written, the latches
are the same, and so is the runtime error, if there is one, which stands further down by the lines before
the source that it is about. Main statement: `runAll_joined`.
-/
namespace LoxLang

namespace Lexical

theorem returnlessAll_program {text : String} (h : Accepted text) : ReturnlessAll (program text) := by
  have hreturnless := (returnless_of_resolve (h.shaped 0) h.2).relabel (f := fun _ => 0) (g := id)
  rw [Stmt.relabelAll_eq_map] at hreturnless
  exact hreturnless

section

variable {s s' u : LoxLang.Session} {t : Session} {text : String} {texts : List String} {n N : Nat}

theorem reported_of_agrees (h : Agrees s t) (haccepted : Accepted text) (n : Nat) :
    s.reported n text = (interpret n (program text) t.state).1.diagnostic?.toList := by
  obtain ⟨W, r, -, -, hresult⟩ := interpret_agrees h haccepted n
  rw [LoxLang.Session.reported_of_accepted haccepted h.hadError, hresult]

/-- A source that reports nothing is finished in the reference. -/
theorem finished_of_quiet (h : Agrees s t) (haccepted : Accepted text)
    (hrun : s.run n text = some s') (hquiet : s.reported n text = []) :
    ∃ r, interpret n (program text) t.state = (.finished, r) ∧ Agrees s' ⟨r, t.reporter⟩ := by
  have hagrees := agrees_run h haccepted n
  rw [reported_of_agrees h haccepted] at hquiet
  rw [hrun] at hagrees
  unfold Session.run at hagrees
  generalize interpret n (program text) t.state = x at hquiet hagrees ⊢
  obtain ⟨outcome, r⟩ := x
  cases outcome with
  | finished =>
    cases hagrees with
    | some h => exact ⟨r, rfl, h⟩
  | exhausted => cases hagrees
  | runtime e => cases hquiet
  | output f => cases hquiet

/-- Sources that report nothing can be left behind: what stands after their programs is run in the state
that they reach. -/
theorem interpret_pieces (h : Agrees s t) (haccepted : ∀ text ∈ texts, Accepted text)
    (hends : s.runAll n texts = some u) (hquiet : s.reportedAll n texts = []) (hN : n ≤ N) :
    ∃ r, Agrees u ⟨r, t.reporter⟩ ∧ ∀ q,
      interpret (N + (texts.flatMap program).length) (texts.flatMap program ++ q) t.state =
        interpret N q r := by
  -- each statement takes one unit of the fuel that is left to the statements after it, so `N` is
  -- what all these sources leave to the last one
  induction texts generalizing s t with
  | nil =>
    cases hends
    exact ⟨t.state, h, fun _ => rfl⟩
  | cons text texts ih =>
    obtain ⟨s', hrun, hrest⟩ := LoxLang.Session.runAll_cons_eq_some_iff.mp hends
    rw [LoxLang.Session.reportedAll_cons hrun, List.append_eq_nil_iff] at hquiet
    have htext := haccepted text List.mem_cons_self
    have hle : n ≤ N + (texts.flatMap program).length + (program text).length := by omega
    have hquiet' := (LoxLang.Session.reported_of_le hle hrun).trans hquiet.1
    obtain ⟨r₁, hfinished, h₁⟩ := finished_of_quiet h htext (run_of_le hle hrun) hquiet'
    obtain ⟨r, hu, hall⟩ :=
      ih h₁ (fun t ht => haccepted t (List.mem_cons_of_mem text ht)) hrest hquiet.2
    refine ⟨r, hu, fun q => ?_⟩
    calc
      interpret (N + ((text :: texts).flatMap program).length)
          ((text :: texts).flatMap program ++ q) t.state
        = interpret (N + (texts.flatMap program).length + (program text).length)
            (program text ++ (texts.flatMap program ++ q)) t.state := by
          rw [List.flatMap_cons, List.length_append, List.append_assoc,
            Nat.add_comm (program text).length, ← Nat.add_assoc]
      _ = interpret (N + (texts.flatMap program).length) (texts.flatMap program ++ q) r₁ :=
          interpret_append (returnlessAll_program htext) hfinished
      _ = interpret N q r := hall q

/-- A source whose program is the programs of other sources, one after the other, does the same as these
if all but the last one have nothing to report. -/
theorem run_sequence (h : Agrees s t) (haccepted : ∀ text ∈ texts, Accepted text)
    (hends : s.runAll n texts = some u) (hquiet : s.reportedAll n texts = []) {last whole : String}
    (hlast : Accepted last) (hwhole : Accepted whole)
    (hprogram : program whole = texts.flatMap program ++ program last) (hN : n ≤ N) :
    let k := N + (texts.flatMap program).length
    (s.run k whole).map (fun s => (s.machine.output.written, s.reporter)) =
        (s.runAll N (texts ++ [last])).map (fun s => (s.machine.output.written, s.reporter)) ∧
      s.reported k whole = s.reportedAll N (texts ++ [last]) := by
  obtain ⟨r, hu, hall⟩ := interpret_pieces h haccepted hends hquiet hN
  obtain ⟨hends', hreported⟩ := LoxLang.Session.runAll_of_le hN hends
  obtain ⟨hrunLast, hreportedLast⟩ := LoxLang.Session.runAll_append hends' last
  have hinterpret := hall (program last)
  rw [← hprogram] at hinterpret
  constructor
  · have hrunWhole : t.run (N + (texts.flatMap program).length) whole =
        Session.run N last ⟨r, t.reporter⟩ := by
      rw [Session.run, hinterpret]
      rfl
    have hobserved := observed_of_agrees (agrees_run h hwhole (N + (texts.flatMap program).length))
    rw [hrunWhole] at hobserved
    rw [hobserved, hrunLast]
    exact (observed_of_agrees (agrees_run hu hlast N)).symm
  · rw [reported_of_agrees h hwhole, hinterpret, hreportedLast, hreported, hquiet, List.nil_append,
      reported_of_agrees hu hlast]

/-- All output is taken in the reference. -/
theorem diagnostic?_interpret (n : Nat) (p : List Stmt) (r : State) :
    (interpret n p r).1.diagnostic?.toList = [] ∨
      ∃ line message, (interpret n p r).1.diagnostic?.toList = [.runtime line message] := by
  unfold interpret
  cases executeAll n .outermost p r with
  | ok env r' => exact .inl rfl
  | error signal r' =>
    cases signal with
    | runtime e => exact .inr ⟨e.line, e.message, rfl⟩
    | _ => exact .inl rfl

/-- An empty source does nothing. -/
theorem run_empty (h : Agrees s t) (n : Nat) :
    (s.run (n + 1) "").map (fun s => (s.machine.output.written, s.reporter)) =
        some (s.machine.output.written, s.reporter) ∧
      s.reported (n + 1) "" = [] := by
  have hnone : ∀ text ∈ [], Accepted text := nofun
  obtain ⟨haccepted, hprogram⟩ := accepted_joined hnone 0
  rw [below_zero, joined_nil] at haccepted hprogram
  change program "" = [] at hprogram
  have hinterpret : interpret (n + 1) (program "") t.state = (.finished, t.state) := by
    rw [hprogram]
    rfl
  obtain ⟨W, hlossless, hmatches⟩ := h.world
  constructor
  · rw [observed_of_agrees (agrees_run h haccepted _), Session.run, hinterpret, h.reporter,
      (hmatches.related.output hlossless).1]
    rfl
  · rw [reported_of_agrees h haccepted, hinterpret]
    rfl

end

end Lexical

namespace Session

/-- The error of the sources stands on a line of the source at a position, or of a source run earlier:
with newlines in front of the sources it stands as much lower as that source does. -/
def AnchoredAt (s : Session) (texts : List String) (anchor : Option Nat) (line : Nat)
    (message : String) : Prop :=
  ∀ down : Nat → Nat, ∃ n t, s.runAll n (lowered down texts) = some t ∧
    s.reportedAll n (lowered down texts) = [.runtime (line + anchor.elim 0 down) message]

/-- What is reported of sources one by one and of the joined source is nothing, or the same error, which
stands further down by the newlines before the source that it is about. -/
inductive SameReports (s : Session) (texts : List String) :
    List Diagnostic → List Diagnostic → Prop
  | none : SameReports s texts [] []
  | runtime {anchor : Option Nat} {line : Nat} {message : String}
      (h : s.AnchoredAt texts anchor line message) :
      SameReports s texts [.runtime line message]
        [.runtime (line + anchor.elim 0 (linesBefore texts)) message]

section

variable {s : Session} {texts : List String} {n : Nat}

theorem isSome_runAll_lowered (hlatch : s.reporter.hadError = false)
    (haccepted : ∀ text ∈ texts, Accepted text) (n : Nat) (down : Nat → Nat) :
    (s.runAll n (lowered down texts)).isSome = (s.runAll n texts).isSome := by
  obtain ⟨m, ds, hall⟩ := exists_runAll_lowered hlatch haccepted n
  have hdown := congrArg Option.isSome (hall down).1
  have hplain := congrArg Option.isSome (hall fun _ => 0).1
  rw [lowered_zero] at hplain
  simp only [Option.isSome_map] at hdown hplain
  rw [hdown, hplain]

/-- Newlines in front of accepted texts change nothing of what they write. -/
theorem written_runAll_lowered (hlatch : s.reporter.hadError = false)
    (haccepted : ∀ text ∈ texts, Accepted text) (n : Nat) (down : Nat → Nat) :
    (s.runAll n (lowered down texts)).map (·.machine.output.written) =
      (s.runAll n texts).map (·.machine.output.written) := by
  obtain ⟨m, ds, hall⟩ := exists_runAll_lowered hlatch haccepted n
  have hforget (down : Nat → Nat) : (fun m : Machine => m.output.written) ∘
      Machine.mapLines (placed down) = fun m => m.output.written := rfl
  have hwritten (down : Nat → Nat) := congrArg (Option.map (·.output.written)) (hall down).1
  simp only [Option.map_map, hforget] at hwritten
  have hplain := hwritten fun _ => 0
  rw [lowered_zero] at hplain
  exact (hwritten down).trans hplain.symm

/-- Sources that have nothing to report have nothing to report on lower lines. -/
theorem reportedAll_lowered_of_quiet (hlatch : s.reporter.hadError = false)
    (haccepted : ∀ text ∈ texts, Accepted text) (hquiet : s.reportedAll n texts = [])
    (down : Nat → Nat) : s.reportedAll n (lowered down texts) = [] := by
  obtain ⟨m, ds, hall⟩ := exists_runAll_lowered hlatch haccepted n
  have hplain := (hall fun _ => 0).2
  rw [lowered_zero, hquiet] at hplain
  obtain rfl : ds = [] := List.map_eq_nil_iff.mp hplain.symm
  exact (hall down).2

/-- What the sources report on the lines on which they stand in the joined text is what they report,
but for the line. -/
theorem sameReports_of_lowered (hlatch : s.reporter.hadError = false)
    (haccepted : ∀ text ∈ texts, Accepted text) {t : Session} (hends : s.runAll n texts = some t)
    {ds : List Diagnostic} (h : s.reportedAll n (lowered (linesBefore texts) texts) = ds)
    (hds : ds = [] ∨ ∃ line message, ds = [.runtime line message]) :
    SameReports s texts (s.reportedAll n texts) ds := by
  obtain ⟨m, ds', hall⟩ := exists_runAll_lowered hlatch haccepted n
  have hplain := (hall fun _ => 0).2
  rw [lowered_zero] at hplain
  have hwhole := (hall (linesBefore texts)).2
  rw [h] at hwhole
  rcases hds with rfl | ⟨line, message, rfl⟩
  · obtain rfl : ds' = [] := List.map_eq_nil_iff.mp hwhole.symm
    rw [hplain]
    exact .none
  · obtain ⟨d, rfl, hline⟩ := List.map_eq_singleton_iff.mp hwhole.symm
    cases d with
    | runtime x message' =>
      cases hline
      have hanchored : s.AnchoredAt texts (origin x) x.unpair.2 message := fun down => by
        have hsome := isSome_runAll_lowered hlatch haccepted n down
        rw [hends, Option.isSome_some] at hsome
        obtain ⟨t', ht'⟩ := Option.isSome_iff_exists.mp hsome
        exact ⟨n, t', ht', (hall down).2⟩
      have hzero : placed (fun _ => 0) x = x.unpair.2 := by
        unfold placed
        cases origin x <;> rfl
      rw [hplain, List.map_singleton, Diagnostic.mapLine, hzero]
      exact .runtime hanchored
    | _ => cases hline

structure SameRuns (s : Session) (texts : List String) (n k : Nat) : Prop where
  written : (s.runAll n texts).map (·.machine.output.written) =
    (s.run k (joined texts)).map (·.machine.output.written)
  reports : ∀ t, s.runAll n texts = some t →
    SameReports s texts (s.reportedAll n texts) (s.reported k (joined texts))

theorem exists_agrees (hs : s.Reachable .unlimited .unlimited)
    (hlatch : s.reporter.hadError = false) : ∃ t, Lexical.Agrees s t := by
  have hlossless : true = true → Stream.unlimited = .unlimited := fun _ => rfl
  obtain ⟨W, r, hlossless, hmatches⟩ := Lexical.exists_matches hs hlossless
  exact ⟨⟨r, s.reporter⟩, ⟨W, hlossless, hmatches⟩, rfl, hlatch⟩

/-- The joined source needs more fuel by a constant: all its statements are in one list. -/
theorem exists_sameRuns (hs : s.Reachable .unlimited .unlimited)
    (hlatch : s.reporter.hadError = false) (haccepted : ∀ text ∈ texts, Accepted text)
    (hends : (s.runAll n texts.dropLast).isSome = true)
    (hquiet : s.reportedAll n texts.dropLast = []) :
    ∃ c, ∀ N, n ≤ N → SameRuns s texts N (N + c) := by
  obtain ⟨t, hagrees⟩ := exists_agrees hs hlatch
  rcases List.eq_nil_or_concat texts with rfl | ⟨init, last, rfl⟩
  · refine ⟨1, fun N _ => ?_⟩
    obtain ⟨hrun, hreported⟩ := Lexical.run_empty hagrees N
    have hwritten := congrArg (Option.map Prod.fst) hrun
    simp only [Option.map_map] at hwritten
    rw [← joined_nil] at hwritten hreported
    refine ⟨hwritten.symm, fun u _ => ?_⟩
    rw [hreported]
    exact .none
  · rw [List.concat_eq_append] at *
    rw [List.dropLast_concat] at hends hquiet
    have hinit : ∀ text ∈ init, Accepted text := fun text htext =>
      haccepted text (List.mem_append_left _ htext)
    have hlast : Accepted last := haccepted last (by simp)
    -- each source on the line on which it stands in the joined text
    let down := linesBefore (init ++ [last])
    have hdown := isSome_runAll_lowered hlatch hinit n down
    rw [hends] at hdown
    obtain ⟨u, hu⟩ := Option.isSome_iff_exists.mp hdown
    obtain ⟨hwhole, hprogram⟩ := accepted_joined haccepted 0
    simp only [below_zero, Nat.zero_add] at hwhole hprogram
    rw [lowered_append, List.flatMap_append, List.flatMap_singleton] at hprogram
    refine ⟨((lowered down init).flatMap Lexical.program).length, fun N hN => ?_⟩
    obtain ⟨hrun, hreported⟩ := Lexical.run_sequence hagrees
      (fun text htext => accepted_of_mem_lowered hinit htext) hu
      (reportedAll_lowered_of_quiet hlatch hinit hquiet down) (hlast.below _) hwhole hprogram hN
    rw [← lowered_append] at hrun hreported
    constructor
    · rw [← written_runAll_lowered hlatch haccepted N down]
      have hwritten := congrArg (Option.map Prod.fst) hrun
      simp only [Option.map_map] at hwritten
      exact hwritten.symm
    · intro t' ht'
      refine sameReports_of_lowered hlatch haccepted ht' hreported.symm ?_
      rw [Lexical.reported_of_agrees hagrees hwhole]
      exact Lexical.diagnostic?_interpret _ _ _

end

/-- The latches after reports that are the same. -/
theorem SameReports.latches {s : Session} {texts : List String} {ds ds' : List Diagnostic}
    (h : SameReports s texts ds ds') (r : Reporter) :
    (r.reportAll ds).hadError = (r.reportAll ds').hadError ∧
      (r.reportAll ds).hadRuntimeError = (r.reportAll ds').hadRuntimeError := by
  simp only [Reporter.hadError_reportAll, Reporter.hadRuntimeError_reportAll]
  cases h with
  | none => exact ⟨rfl, rfl⟩
  | runtime _ => exact ⟨rfl, rfl⟩

/-- Accepted sources that are run one after the other, all but the last one without anything to report,
have a result if and only if the source that they are together has one, and it is the same: the same
output, the same latches, and the same runtime error, if there is one, but for its line, which in the
joined source is larger by the newlines before the source that the error is about. -/
theorem runAll_joined {s : Session} (hs : s.Reachable .unlimited .unlimited)
    (hlatch : s.reporter.hadError = false) {texts : List String}
    (haccepted : ∀ text ∈ texts, Accepted text) {n : Nat}
    (hends : (s.runAll n texts.dropLast).isSome = true)
    (hquiet : s.reportedAll n texts.dropLast = []) :
    ((∃ k t, s.runAll k texts = some t) ↔ ∃ k t, s.run k (joined texts) = some t) ∧
    ∀ k k' t t', s.runAll k texts = some t → s.run k' (joined texts) = some t' →
      t.machine.output.written = t'.machine.output.written ∧
      t.reporter.hadError = t'.reporter.hadError ∧
      t.reporter.hadRuntimeError = t'.reporter.hadRuntimeError ∧
      SameReports s texts (s.reportedAll k texts) (s.reported k' (joined texts)) := by
  obtain ⟨c, hsame⟩ := exists_sameRuns hs hlatch haccepted hends hquiet
  constructor
  · constructor
    · rintro ⟨k, t, h⟩
      have hmore := (runAll_of_le (Nat.le_max_right n k) h).1
      have hwritten := (hsame _ (Nat.le_max_left n k)).written
      rw [hmore, Option.map_some] at hwritten
      obtain ⟨t', ht', -⟩ := Option.map_eq_some_iff.mp hwritten.symm
      exact ⟨_, t', ht'⟩
    · rintro ⟨k, t, h⟩
      have hmore := run_of_le (Nat.le_add_right_of_le (Nat.le_max_right n k) (k := c)) h
      have hwritten := (hsame _ (Nat.le_max_left n k)).written
      rw [hmore, Option.map_some] at hwritten
      obtain ⟨t', ht', -⟩ := Option.map_eq_some_iff.mp hwritten
      exact ⟨_, t', ht'⟩
  · intro k k' t t' h h'
    let N := max n (max k k')
    obtain ⟨hmore, hreportedAll⟩ := runAll_of_le (by omega : k ≤ N) h
    have hmore' := run_of_le (by omega : k' ≤ N + c) h'
    have hreported := reported_of_le (by omega : k' ≤ N + c) h'
    obtain ⟨hwritten, hreports⟩ := hsame N (Nat.le_max_left _ _)
    have hreports := hreports t hmore
    rw [hreportedAll, hreported] at hreports
    rw [hmore, hmore', Option.map_some, Option.map_some] at hwritten
    obtain ⟨hlatch₁, hlatch₂⟩ := hreports.latches s.reporter
    rw [← reporter_runAll h, ← reporter_run h'] at hlatch₁ hlatch₂
    exact ⟨Option.some.inj hwritten, hlatch₁, hlatch₂, hreports⟩

def wrongCall : List String :=
  ["fun f(x) \x7b return x + 1; \x7d // f", "print f(2);\n", "\nf();"]

theorem runAll_joined_wrongCall :
    let s := Session.start .unlimited .unlimited fun _ => .ok 0
    s.reporter.hadError = false ∧ (∀ text ∈ wrongCall, Accepted text) ∧
    (s.runAll 20 wrongCall.dropLast).isSome = true ∧ s.reportedAll 20 wrongCall.dropLast = [] ∧
    ((∃ k t, s.runAll k wrongCall = some t) ↔ ∃ k t, s.run k (joined wrongCall) = some t) ∧
    (∀ k k' t t', s.runAll k wrongCall = some t → s.run k' (joined wrongCall) = some t' →
      t.machine.output.written = t'.machine.output.written ∧
      t.reporter.hadError = t'.reporter.hadError ∧
      t.reporter.hadRuntimeError = t'.reporter.hadRuntimeError ∧
      SameReports s wrongCall (s.reportedAll k wrongCall) (s.reported k' (joined wrongCall))) ∧
    s.reportedAll 20 wrongCall = [.runtime 2 "Expected 1 arguments but got 0."] ∧
    s.reported 20 (joined wrongCall) = [.runtime 5 "Expected 1 arguments but got 0."] := by
  intro s
  have haccepted : ∀ text ∈ wrongCall, Accepted text := by decide +kernel
  have hends : (s.runAll 20 wrongCall.dropLast).isSome = true := by decide +kernel
  have hquiet : s.reportedAll 20 wrongCall.dropLast = [] := by decide +kernel
  obtain ⟨hresult, hsame⟩ := runAll_joined (.start fun _ => .ok 0) rfl haccepted hends hquiet
  refine ⟨rfl, haccepted, hends, hquiet, hresult, hsame, ?_, ?_⟩
  · decide +kernel
  · decide +kernel

end Session

end LoxLang

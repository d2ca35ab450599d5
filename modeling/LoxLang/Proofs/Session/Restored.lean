import LoxLang.Proofs.Running.Restored
import LoxLang.Proofs.Session.Runs

/-!
Sessions between their runs. Whatever way the runs so far have ended, the next one is begun outside of all
scopes, and each table stands inside of one other table at most. Main statement: `scope_restored`.
-/
namespace LoxLang.Session

def outermostLink : Links := fun a o => a = 0 ∧ o = none

theorem single_outermostLink : outermostLink.Single 1 where
  bounded a o h := by
    rw [h.1]
    exact Nat.zero_lt_one
  unique a o o' h h' := h.2.trans h'.2.symm

theorem obeys_start (output : Stream) (clock : Clock) :
    (Machine.start output clock).Obeys outermostLink where
  current := ⟨⟨rfl, rfl⟩, trivial⟩
  stored a x v hread := by
    have hstore : (Machine.start output clock).store =
        Store.empty.addTable.writeTable 0 "clock" (.native Machine.clockFunction) := rfl
    rw [hstore, Store.readTable_writeTable, Store.readTable_addTable, Store.readTable_empty] at hread
    split at hread
    · cases hread
      trivial
    · cases hread

structure Outside (m : Machine) : Prop where
  current : m.current = .globals
  links : ∃ links : Links, links.Single m.tables ∧ m.Obeys links

theorem outside_interpret {m : Machine} (h : Outside m) (fuel : Nat) (program : List Stmt) :
    Outside (interpret fuel program m).2 := by
  obtain ⟨links, hsingle, hobeys⟩ := h.links
  have hend := (restoring fuel).executeAll links program m hobeys
  obtain ⟨links', hextends, hobeys', -⟩ := hend.linked
  rw [← reached_executeAll]
  exact ⟨hend.current.trans h.current, links', hextends.single hsingle, hobeys'⟩

/-- Before a text is run, only distances are recorded. -/
theorem outside_prepare {s : Session} (h : Outside s.machine) (text : String) :
    Outside (s.prepare text).2.machine := by
  have hresolved : Outside (s.resolved text) := by
    obtain ⟨links, hsingle, hobeys⟩ := h.links
    exact ⟨h.current, links, hsingle, hobeys.current, hobeys.stored⟩
  have hprepared := prepared s text
  generalize s.prepare text = result at hprepared
  cases hprepared with
  | unread reporter => exact h
  | unresolved reporter hread => exact hresolved
  | ready hread hfound hlatch => exact hresolved

/-- A run begins and ends outside of all scopes. -/
theorem outside_run {s s' : Session} {fuel : Nat} {text : String} (h : Outside s.machine)
    (hrun : s.run fuel text = some s') : Outside s'.machine := by
  have hready := outside_prepare h text
  unfold run at hrun
  split at hrun
  · next s₁ heq =>
    cases hrun
    rw [heq] at hready
    exact hready
  · next program s₁ heq =>
    rw [heq] at hready
    rcases s₁ with ⟨machine, reporter, nextId⟩
    have hend := outside_interpret hready fuel program
    simp only [runPrepared] at hrun
    split at hrun
    · cases hrun
    · next outcome machine' heq' =>
      cases hrun
      rw [heq'] at hend
      exact hend

theorem Reachable.outside {output diagnostics : Stream} {s : Session}
    (h : Reachable output diagnostics s) : Outside s.machine := by
  induction h with
  | start clock => exact ⟨rfl, outermostLink, single_outermostLink, obeys_start output clock⟩
  | run _ hrun ih => exact outside_run ih hrun
  | reset _ ih => exact ih

/-- Every expression, statement and list of statements run inside of an environment leaves the program in
the scope that it was in, however it ends; no table that there was comes to stand inside of another one, and
nothing is recorded of uses. So every run of a session is begun outside of all scopes. -/
theorem scope_restored :
    (∀ (fuel : Nat) (m : Machine),
      (∀ e, Unmoved Value.Obeys m.current m (evaluate fuel e m)) ∧
      (∀ s, Unmoved (fun _ _ => True) m.current m (execute fuel s m)) ∧
      ∀ (ss : List Stmt) (inside : Environment), Unmoved (fun _ _ => True) inside m
        (Run.inEnvironment inside (executeAll fuel ss) m)) ∧
    ∀ (output diagnostics : Stream) (s : Session), Reachable output diagnostics s →
      s.machine.current = .globals ∧
      (∃ links : Links, links.Single s.machine.tables ∧ s.machine.Obeys links) ∧
      ∀ text, (s.prepare text).2.machine.current = .globals := by
  constructor
  · intro fuel m
    have hsteps := restoring fuel
    refine ⟨?_, ?_, ?_⟩
    · intro e
      exact Restores.unmoved (fun links _ => hsteps.evaluate links e) m
    · intro s
      exact Restores.unmoved (fun links _ => hsteps.execute links s) m
    · intro ss inside
      exact Restores.unmoved
        (fun links hinside => restores_inEnvironment hinside (hsteps.executeAll links ss)) m
  · intro output diagnostics s h
    have houtside := h.outside
    exact ⟨houtside.current, houtside.links, fun text => (outside_prepare houtside text).current⟩

/-- A function in a block breaks off, and the next line is run outside of the block all the same. -/
theorem scope_restored_brokenOff :
    ∃ s, (start .unlimited .unlimited fun _ => .ok 0).run 20
        "\x7b let x = 1; fun f() \x7b \x7b return y; \x7d \x7d f(); \x7d" = some s ∧
      s.reporter.hadRuntimeError = true ∧ s.machine.tables = 4 ∧ s.machine.current = .globals := by
  have hrun : ((start .unlimited .unlimited fun _ => .ok 0).run 20
      "\x7b let x = 1; fun f() \x7b \x7b return y; \x7d \x7d f(); \x7d").map
        (fun s => (s.reporter.hadRuntimeError, s.machine.tables)) = some (true, 4) := by
    decide +kernel
  obtain ⟨s, h, hend⟩ := Option.map_eq_some_iff.mp hrun
  obtain ⟨hruntime, htables⟩ := Prod.mk.inj hend
  have hcurrent := (scope_restored.2 .unlimited .unlimited s (.run (.start fun _ => .ok 0) h)).1
  exact ⟨s, h, hruntime, htables, hcurrent⟩

end LoxLang.Session

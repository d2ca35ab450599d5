import LoxLang.Proofs.Lexical.Evaluation
import LoxLang.Proofs.Lexical.Walk
import LoxLang.Proofs.Parsing.Accepts
import LoxLang.Proofs.Session.Lines
import LoxLang.Proofs.Token.Longest

/-!
Texts put together. Accepted texts joined by newlines are an accepted text again, whose program is the
programs of the texts one after the other, each on the lines on which the text stands in the joined one.
Main statement: `accepted_joined`.
-/
namespace LoxLang

open Grammar Parsing

def joined (texts : List String) : String := "\n".intercalate texts

/-- How many newlines of the joined text stand before the text at a position. -/
def linesBefore (texts : List String) (i : Nat) : Nat := newlines (joined (texts.take i ++ [""]))

def lowered (down : Nat → Nat) (texts : List String) : List String :=
  texts.mapIdx fun i text => below (down i) text

def wordsOf (text : String) : List Token := (itemsFrom 1 text.toList).filterMap Item.token?

def Clean (text : String) : Prop := (itemsFrom 1 text.toList).filterMap Item.error? = []

theorem errors_scan_eq_nil_iff (text : String) :
    (scan text).filterMap Item.error? = [] ↔ Clean text := by
  rw [scan_eq, List.filterMap_append]
  exact List.append_eq_nil_iff.trans (and_iff_left rfl)

theorem Clean.error_not_mem {text : String} (h : Clean text) (e : LexicalError) :
    .error e ∉ itemsFrom 1 text.toList := by
  intro he
  have herror := mem_errors.mpr he
  rw [Clean] at h
  rw [h] at herror
  cases herror

theorem body_tokensOf (text : String) : body (tokensOf text) = wordsOf text := by
  have htokens : tokensOf text = wordsOf text ++ [⟨.eof, "", 1 + newlines text⟩] :=
    tokensOf_eq text
  have hwords : ∀ t ∈ wordsOf text, t.kind ≠ .eof := fun t ht => kind_ne_eof_of_mem ht
  rw [htokens, body_append_of_ne_eof hwords]
  exact List.append_nil _

section

variable {a : String} (h : Clean a) (b : String)

include h

/-- No token and no error runs across the newline between two texts. -/
theorem itemsFrom_seam :
    itemsFrom 1 (a ++ "\n" ++ b).toList =
      itemsFrom 1 a.toList ++ itemsFrom 1 (below (newlines a + 1) b).toList := by
  have htext : (a ++ "\n" ++ b).toList = a.toList ++ '\n' :: b.toList := by
    rw [String.append_assoc, String.toList_append, String.toList_append]
    rfl
  rw [htext, itemsFrom_append_newline b.toList fun _ => h.error_not_mem _, itemsFrom_below]
  rfl

theorem wordsOf_seam :
    wordsOf (a ++ "\n" ++ b) = wordsOf a ++ wordsOf (below (newlines a + 1) b) := by
  rw [wordsOf, itemsFrom_seam h, List.filterMap_append]
  rfl

theorem clean_seam (hb : Clean (below (newlines a + 1) b)) : Clean (a ++ "\n" ++ b) := by
  rw [Clean, itemsFrom_seam h, List.filterMap_append]
  exact List.append_eq_nil_iff.mpr ⟨h, hb⟩

end

structure Derives (text : String) (program : List Stmt) : Prop where
  clean : Clean text
  declarations : Declarations true (wordsOf text) program
  resolved : (resolve ∅ program).errors = []

/-- Programs that are the same up to ids break a rule of scopes or do not. -/
theorem errors_resolve_of_same {p q : List Stmt}
    (h : p.map Stmt.withoutIds = q.map Stmt.withoutIds) (hp : (resolve ∅ p).errors = []) :
    (resolve ∅ q).errors = [] := by
  rw [← errors_resolve_withoutIds ∅ ∅] at hp ⊢
  rwa [← h]

section

variable {text : String} {program : List Stmt}

theorem parse_of_words (h : Declarations true (wordsOf text) program) :
    (parse 0 (tokensOf text)).errors = [] ∧
      (Front.ofText 0 text).statements.map Stmt.withoutIds = program.map Stmt.withoutIds := by
  rw [← body_tokensOf] at h
  obtain ⟨herrors, hsame⟩ := parse_of_declarations h 0
  exact ⟨herrors, hsame⟩

theorem Derives.program_eq (h : Derives text program) :
    Lexical.program text = program.map Stmt.withoutIds := (parse_of_words h.declarations).2

theorem Derives.accepted (h : Derives text program) : Accepted text := by
  obtain ⟨herrors, hsame⟩ := parse_of_words h.declarations
  have hclean := (errors_scan_eq_nil_iff text).mpr h.clean
  exact ⟨(diagnostics_ofText_eq_nil_iff 0 text).mpr ⟨hclean, herrors⟩,
    errors_resolve_of_same hsame.symm h.resolved⟩

/-- An accepted text has a derivation. -/
theorem Accepted.exists_derives (h : Accepted text) : ∃ program, Derives text program := by
  obtain ⟨hclean, herrors⟩ := (diagnostics_ofText_eq_nil_iff 0 text).mp h.1
  -- the tree that is read need not be the one with each `else` at the nearest `if`, but up to ids
  -- it is
  have hread := declarations_of_parse herrors
  rw [body_tokensOf] at hread
  obtain ⟨program, hnearest⟩ := hread.toNearest
  obtain ⟨-, hsame⟩ := parse_of_words hnearest
  exact ⟨program, (errors_scan_eq_nil_iff text).mp hclean, hnearest,
    errors_resolve_of_same hsame h.2⟩

end

theorem walkStmts_append (inFunction : Bool) (ss ss' : List Stmt) (s : Resolution.State) :
    Resolution.walkStmts inFunction s (ss ++ ss') =
      Resolution.walkStmts inFunction (Resolution.walkStmts inFunction s ss) ss' := by
  induction ss generalizing s with
  | nil => rw [List.nil_append, Resolution.walkStmts]
  | cons stmt ss ih => rw [List.cons_append, Resolution.walkStmts, Resolution.walkStmts, ih]

/-- Outside of all scopes the rules are checked anew after each statement. -/
theorem errors_resolve_append {ss ss' : List Stmt} (hshaped : ShapedAll ss)
    (h : (resolve ∅ ss).errors = []) (h' : (resolve ∅ ss').errors = []) :
    (resolve ∅ (ss ++ ss')).errors = [] := by
  have hscopes := (Lexical.walks_walkStmts ss hshaped false ⟨[], ∅, #[]⟩).1
  unfold resolve at h ⊢
  simp only [walkStmts_append] at h ⊢
  generalize Resolution.walkStmts false ⟨[], ∅, #[]⟩ ss = s at h hscopes ⊢
  obtain ⟨scopes, distances, errors⟩ := s
  obtain rfl : scopes = [] := hscopes.trans (Lexical.afterAll_nil ss)
  obtain rfl : errors = #[] := Array.toList_eq_nil_iff.mp h
  change (resolve distances ss').errors = []
  rwa [← errors_resolve_withoutIds distances ∅, errors_resolve_withoutIds ∅ ∅]

/-- Two texts with a newline between them are accepted if each of them is, and the second one is then
read on the lines on which it stands. -/
theorem Accepted.append {a b : String} (ha : Accepted a)
    (hb : Accepted (LoxLang.below (newlines a + 1) b)) :
    Accepted (a ++ "\n" ++ b) ∧ Lexical.program (a ++ "\n" ++ b) =
      Lexical.program a ++ Lexical.program (LoxLang.below (newlines a + 1) b) := by
  obtain ⟨p, hp⟩ := ha.exists_derives
  obtain ⟨q, hq⟩ := hb.exists_derives
  have hboth : Derives (a ++ "\n" ++ b) (p ++ q) :=
    { clean := clean_seam hp.clean b hq.clean
      declarations := by
        rw [wordsOf_seam hp.clean]
        exact hp.declarations.append hq.declarations
      resolved :=
        errors_resolve_append (shapedAll_declarations hp.declarations) hp.resolved hq.resolved }
  refine ⟨hboth.accepted, ?_⟩
  rw [hboth.program_eq, hp.program_eq, hq.program_eq, List.map_append]

theorem joined_nil : joined [] = "" := String.intercalate_nil

theorem joined_cons (a : String) {texts : List String} (h : texts ≠ []) :
    joined (a :: texts) = a ++ "\n" ++ joined texts := by
  cases texts with
  | nil => exact absurd rfl h
  | cons b texts => exact String.intercalate_cons_cons

theorem linesBefore_zero (texts : List String) : linesBefore texts 0 = 0 := rfl

theorem linesBefore_succ (a : String) (texts : List String) (i : Nat) :
    linesBefore (a :: texts) (i + 1) = newlines a + 1 + linesBefore texts i := by
  have hne : texts.take i ++ [""] ≠ [] := by simp
  rw [linesBefore, List.take_succ_cons, List.cons_append, joined_cons a hne, newlines_append,
    newlines_append]
  rfl

theorem lowered_cons (down : Nat → Nat) (a : String) (texts : List String) :
    lowered down (a :: texts) = below (down 0) a :: lowered (fun i => down (i + 1)) texts :=
  List.mapIdx_cons

theorem lowered_zero (texts : List String) : lowered (fun _ => 0) texts = texts := by
  induction texts with
  | nil => rfl
  | cons text texts ih => rw [lowered_cons, below_zero, ih]

theorem accepted_of_mem_lowered {texts : List String} (h : ∀ text ∈ texts, Accepted text)
    {down : Nat → Nat} {text : String} (ht : text ∈ lowered down texts) : Accepted text := by
  obtain ⟨i, hi, rfl⟩ := List.mem_mapIdx.mp ht
  exact (h _ (List.getElem_mem hi)).below (down i)

theorem lowered_append (down : Nat → Nat) (texts : List String) (last : String) :
    lowered down (texts ++ [last]) = lowered down texts ++ [below (down texts.length) last] :=
  List.mapIdx_concat

/-- The joined texts are accepted if each of them is, and are read as the texts on the lines on which
they stand. -/
theorem accepted_joined {texts : List String} (h : ∀ text ∈ texts, Accepted text) (k : Nat) :
    Accepted (below k (joined texts)) ∧ Lexical.program (below k (joined texts)) =
      (lowered (fun i => k + linesBefore texts i) texts).flatMap Lexical.program := by
  induction texts generalizing k with
  | nil =>
    have hitems : itemsFrom 1 (below k "").toList = [] := by
      rw [itemsFrom_below]
      change itemsFrom (1 + k) [] = []
      rw [itemsFrom]
    have hempty : Derives (below k "") [] :=
      { clean := by rw [Clean, hitems, List.filterMap_nil]
        declarations := by
          rw [wordsOf, hitems]
          exact .nil
        resolved := rfl }
    exact ⟨hempty.accepted, hempty.program_eq⟩
  | cons a texts ih =>
    have ha := (h a List.mem_cons_self).below k
    have hrest := ih (fun text htext => h text (List.mem_cons_of_mem a htext)) (k + newlines a + 1)
    have hlines : newlines (below k a) + 1 = k + newlines a + 1 := by rw [newlines_below]
    have hlater : (fun i => k + linesBefore (a :: texts) (i + 1)) =
        fun i => k + newlines a + 1 + linesBefore texts i := by
      funext i
      rw [linesBefore_succ, ← Nat.add_assoc, ← Nat.add_assoc]
    rw [lowered_cons, List.flatMap_cons, hlater, linesBefore_zero, Nat.add_zero, ← hrest.2]
    cases texts with
    | nil =>
      rw [hrest.2]
      exact ⟨ha, (List.append_nil _).symm⟩
    | cons b texts =>
      have hjoined : below k (joined (a :: b :: texts)) =
          below k a ++ "\n" ++ joined (b :: texts) := by
        rw [joined_cons a (List.cons_ne_nil b texts)]
        simp only [below, String.append_assoc]
      rw [hjoined, ← hlines]
      exact ha.append (hlines ▸ hrest.1)

end LoxLang

import LoxLang.Proofs.Parsing.AdvancesStatements
import LoxLang.Proofs.Session.Accepted
import LoxLang.Proofs.Token.Lines

/-!
The order of the syntax errors of a text. Errors are found in the order of their anchors, and so of
lines, apart from one case: a list of arguments is found to be too long when its tokens are read, and an
assignment sign in front of it is found to have no target only when all of the value has been read.
-/
namespace LoxLang

open Parsing

/-- The lines of the tokens of a text never go back. -/
theorem pairwise_line_tokensOf (text : String) : (tokensOf text).Pairwise (·.line ≤ ·.line) := by
  refine (pairwise_line_scan text).filterMap Item.token? fun i j hle t ht u hu => ?_
  cases i with
  | error e => cases ht
  | token t' =>
    cases j with
    | error e => cases hu
    | token u' =>
      cases ht
      cases hu
      exact hle

theorem getElem?_position {tokens : List Token} (h : ∃ t ∈ tokens, t.kind = .eof) {nextId : ReferenceId}
    {e : SyntaxError} (he : e ∈ (parse nextId tokens).errors) :
    tokens[e.position]? = some e.token := by
  obtain ⟨after, htokens⟩ := exists_eq_body_append h nextId
  have htoken := ((moves_readAll nextId tokens).1.anchored e he).2
  change (body tokens ++ [(State.start nextId tokens).last])[e.position]? = _ at htoken
  rw [htokens, List.append_cons, List.getElem?_append_left, htoken]
  exact (List.getElem?_eq_some_iff.mp htoken).1

/-- Every syntax error of a text is anchored at one of its tokens. Of two errors the one found first
stands first, and on no later line, unless it is about a list of arguments and the other one about an
assignment. So errors are found in the order of the text if and only if no such list stands behind such
an assignment. -/
theorem errors_in_order_iff (nextId : ReferenceId) (text : String) :
    let errors := (parse nextId (tokensOf text)).errors
    (∀ e ∈ errors, (tokensOf text)[e.position]? = some e.token) ∧
    errors.Pairwise (fun e e' =>
      e.position ≤ e'.position ∧ e.token.line ≤ e'.token.line ∨
        e.cause = .tooManyArguments ∧ e'.cause = .assignmentTarget) ∧
    (errors.Pairwise (fun e e' => e.position ≤ e'.position ∧ e.token.line ≤ e'.token.line) ↔
      errors.Pairwise fun e e' =>
        e.cause = .tooManyArguments → e'.cause = .assignmentTarget → e.position ≤ e'.position) := by
  intro errors
  have hanchored : ∀ e ∈ errors, (tokensOf text)[e.position]? = some e.token :=
    fun e he => getElem?_position (exists_eof_mem_tokensOf text) he
  have hline : ∀ e ∈ errors, ∀ e' ∈ errors, e.position ≤ e'.position → e.token.line ≤ e'.token.line := by
    intro e he e' he' hle
    obtain ⟨hlt, htoken⟩ := List.getElem?_eq_some_iff.mp (hanchored e he)
    obtain ⟨hlt', htoken'⟩ := List.getElem?_eq_some_iff.mp (hanchored e' he')
    rcases Nat.lt_or_eq_of_le hle with hlt'' | heq
    · rw [← htoken, ← htoken']
      exact List.pairwise_iff_getElem.mp (pairwise_line_tokensOf text) _ _ hlt hlt' hlt''
    · simp only [heq, htoken'] at htoken
      exact Nat.le_of_eq (congrArg Token.line htoken.symm)
  have hordered : errors.Pairwise Precedes := (moves_readAll nextId (tokensOf text)).1.ordered
  refine ⟨hanchored, ?_, ?_, ?_⟩
  · exact hordered.imp_of_mem fun he he' h => h.imp (fun h => ⟨h, hline _ he _ he' h⟩) id
  · exact fun h => h.imp fun h _ _ => h.1
  · intro h
    refine (hordered.and h).imp_of_mem fun he he' h => ?_
    -- the only pair that can be out of order is the one that the hypothesis is about
    have hle : _ ≤ _ := h.1.elim id fun hcauses => h.2 hcauses.1 hcauses.2
    exact ⟨hle, hline _ he _ he' hle⟩

/-- An argument and its comma, any number of times. -/
theorem itemsFrom_arguments (n line : Nat) (cs : List Char) :
    itemsFrom line ((List.replicate n ['a', ',']).flatten ++ cs) =
      (List.replicate n [.token ⟨.identifier, "a", line⟩,
        .token ⟨.symbol .comma, ",", line⟩]).flatten ++ itemsFrom line cs := by
  have hone (cs : List Char) : itemsFrom line ('a' :: ',' :: cs) =
      .token ⟨.identifier, "a", line⟩ :: .token ⟨.symbol .comma, ",", line⟩ :: itemsFrom line cs := by
    have hname : Piece.first 'a' (',' :: cs) = ⟨.token .identifier, ['a'], ',' :: cs⟩ := rfl
    have hcomma : Piece.first ',' cs = ⟨.token (.symbol .comma), [','], cs⟩ := rfl
    rw [itemsFrom_cons line hname, itemsFrom_cons _ hcomma]
    rfl
  induction n with
  | zero => rfl
  | succ n ih =>
    rw [List.replicate_succ, List.replicate_succ, List.flatten_cons, List.flatten_cons]
    exact (hone _).trans (congrArg (fun items => _ :: _ :: items) ih)

/-- A call with `n + 1` arguments as the value of an assignment without a target. The assignment sign is
on the first line and the call on the second one. -/
def untargeted (n : Nat) : String :=
  String.ofList (['n', 'i', 'l', '=', '\n', 'f', '('] ++
    ((List.replicate n ['a', ',']).flatten ++ ['a', ')', ';']))

/-- The tokens of the text, however many arguments there are. -/
theorem scan_untargeted (n : Nat) : scan (untargeted n) =
    [.token ⟨.keyword .nilKw, "nil", 1⟩, .token ⟨.symbol .equal, "=", 1⟩,
      .token ⟨.identifier, "f", 2⟩, .token ⟨.symbol .leftParen, "(", 2⟩] ++
    ((List.replicate n [.token ⟨.identifier, "a", 2⟩, .token ⟨.symbol .comma, ",", 2⟩]).flatten ++
      [.token ⟨.identifier, "a", 2⟩, .token ⟨.symbol .rightParen, ")", 2⟩,
        .token ⟨.symbol .semicolon, ";", 2⟩]) ++
    [.token ⟨.eof, "", 2⟩] := by
  have hfront (cs : List Char) : itemsFrom 1 (['n', 'i', 'l', '=', '\n', 'f', '('] ++ cs) =
      [.token ⟨.keyword .nilKw, "nil", 1⟩, .token ⟨.symbol .equal, "=", 1⟩,
        .token ⟨.identifier, "f", 2⟩, .token ⟨.symbol .leftParen, "(", 2⟩] ++ itemsFrom 2 cs := by
    have hnil : Piece.first 'n' ('i' :: 'l' :: '=' :: '\n' :: 'f' :: '(' :: cs) =
        ⟨.token (.keyword .nilKw), ['n', 'i', 'l'], '=' :: '\n' :: 'f' :: '(' :: cs⟩ := rfl
    have hsign : Piece.first '=' ('\n' :: 'f' :: '(' :: cs) =
        ⟨.token (.symbol .equal), ['='], '\n' :: 'f' :: '(' :: cs⟩ := rfl
    have hnewline : Piece.first '\n' ('f' :: '(' :: cs) = ⟨.blank, ['\n'], 'f' :: '(' :: cs⟩ := rfl
    have hname : Piece.first 'f' ('(' :: cs) = ⟨.token .identifier, ['f'], '(' :: cs⟩ := rfl
    have hopening : Piece.first '(' cs = ⟨.token (.symbol .leftParen), ['('], cs⟩ := rfl
    refine (itemsFrom_cons 1 hnil).trans (congrArg (_ :: ·) ?_)
    refine (itemsFrom_cons _ hsign).trans (congrArg (_ :: ·) ?_)
    refine (itemsFrom_cons _ hnewline).trans ?_
    refine (itemsFrom_cons _ hname).trans (congrArg (_ :: ·) ?_)
    exact itemsFrom_cons _ hopening
  have hback : itemsFrom 2 ['a', ')', ';'] = [.token ⟨.identifier, "a", 2⟩,
      .token ⟨.symbol .rightParen, ")", 2⟩, .token ⟨.symbol .semicolon, ";", 2⟩] := by
    have hname : Piece.first 'a' [')', ';'] = ⟨.token .identifier, ['a'], [')', ';']⟩ := rfl
    have hclosing : Piece.first ')' [';'] = ⟨.token (.symbol .rightParen), [')'], [';']⟩ := rfl
    have hsemicolon : Piece.first ';' [] = ⟨.token (.symbol .semicolon), [';'], []⟩ := rfl
    have hend : itemsFrom 2 [] = [] := by rw [itemsFrom]
    refine (itemsFrom_cons 2 hname).trans (congrArg (_ :: ·) ?_)
    refine (itemsFrom_cons _ hclosing).trans (congrArg (_ :: ·) ?_)
    exact (itemsFrom_cons _ hsemicolon).trans (congrArg (_ :: ·) hend)
  have harguments : (List.replicate n ['a', ',']).flatten.count '\n' = 0 :=
    List.count_eq_zero.mpr (by simp)
  have hcount : (untargeted n).toList.count '\n' = 1 := by
    simp [untargeted, List.count_append, harguments]
  refine (items_eq 1 (untargeted n).toList).trans ?_
  rw [hcount]
  simp only [untargeted, String.toList_ofList, hfront, itemsFrom_arguments, hback]

/-- The 256th argument is found to be too many before the sign on the line above it is found wrong. -/
theorem errors_untargeted : (parse 0 (tokensOf (untargeted 255))).errors.map
      (fun e => (e.cause, e.position, e.token.line)) =
        [(.tooManyArguments, 514, 2), (.assignmentTarget, 1, 1)] ∧
    ¬(parse 0 (tokensOf (untargeted 255))).errors.Pairwise
      fun e e' => e.position ≤ e'.position ∧ e.token.line ≤ e'.token.line := by
  have herrors : (parse 0 (tokensOf (untargeted 255))).errors.map
      (fun e => (e.cause, e.position, e.token.line)) =
        [(.tooManyArguments, 514, 2), (.assignmentTarget, 1, 1)] := by
    rw [tokensOf, scan_untargeted]
    decide +kernel
  refine ⟨herrors, fun hordered => ?_⟩
  have hpositions : [514, 1].Pairwise (· ≤ ·) := by
    have h := congrArg (List.map fun x => x.2.1) herrors
    rw [List.map_map] at h
    rw [← show _ = [514, 1] from h]
    exact List.pairwise_map.mpr (hordered.imp And.left)
  exact absurd hpositions (by decide)

end LoxLang

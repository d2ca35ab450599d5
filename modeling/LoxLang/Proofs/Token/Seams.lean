import LoxLang.Token.Source
import LoxLang.Proofs.Token.Ends
import LoxLang.Proofs.Tree.Lines

/-!
What a text is read as does not depend on what stands around it, apart from lines. An element ends before
a newline at the latest, unless it is a string; so a text in which no string is left open is read
the same with a newline and any text after it, and what follows is read the same on later lines. Main
statement: `scan_append_newline`.
-/
namespace LoxLang

namespace Piece

def followedBy (p : Piece) (cs : List Char) : Piece := { p with rest := p.rest ++ cs }

/-- The first element of a text is the same with a newline after the text, unless it is a string that
is left open. -/
theorem first_newline (c : Char) (cs ds : List Char)
    (h : (first c cs).element ≠ .unterminatedString) :
    first c (cs ++ '\n' :: ds) = (first c cs).followedBy ('\n' :: ds) := by
  have hwhole : cs ++ '\n' :: ds =
      (first c cs).text.tail ++ ((first c cs).rest ++ '\n' :: ds) := by
    rw [← List.append_assoc, tail_append_rest]
  rw [hwhole]
  exact first_endsLike h (fun _ hstops => hstops.append_cons rfl ds)
    (separates_newline.endsLike_append _ ds)

end Piece

def itemsFrom (line : Nat) : List Char → List Item
  | [] => []
  | c :: cs =>
    let p := Piece.first c cs
    let line := line + p.text.count '\n'
    (Source.item? line p).toList ++ itemsFrom line p.rest
termination_by cs => cs.length
decreasing_by exact Piece.length_rest_first_lt c cs

def newlines (text : String) : Nat := text.toList.count '\n'

theorem newlines_append (a b : String) : newlines (a ++ b) = newlines a + newlines b := by
  rw [newlines, String.toList_append, List.count_append, newlines, newlines]

/-- A text with a known first piece. -/
theorem itemsFrom_cons (line : Nat) {c : Char} {cs : List Char} {p : Piece}
    (h : Piece.first c cs = p) :
    itemsFrom line (c :: cs) = (Source.item? (line + p.text.count '\n') p).toList ++
      itemsFrom (line + p.text.count '\n') p.rest := by
  rw [itemsFrom, h]

/-- The newlines of a text are those of its first element and those of the rest. -/
theorem count_first (c : Char) (cs : List Char) :
    (Piece.first c cs).text.count '\n' + (Piece.first c cs).rest.count '\n' =
      (c :: cs).count '\n' := by
  rw [← List.count_append, Piece.first_append]

theorem add_count_first (line : Nat) (c : Char) (cs : List Char) :
    line + (Piece.first c cs).text.count '\n' + (Piece.first c cs).rest.count '\n' =
      line + (c :: cs).count '\n' := by rw [Nat.add_assoc, count_first]

theorem items_of_ended (line : Nat) (cs : List Char) : (⟨cs, line, true⟩ : Source).items = [] := by
  rw [Source.items]
  rfl

theorem items_of_advance (line : Nat) (cs : List Char) :
    (⟨cs, line, false⟩ : Source).items =
      (Source.advance line cs).1 :: (Source.advance line cs).2.items := by
  rw [Source.items]
  rfl

/-- After its items a text has its end. -/
theorem items_eq (line : Nat) (cs : List Char) :
    (⟨cs, line, false⟩ : Source).items =
      itemsFrom line cs ++ [.token ⟨.eof, "", line + cs.count '\n'⟩] := by
  induction line, cs using itemsFrom.induct with
  | case1 line =>
    rw [items_of_advance, Source.advance, items_of_ended, itemsFrom]
    rfl
  | case2 line c cs p line' ih =>
    have hcount : line' + p.rest.count '\n' = line + (c :: cs).count '\n' :=
      add_count_first line c cs
    rw [itemsFrom, List.append_assoc, ← hcount, ← ih, items_of_advance, Source.advance]
    cases Source.item? line' p with
    | none => rw [Option.toList_none, List.nil_append, items_of_advance]
    | some item => rfl

/-- The items of a text and the end of the input. -/
theorem scan_eq (text : String) :
    scan text = itemsFrom 1 text.toList ++ [.token ⟨.eof, "", 1 + newlines text⟩] :=
  items_eq 1 text.toList

def tokensOf (text : String) : List Token := (scan text).filterMap Item.token?

/-- The end of the input is the last token. -/
theorem tokensOf_eq (text : String) :
    tokensOf text = (itemsFrom 1 text.toList).filterMap Item.token? ++
      [⟨.eof, "", 1 + newlines text⟩] := by
  rw [tokensOf, scan_eq, List.filterMap_append]
  rfl

theorem mem_tokens {items : List Item} {t : Token} :
    t ∈ items.filterMap Item.token? ↔ .token t ∈ items := by
  rw [List.mem_filterMap]
  constructor
  · rintro ⟨i, hi, ht⟩
    cases i <;> cases ht
    exact hi
  · exact fun h => ⟨_, h, rfl⟩

theorem mem_errors {items : List Item} {e : LexicalError} :
    e ∈ items.filterMap Item.error? ↔ .error e ∈ items := by
  rw [List.mem_filterMap]
  constructor
  · rintro ⟨i, hi, he⟩
    cases i <;> cases he
    exact hi
  · exact fun h => ⟨_, h, rfl⟩

/-- Every token of a text is the first piece of the text from there on. -/
theorem first_of_mem_token {line : Nat} {cs : List Char} {t : Token}
    (h : .token t ∈ itemsFrom line cs) : ∃ c ds, (Piece.first c ds).element = .token t.kind ∧
      t.lexeme = String.ofList (Piece.first c ds).text := by
  induction line, cs using itemsFrom.induct with
  | case1 line =>
    rw [itemsFrom] at h
    cases h
  | case2 line c cs p line' ih =>
    rw [itemsFrom, List.mem_append] at h
    rcases h with h | h
    · have hitem : Source.item? line' p = some (.token t) := Option.mem_toList.mp h
      unfold Source.item? at hitem
      split at hitem
      · cases hitem
      · next kind helement =>
        cases hitem
        exact ⟨c, cs, helement, rfl⟩
      · cases hitem
      · cases hitem
    · exact ih h

theorem itemsFrom_newline_cons (line : Nat) (cs : List Char) :
    itemsFrom line ('\n' :: cs) = itemsFrom (line + 1) cs := by
  have hfirst : Piece.first '\n' cs = ⟨.blank, ['\n'], cs⟩ := rfl
  rw [itemsFrom, hfirst]
  rfl

/-- An open string would be among the items. -/
theorem element_ne_of_not_mem {line : Nat} {p : Piece}
    (h : Item.error ⟨line, .unterminatedString⟩ ∉ (Source.item? line p).toList) :
    p.element ≠ .unterminatedString := by
  intro hopen
  rw [Source.item?, hopen] at h
  exact h (List.mem_singleton.mpr rfl)

/-- A newline is a seam: what stands before it and what stands after it are read apart, unless a string
is left open. -/
theorem itemsFrom_append_newline {line : Nat} {cs : List Char} (ds : List Char)
    (h : ∀ l, Item.error ⟨l, .unterminatedString⟩ ∉ itemsFrom line cs) :
    itemsFrom line (cs ++ '\n' :: ds) =
      itemsFrom line cs ++ itemsFrom (line + cs.count '\n' + 1) ds := by
  induction line, cs using itemsFrom.induct with
  | case1 line => rw [List.nil_append, itemsFrom_newline_cons, itemsFrom]; rfl
  | case2 line c cs p line' ih =>
    rw [itemsFrom] at h
    have hclosed : p.element ≠ .unterminatedString :=
      element_ne_of_not_mem fun hl => h line' (List.mem_append_left _ hl)
    have hfirst := Piece.first_newline c cs ds hclosed
    have hcount : line' + p.rest.count '\n' = line + (c :: cs).count '\n' :=
      add_count_first line c cs
    have hrest := ih fun l hl => h l (List.mem_append_right _ hl)
    rw [hcount] at hrest
    rw [itemsFrom, List.cons_append, itemsFrom, hfirst, List.append_assoc, ← hrest]
    rfl

theorem itemsFrom_newlines (k line : Nat) (cs : List Char) :
    itemsFrom line (List.replicate k '\n' ++ cs) = itemsFrom (line + k) cs := by
  induction k generalizing line with
  | zero => rfl
  | succ k ih =>
    rw [List.replicate_succ, List.cons_append, itemsFrom_newline_cons, ih, Nat.add_assoc,
      Nat.add_comm 1 k]

def Item.mapLine (g : Nat → Nat) : Item → Item
  | token t => token (t.mapLine g)
  | error e => error { e with line := g e.line }

theorem item?_add (line k : Nat) (p : Piece) :
    Source.item? (line + k) p = (Source.item? line p).map (Item.mapLine (· + k)) := by
  unfold Source.item?
  cases p.element <;> rfl

/-- On later lines a text has the same items, on lines as much later. -/
theorem itemsFrom_add (line k : Nat) (cs : List Char) :
    itemsFrom (line + k) cs = (itemsFrom line cs).map (Item.mapLine (· + k)) := by
  induction line, cs using itemsFrom.induct with
  | case1 line =>
    rw [itemsFrom, itemsFrom]
    rfl
  | case2 line c cs p line' ih =>
    have hline : line + k + p.text.count '\n' = line' + k := Nat.add_right_comm ..
    rw [itemsFrom, itemsFrom, List.map_append, ← ih]
    rw [hline, item?_add, Option.toList_map]

/-- Reading distributes over a newline: a text in which no string is left open, a newline and any text
have the items of the first text without its end, and then those of the second on later lines. -/
theorem scan_append_newline {a : String}
    (h : ∀ line, Item.error ⟨line, .unterminatedString⟩ ∉ scan a) (b : String) :
    ∃ items, scan a = items ++ [.token ⟨.eof, "", 1 + newlines a⟩] ∧
      scan (a ++ "\n" ++ b) = items ++ (scan b).map (Item.mapLine (· + (1 + newlines a))) := by
  have htext : (a ++ "\n" ++ b).toList = a.toList ++ '\n' :: b.toList := by
    rw [String.append_assoc, String.toList_append, String.toList_append]
    rfl
  have hclosed (l : Nat) : Item.error ⟨l, .unterminatedString⟩ ∉ itemsFrom 1 a.toList := by
    intro hl
    apply h l
    rw [scan_eq]
    exact List.mem_append_left _ hl
  have hlines : 1 + newlines (a ++ "\n" ++ b) = 1 + newlines b + (1 + newlines a) := by
    have hone : newlines "\n" = 1 := rfl
    rw [newlines_append, newlines_append, hone]
    omega
  refine ⟨itemsFrom 1 a.toList, scan_eq a, ?_⟩
  calc scan (a ++ "\n" ++ b)
      = itemsFrom 1 (a.toList ++ '\n' :: b.toList) ++
          [.token ⟨.eof, "", 1 + newlines b + (1 + newlines a)⟩] := by rw [scan_eq, htext, hlines]
    _ = itemsFrom 1 a.toList ++ (itemsFrom (1 + newlines a + 1) b.toList ++
          [.token ⟨.eof, "", 1 + newlines b + (1 + newlines a)⟩]) := by
        rw [itemsFrom_append_newline _ hclosed, List.append_assoc]
        rfl
    _ = itemsFrom 1 a.toList ++ (scan b).map (Item.mapLine (· + (1 + newlines a))) := by
        rw [Nat.add_comm _ 1, itemsFrom_add, scan_eq, List.map_append]
        rfl

/-- A quote in a comment opens no string, and the equals sign after the newline is one of its own. -/
theorem scan_append_newline_comment :
    (∀ line, Item.error ⟨line, .unterminatedString⟩ ∉ scan "a @ 3. =// \"") ∧
      ∃ items, scan "a @ 3. =// \"" = items ++ [.token ⟨.eof, "", 1 + newlines "a @ 3. =// \""⟩] ∧
        scan ("a @ 3. =// \"" ++ "\n" ++ "= \"b\n") =
          items ++ (scan "= \"b\n").map (Item.mapLine (· + (1 + newlines "a @ 3. =// \""))) := by
  have herrors : (scan "a @ 3. =// \"").filterMap Item.error? = [⟨1, .unrecognized '@'⟩] := by
    decide +kernel
  have hclosed (line : Nat) : Item.error ⟨line, .unterminatedString⟩ ∉ scan "a @ 3. =// \"" := by
    intro h
    have herror := mem_errors.mpr h
    rw [herrors, List.mem_singleton] at herror
    cases herror
  exact ⟨hclosed, scan_append_newline hclosed "= \"b\n"⟩

end LoxLang

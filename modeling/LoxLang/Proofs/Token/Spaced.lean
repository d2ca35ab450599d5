import LoxLang.Proofs.Token.Longest

/-!
Tokens written one after the other. Before a space every token ends, so the lexemes of the tokens of any
text with a space between each two are read as the same tokens again. Main statement: `scan_spaced`.
-/
namespace LoxLang

def spaced (ts : List Token) : String := " ".intercalate (ts.map Token.lexeme)

def ReadsBack (t : Token) : Prop :=
  ∃ c cs, t.lexeme.toList = c :: cs ∧
    ∀ rest, Piece.first c (cs ++ ' ' :: rest) = ⟨.token t.kind, c :: cs, ' ' :: rest⟩

/-- Every token of a text but the end of the input is read back from its lexeme. -/
theorem readsBack_of_mem {line : Nat} {cs : List Char} {t : Token}
    (h : .token t ∈ itemsFrom line cs) : ReadsBack t := by
  obtain ⟨c, ds, helement, hlexeme⟩ := first_of_mem_token h
  have hclosed : (Piece.first c ds).element ≠ .unterminatedString := by
    rw [helement]
    exact Element.noConfusion
  have hblank : (Piece.first c ds).element ≠ .blank := by
    rw [helement]
    exact Element.noConfusion
  refine ⟨c, (Piece.first c ds).text.tail, ?_, fun rest => ?_⟩
  · rw [hlexeme, String.toList_ofList, ← Piece.text_first]
  · have hfirst : _ = (⟨_, _, ' ' :: rest⟩ : Piece) := Piece.first_endsLike hclosed
      (fun h => absurd h hblank) (separates_space.endsLike (Piece.first c ds).rest rest)
    rw [hfirst, helement, ← Piece.text_first]

section

variable {ts : List Token}

/-- Each lexeme has a space after it if a token with no text is the last. -/
theorem toList_spaced {last : Token} (hlast : last.lexeme = "") (ts : List Token) :
    (spaced (ts ++ [last])).toList = ts.flatMap fun t => t.lexeme.toList ++ [' '] := by
  induction ts with
  | nil =>
    have hone : spaced [last] = last.lexeme := String.intercalate_singleton
    rw [List.nil_append, hone, hlast]
    rfl
  | cons t ts ih =>
    have hcons : spaced (t :: ts ++ [last]) = t.lexeme ++ " " ++ spaced (ts ++ [last]) := by
      cases ts with
      | nil => exact String.intercalate_cons_cons
      | cons u ts => exact String.intercalate_cons_cons
    rw [hcons, String.toList_append, String.toList_append, ih, List.flatMap_cons]
    rfl

/-- Tokens that are read back from their lexemes are read from all of them, each before a space. -/
theorem itemsFrom_spaced (h : ∀ t ∈ ts, ReadsBack t) (line : Nat) :
    ∃ us : List Token,
      itemsFrom line (ts.flatMap fun t => t.lexeme.toList ++ [' ']) = us.map Item.token ∧
        us.map (fun t => (t.kind, t.lexeme)) = ts.map fun t => (t.kind, t.lexeme) := by
  induction ts generalizing line with
  | nil =>
    refine ⟨[], ?_, rfl⟩
    rw [List.flatMap_nil, itemsFrom]
    rfl
  | cons t ts ih =>
    obtain ⟨c, cs, hlexeme, hfirst⟩ := h t List.mem_cons_self
    obtain ⟨us, hitems, hsame⟩ := ih (fun u hu => h u (List.mem_cons_of_mem t hu))
      (line + (c :: cs).count '\n')
    have hspace (rest : List Char) : Piece.first ' ' rest = ⟨.blank, [' '], rest⟩ := rfl
    have hword : String.ofList (c :: cs) = t.lexeme := by rw [← hlexeme, String.ofList_toList]
    refine ⟨⟨t.kind, t.lexeme, line + (c :: cs).count '\n'⟩ :: us, ?_, ?_⟩
    · rw [List.flatMap_cons, hlexeme, List.append_assoc, List.cons_append, List.singleton_append,
        itemsFrom_cons line (hfirst _), itemsFrom_cons _ (hspace _), List.map_cons, ← hitems, ← hword]
      rfl
    · rw [List.map_cons, List.map_cons, hsame]

end

/-- Reading the lexemes of the tokens of a text again, with a space between each two, finds no error and
the same tokens: their kinds, lexemes and literals are those of the tokens of the text, whether or not
there are lexical errors in it. -/
theorem scan_spaced (text : String) :
    (scan (spaced (tokensOf text))).filterMap Item.error? = [] ∧
      (tokensOf (spaced (tokensOf text))).map (fun t => (t.kind, t.lexeme)) =
        (tokensOf text).map fun t => (t.kind, t.lexeme) := by
  -- the end of the input has no text, so the last space stands at the end
  have hlast : (⟨.eof, "", 1 + newlines text⟩ : Token).lexeme = "" := rfl
  have hread : ∀ t ∈ (itemsFrom 1 text.toList).filterMap Item.token?, ReadsBack t :=
    fun t ht => readsBack_of_mem (mem_tokens.mp ht)
  obtain ⟨us, hitems, hsame⟩ := itemsFrom_spaced hread 1
  have hscan : scan (spaced (tokensOf text)) = us.map Item.token ++
      [.token ⟨.eof, "", 1 + newlines (spaced (tokensOf text))⟩] := by
    rw [scan_eq, ← hitems, ← toList_spaced hlast, ← tokensOf_eq]
  have herrors : (us.map Item.token).filterMap Item.error? = [] := by
    rw [List.filterMap_map]
    exact List.filterMap_eq_nil_iff.mpr fun _ _ => rfl
  have hkept : (us.map Item.token).filterMap Item.token? = us := by
    rw [List.filterMap_map]
    exact List.filterMap_some
  refine ⟨?_, ?_⟩
  · rw [hscan, List.filterMap_append, herrors]
    rfl
  · rw [tokensOf, hscan, List.filterMap_append, hkept, tokensOf_eq, List.map_append,
      List.map_append, hsame]
    rfl

example : spaced (tokensOf "a==\n3..5 @ //c") = "a == 3 . . 5 " := by decide +kernel

end LoxLang

import LoxLang.Proofs.Token.Longest

/-!
The lines of items. A token stands on the line on which its text ends, a character that is not recognized
on its own line, and a string that is left open on the last line, with the end of the input; so lines
never go back. Main statement: `scan_lines`.
-/
namespace LoxLang

def Item.line : Item → Nat
  | token t => t.line
  | error e => e.line

section

variable {line : Nat} {cs : List Char} {i : Item}

theorem line_item? {p : Piece} (h : Source.item? line p = some i) : i.line = line := by
  unfold Source.item? at h
  split at h <;> cases h <;> rfl

/-- The items of a text stand on the lines of the text. -/
theorem line_bounds_of_mem (h : i ∈ itemsFrom line cs) :
    line ≤ i.line ∧ i.line ≤ line + cs.count '\n' := by
  induction line, cs using itemsFrom.induct with
  | case1 line =>
    rw [itemsFrom] at h
    cases h
  | case2 line c cs p line' ih =>
    have hcount : line' + p.rest.count '\n' = line + (c :: cs).count '\n' :=
      add_count_first line c cs
    have hle : line ≤ line' := Nat.le_add_right _ _
    rw [itemsFrom, List.mem_append] at h
    rcases h with h | h
    · have hi : i.line = line' := line_item? (Option.mem_toList.mp h)
      omega
    · have hbounds := ih h
      omega

/-- Lines do not go back from item to item. -/
theorem pairwise_line_itemsFrom (line : Nat) (cs : List Char) :
    (itemsFrom line cs).Pairwise (·.line ≤ ·.line) := by
  induction line, cs using itemsFrom.induct with
  | case1 line =>
    rw [itemsFrom]
    exact .nil
  | case2 line c cs p line' ih =>
    rw [itemsFrom]
    refine List.pairwise_append.mpr ⟨?_, ih, fun i hi j hj => ?_⟩
    · cases Source.item? line' p with
      | none => exact .nil
      | some item => exact List.pairwise_singleton _ item
    · have hline : i.line = line' := line_item? (Option.mem_toList.mp hi)
      rw [hline]
      exact (line_bounds_of_mem hj).1

/-- The lines of the items of a text never go back. -/
theorem pairwise_line_scan (text : String) : (scan text).Pairwise (·.line ≤ ·.line) := by
  rw [scan_eq]
  refine List.pairwise_append.mpr
    ⟨pairwise_line_itemsFrom 1 _, List.pairwise_singleton _ _, fun i hi j hj => ?_⟩
  rw [List.mem_singleton.mp hj]
  exact (line_bounds_of_mem hi).2

end

def lineAfter (cs : List Char) : Nat := 1 + cs.count '\n'

def Element.yieldsAfter (whole before text : List Char) : Element → List Item
  | .blank => []
  | .token kind => [.token ⟨kind, String.ofList text, lineAfter (before ++ text)⟩]
  | .unterminatedString => [.error ⟨lineAfter whole, .unterminatedString⟩]
  | .unrecognized c => [.error ⟨lineAfter before, .unrecognized c⟩]

def itemsAfter (whole before : List Char) : List Piece → List Item
  | [] => []
  | p :: ps => p.element.yieldsAfter whole before p.text ++ itemsAfter whole (before ++ p.text) ps

theorem lineAfter_append (before cs : List Char) :
    lineAfter (before ++ cs) = lineAfter before + cs.count '\n' := by
  rw [lineAfter, List.count_append, lineAfter, Nat.add_assoc]

section

variable {c : Char} {cs : List Char}

/-- A string that nothing closes leaves nothing. -/
theorem Fits.rest_eq_nil {text rest : List Char} (h : Fits .unterminatedString text rest) :
    rest = [] := by
  cases h
  rfl

theorem rest_of_unterminated (h : (Piece.first c cs).element = .unterminatedString) :
    (Piece.first c cs).rest = [] := (fits_first h fun _ => Element.noConfusion).rest_eq_nil

/-- What is not recognized is the first character alone, and it is no newline. -/
theorem first_of_unrecognized {d : Char} (h : (Piece.first c cs).element = .unrecognized d) :
    Piece.first c cs = ⟨.unrecognized c, [c], cs⟩ ∧ c ≠ '\n' := by
  rcases best_first_or c cs with hbest | ⟨hfirst, hnone⟩
  · have hfits := hbest.fits
    rw [h] at hfits
    cases hfits
  · refine ⟨hfirst, ?_⟩
    rintro rfl
    exact hnone .blank ['\n'] cs (.space cs (.inr (.inr (.inr rfl)))) rfl

theorem count_newline_singleton (h : c ≠ '\n') : [c].count '\n' = 0 :=
  List.count_eq_zero.mpr fun hc => h (List.mem_singleton.mp hc).symm

/-- The item of the first piece, by where the piece stands. -/
theorem yieldsAfter_first {whole before : List Char} (hwhole : whole = before ++ c :: cs) :
    (Piece.first c cs).element.yieldsAfter whole before (Piece.first c cs).text =
      (Source.item? (lineAfter (before ++ (Piece.first c cs).text)) (Piece.first c cs)).toList := by
  unfold Source.item?
  cases helement : (Piece.first c cs).element with
  | blank => rfl
  | token kind => rfl
  | unterminatedString =>
    have htext : (Piece.first c cs).text = c :: cs := by
      rw [← Piece.first_append c cs, rest_of_unterminated helement, List.append_nil]
    rw [htext, ← hwhole]
    rfl
  | unrecognized d =>
    obtain ⟨hfirst, hnewline⟩ := first_of_unrecognized helement
    rw [hfirst] at helement
    cases helement
    rw [hfirst, lineAfter_append, count_newline_singleton hnewline]
    rfl

/-- The lines of items are told by what stands before their pieces. -/
theorem itemsAfter_pieces {whole before : List Char} (hwhole : whole = before ++ cs) :
    itemsAfter whole before (pieces cs) = itemsFrom (lineAfter before) cs := by
  induction cs using pieces.induct generalizing before with
  | case1 =>
    rw [pieces, itemsFrom]
    rfl
  | case2 c cs ih =>
    have hrest : whole = before ++ (Piece.first c cs).text ++ (Piece.first c cs).rest := by
      rw [hwhole, List.append_assoc, Piece.first_append]
    rw [pieces, itemsAfter, yieldsAfter_first hwhole, ih hrest, itemsFrom_cons _ rfl,
      lineAfter_append]

end

/-- Every item carries the right line. A text has one split into longest elements, each with a text before
it in the source; a token's line counts the newlines up to the end of its text, the line of
an unrecognized character those before it, and the lines of an open string and of the end of the input
all newlines. The lines never go back. -/
theorem scan_lines (text : String) :
    ∃ ps, (∀ qs, Splits text.toList qs ↔ qs = ps) ∧ ps.flatMap Piece.text = text.toList ∧
      scan text = itemsAfter text.toList [] ps ++ [.token ⟨.eof, "", lineAfter text.toList⟩] ∧
      (scan text).Pairwise (·.line ≤ ·.line) := by
  refine ⟨pieces text.toList, fun qs => splits_iff, flatMap_text_pieces _, ?_,
    pairwise_line_scan text⟩
  rw [itemsAfter_pieces (List.nil_append _).symm, scan_eq]
  rfl

example : (scan "\"a\nb\" @\n\"c\n").map Item.line = [2, 2, 4, 4] := by decide +kernel

end LoxLang

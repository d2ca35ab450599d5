import LoxLang.Proofs.Token.Lines

/-!
Characters that are not recognized. Elements end before such a character as they do before a space, so a
text with a space in place of each one is read the same, but without their errors. Main statement:
`scan_blanked`.
-/
namespace LoxLang

namespace Piece

def unrecognized? (p : Piece) : Option Char :=
  match p.element with
  | .unrecognized c => some c
  | _ => none

def blanked (p : Piece) : List Char := if p.unrecognized?.isSome then [' '] else p.text

end Piece

/-- The text of the pieces with a space for each character that is not recognized. -/
def blanked (ps : List Piece) : List Char := ps.flatMap Piece.blanked

def Item.unrecognized? : Item → Option Char
  | error ⟨_, .unrecognized c⟩ => some c
  | _ => none

theorem blanked_cons (p : Piece) (ps : List Piece) :
    blanked (p :: ps) = p.blanked ++ blanked ps := List.flatMap_cons

section

variable {c : Char} {cs : List Char}

/-- The first piece is kept, or a space stands for it, which is no newline. -/
theorem blanked_first (c : Char) (cs : List Char) :
    (Piece.first c cs).unrecognized? = none ∧
        (Piece.first c cs).blanked = (Piece.first c cs).text ∨
      Piece.first c cs = ⟨.unrecognized c, [c], cs⟩ ∧ c ≠ '\n' := by
  unfold Piece.blanked
  cases h : (Piece.first c cs).unrecognized? with
  | none => exact .inl ⟨rfl, rfl⟩
  | some d =>
    unfold Piece.unrecognized? at h
    split at h
    · next helement => exact .inr (first_of_unrecognized helement)
    · cases h

/-- The first character of a text is kept, or a space stands for it, which is no newline. -/
theorem head_blanked (cs : List Char) : ∀ d ∈ (blanked (pieces cs)).head?,
    d ∈ cs.head? ∨ d = ' ' ∧ ∃ c ∈ cs.head?, c ≠ '\n' := by
  intro d hd
  cases cs with
  | nil =>
    rw [pieces] at hd
    cases hd
  | cons c cs =>
    rw [pieces, blanked_cons] at hd
    rcases blanked_first c cs with ⟨-, htext⟩ | ⟨hfirst, hnewline⟩
    · rw [htext, Piece.text_first] at hd
      cases hd
      exact .inl rfl
    · rw [hfirst] at hd
      cases hd
      exact .inr ⟨rfl, c, rfl, hnewline⟩

/-- A run that does not go on into a text goes on into no space in it either. -/
theorem stopsBefore_blanked {p : Char → Bool} (hspace : p ' ' = false) (h : StopsBefore p cs) :
    StopsBefore p (blanked (pieces cs)) := by
  intro d hd
  rcases head_blanked cs d hd with hsame | ⟨rfl, -⟩
  · exact h d hsame
  · exact hspace

/-- A comment that ends before a text ends before the text with its spaces. -/
theorem stopsBefore_newline_blanked (h : StopsBefore (· != '\n') cs) :
    StopsBefore (· != '\n') (blanked (pieces cs)) := by
  intro d hd
  rcases head_blanked cs d hd with hsame | ⟨-, c, hc, hnewline⟩
  · exact h d hsame
  · exact absurd (h c hc) (by simp [hnewline])

/-- Elements that end before a text end before it with spaces for its unrecognized characters. -/
theorem endsLike_blanked (cs : List Char) : EndsLike cs (blanked (pieces cs)) where
  part := stopsBefore_blanked rfl
  digit := stopsBefore_blanked rfl
  fraction := by
    intro hnone ds hds
    have hpoint : '.' ∈ cs.head? := by
      rcases head_blanked cs '.' (by rw [hds]; rfl) with hsame | ⟨hspace, -⟩
      · exact hsame
      · exact absurd hspace (by decide)
    obtain ⟨es, rfl⟩ := List.head?_eq_some_iff.mp hpoint
    have hfirst : Piece.first '.' es = ⟨.token (.symbol .dot), ['.'], es⟩ := rfl
    rw [pieces, hfirst, blanked_cons] at hds
    obtain rfl : blanked (pieces es) = ds := (List.cons.inj hds).2
    exact stopsBefore_blanked rfl (hnone es rfl)
  equal := stopsBefore_blanked rfl
  slash := stopsBefore_blanked rfl

/-- The first piece is read the same before the text with its spaces. -/
theorem first_blanked (c : Char) (cs : List Char) :
    Piece.first c ((Piece.first c cs).text.tail ++ blanked (pieces (Piece.first c cs).rest)) =
      { Piece.first c cs with rest := blanked (pieces (Piece.first c cs).rest) } := by
  by_cases hopen : (Piece.first c cs).element = .unterminatedString
  · have hrest := rest_of_unterminated hopen
    have htext := Piece.tail_append_rest c cs
    have hnothing : blanked (pieces []) = [] := by
      rw [pieces]
      rfl
    rw [hrest, List.append_nil] at htext
    rw [hrest, hnothing, List.append_nil, htext, ← hrest]
  · exact Piece.first_endsLike hopen (fun _ => stopsBefore_newline_blanked) (endsLike_blanked _)

theorem unrecognized_of_item? {line : Nat} {p : Piece} {i : Item}
    (h : Source.item? line p = some i) : i.unrecognized? = p.unrecognized? := by
  unfold Source.item? at h
  unfold Piece.unrecognized?
  revert h
  cases p.element <;> rintro ⟨⟩ <;> rfl

/-- The errors of characters that are not recognized are those of the pieces. -/
theorem unrecognized_itemsFrom (line : Nat) (cs : List Char) :
    (itemsFrom line cs).filterMap Item.unrecognized? =
      (pieces cs).filterMap Piece.unrecognized? := by
  induction cs using pieces.induct generalizing line with
  | case1 => rw [itemsFrom, pieces]; rfl
  | case2 c cs ih =>
    have hitem (line : Nat) (p : Piece) : (Source.item? line p).toList.filterMap
        Item.unrecognized? = p.unrecognized?.toList := by
      unfold Source.item? Piece.unrecognized?
      cases p.element <;> rfl
    rw [itemsFrom_cons line rfl, pieces, List.filterMap_append, hitem, ih]
    cases h : (Piece.first c cs).unrecognized? with
    | none => rw [List.filterMap_cons_none h]; rfl
    | some d => rw [List.filterMap_cons_some h]; rfl

/-- With a space for each of these characters the items are the others, on the same lines. -/
theorem itemsFrom_blanked (line : Nat) (cs : List Char) :
    itemsFrom line (blanked (pieces cs)) =
      (itemsFrom line cs).filter fun i => i.unrecognized?.isNone := by
  induction cs using pieces.induct generalizing line with
  | case1 =>
    rw [pieces, blanked, List.flatMap_nil, itemsFrom]
    rfl
  | case2 c cs ih =>
    rw [pieces, blanked_cons, itemsFrom_cons line (c := c) rfl, List.filter_append, ← ih]
    rcases blanked_first c cs with ⟨hnone, htext⟩ | ⟨hfirst, hnewline⟩
    · have hkept : ∀ i ∈ (Source.item? (line + (Piece.first c cs).text.count '\n')
          (Piece.first c cs)).toList, i.unrecognized?.isNone = true := by
        intro i hi
        rw [unrecognized_of_item? (Option.mem_toList.mp hi), hnone]
        rfl
      have hitems := itemsFrom_cons line (first_blanked c cs)
      rw [← List.cons_append, ← Piece.text_first] at hitems
      rw [List.filter_eq_self.mpr hkept, htext, hitems]
      rfl
    · have hspace : Piece.first ' ' (blanked (pieces cs)) =
          ⟨.blank, [' '], blanked (pieces cs)⟩ := rfl
      rw [hfirst, count_newline_singleton hnewline]
      exact itemsFrom_cons line hspace

/-- Spaces put for characters leave the number of newlines as it is. -/
theorem count_newline_blanked (cs : List Char) :
    (blanked (pieces cs)).count '\n' = cs.count '\n' := by
  induction cs using pieces.induct with
  | case1 => rw [pieces, blanked, List.flatMap_nil]
  | case2 c cs ih =>
    rw [pieces, blanked_cons, List.count_append, ih, ← count_first]
    rcases blanked_first c cs with ⟨-, htext⟩ | ⟨hfirst, hnewline⟩
    · rw [htext]
    · rw [hfirst, count_newline_singleton hnewline]
      rfl

end

/-- A character that is not recognized acts as a space. In the one split of a text into longest elements
such characters are pieces of their own, and the text reports each by one error that names it, in
order; with a space in place of each, all other items are the same, on the same lines. -/
theorem scan_blanked (text : String) :
    ∃ ps, (∀ qs, Splits text.toList qs ↔ qs = ps) ∧
      (∀ p ∈ ps, ∀ c, p.element = .unrecognized c → p.text = [c]) ∧
      scan text = itemsOf 1 ps ++ [.token ⟨.eof, "", 1 + newlines text⟩] ∧
      (scan text).filterMap Item.unrecognized? = ps.filterMap Piece.unrecognized? ∧
      scan (String.ofList (blanked ps)) =
        (scan text).filter fun i => i.unrecognized?.isNone := by
  refine ⟨pieces text.toList, fun qs => splits_iff, ?_, ?_, ?_, ?_⟩
  · intro p hp c helement
    obtain ⟨d, ds, rfl⟩ := exists_first_of_mem hp
    obtain ⟨hfirst, -⟩ := first_of_unrecognized helement
    rw [hfirst] at helement ⊢
    cases helement
    rfl
  · rw [itemsOf_pieces, scan_eq]
  · rw [scan_eq, List.filterMap_append, unrecognized_itemsFrom]
    exact List.append_nil _
  · have hlines : newlines (String.ofList (blanked (pieces text.toList))) = newlines text := by
      rw [newlines, String.toList_ofList, count_newline_blanked, newlines]
    calc scan (String.ofList (blanked (pieces text.toList)))
        = itemsFrom 1 (blanked (pieces text.toList)) ++
            [.token ⟨.eof, "", 1 + newlines text⟩] := by rw [scan_eq, hlines, String.toList_ofList]
      _ = ((itemsFrom 1 text.toList).filter fun i => i.unrecognized?.isNone) ++
            [.token ⟨.eof, "", 1 + newlines text⟩] := by rw [itemsFrom_blanked]
      _ = (scan text).filter fun i => i.unrecognized?.isNone := by
          rw [scan_eq, List.filter_append]
          rfl

example : blanked (pieces "1.é2 \"é\"".toList) = "1. 2 \"é\"".toList := by decide +kernel

end LoxLang

import LoxLang.Proofs.Token.Longest

/-!
How an element is read depends on what follows it only so far as the next character goes, and only on
whether that character is a letter if it is one; after a point, the character after it counts too. So
names can be spelled differently without a change to the elements around them. Main statement:
`first_followed`.
-/
namespace LoxLang

section

variable {cs cs' : List Char}

/-- What the second text starts with, the first one starts with too, or both start with a letter. -/
def StartsAlike (cs cs' : List Char) : Prop :=
  ∀ d ∈ cs'.head?, d ∈ cs.head? ∨
    Piece.isNameStart d = true ∧ ∃ e ∈ cs.head?, Piece.isNameStart e = true

/-- The texts are alike to the element before them, which may go on with a point and a digit. -/
structure FollowsAlike (cs cs' : List Char) : Prop where
  first : StartsAlike cs cs'
  second : ∀ ds ds', cs = '.' :: ds → cs' = '.' :: ds' → StartsAlike ds ds'

/-- Where an element ends before any letter or after all of them, it does so before both texts. -/
theorem StartsAlike.forall_head (h : StartsAlike cs cs') {p : Char → Bool}
    (hp : ∀ d e, Piece.isNameStart d = true → Piece.isNameStart e = true → p d = p e)
    (hends : StopsBefore p cs) : StopsBefore p cs' := by
  intro d hd
  rcases h d hd with hsame | ⟨hname, e, he, hname'⟩
  · exact hends d hsame
  · rw [hp d e hname hname']
    exact hends e he

/-- A character that is no letter stands in front of both texts. -/
theorem StartsAlike.of_not_isNameStart (h : StartsAlike cs cs') {d : Char} (hd : d ∈ cs'.head?)
    (hname : Piece.isNameStart d = false) : d ∈ cs.head? := by
  rcases h d hd with hsame | ⟨hname', -⟩
  · exact hsame
  · rw [hname] at hname'
    cases hname'

theorem isNamePart_of_isNameStart {d : Char} (h : Piece.isNameStart d = true) :
    Piece.isNamePart d = true := isNamePart_iff.mpr (.inl (isNameStart_iff.mp h))

theorem isDigit_of_isNameStart {d : Char} (h : Piece.isNameStart d = true) : d.isDigit = false := by
  rw [Bool.eq_false_iff]
  intro hdigit
  rw [not_isNameStart_of_isDigit hdigit] at h
  cases h

/-- A letter is no other character. -/
theorem beq_of_isNameStart {d a : Char} (ha : Piece.isNameStart a = false)
    (h : Piece.isNameStart d = true) : (d == a) = false := by
  refine beq_eq_false_iff_ne.mpr fun heq => ?_
  rw [← heq, h] at ha
  cases ha

/-- What is alike has the same elements end before it. -/
theorem FollowsAlike.endsLike (h : FollowsAlike cs cs') : EndsLike cs cs' where
  part := h.first.forall_head fun d e hd he => by
    rw [isNamePart_of_isNameStart hd, isNamePart_of_isNameStart he]
  digit := h.first.forall_head fun d e hd he => by
    rw [isDigit_of_isNameStart hd, isDigit_of_isNameStart he]
  fraction := by
    rintro hnone ds' rfl d hd
    rw [Bool.eq_false_iff]
    intro hdigit
    obtain ⟨ds, rfl⟩ := List.head?_eq_some_iff.mp
      (h.first.of_not_isNameStart (d := '.') rfl (by decide))
    have hd' := (h.second ds ds' rfl rfl).of_not_isNameStart hd (not_isNameStart_of_isDigit hdigit)
    rw [hnone ds rfl d hd'] at hdigit
    cases hdigit
  equal := h.first.forall_head fun d e hd he => by
    rw [beq_of_isNameStart (by decide) hd, beq_of_isNameStart (by decide) he]
  slash := h.first.forall_head fun d e hd he => by
    rw [beq_of_isNameStart (by decide) hd, beq_of_isNameStart (by decide) he]

end

namespace Piece

variable {c : Char} {cs rest : List Char}

/-- An element is read the same if what follows it is alike, unless it is a string that is left open. -/
theorem first_followed (hclosed : (first c cs).element ≠ .unterminatedString)
    (h : FollowsAlike (first c cs).rest rest) :
    first c ((first c cs).text.tail ++ rest) = { first c cs with rest := rest } := by
  refine first_endsLike hclosed (fun _ => h.first.forall_head fun d e hd he => ?_) h.endsLike
  rw [bne, bne, beq_of_isNameStart (by decide) hd, beq_of_isNameStart (by decide) he]

end Piece

end LoxLang

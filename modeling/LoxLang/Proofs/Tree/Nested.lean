import LoxLang.Proofs.Token.Ends

/-!
Words in parentheses. A nested text is a word or a list of nested texts, written in parentheses with a space
between neighbours. If no word has a space or a parenthesis in it, then what is written can be read in
one way only, whatever follows. Main statement: `Nested.text_inj`.
-/
namespace LoxLang

inductive Nested
  | word (cs : List Char)
  | list (items : List Nested)

def isWordPart (c : Char) : Bool := c != ' ' && c != '(' && c != ')'

def IsWord (cs : List Char) : Prop := cs ≠ [] ∧ ∀ c ∈ cs, isWordPart c = true

namespace Nested

mutual

def text : Nested → List Char
  | word cs => cs
  | list [] => ['(', ')']
  | list (x :: xs) => '(' :: (x.text ++ (textAfter xs ++ [')']))

def textAfter : List Nested → List Char
  | [] => []
  | x :: xs => ' ' :: (x.text ++ textAfter xs)

end

mutual

def Legible : Nested → Prop
  | word cs => IsWord cs
  | list items => LegibleAll items

def LegibleAll : List Nested → Prop
  | [] => True
  | x :: xs => x.Legible ∧ LegibleAll xs

end

theorem legibleAll_iff {xs : List Nested} : LegibleAll xs ↔ ∀ x ∈ xs, x.Legible := by
  induction xs with
  | nil => simp [LegibleAll]
  | cons x xs ih => simp [LegibleAll, ih]

/-- A nested text starts with a parenthesis that opens, or with a part of a word. -/
theorem text_cons {x : Nested} (h : x.Legible) : ∃ c cs, x.text = c :: cs ∧ c ≠ ' ' ∧ c ≠ ')' := by
  match x with
  | word [] => exact absurd rfl h.1
  | word (c :: cs) =>
    have hc := h.2 c List.mem_cons_self
    simp only [isWordPart, Bool.and_eq_true, bne_iff_ne] at hc
    exact ⟨c, cs, by rw [text], hc.1.1, hc.2⟩
  | list [] => exact ⟨'(', [')'], by rw [text], by decide, by decide⟩
  | list (x :: xs) => exact ⟨'(', _, by rw [text], by decide, by decide⟩

/-- Where an item ends: before a space, before a parenthesis that closes, or with the text. -/
def Closed (cs : List Char) : Prop := ∀ c ∈ cs.head?, c = ' ' ∨ c = ')'

theorem closed_nil : Closed [] := nofun

theorem closed_close (cs : List Char) : Closed (')' :: cs) := by
  rintro c ⟨⟩
  exact .inr rfl

theorem closed_textAfter (xs : List Nested) (cs : List Char) : Closed (textAfter xs ++ ')' :: cs) := by
  cases xs with
  | nil => exact closed_close cs
  | cons x xs =>
    rintro c ⟨⟩
    exact .inl rfl

theorem Closed.stopsBefore {cs : List Char} (h : Closed cs) : StopsBefore isWordPart cs := by
  intro c hc
  rcases h c hc with rfl | rfl <;> rfl

/-- A word ends where the first character stands that is no part of a word. -/
theorem word_inj {cs ds r r' : List Char} (hcs : IsWord cs) (hds : IsWord ds) (hr : Closed r)
    (hr' : Closed r') (h : cs ++ r = ds ++ r') : cs = ds ∧ r = r' := by
  obtain ⟨htake, hdrop⟩ := span_of_head hcs.2 hr.stopsBefore
  obtain ⟨htake', hdrop'⟩ := span_of_head hds.2 hr'.stopsBefore
  rw [h] at htake hdrop
  exact ⟨htake.symm.trans htake', hdrop.symm.trans hdrop'⟩

/-- No word is read as a list. -/
theorem word_ne_list {cs r r' : List Char} {items : List Nested} (hcs : IsWord cs) :
    cs ++ r ≠ (list items).text ++ r' := by
  intro h
  cases cs with
  | nil => exact hcs.1 rfl
  | cons c cs =>
    have hc : c = '(' := by cases items <;> exact (List.cons.inj h).1
    have hpart := hcs.2 c List.mem_cons_self
    rw [hc] at hpart
    cases hpart

/-- Before what is listed after the first item there is no item. -/
theorem text_ne_close {x : Nested} {r r' : List Char} (hx : x.Legible) :
    x.text ++ r ≠ ')' :: r' := by
  obtain ⟨c, cs, htext, -, hc⟩ := text_cons hx
  intro h
  rw [htext] at h
  exact hc (List.cons.inj h).1

mutual

/-- What is written is read in one way only, whatever follows where an item may end. -/
theorem text_append_inj {x y : Nested} {r r' : List Char} (hx : x.Legible) (hy : y.Legible)
    (hr : Closed r) (hr' : Closed r') (h : x.text ++ r = y.text ++ r') : x = y ∧ r = r' := by
  match x, y with
  | word cs, word ds =>
    obtain ⟨hwords, hrest⟩ := word_inj hx hy hr hr' h
    exact ⟨congrArg word hwords, hrest⟩
  | word cs, list ys => exact absurd h (word_ne_list hx)
  | list xs, word ds => exact absurd h.symm (word_ne_list hy)
  | list [], list [] => exact ⟨rfl, (List.append_right_inj _).mp h⟩
  | list [], list (y :: ys) =>
    simp only [text, List.cons_append, List.append_assoc, List.nil_append] at h
    exact absurd (List.cons.inj h).2.symm (text_ne_close hy.1)
  | list (x :: xs), list [] =>
    simp only [text, List.cons_append, List.append_assoc, List.nil_append] at h
    exact absurd (List.cons.inj h).2 (text_ne_close hx.1)
  | list (x :: xs), list (y :: ys) =>
    simp only [text, List.cons_append, List.append_assoc, List.nil_append] at h
    obtain ⟨hfirst, hothers⟩ := text_append_inj hx.1 hy.1 (closed_textAfter xs r)
      (closed_textAfter ys r') (List.cons.inj h).2
    obtain ⟨hlist, hrest⟩ := textAfter_inj hx.2 hy.2 hothers
    exact ⟨by rw [hfirst, hlist], hrest⟩

/-- Legible items are told apart by their texts, up to the parenthesis that closes them. -/
theorem textAfter_inj {xs ys : List Nested} {r r' : List Char} (hxs : LegibleAll xs)
    (hys : LegibleAll ys) (h : textAfter xs ++ ')' :: r = textAfter ys ++ ')' :: r') :
    xs = ys ∧ r = r' := by
  match xs, ys with
  | [], [] => exact ⟨rfl, (List.cons.inj h).2⟩
  | [], y :: ys => exact absurd (List.cons.inj h).1 (by decide)
  | x :: xs, [] => exact absurd (List.cons.inj h).1 (by decide)
  | x :: xs, y :: ys =>
    simp only [textAfter, List.cons_append, List.append_assoc] at h
    obtain ⟨hfirst, hothers⟩ := text_append_inj hxs.1 hys.1 (closed_textAfter xs r)
      (closed_textAfter ys r') (List.cons.inj h).2
    obtain ⟨hlist, hrest⟩ := textAfter_inj hxs.2 hys.2 hothers
    exact ⟨by rw [hfirst, hlist], hrest⟩

end

/-- A nested text is known from what is written. -/
theorem text_inj {x y : Nested} (hx : x.Legible) (hy : y.Legible) (h : x.text = y.text) : x = y :=
  (text_append_inj hx hy closed_nil closed_nil (congrArg (· ++ []) h)).1

end Nested

end LoxLang

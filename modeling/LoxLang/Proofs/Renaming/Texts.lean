import LoxLang.Proofs.Renaming.Places
import LoxLang.Proofs.Token.Neighbours

/-!
Texts with the names at some places changed. The other elements are read as before, since one name stands
where another stood, and no line moves. Main statement: `tokensOf_renamed`.
-/
namespace LoxLang

def IsName (word : String) : Prop := Fits (.token .identifier) word.toList []

section

variable {word : String} {c : Char} {cs rest : List Char}

theorem name_cases {ds : List Char} (h : Fits (.token .identifier) ds rest) :
    ∃ a as, ds = a :: as ∧ Piece.isNameStart a = true ∧
      (∀ d ∈ as, Piece.isNamePart d = true) ∧
      Piece.wordKind (String.ofList (a :: as)) = .identifier := by
  cases h with
  | identifier rest hfirst hothers hname =>
    exact ⟨_, _, rfl, isNameStart_iff.mpr hfirst, fun d hd => isNamePart_iff.mpr (hothers d hd),
      wordKind_eq_identifier hname⟩

theorem count_newline_name {ds : List Char} (h : Fits (.token .identifier) ds rest) :
    ds.count '\n' = 0 := by
  obtain ⟨a, as, rfl, ha, has, -⟩ := name_cases h
  rw [List.count_eq_zero]
  intro hnewline
  rcases List.mem_cons.mp hnewline with rfl | hnewline
  · cases ha
  · exact absurd (has _ hnewline) (by decide)

/-- A name is read where no letter and no digit follows it. -/
theorem first_name {a : Char} {as : List Char} (h : Fits (.token .identifier) (a :: as) rest)
    {rest' : List Char} (hrest : ∀ d ∈ rest'.head?, Piece.isNamePart d = false) :
    Piece.first a (as ++ rest') = ⟨.token .identifier, a :: as, rest'⟩ := by
  obtain ⟨_, _, heq, ha, has, hkind⟩ := name_cases h
  cases heq
  obtain ⟨htake, hdrop⟩ := span_of_head has hrest
  rw [Piece.first, if_pos ha, Piece.word, htake, hdrop, hkind]

theorem fits_of_element (h : (Piece.first c cs).element = .token .identifier) :
    Fits (.token .identifier) (Piece.first c cs).text (Piece.first c cs).rest :=
  fits_first h fun _ => Element.noConfusion

theorem isNameStart_of_element (h : (Piece.first c cs).element = .token .identifier) :
    Piece.isNameStart c = true := by
  obtain ⟨a, as, htext, hstart, -⟩ := name_cases (fits_of_element h)
  rw [Piece.text_first] at htext
  cases htext
  exact hstart

/-- No letter and no digit follows a name. -/
theorem head_rest_of_element (h : (Piece.first c cs).element = .token .identifier) :
    ∀ d ∈ (Piece.first c cs).rest.head?, Piece.isNamePart d = false := by
  rw [Piece.first, if_pos (isNameStart_of_element h)]
  exact head_dropWhile cs

end

namespace Renaming

namespace Change

def next (c : Change) : Change := { c with changes := fun i => c.changes (i + 1) }

def after (c : Change) (p : Piece) : Change :=
  match p.element with
  | .token _ => c.next
  | _ => c

def pieceText (c : Change) (p : Piece) : List Char :=
  match p.element with
  | .token kind => if c.changes 0 && isNameKind kind then c.new.toList else p.text
  | _ => p.text

def text : Change → List Piece → List Char
  | _, [] => []
  | c, p :: ps => c.pieceText p ++ (c.after p).text ps

theorem tokens_cons (c : Change) (t : Token) (ts : List Token) :
    c.tokens (t :: ts) =
      (if c.changes 0 && isName t then { t with lexeme := c.new } else t) :: c.next.tokens ts :=
  List.mapIdx_cons

/-- A token that is no name stays. -/
theorem tokens_concat (c : Change) (ts : List Token) {t : Token} (ht : isName t = false) :
    c.tokens (ts ++ [t]) = c.tokens ts ++ [t] := by
  unfold tokens
  rw [List.mapIdx_concat, ht, Bool.and_false, if_neg Bool.false_ne_true]

theorem new_after (c : Change) (p : Piece) : (c.after p).new = c.new := by
  unfold after
  split <;> rfl

end Change

section

variable {c : Change} {a : Char} {as cs : List Char}

/-- A piece keeps its text, or one name takes the place of another. -/
theorem pieceText_cases (c : Change) (p : Piece) :
    c.pieceText p = p.text ∨ p.element = .token .identifier ∧ c.pieceText p = c.new.toList := by
  unfold Change.pieceText
  split
  · next kind hkind =>
    split
    · next hboth =>
      obtain ⟨-, hname⟩ := Bool.and_eq_true_iff.mp hboth
      rw [isNameKind_iff.mp hname] at hkind
      exact .inr ⟨hkind, rfl⟩
    · exact .inl rfl
  · exact .inl rfl

variable (hnew : IsName c.new)

include hnew

theorem count_newline_pieceText :
    (c.pieceText (Piece.first a as)).count '\n' = (Piece.first a as).text.count '\n' := by
  rcases pieceText_cases c (Piece.first a as) with hsame | ⟨hname, hchanged⟩
  · rw [hsame]
  · rw [hchanged, count_newline_name hnew, count_newline_name (fits_of_element hname)]

/-- The text with the names changed starts like the text, or both start with a letter. -/
theorem startsAlike_text (cs : List Char) : StartsAlike cs (c.text (pieces cs)) := by
  cases cs with
  | nil =>
    rw [pieces]
    intro d hd
    cases hd
  | cons a as =>
    rw [pieces, Change.text]
    rcases pieceText_cases c (Piece.first a as) with hsame | ⟨hname, hchanged⟩
    · rw [hsame, Piece.text_first]
      exact fun d hd => .inl hd
    · obtain ⟨b, bs, hb, hbstart, -⟩ := name_cases hnew
      rw [hchanged, hb]
      rintro d ⟨⟩
      exact .inr ⟨hbstart, a, rfl, isNameStart_of_element hname⟩

/-- To the element before it a text with names changed is as it was. -/
theorem followsAlike_text (cs : List Char) : FollowsAlike cs (c.text (pieces cs)) where
  first := startsAlike_text hnew cs
  second := by
    rintro ds ds' rfl hds'
    have hpoint : Piece.first '.' ds = ⟨.token (.symbol .dot), ['.'], ds⟩ := rfl
    have hkept : c.pieceText ⟨.token (.symbol .dot), ['.'], ds⟩ = ['.'] := by
      show (if c.changes 0 && false then c.new.toList else ['.']) = ['.']
      rw [Bool.and_false]
      rfl
    rw [pieces, hpoint, Change.text, hkept] at hds'
    cases hds'
    have hnext : IsName c.next.new := hnew
    exact startsAlike_text hnext ds

/-- The first piece of a text with names changed is the first piece of the text, changed. -/
theorem first_changed (hclosed : (Piece.first a as).element ≠ .unterminatedString) {rest : List Char}
    (hrest : FollowsAlike (Piece.first a as).rest rest) :
    ∃ b bs, c.pieceText (Piece.first a as) = b :: bs ∧ Piece.first b (bs ++ rest) =
      ⟨(Piece.first a as).element, c.pieceText (Piece.first a as), rest⟩ := by
  rcases pieceText_cases c (Piece.first a as) with hsame | ⟨hname, hchanged⟩
  · rw [hsame]
    exact ⟨a, (Piece.first a as).text.tail, Piece.text_first a as,
      Piece.first_followed hclosed hrest⟩
  · obtain ⟨b, bs, hb, -⟩ := name_cases hnew
    have hfits := hnew
    unfold IsName at hfits
    rw [hchanged, hname, hb]
    rw [hb] at hfits
    refine ⟨b, bs, rfl, first_name hfits (hrest.first.forall_head ?_ (head_rest_of_element hname))⟩
    intro d e hd he
    rw [isNamePart_of_isNameStart hd, isNamePart_of_isNameStart he]

omit hnew in
/-- The token of a piece, if it has one, has its name changed or not. -/
theorem tokens_item (line : Nat) (p : Piece) (rest : List Char) (ts : List Token) :
    c.tokens ((Source.item? line p).toList.filterMap Item.token? ++ ts) =
      (Source.item? line ⟨p.element, c.pieceText p, rest⟩).toList.filterMap Item.token? ++
        (c.after p).tokens ts := by
  obtain ⟨element, text, rest'⟩ := p
  cases element with
  | token kind =>
    show c.tokens (⟨kind, String.ofList text, line⟩ :: ts) =
      ⟨kind, String.ofList (c.pieceText ⟨.token kind, text, rest'⟩), line⟩ :: c.next.tokens ts
    have hname : isName ⟨kind, String.ofList text, line⟩ = isNameKind kind := rfl
    have hpiece : c.pieceText ⟨.token kind, text, rest'⟩ =
        if c.changes 0 && isNameKind kind then c.new.toList else text := rfl
    rw [Change.tokens_cons, hname, hpiece]
    cases c.changes 0 && isNameKind kind with
    | true => rw [if_pos rfl, if_pos rfl, String.ofList_toList]
    | false => rw [if_neg Bool.false_ne_true, if_neg Bool.false_ne_true]
  | _ => rfl

omit hnew in
theorem errors_item (line : Nat) (p q : Piece) (h : q.element = p.element) :
    (Source.item? line q).toList.filterMap Item.error? =
      (Source.item? line p).toList.filterMap Item.error? := by
  unfold Source.item?
  rw [h]
  cases p.element <;> rfl

/-- A text without errors is read the same with names changed, but for the names. -/
theorem itemsFrom_text (line : Nat) (cs : List Char)
    (h : (itemsFrom line cs).filterMap Item.error? = []) :
    (itemsFrom line (c.text (pieces cs))).filterMap Item.error? = [] ∧
      (itemsFrom line (c.text (pieces cs))).filterMap Item.token? =
        c.tokens ((itemsFrom line cs).filterMap Item.token?) ∧
      (c.text (pieces cs)).count '\n' = cs.count '\n' := by
  -- piece by piece, so that each change of a name can count on the text after it
  induction cs using pieces.induct generalizing line c with
  | case1 =>
    rw [pieces, Change.text, itemsFrom]
    exact ⟨rfl, rfl, rfl⟩
  | case2 a as ih =>
    obtain ⟨p, hp⟩ : ∃ p, Piece.first a as = p := ⟨_, rfl⟩
    have hitems := itemsFrom_cons line hp
    rw [hitems, List.filterMap_append, List.append_eq_nil_iff] at h
    have hclosed : (Piece.first a as).element ≠ .unterminatedString := by
      rw [hp]
      apply element_ne_of_not_mem
      rw [← mem_errors, h.1]
      exact List.not_mem_nil
    have hafter : IsName (c.after p).new := by
      rw [Change.new_after]
      exact hnew
    have hfollows := followsAlike_text hafter p.rest
    rw [hp] at ih
    obtain ⟨herrors, htokens, hcount⟩ := ih hafter _ h.2
    have htext : c.text (pieces (a :: as)) = c.pieceText p ++ (c.after p).text (pieces p.rest) := by
      rw [pieces, hp, Change.text]
    have hlines : (c.pieceText p).count '\n' = p.text.count '\n' := by
      rw [← hp, count_newline_pieceText hnew]
    generalize (c.after p).text (pieces p.rest) = rest at hfollows herrors htokens hcount htext
    rw [← hp] at hfollows
    obtain ⟨b, bs, hb, hfirst⟩ := first_changed hnew hclosed hfollows
    rw [hp] at hb hfirst
    have hchanged := itemsFrom_cons line hfirst
    simp only [hlines] at hchanged
    rw [htext, hitems, hb, List.cons_append, hchanged, List.filterMap_append, List.filterMap_append,
      List.filterMap_append, tokens_item, herrors, htokens, List.append_nil]
    refine ⟨?_, rfl, ?_⟩
    · exact (errors_item _ p ⟨p.element, _, rest⟩ rfl).trans h.1
    · rw [← List.cons_append, ← hb, List.count_append, hlines, hcount, ← hp, count_first]

end

/-- The text with another name for a declaration, there and wherever a name belongs to it. -/
def renamed (text : String) (name : Token) (new : String) : String :=
  String.ofList ((change text name new).text (pieces text.toList))

/-- What is read is what was read, but for the names. -/
theorem tokensOf_renamed {text : String} (h : Accepted text) (name : Token) {new : String}
    (hnew : IsName new) :
    tokensOf (renamed text name new) = (change text name new).tokens (tokensOf text) ∧
      (scan (renamed text name new)).filterMap Item.error? = [] := by
  have herrors := ((diagnostics_ofText_eq_nil_iff 0 text).mp h.1).1
  have hscan : scan text = _ := items_eq 1 text.toList
  have hscan' : scan (renamed text name new) = _ := items_eq 1 (renamed text name new).toList
  rw [hscan, List.filterMap_append, List.append_eq_nil_iff] at herrors
  have hchange : IsName (change text name new).new := hnew
  obtain ⟨herrors', htokens, hcount⟩ := itemsFrom_text hchange 1 text.toList herrors.1
  unfold renamed at hscan' ⊢
  rw [String.toList_ofList, hcount] at hscan'
  unfold tokensOf
  rw [hscan, hscan', List.filterMap_append, List.filterMap_append, List.filterMap_append, htokens,
    herrors']
  exact ⟨(Change.tokens_concat _ _ rfl).symm, rfl⟩

end Renaming

end LoxLang

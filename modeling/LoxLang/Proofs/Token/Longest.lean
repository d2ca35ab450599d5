import LoxLang.Proofs.Token.Seams

/-!
Longest matches. The lexical grammar says which texts are elements and what may follow them; at each
place of a text the longest element that fits is taken, or one character if none fits. There is exactly
one way to split a text like this, and reading gives the items of its elements, then the end of the
input, and then nothing any more. Main statement: `scan_longest`.
-/
namespace LoxLang

def IsLetter (c : Char) : Prop := 'A' ≤ c ∧ c ≤ 'Z' ∨ 'a' ≤ c ∧ c ≤ 'z' ∨ c = '_'

def IsDigit (c : Char) : Prop := '0' ≤ c ∧ c ≤ '9'

inductive Fits : Element → List Char → List Char → Prop
  | keyword (k : Keyword) (rest : List Char) :
      Fits (.token (.keyword k)) k.spelling.toList rest
  | identifier {c : Char} {cs : List Char} (rest : List Char) (hfirst : IsLetter c)
      (hothers : ∀ d ∈ cs, IsLetter d ∨ IsDigit d)
      (hname : ∀ k : Keyword, k.spelling.toList ≠ c :: cs) :
      Fits (.token .identifier) (c :: cs) rest
  | whole {ds : List Char} (rest : List Char) (hne : ds ≠ []) (hdigits : ∀ d ∈ ds, IsDigit d) :
      Fits (.token (.number (Number.ofDigits ds []))) ds rest
  | fraction {ds fs : List Char} (rest : List Char) (hne : ds ≠ []) (hdigits : ∀ d ∈ ds, IsDigit d)
      (hne' : fs ≠ []) (hdigits' : ∀ d ∈ fs, IsDigit d) :
      Fits (.token (.number (Number.ofDigits ds fs))) (ds ++ '.' :: fs) rest
  | string {content : List Char} (rest : List Char) (hcontent : '"' ∉ content) :
      Fits (.token (.string (String.ofList content))) ('"' :: (content ++ ['"'])) rest
  | symbol (s : Symbol) (rest : List Char) : Fits (.token (.symbol s)) s.spelling rest
  /-- A comment ends before the next newline. -/
  | comment {content rest : List Char} (hcontent : '\n' ∉ content)
      (hrest : ∀ c ∈ rest.head?, c = '\n') : Fits .blank ('/' :: '/' :: content) rest
  | space {c : Char} (rest : List Char) (hc : c = ' ' ∨ c = '\t' ∨ c = '\r' ∨ c = '\n') :
      Fits .blank [c] rest
  /-- A string that nothing closes goes on to the end. -/
  | unterminated {content : List Char} (hcontent : '"' ∉ content) :
      Fits .unterminatedString ('"' :: content) []

/-- The piece is the longest element at the front of the text, or one character that starts none. -/
inductive Longest : List Char → Piece → Prop
  | fits {e : Element} {text rest : List Char} (h : Fits e text rest)
      (hlongest : ∀ e' text' rest', Fits e' text' rest' → text' ++ rest' = text ++ rest →
        text'.length ≤ text.length) : Longest (text ++ rest) ⟨e, text, rest⟩
  | unrecognized {c : Char} {cs : List Char}
      (h : ∀ e text rest, Fits e text rest → text ++ rest ≠ c :: cs) :
      Longest (c :: cs) ⟨.unrecognized c, [c], cs⟩

/-- The text is made of the pieces, each the longest at its place. -/
inductive Splits : List Char → List Piece → Prop
  | nil : Splits [] []
  | cons {cs : List Char} {p : Piece} {ps : List Piece} (hfirst : Longest cs p)
      (hrest : Splits p.rest ps) : Splits cs (p :: ps)

section

variable {c d : Char}

theorem isNameStart_iff : Piece.isNameStart c = true ↔ IsLetter c := by
  have hupper : c.isUpper = true ↔ 'A' ≤ c ∧ c ≤ 'Z' := decide_eq_true_iff
  have hlower : c.isLower = true ↔ 'a' ≤ c ∧ c ≤ 'z' :=
    Bool.and_eq_true_iff.trans (and_congr decide_eq_true_iff decide_eq_true_iff)
  have halpha : c.isAlpha = true ↔ _ := Bool.or_eq_true_iff.trans (or_congr hupper hlower)
  exact (Bool.or_eq_true_iff.trans (or_congr halpha beq_iff_eq)).trans or_assoc

theorem isDigit_iff : c.isDigit = true ↔ IsDigit c :=
  Bool.and_eq_true_iff.trans (and_congr decide_eq_true_iff decide_eq_true_iff)

theorem isNamePart_iff : Piece.isNamePart c = true ↔ IsLetter c ∨ IsDigit c := by
  have hpart : Piece.isNamePart c = true ↔
      (c.isAlpha = true ∨ c.isDigit = true) ∨ (c == '_') = true :=
    Bool.or_eq_true_iff.trans (or_congr_left Bool.or_eq_true_iff)
  have hstart : Piece.isNameStart c = true ↔ c.isAlpha = true ∨ (c == '_') = true :=
    Bool.or_eq_true_iff
  rw [hpart, ← isNameStart_iff, hstart, ← isDigit_iff, or_right_comm]

theorem isBlank_iff : Piece.isBlank c = true ↔ c = ' ' ∨ c = '\t' ∨ c = '\r' ∨ c = '\n' := by
  simp only [Piece.isBlank, Bool.or_eq_true, beq_iff_eq, or_assoc]

/-- A keyword is spelled like a name. -/
theorem spelling_isWord (k : Keyword) : ∃ c cs, k.spelling.toList = c :: cs ∧
    Piece.isNameStart c = true ∧ ∀ d ∈ cs, Piece.isNamePart d = true := by
  cases k <;> exact ⟨_, _, rfl, rfl, List.all_eq_true.mp rfl⟩

end

inductive Opening
  | word
  | number
  | blank
  | string
  | mark

def openingOf (c : Char) : Opening :=
  if Piece.isNameStart c then .word
  else if c.isDigit then .number
  else if Piece.isBlank c then .blank
  else if c = '"' then .string
  else .mark

def Opens (e : Element) (c : Char) (cs rest : List Char) : Opening → Prop
  | .word => (∀ d ∈ cs, Piece.isNamePart d = true) ∧
      e = .token (Piece.wordKind (String.ofList (c :: cs)))
  | .number => (∀ d ∈ cs, d.isDigit = true) ∧ e = .token (.number (Number.ofDigits (c :: cs) [])) ∨
      ∃ ds fs, cs = ds ++ '.' :: fs ∧ (∀ d ∈ ds, d.isDigit = true) ∧ fs ≠ [] ∧
        (∀ d ∈ fs, d.isDigit = true) ∧ e = .token (.number (Number.ofDigits (c :: ds) fs))
  | .blank => cs = [] ∧ e = .blank
  | .string => (∃ content, cs = content ++ ['"'] ∧ '"' ∉ content ∧
      e = .token (.string (String.ofList content))) ∨
        '"' ∉ cs ∧ rest = [] ∧ e = .unterminatedString
  | .mark => (∃ s : Symbol, s.spelling = c :: cs ∧ e = .token (.symbol s)) ∨
      c = '/' ∧ ∃ content, cs = '/' :: content ∧ '\n' ∉ content ∧
        (∀ d ∈ rest.head?, d = '\n') ∧ e = .blank

section

variable {e : Element} {c : Char} {cs rest : List Char}

theorem not_isNameStart_of_isDigit (h : c.isDigit = true) : Piece.isNameStart c = false := by
  rw [Bool.eq_false_iff, ne_eq, isNameStart_iff]
  rw [isDigit_iff] at h
  rintro (hletter | hletter | rfl)
  · exact absurd (Char.le_trans hletter.1 h.2) (by decide)
  · exact absurd (Char.le_trans hletter.1 h.2) (by decide)
  · exact absurd h.2 (by decide)

theorem openingOf_digit (h : c.isDigit = true) : openingOf c = .number := by
  rw [openingOf, not_isNameStart_of_isDigit h, if_neg Bool.false_ne_true, if_pos h]

theorem wordKind_eq_identifier (h : ∀ k : Keyword, k.spelling.toList ≠ cs) :
    Piece.wordKind (String.ofList cs) = .identifier := by
  unfold Piece.wordKind
  split
  · next k hk =>
    refine absurd ?_ (h k)
    rw [Keyword.spelling_of_ofSpelling? hk, String.toList_ofList]
  · rfl

/-- The first character of an element tells what kind of element it is. -/
theorem Fits.opens (h : Fits e (c :: cs) rest) : Opens e c cs rest (openingOf c) := by
  generalize htext : c :: cs = text at h
  cases h with
  | keyword k =>
    obtain ⟨c', cs', hk, hstart, hparts⟩ := spelling_isWord k
    have hkind : Piece.wordKind k.spelling = .keyword k := by
      rw [Piece.wordKind, Keyword.ofSpelling?_spelling]
    have hword : String.ofList (c' :: cs') = k.spelling := by rw [← hk, String.ofList_toList]
    rw [hk] at htext
    cases htext
    rw [openingOf, if_pos hstart]
    exact ⟨hparts, by rw [hword, hkind]⟩
  | identifier _ hfirst hothers hname =>
    cases htext
    rw [openingOf, if_pos (isNameStart_iff.mpr hfirst)]
    exact ⟨fun d hd => isNamePart_iff.mpr (hothers d hd), by rw [wordKind_eq_identifier hname]⟩
  | whole _ _ hdigits =>
    subst htext
    rw [openingOf_digit (isDigit_iff.mpr (hdigits c List.mem_cons_self))]
    exact .inl ⟨fun d hd => isDigit_iff.mpr (hdigits d (List.mem_cons_of_mem c hd)), rfl⟩
  | @fraction ds fs _ hne hdigits hne' hdigits' =>
    cases ds with
    | nil => exact absurd rfl hne
    | cons d ds =>
      cases htext
      rw [openingOf_digit (isDigit_iff.mpr (hdigits c List.mem_cons_self))]
      exact .inr ⟨ds, fs, rfl, fun d hd => isDigit_iff.mpr (hdigits d (List.mem_cons_of_mem c hd)),
        hne', fun d hd => isDigit_iff.mpr (hdigits' d hd), rfl⟩
  | @string content _ hcontent =>
    cases htext
    exact .inl ⟨content, rfl, hcontent, rfl⟩
  | symbol s => cases s <;> cases htext <;> exact .inl ⟨_, rfl, rfl⟩
  | @comment content _ hcontent hrest =>
    cases htext
    exact .inr ⟨rfl, content, rfl, hcontent, hrest, rfl⟩
  | space _ hblank =>
    cases htext
    rcases hblank with rfl | rfl | rfl | rfl <;> exact ⟨rfl, rfl⟩
  | unterminated hcontent =>
    cases htext
    exact .inr ⟨hcontent, rfl, rfl⟩

theorem Fits.exists_cons {text : List Char} (h : Fits e text rest) : ∃ c cs, text = c :: cs := by
  apply List.exists_cons_of_ne_nil
  cases h with
  | keyword k =>
    obtain ⟨c, cs, hk, -⟩ := spelling_isWord k
    rw [hk]
    exact List.cons_ne_nil _ _
  | whole _ hne => exact hne
  | symbol s => cases s <;> exact List.cons_ne_nil _ _
  | _ => simp

end

structure Best (p : Piece) : Prop where
  fits : Fits p.element p.text p.rest
  longest : ∀ e text rest, Fits e text rest → text ++ rest = p.text ++ p.rest →
    text.length ≤ p.text.length ∧ (text = p.text → e = p.element)

section

variable {c : Char} {cs : List Char}

/-- To be the best, a piece need only be compared with elements that start like it. -/
theorem best_of_opens {p : Piece} {o : Opening} (hopening : openingOf c = o)
    (hwhole : p.text ++ p.rest = c :: cs) (hfits : Fits p.element p.text p.rest)
    (h : ∀ e ds rest, Opens e c ds rest o → ds ++ rest = cs →
      (c :: ds).length ≤ p.text.length ∧ (c :: ds = p.text → e = p.element)) : Best p where
  fits := hfits
  longest e text rest hother hsame := by
    obtain ⟨d, ds, rfl⟩ := hother.exists_cons
    rw [hwhole, List.cons_append, List.cons.injEq] at hsame
    obtain ⟨rfl, hrest⟩ := hsame
    exact h e ds rest (hopening ▸ hother.opens) hrest

theorem length_le_takeWhile {p : Char → Bool} {ds rest : List Char} (h : ∀ d ∈ ds, p d = true) :
    ds.length ≤ ((ds ++ rest).takeWhile p).length := by
  rw [List.takeWhile_append_of_pos h, List.length_append]
  exact Nat.le_add_right _ _

theorem fits_word {ds : List Char} (hc : Piece.isNameStart c = true)
    (hparts : ∀ d ∈ ds, Piece.isNamePart d = true) (rest : List Char) :
    Fits (.token (Piece.wordKind (String.ofList (c :: ds)))) (c :: ds) rest := by
  unfold Piece.wordKind
  cases hk : Keyword.ofSpelling? (String.ofList (c :: ds)) with
  | some k =>
    have hspelling : k.spelling.toList = c :: ds := by
      rw [Keyword.spelling_of_ofSpelling? hk, String.toList_ofList]
    rw [← hspelling]
    exact .keyword k rest
  | none =>
    refine .identifier rest (isNameStart_iff.mp hc)
      (fun d hd => isNamePart_iff.mp (hparts d hd)) fun k hspelling => ?_
    rw [← hspelling, String.ofList_toList, Keyword.ofSpelling?_spelling] at hk
    cases hk

theorem best_word (hc : Piece.isNameStart c = true) : Best (Piece.word c cs) := by
  have hwhole : (Piece.word c cs).text ++ (Piece.word c cs).rest = c :: cs :=
    congrArg (c :: ·) List.takeWhile_append_dropWhile
  refine best_of_opens (if_pos hc) hwhole
    (fits_word hc (fun _ => List.mem_takeWhile_imp) _) ?_
  rintro e ds rest ⟨hparts, rfl⟩ rfl
  refine ⟨Nat.succ_le_succ (length_le_takeWhile hparts), fun htext => ?_⟩
  rw [htext]
  rfl

/-- A number is the longest element at its place. -/
theorem best_number (hc : c.isDigit = true) : Best (Piece.number c cs) := by
  have hpoint : Char.isDigit '.' = false := by decide
  have hwhole : ∀ d ∈ c :: cs.takeWhile Char.isDigit, IsDigit d := by
    intro d hd
    rcases List.mem_cons.mp hd with rfl | hd
    · exact isDigit_iff.mp hc
    · exact isDigit_iff.mp (List.mem_takeWhile_imp hd)
  have happend := Piece.number_append c cs
  rcases number_cases c cs with ⟨d, rest, hdrop, hd, hnumber⟩ | ⟨hnone, hnumber⟩
  · have hfraction : ∀ d' ∈ d :: rest.takeWhile Char.isDigit, IsDigit d' := by
      intro d' hd'
      rcases List.mem_cons.mp hd' with rfl | hd'
      · exact isDigit_iff.mp hd
      · exact isDigit_iff.mp (List.mem_takeWhile_imp hd')
    rw [hnumber] at happend ⊢
    refine best_of_opens (openingOf_digit hc) happend
      (.fraction _ (List.cons_ne_nil _ _) hwhole (List.cons_ne_nil _ _) hfraction) ?_
    rintro e ds rest' (⟨hdigits, rfl⟩ | ⟨ws, fs, rfl, hdigits, hne, hdigits', rfl⟩) rfl
    · have hle : _ ≤ ((ds ++ rest').takeWhile _).length := length_le_takeWhile hdigits
      have hlt : (c :: ds).length < (c :: (ds ++ rest').takeWhile Char.isDigit ++
          '.' :: d :: rest.takeWhile Char.isDigit).length := by
        simp only [List.length_cons, List.length_append]
        omega
      exact ⟨hlt.le, fun htext => absurd (congrArg List.length htext) hlt.ne⟩
    · rw [List.append_assoc, List.cons_append] at hdrop ⊢
      obtain ⟨htake, hdrop'⟩ := span_of_not hdigits hpoint (fs ++ rest')
      rw [hdrop', List.cons.injEq] at hdrop
      have hle : _ ≤ ((fs ++ rest').takeWhile _).length := length_le_takeWhile hdigits'
      rw [hdrop.2, List.takeWhile_cons_of_pos hd] at hle
      simp only
      rw [htake]
      refine ⟨?_, fun htext => ?_⟩
      · simp only [List.length_cons, List.length_append] at hle ⊢
        omega
      · rw [List.cons_append, List.cons.injEq] at htext
        rw [(List.cons.inj (List.append_cancel_left htext.2)).2]
  · rw [hnumber] at happend ⊢
    refine best_of_opens (openingOf_digit hc) happend (.whole _ (List.cons_ne_nil _ _) hwhole) ?_
    rintro e ds rest' (⟨hdigits, rfl⟩ | ⟨ws, fs, rfl, hdigits, hne, hdigits', rfl⟩) rfl
    · refine ⟨Nat.succ_le_succ (length_le_takeWhile hdigits), fun htext => ?_⟩
      rw [htext]
    · obtain ⟨f, fs, rfl⟩ := List.exists_cons_of_ne_nil hne
      rw [List.append_assoc] at hnone
      have hf := hnone f (fs ++ rest') (span_of_not hdigits hpoint (f :: fs ++ rest')).2
      rw [hdigits' f List.mem_cons_self] at hf
      cases hf

/-- A string is the longest element at its place, closed or not. -/
theorem best_string : Best (Piece.string cs) := by
  have hno {content : List Char} (h : '"' ∉ content) : ∀ d ∈ content, (d != '"') = true :=
    fun d hd => bne_iff_ne.mpr fun heq => h (heq ▸ hd)
  have hquote : ('"' != '"') = false := by decide
  have happend := Piece.string_append cs
  cases hdrop : cs.dropWhile (· != '"') with
  | nil =>
    have hnone : '"' ∉ cs := fun hmem =>
      absurd (List.dropWhile_eq_nil_iff.mp hdrop '"' hmem) (by decide)
    rw [Piece.string, hdrop] at happend ⊢
    refine best_of_opens rfl happend (.unterminated hnone) ?_
    rintro e ds rest (⟨content, rfl, -, rfl⟩ | ⟨-, rfl, rfl⟩) rfl
    · simp at hnone
    · simp
  | cons q rest =>
    have hq : q = '"' := by
      have hhead := List.head?_dropWhile_not (· != '"') cs
      rw [hdrop] at hhead
      simpa using hhead
    subst hq
    have hcontent : '"' ∉ cs.takeWhile (· != '"') := fun hmem =>
      absurd (List.mem_takeWhile_imp hmem) (by decide)
    rw [Piece.string, hdrop] at happend ⊢
    refine best_of_opens rfl happend (.string rest hcontent) ?_
    rintro e ds rest' (⟨content, rfl, hcontent', rfl⟩ | ⟨hnone, rfl, rfl⟩) rfl
    · have htake : (content ++ ['"'] ++ rest').takeWhile (· != '"') = content := by
        rw [List.append_assoc]
        exact (span_of_not (hno hcontent') hquote rest').1
      rw [htake]
      exact ⟨le_rfl, fun _ => rfl⟩
    · rw [List.append_nil, List.dropWhile_eq_nil_iff.mpr (hno hnone)] at hdrop
      cases hdrop

theorem best_blank (hname : ¬Piece.isNameStart c = true) (hdigit : ¬c.isDigit = true)
    (hblank : Piece.isBlank c = true) : Best ⟨.blank, [c], cs⟩ := by
  have hopening : openingOf c = .blank := by
    rw [openingOf, if_neg hname, if_neg hdigit, if_pos hblank]
  refine best_of_opens hopening rfl (.space cs (isBlank_iff.mp hblank)) ?_
  rintro e ds rest ⟨rfl, rfl⟩ -
  exact ⟨le_rfl, fun _ => rfl⟩

/-- A symbol is its first character, or that of another symbol with an `=` after it. -/
theorem symbol_cases {s : Symbol} {ds : List Char} (h : s.spelling = c :: ds) :
    Piece.symbolOf? c = some s ∧ ds = [] ∨
      ∃ t, Piece.symbolOf? c = some t ∧ Piece.withEqual? t = some s ∧ ds = ['='] := by
  cases s <;> cases h
  any_goals exact .inl ⟨rfl, rfl⟩
  all_goals exact .inr ⟨_, rfl, rfl, rfl⟩

/-- Where a comment starts no symbol is longer. -/
theorem best_comment (hslash : cs.head? = some '/') : Best (Piece.comment cs) := by
  obtain ⟨ds, rfl⟩ : ∃ ds, cs = '/' :: ds := by
    cases cs with
    | nil => cases hslash
    | cons d ds =>
      cases hslash
      exact ⟨ds, rfl⟩
  have hnewline {content : List Char} (h : '\n' ∉ content) :
      ∀ d ∈ content, (d != '\n') = true := fun d hd => bne_iff_ne.mpr fun heq => h (heq ▸ hd)
  have hcomment : Piece.comment ('/' :: ds) =
      ⟨.blank, '/' :: '/' :: ds.takeWhile (· != '\n'), ds.dropWhile (· != '\n')⟩ := rfl
  have hfits : Fits .blank ('/' :: '/' :: ds.takeWhile (· != '\n')) (ds.dropWhile (· != '\n')) := by
    refine .comment (fun hmem => absurd (List.mem_takeWhile_imp hmem) (by decide)) fun d hd => ?_
    have hhead := List.head?_dropWhile_not (· != '\n') ds
    rw [Option.mem_def] at hd
    rw [hd] at hhead
    simpa using hhead
  rw [hcomment]
  refine best_of_opens rfl
    (congrArg ('/' :: '/' :: ·) List.takeWhile_append_dropWhile) hfits ?_
  rintro e es rest (⟨s, hs, rfl⟩ | ⟨-, content, rfl, hcontent, hrest, rfl⟩) htext
  · rcases symbol_cases hs with ⟨-, rfl⟩ | ⟨t, ht, hequal, rfl⟩
    · simp
    · cases htext
  · cases htext
    refine ⟨?_, fun _ => rfl⟩
    exact Nat.succ_le_succ (Nat.succ_le_succ (length_le_takeWhile (hnewline hcontent)))

/-- A symbol of two characters is longer than its first one alone. -/
theorem best_symbol {s : Symbol} (hopening : openingOf c = .mark)
    (hcomment : ¬(c = '/' ∧ cs.head? = some '/')) (hs : Piece.symbolOf? c = some s) :
    Best (Piece.symbol s c cs) := by
  have hspelling := Piece.spelling_of_symbolOf? hs
  have hno {content rest : List Char} (hc : c = '/') (hcs : '/' :: content ++ rest = cs) : False :=
    hcomment ⟨hc, by rw [← hcs]; rfl⟩
  rcases symbol_piece_cases s c cs with ⟨t, rest, ht, rfl, hpiece⟩ | ⟨hnone, hpiece⟩
  · have hspelling' : t.spelling = [c, '='] := by
      rw [Piece.spelling_of_withEqual? ht, hspelling]
      rfl
    rw [hpiece]
    refine best_of_opens hopening rfl (hspelling' ▸ .symbol t rest) ?_
    rintro e ds rest' (⟨u, hu, rfl⟩ | ⟨hc, content, rfl, -⟩) htext
    · rcases symbol_cases hu with ⟨-, rfl⟩ | ⟨s', hs', hequal, rfl⟩
      · exact ⟨Nat.le_succ 1, fun heq => by cases heq⟩
      · obtain rfl := Option.some.inj (hs.symm.trans hs')
        obtain rfl := Option.some.inj (ht.symm.trans hequal)
        exact ⟨le_rfl, fun _ => rfl⟩
    · exact (hno hc htext).elim
  · rw [hpiece]
    refine best_of_opens hopening rfl (hspelling ▸ .symbol s cs) ?_
    rintro e ds rest' (⟨u, hu, rfl⟩ | ⟨hc, content, rfl, -⟩) htext
    · rcases symbol_cases hu with ⟨hu', rfl⟩ | ⟨s', hs', hequal, rfl⟩
      · obtain rfl := Option.some.inj (hs.symm.trans hu')
        exact ⟨le_rfl, fun _ => rfl⟩
      · obtain rfl := Option.some.inj (hs.symm.trans hs')
        exact absurd htext.symm (hnone u hequal rest')
    · exact (hno hc htext).elim

/-- A character that is no symbol and opens nothing else starts no element. -/
theorem not_fits (hopening : openingOf c = .mark) (hs : Piece.symbolOf? c = none) {e : Element}
    {text rest : List Char} (h : Fits e text rest) : text ++ rest ≠ c :: cs := by
  obtain ⟨d, ds, rfl⟩ := h.exists_cons
  intro htext
  obtain ⟨rfl, -⟩ := List.cons.inj htext
  have hopens := h.opens
  rw [hopening] at hopens
  rcases hopens with ⟨u, hu, -⟩ | ⟨rfl, -⟩
  · rcases symbol_cases hu with ⟨hu', -⟩ | ⟨t, ht, -⟩
    · rw [hs] at hu'
      cases hu'
    · rw [hs] at ht
      cases ht
  · cases hs

/-- The first piece is the longest element, or a character that no element starts with. -/
theorem best_first_or (c : Char) (cs : List Char) :
    Best (Piece.first c cs) ∨ Piece.first c cs = ⟨.unrecognized c, [c], cs⟩ ∧
      ∀ e text rest, Fits e text rest → text ++ rest ≠ c :: cs := by
  unfold Piece.first
  by_cases hname : Piece.isNameStart c = true
  · exact .inl (if_pos hname ▸ best_word hname)
  rw [if_neg hname]
  by_cases hdigit : c.isDigit = true
  · exact .inl (if_pos hdigit ▸ best_number hdigit)
  rw [if_neg hdigit]
  by_cases hblank : Piece.isBlank c = true
  · exact .inl (if_pos hblank ▸ best_blank hname hdigit hblank)
  rw [if_neg hblank]
  by_cases hquote : c = '"'
  · exact .inl (if_pos hquote ▸ best_string)
  rw [if_neg hquote]
  by_cases hcomment : c = '/' ∧ cs.head? = some '/'
  · exact .inl (if_pos hcomment ▸ best_comment hcomment.2)
  rw [if_neg hcomment]
  have hopening : openingOf c = .mark := by
    rw [openingOf, if_neg hname, if_neg hdigit, if_neg hblank, if_neg hquote]
  cases hs : Piece.symbolOf? c with
  | none => exact .inr ⟨rfl, fun e text rest => not_fits hopening hs⟩
  | some s => exact .inl (best_symbol hopening hcomment hs)

/-- The first piece fits, unless it is a character that is not recognized. -/
theorem fits_first {e : Element} (h : (Piece.first c cs).element = e)
    (hknown : ∀ d, e ≠ .unrecognized d) :
    Fits e (Piece.first c cs).text (Piece.first c cs).rest := by
  rcases best_first_or c cs with hbest | ⟨hfirst, -⟩
  · exact h ▸ hbest.fits
  · rw [hfirst] at h
    exact absurd h.symm (hknown c)

/-- Exactly one piece is the longest at the front of a text. -/
theorem longest_cons_iff {p : Piece} : Longest (c :: cs) p ↔ p = Piece.first c cs := by
  have happend := Piece.first_append c cs
  constructor
  · intro h
    generalize htext : c :: cs = whole at h
    -- two longest elements at one place are of the same length, so they are the same text
    rcases best_first_or c cs with hbest | ⟨hfirst, hnone⟩
    · cases h with
      | @fits e text rest h hlongest =>
        rw [← happend] at htext
        obtain ⟨hle, heq⟩ := hbest.longest e text rest h htext.symm
        have hlength := hlongest _ _ _ hbest.fits htext
        obtain ⟨rfl, rfl⟩ := List.append_inj htext.symm (hle.antisymm hlength)
        rw [heq rfl]
      | @unrecognized d ds h =>
        rw [← happend] at htext
        exact absurd htext (h _ _ _ hbest.fits)
    · cases h with
      | fits h => exact absurd htext.symm (hnone _ _ _ h)
      | unrecognized =>
        cases htext
        exact hfirst.symm
  · rintro rfl
    rcases best_first_or c cs with hbest | ⟨hfirst, hnone⟩
    · rw [← happend]
      exact .fits hbest.fits fun e text rest h hsame => (hbest.longest e text rest h hsame).1
    · rw [hfirst]
      exact .unrecognized hnone

end

def pieces : List Char → List Piece
  | [] => []
  | c :: cs => Piece.first c cs :: pieces (Piece.first c cs).rest
termination_by cs => cs.length
decreasing_by exact Piece.length_rest_first_lt c cs

/-- A text is split into longest elements in one way only. -/
theorem splits_iff {cs : List Char} {ps : List Piece} : Splits cs ps ↔ ps = pieces cs := by
  -- on the text that is left: only its first element is determined by what it begins with
  induction cs using pieces.induct generalizing ps with
  | case1 =>
    rw [pieces]
    constructor
    · intro h
      generalize htext : ([] : List Char) = cs at h
      cases h with
      | nil => rfl
      | cons hfirst =>
        cases hfirst with
        | fits h =>
          obtain ⟨c, cs, rfl⟩ := h.exists_cons
          cases htext
        | unrecognized => cases htext
    · rintro rfl
      exact .nil
  | case2 c cs ih =>
    rw [pieces]
    constructor
    · intro h
      cases h with
      | cons hfirst hrest =>
        obtain rfl := longest_cons_iff.mp hfirst
        rw [ih.mp hrest]
    · rintro rfl
      exact .cons (longest_cons_iff.mpr rfl) (ih.mpr rfl)

/-- Each piece is the first one of the text from there on. -/
theorem exists_first_of_mem {cs : List Char} {p : Piece} (h : p ∈ pieces cs) :
    ∃ c ds, p = Piece.first c ds := by
  induction cs using pieces.induct with
  | case1 =>
    rw [pieces] at h
    cases h
  | case2 c cs ih =>
    rw [pieces, List.mem_cons] at h
    rcases h with rfl | h
    · exact ⟨c, cs, rfl⟩
    · exact ih h

theorem flatMap_text_pieces (cs : List Char) : (pieces cs).flatMap Piece.text = cs := by
  induction cs using pieces.induct with
  | case1 => rw [pieces, List.flatMap_nil]
  | case2 c cs ih => rw [pieces, List.flatMap_cons, ih, Piece.first_append]

/-- What an element yields: blanks nothing, other elements one item, on the line where they end. -/
def Element.yields (line : Nat) (text : List Char) : Element → List Item
  | .blank => []
  | .token kind => [.token ⟨kind, String.ofList text, line⟩]
  | .unterminatedString => [.error ⟨line, .unterminatedString⟩]
  | .unrecognized c => [.error ⟨line, .unrecognized c⟩]

def itemsOf (line : Nat) : List Piece → List Item
  | [] => []
  | p :: ps =>
    let line := line + p.text.count '\n'
    p.element.yields line p.text ++ itemsOf line ps

/-- The items that reading gives are those of the pieces. -/
theorem itemsOf_pieces (line : Nat) (cs : List Char) :
    itemsOf line (pieces cs) = itemsFrom line cs := by
  induction line, cs using itemsFrom.induct with
  | case1 line =>
    rw [pieces, itemsFrom]
    rfl
  | case2 line c cs p line' ih =>
    have hyields : p.element.yields line' p.text = (Source.item? line' p).toList := by
      rw [Source.item?]
      cases p.element <;> rfl
    rw [pieces, itemsOf, itemsFrom]
    exact congrArg₂ (· ++ ·) hyields ih

theorem kind_ne_eof_of_mem {line : Nat} {cs : List Char} {t : Token}
    (h : t ∈ (itemsFrom line cs).filterMap Item.token?) : t.kind ≠ .eof := by
  obtain ⟨c, ds, helement, -⟩ := first_of_mem_token (mem_tokens.mp h)
  intro hend
  rw [hend] at helement
  cases fits_first helement fun _ => Element.noConfusion

def Source.call (s : Source) : Nat → Option Item
  | 0 => s.next?.map Prod.fst
  | n + 1 => (s.next?.elim s Prod.snd).call n

/-- The answers to the calls are the items, one after the other. -/
theorem call_eq (s : Source) (n : Nat) : s.call n = s.items[n]? := by
  induction n generalizing s with
  | zero =>
    rcases s with ⟨rest, line, _ | _⟩
    · rw [items_of_advance]
      rfl
    · rw [items_of_ended]
      rfl
  | succ n ih =>
    rw [Source.call, ih]
    rcases s with ⟨rest, line, _ | _⟩
    · rw [items_of_advance]
      rfl
    · have hstays : (Source.next? ⟨rest, line, true⟩).elim ⟨rest, line, true⟩ Prod.snd =
          (⟨rest, line, true⟩ : Source) := rfl
      rw [hstays, items_of_ended]
      rfl

/-- Reading is splitting into longest matches: there is one way to split a text, and the pieces are the
whole text. The items are those of the pieces and then one end of the input, and the calls give
the items in order, and then nothing for ever. -/
theorem scan_longest (text : String) :
    ∃ ps, (∀ qs, Splits text.toList qs ↔ qs = ps) ∧ ps.flatMap Piece.text = text.toList ∧
      scan text = itemsOf 1 ps ++ [.token ⟨.eof, "", 1 + text.toList.count '\n'⟩] ∧
      (∀ t, .token t ∈ itemsOf 1 ps → t.kind ≠ .eof) ∧
      ∀ n, (Source.ofString text).call n = (scan text)[n]? := by
  refine ⟨pieces text.toList, fun qs => splits_iff, flatMap_text_pieces _, ?_, fun t ht => ?_,
    call_eq _⟩
  · rw [itemsOf_pieces]
    exact items_eq 1 text.toList
  · rw [itemsOf_pieces] at ht
    exact kind_ne_eof_of_mem (List.mem_filterMap.mpr ⟨_, ht, rfl⟩)

end LoxLang

import Mathlib.Data.List.TakeWhile
import LoxLang.Token.Element

/-!
Where elements end. An element is the longest that fits, so how it is read depends on what follows only so
far as that could go on with it: with letters and digits, with a point and digits, with an equals sign
or a slash, and with a comment anything but a newline goes on. Main statement: `first_endsLike`.
-/
namespace LoxLang

section

variable {α : Type} {p : α → Bool}

def StopsBefore (p : α → Bool) (as : List α) : Prop := ∀ a ∈ as.head?, p a = false

theorem stopsBefore_cons {a : α} {as : List α} : StopsBefore p (a :: as) ↔ p a = false := by
  simp [StopsBefore]

theorem head_dropWhile (as : List α) : StopsBefore p (as.dropWhile p) := by
  intro a ha
  have hhead := List.head?_dropWhile_not p as
  rw [Option.mem_def] at ha
  rw [ha] at hhead
  exact Bool.eq_false_iff.mpr (by simpa using hhead)

/-- A run ends at the first element of another kind. -/
theorem span_of_not {as : List α} {a : α} (h : ∀ a ∈ as, p a = true) (ha : p a = false)
    (bs : List α) :
    (as ++ a :: bs).takeWhile p = as ∧ (as ++ a :: bs).dropWhile p = a :: bs := by
  rw [List.takeWhile_append_of_pos h, List.dropWhile_append_of_pos h]
  simp [ha]

/-- A run before an element of another kind, or before the end. -/
theorem span_of_head {as bs : List α} (h : ∀ a ∈ as, p a = true) (hbs : StopsBefore p bs) :
    (as ++ bs).takeWhile p = as ∧ (as ++ bs).dropWhile p = bs := by
  cases bs with
  | nil =>
    rw [List.append_nil]
    exact ⟨List.takeWhile_eq_self_iff.mpr h, List.dropWhile_eq_nil_iff.mpr h⟩
  | cons b bs => exact span_of_not h (hbs b rfl) bs

/-- What stops a run stops it after a shorter list too. -/
theorem StopsBefore.append_cons {as : List α} (h : StopsBefore p as) {b : α} (hb : p b = false)
    (bs : List α) : StopsBefore p (as ++ b :: bs) := by
  cases as with
  | nil => exact stopsBefore_cons.mpr hb
  | cons a as => exact h

end

section

variable {ds : List Char}

theorem ne_point_of_isDigit {d : Char} (h : d.isDigit = true) : (d != '.') = true := by
  rw [bne_iff_ne]
  rintro rfl
  cases h

/-- No point stands among digits. -/
theorem span_digits (h : ∀ d ∈ ds, d.isDigit = true) :
    ds.takeWhile (· != '.') = ds ∧ ds.dropWhile (· != '.') = [] := by
  have hnone : ∀ d ∈ ds, (d != '.') = true := fun d hd => ne_point_of_isDigit (h d hd)
  exact ⟨List.takeWhile_eq_self_iff.mpr hnone, List.dropWhile_eq_nil_iff.mpr hnone⟩

/-- The first point after digits is the one that stands behind them. -/
theorem span_digits_point (h : ∀ d ∈ ds, d.isDigit = true) (fs : List Char) :
    (ds ++ '.' :: fs).takeWhile (· != '.') = ds ∧
      (ds ++ '.' :: fs).dropWhile (· != '.') = '.' :: fs :=
  span_of_not (fun d hd => ne_point_of_isDigit (h d hd)) rfl fs

end

/-- A number has a fraction, of all the digits after its point, or it has none, and then no digit follows
a point after it. -/
theorem number_cases (c : Char) (cs : List Char) :
    (∃ d rest, cs.dropWhile Char.isDigit = '.' :: d :: rest ∧ d.isDigit = true ∧
      Piece.number c cs = ⟨.token (.number (Number.ofDigits (c :: cs.takeWhile Char.isDigit)
          (d :: rest.takeWhile Char.isDigit))),
        c :: cs.takeWhile Char.isDigit ++ '.' :: d :: rest.takeWhile Char.isDigit,
        rest.dropWhile Char.isDigit⟩) ∨
    (∀ d rest, cs.dropWhile Char.isDigit = '.' :: d :: rest → d.isDigit = false) ∧
      Piece.number c cs = ⟨.token (.number (Number.ofDigits (c :: cs.takeWhile Char.isDigit) [])),
        c :: cs.takeWhile Char.isDigit, cs.dropWhile Char.isDigit⟩ := by
  unfold Piece.number
  simp only
  split
  · next d rest heq =>
    split
    · next hd => exact .inl ⟨d, rest, heq, hd, rfl⟩
    · next hd =>
      refine .inr ⟨fun d' rest' h => ?_, by rw [heq]⟩
      rw [heq] at h
      cases h
      exact Bool.eq_false_iff.mpr hd
  · next hnone => exact .inr ⟨fun d rest h => absurd h (hnone d rest), rfl⟩

theorem symbol_piece_cases (s : Symbol) (c : Char) (cs : List Char) :
    (∃ t rest, Piece.withEqual? s = some t ∧ cs = '=' :: rest ∧
      Piece.symbol s c cs = ⟨.token (.symbol t), [c, '='], rest⟩) ∨
    (∀ t, Piece.withEqual? s = some t → ∀ rest, cs ≠ '=' :: rest) ∧
      Piece.symbol s c cs = ⟨.token (.symbol s), [c], cs⟩ := by
  unfold Piece.symbol
  split
  · next t rest ht => exact .inl ⟨t, rest, ht, rfl, rfl⟩
  · next hnone => exact .inr ⟨fun t ht rest hcs => hnone t rest ht hcs, rfl⟩

def NoFraction (cs : List Char) : Prop := ∀ ds, cs = '.' :: ds → StopsBefore Char.isDigit ds

/-- Elements that end before the first text end before the second. -/
structure EndsLike (cs cs' : List Char) : Prop where
  part : StopsBefore Piece.isNamePart cs → StopsBefore Piece.isNamePart cs'
  digit : StopsBefore Char.isDigit cs → StopsBefore Char.isDigit cs'
  fraction : NoFraction cs → NoFraction cs'
  equal : StopsBefore (· == '=') cs → StopsBefore (· == '=') cs'
  slash : StopsBefore (· == '/') cs → StopsBefore (· == '/') cs'

structure Separates (d : Char) : Prop where
  part : Piece.isNamePart d = false
  point : d ≠ '.'
  equal : d ≠ '='
  slash : d ≠ '/'

section

variable {c d : Char} {cs rest : List Char}

theorem isNamePart_of_isDigit (h : d.isDigit = true) : Piece.isNamePart d = true := by
  simp [Piece.isNamePart, Char.isAlphanum, h]

theorem Separates.isDigit (h : Separates d) : d.isDigit = false := by
  rw [Bool.eq_false_iff]
  intro hdigit
  have hpart := h.part
  rw [isNamePart_of_isDigit hdigit] at hpart
  cases hpart

theorem separates_newline : Separates '\n' := by constructor <;> decide

theorem separates_space : Separates ' ' := by constructor <;> decide

/-- Before such a character these elements end whatever followed them. -/
theorem Separates.endsLike (h : Separates d) (cs ds : List Char) : EndsLike cs (d :: ds) where
  part _ := stopsBefore_cons.mpr h.part
  digit _ := stopsBefore_cons.mpr h.isDigit
  fraction _ := fun _ heq => absurd (List.cons.inj heq).1 h.point
  equal _ := stopsBefore_cons.mpr (beq_eq_false_iff_ne.mpr h.equal)
  slash _ := stopsBefore_cons.mpr (beq_eq_false_iff_ne.mpr h.slash)

/-- They end before a text as they did if such a character stands after the text. -/
theorem Separates.endsLike_append (h : Separates d) (cs ds : List Char) :
    EndsLike cs (cs ++ d :: ds) where
  part hcs := hcs.append_cons h.part ds
  digit hcs := hcs.append_cons h.isDigit ds
  fraction hcs := by
    cases cs with
    | nil => exact fun _ heq => absurd (List.cons.inj heq).1 h.point
    | cons e es =>
      rintro _ heq
      obtain ⟨rfl, rfl⟩ := List.cons.inj heq
      exact (hcs es rfl).append_cons h.isDigit ds
  equal hcs := hcs.append_cons (beq_eq_false_iff_ne.mpr h.equal) ds
  slash hcs := hcs.append_cons (beq_eq_false_iff_ne.mpr h.slash) ds

namespace Piece

theorem text_first (c : Char) (cs : List Char) : (first c cs).text = c :: (first c cs).text.tail := by
  have happend := first_append c cs
  obtain ⟨d, ds, htext⟩ := List.exists_cons_of_ne_nil (text_first_ne_nil c cs)
  rw [htext] at happend ⊢
  rw [(List.cons.inj happend).1, List.tail_cons]

theorem tail_append_rest (c : Char) (cs : List Char) :
    (first c cs).text.tail ++ (first c cs).rest = cs := by
  have happend := first_append c cs
  rw [text_first, List.cons_append] at happend
  exact (List.cons.inj happend).2

theorem word_endsLike (h : EndsLike (word c cs).rest rest) :
    word c ((word c cs).text.tail ++ rest) = { word c cs with rest := rest } := by
  obtain ⟨htake, hdrop⟩ := span_of_head (fun d => List.mem_takeWhile_imp)
    (h.part (head_dropWhile cs))
  show word c (cs.takeWhile isNamePart ++ rest) = _
  unfold word
  rw [htake, hdrop]

/-- A number is read as before if another text follows before which elements end alike. -/
theorem number_endsLike (h : EndsLike (number c cs).rest rest) :
    number c ((number c cs).text.tail ++ rest) = { number c cs with rest := rest } := by
  have hpoint : Char.isDigit '.' = false := by decide
  rcases number_cases c cs with ⟨d, ds, -, hd, hnumber⟩ | ⟨hplain, hnumber⟩
  · rw [hnumber] at h ⊢
    obtain ⟨htake, hdrop⟩ := span_of_head (fun d => List.mem_takeWhile_imp (l := ds))
      (h.digit (head_dropWhile ds))
    obtain ⟨hwhole, hrest⟩ := span_of_not (fun d => List.mem_takeWhile_imp (l := cs)) hpoint
      (d :: (ds.takeWhile Char.isDigit ++ rest))
    show number c (cs.takeWhile Char.isDigit ++ '.' :: d :: ds.takeWhile Char.isDigit ++ rest) = _
    rw [List.append_assoc]
    show number c (cs.takeWhile Char.isDigit ++ '.' :: d :: (ds.takeWhile Char.isDigit ++ rest)) = _
    unfold number
    simp only [hwhole, hrest, hd, if_true, htake, hdrop]
  · rw [hnumber] at h ⊢
    obtain ⟨hwhole, hrest⟩ := span_of_head (fun d => List.mem_takeWhile_imp)
      (h.digit (head_dropWhile cs))
    have hnone : NoFraction (cs.dropWhile Char.isDigit) := by
      rintro ds hds d hd
      obtain ⟨es, rfl⟩ := List.head?_eq_some_iff.mp hd
      exact hplain d es hds
    show number c (cs.takeWhile Char.isDigit ++ rest) = _
    rcases number_cases c (cs.takeWhile Char.isDigit ++ rest) with
      ⟨d, ds, hfraction, hd, -⟩ | ⟨-, hnumber'⟩
    · rw [hrest] at hfraction
      have hnot : d.isDigit = false := h.fraction hnone _ hfraction d rfl
      rw [hd] at hnot
      cases hnot
    · rw [hnumber', hwhole, hrest]

/-- A closed string is read as before, whatever follows. -/
theorem string_endsLike (hclosed : (string cs).element ≠ .unterminatedString) (rest : List Char) :
    string ((string cs).text.tail ++ rest) = { string cs with rest := rest } := by
  cases hdrop : cs.dropWhile (· != '"') with
  | nil =>
    refine absurd ?_ hclosed
    unfold string
    rw [hdrop]
  | cons q ds =>
    have hq : (q != '"') = false := head_dropWhile cs q (by rw [hdrop]; rfl)
    obtain ⟨hcontent, hrest⟩ :=
      span_of_not (fun d => List.mem_takeWhile_imp (p := (· != '"')) (l := cs)) hq rest
    have hstring : string cs = ⟨.token (.string (String.ofList (cs.takeWhile (· != '"')))),
        '"' :: (cs.takeWhile (· != '"') ++ [q]), ds⟩ := by
      unfold string
      rw [hdrop]
    rw [hstring]
    show string (cs.takeWhile (· != '"') ++ [q] ++ rest) = _
    rw [List.append_assoc, List.singleton_append]
    unfold string
    rw [hrest, hcontent]

theorem comment_endsLike
    (h : StopsBefore (· != '\n') (comment cs).rest → StopsBefore (· != '\n') rest) :
    comment ((comment cs).text.tail ++ rest) = { comment cs with rest := rest } := by
  obtain ⟨htake, hdrop⟩ := span_of_head (fun d => List.mem_takeWhile_imp) (h (head_dropWhile cs))
  show comment (cs.takeWhile (· != '\n') ++ rest) = _
  unfold comment
  rw [htake, hdrop]

/-- A symbol is read as before if another text follows before which elements end alike. -/
theorem symbol_endsLike (s : Symbol) (h : EndsLike (symbol s c cs).rest rest) :
    symbol s c ((symbol s c cs).text.tail ++ rest) = { symbol s c cs with rest := rest } := by
  rcases symbol_piece_cases s c cs with ⟨t, ds, ht, rfl, hsymbol⟩ | ⟨hsingle, hsymbol⟩
  · rw [hsymbol]
    show symbol s c ('=' :: rest) = _
    unfold symbol
    rw [ht]
    rfl
  · rw [hsymbol] at h ⊢
    show symbol s c rest = _
    rcases symbol_piece_cases s c rest with ⟨t, ds, ht, rfl, -⟩ | ⟨-, hsymbol'⟩
    · have hstops : StopsBefore (· == '=') cs := by
        intro d hd
        obtain ⟨es, rfl⟩ := List.head?_eq_some_iff.mp hd
        exact beq_eq_false_iff_ne.mpr fun heq => hsingle t ht es (heq ▸ rfl)
      cases stopsBefore_cons.mp (h.equal hstops)
    · exact hsymbol'

/-- No comment starts where none started before. -/
theorem not_comment_endsLike {s : Symbol} (hcomment : ¬(c = '/' ∧ cs.head? = some '/'))
    (h : EndsLike (symbol s c cs).rest rest) :
    ¬(c = '/' ∧ ((symbol s c cs).text.tail ++ rest).head? = some '/') := by
  rintro ⟨hc, hslash⟩
  rcases symbol_piece_cases s c cs with ⟨t, ds, -, -, hsymbol⟩ | ⟨-, hsymbol⟩
  · rw [hsymbol] at hslash
    cases hslash
  · rw [hsymbol] at h hslash
    have hstops : StopsBefore (· == '/') cs := fun d hd =>
      beq_eq_false_iff_ne.mpr fun heq => hcomment ⟨hc, heq ▸ hd⟩
    cases h.slash hstops '/' hslash

/-- An element is read the same before a text in front of which elements end like in front of what
followed it, unless it is a string that is left open. -/
theorem first_endsLike (hclosed : (first c cs).element ≠ .unterminatedString)
    (hblank : (first c cs).element = .blank → StopsBefore (· != '\n') (first c cs).rest →
      StopsBefore (· != '\n') rest)
    (h : EndsLike (first c cs).rest rest) :
    first c ((first c cs).text.tail ++ rest) = { first c cs with rest := rest } := by
  unfold first at hclosed hblank h ⊢
  by_cases hname : isNameStart c = true
  · simp only [if_pos hname] at h ⊢
    exact word_endsLike h
  simp only [if_neg hname] at hclosed hblank h ⊢
  by_cases hdigit : c.isDigit = true
  · simp only [if_pos hdigit] at h ⊢
    exact number_endsLike h
  simp only [if_neg hdigit] at hclosed hblank h ⊢
  by_cases hspace : isBlank c = true
  · simp only [if_pos hspace]
    rfl
  simp only [if_neg hspace] at hclosed hblank h ⊢
  by_cases hquote : c = '"'
  · simp only [if_pos hquote] at hclosed ⊢
    exact string_endsLike hclosed rest
  simp only [if_neg hquote] at hblank h ⊢
  -- of all elements only a comment asks for what `hblank` says
  by_cases hcomment : c = '/' ∧ cs.head? = some '/'
  · simp only [if_pos hcomment] at hblank ⊢
    have hslash : (cs.takeWhile (· != '\n') ++ rest).head? = some '/' := by
      obtain ⟨ds, rfl⟩ := List.head?_eq_some_iff.mp hcomment.2
      rfl
    have hcomment' : c = '/' ∧ ((comment cs).text.tail ++ rest).head? = some '/' :=
      ⟨hcomment.1, hslash⟩
    rw [if_pos hcomment']
    exact comment_endsLike (hblank rfl)
  simp only [if_neg hcomment] at h ⊢
  cases hs : symbolOf? c with
  | some s =>
    simp only [hs] at h
    rw [if_neg (not_comment_endsLike hcomment h)]
    exact symbol_endsLike s h
  | none =>
    have hcomment' : ¬(c = '/' ∧ rest.head? = some '/') := by
      rintro ⟨rfl, -⟩
      cases hs
    exact if_neg hcomment'

end Piece

end

end LoxLang

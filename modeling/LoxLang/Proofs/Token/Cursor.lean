import LoxLang.Proofs.Token.Runs

/-!
Reading by bytes is reading by characters. Wherever a round starts, the cursor stands before a character
or at the end; the round reads the first element there and leaves the cursor before what follows it. So
no access is a fault, although the cursor goes over single bytes. Main statement: `calls_in_range`.
-/
namespace LoxLang

namespace Scan

open Piece (isNameStart isNamePart isBlank symbolOf? withEqual?)

variable {text : String}

def Yields (x : Scan Element) (i l : Nat) (p : Piece) : Prop :=
  x ⟨i, i + 1, l⟩ = .ok p.element ⟨i, i + (encode p.text).length, l + p.text.count '\n'⟩

theorem count_newline_of_forall {p : Char → Bool} {cs : List Char} (h : ∀ c ∈ cs, p c = true)
    (hp : p '\n' = false) : cs.count '\n' = 0 :=
  List.count_eq_zero.mpr fun hmem => by rw [h _ hmem] at hp; cases hp

theorem wordKind_encode (cs : List Char) :
    wordKind (encode cs) = Piece.wordKind (String.ofList cs) := by
  have hsame (k : Keyword) : (k.spelling.toByteArray.data.toList == encode cs) =
      (k.spelling == String.ofList cs) := by
    rw [Bool.eq_iff_iff, beq_iff_eq, beq_iff_eq, ← String.toList_ofList (l := cs), ← encode_toList,
      String.toList_ofList, Array.toList_inj]
    exact ⟨fun h => String.toByteArray_inj.mp (ByteArray.ext h), fun h => by rw [h]⟩
  have hfind : Keyword.all.find? (·.spelling.toByteArray.data.toList == encode cs) =
      Keyword.all.find? (·.spelling == String.ofList cs) :=
    congrArg (Keyword.all.find? ·) (funext hsame)
  unfold wordKind Piece.wordKind Keyword.ofSpelling?
  cases hk : Keyword.all.find? (·.spelling == String.ofList cs) <;> simp only [hfind, hk]

section

variable {i l : Nat} {d : Char} {cs : List Char}

/-- The bytes of a word are read up to its end. -/
theorem yields_word (h : At text i (d :: cs)) (hd : isNameStart d = true) :
    Yields (word text) i l (Piece.word d cs) := by
  have hascii : d.toNat < 128 := toNat_lt_of_isLetter (isNameStart_iff.mp hd)
  have hlength : i + 1 + (encode (cs.takeWhile isNamePart)).length =
      i + (encode (Piece.word d cs).text).length := by
    rw [Piece.word, length_encode_cons hascii, Nat.add_right_comm, Nat.add_assoc]
  have hwhole : At text i ((Piece.word d cs).text ++ (Piece.word d cs).rest) := by
    rw [Piece.word, List.cons_append, List.takeWhile_append_dropWhile]
    exact h
  have hline : (Piece.word d cs).text.count '\n' = 0 := by
    refine count_newline_of_forall (p := isNamePart) ?_ rfl
    refine List.forall_mem_cons.mpr ⟨isNamePart_iff.mpr (.inl (isNameStart_iff.mp hd)), fun c hc => ?_⟩
    exact List.mem_takeWhile_imp hc
  unfold Yields word
  rw [bind_of_ok (skipWhile_at bytewise_isNamePart rfl i (h.succ hascii)), get_bind, hlength,
    bind_of_ok (hwhole.byteSlice _), wordKind_encode, hline]
  rfl

/-- The two bytes that decide if a number has a fraction. -/
theorem fraction_follows (h : At text i cs) :
    (peekAt text i == '.' && (peekAt text (i + 1)).isDigit) = true ↔
      ∃ d rest, cs = '.' :: d :: rest ∧ d.isDigit = true := by
  rw [peekAt_beq (by decide) h, Bool.and_eq_true_iff, beq_iff_eq]
  constructor
  · rintro ⟨hpoint, hdigit⟩
    obtain ⟨es, rfl⟩ := List.head?_eq_some_iff.mp hpoint
    rw [peekAt_at bytewise_isDigit rfl (h.succ (by decide))] at hdigit
    cases es with
    | nil => cases hdigit
    | cons d rest => exact ⟨d, rest, rfl, hdigit⟩
  · rintro ⟨d, rest, rfl, hd⟩
    refine ⟨rfl, ?_⟩
    rw [peekAt_at bytewise_isDigit rfl (h.succ (by decide))]
    exact hd

theorem numberOf_whole {ds : List Char} (h : ∀ d ∈ ds, d.isDigit = true) :
    numberOf (String.ofList ds) = Number.ofDigits ds [] := by
  obtain ⟨htake, hdrop⟩ := span_digits h
  rw [numberOf, String.toList_ofList, htake, hdrop, List.tail_nil]

theorem numberOf_fraction {ds : List Char} (h : ∀ d ∈ ds, d.isDigit = true) (fs : List Char) :
    numberOf (String.ofList (ds ++ '.' :: fs)) = Number.ofDigits ds fs := by
  obtain ⟨htake, hdrop⟩ := span_digits_point h fs
  rw [numberOf, String.toList_ofList, htake, hdrop, List.tail_cons]

theorem numberToken_at {as : List Char} (h : At text i (as ++ cs)) :
    numberToken text ⟨i, i + (encode as).length, l⟩ =
      .ok (.token (.number (numberOf (String.ofList as)))) ⟨i, i + (encode as).length, l⟩ := by
  unfold numberToken
  rw [get_bind, bind_of_ok (h.slice _)]
  rfl

theorem at_after_digits (h : At text i (d :: cs)) (hd : d.isDigit = true) :
    At text (i + 1 + (encode (cs.takeWhile Char.isDigit)).length) (cs.dropWhile Char.isDigit) := by
  refine At.append (i := i + 1) ?_
  rw [List.takeWhile_append_dropWhile]
  exact h.succ (toNat_lt_of_isDigit hd)

theorem forall_isDigit (hd : d.isDigit = true) (cs : List Char) :
    ∀ c ∈ d :: cs.takeWhile Char.isDigit, c.isDigit = true :=
  List.forall_mem_cons.mpr ⟨hd, fun _ => List.mem_takeWhile_imp⟩

/-- A point with a digit after it is taken with all digits that follow. -/
theorem yields_fraction {e : Char} {rest : List Char} (h : At text i (d :: cs))
    (hd : d.isDigit = true) (hdrop : cs.dropWhile Char.isDigit = '.' :: e :: rest)
    (he : e.isDigit = true) (hpiece : Piece.number d cs =
      ⟨.token (.number (Number.ofDigits (d :: cs.takeWhile Char.isDigit)
          (e :: rest.takeWhile Char.isDigit))),
        d :: cs.takeWhile Char.isDigit ++ '.' :: e :: rest.takeWhile Char.isDigit,
        rest.dropWhile Char.isDigit⟩) : Yields (number text) i l (Piece.number d cs) := by
  have hascii : d.toNat < 128 := toNat_lt_of_isDigit hd
  have hpoint := at_after_digits h hd
  have happend := Piece.number_append d cs
  have hfraction : (e :: rest).takeWhile Char.isDigit = e :: rest.takeWhile Char.isDigit :=
    List.takeWhile_cons_of_pos he
  have hcurrent : i + 1 + (encode (cs.takeWhile Char.isDigit)).length + 1 +
      (encode (e :: rest.takeWhile Char.isDigit)).length = i + (encode
        (d :: cs.takeWhile Char.isDigit ++ '.' :: e :: rest.takeWhile Char.isDigit)).length := by
    rw [encode_append, List.length_append, length_encode_cons hascii,
      length_encode_cons (show '.'.toNat < 128 by decide)]
    omega
  rw [hdrop] at hpoint
  rw [hpiece] at happend ⊢
  unfold Yields number
  simp only at happend ⊢
  rw [bind_of_ok (skipWhile_at bytewise_isDigit rfl i (h.succ hascii)), get_bind,
    if_pos ((fraction_follows hpoint).mpr ⟨e, rest, rfl, he⟩),
    bind_of_ok (advance_ascii hpoint (by decide)),
    bind_of_ok (skipWhile_at bytewise_isDigit rfl i (hpoint.succ (by decide))), hfraction, hcurrent]
  refine (numberToken_at (happend ▸ h)).trans ?_
  rw [numberOf_fraction (forall_isDigit hd cs), List.count_append,
    count_newline_of_forall (forall_isDigit hd cs) rfl, List.count_cons_of_ne (by decide),
    count_newline_of_forall (forall_isDigit he rest) rfl]
  rfl

/-- Any other point is left for the next element. -/
theorem yields_whole (h : At text i (d :: cs)) (hd : d.isDigit = true)
    (hnone : ∀ e rest, cs.dropWhile Char.isDigit = '.' :: e :: rest → e.isDigit = false)
    (hpiece : Piece.number d cs =
      ⟨.token (.number (Number.ofDigits (d :: cs.takeWhile Char.isDigit) [])),
        d :: cs.takeWhile Char.isDigit, cs.dropWhile Char.isDigit⟩) :
    Yields (number text) i l (Piece.number d cs) := by
  have hascii : d.toNat < 128 := toNat_lt_of_isDigit hd
  have hnot : ¬(peekAt text (i + 1 + (encode (cs.takeWhile Char.isDigit)).length) == '.' &&
      (peekAt text (i + 1 + (encode (cs.takeWhile Char.isDigit)).length + 1)).isDigit) = true := by
    rw [fraction_follows (at_after_digits h hd)]
    rintro ⟨e, rest, hdrop, he⟩
    rw [hnone e rest hdrop] at he
    cases he
  have happend := Piece.number_append d cs
  have hcurrent : i + 1 + (encode (cs.takeWhile Char.isDigit)).length =
      i + (encode (d :: cs.takeWhile Char.isDigit)).length := by
    rw [length_encode_cons hascii, Nat.add_right_comm, Nat.add_assoc]
  rw [hpiece] at happend ⊢
  unfold Yields number
  simp only at happend ⊢
  rw [bind_of_ok (skipWhile_at bytewise_isDigit rfl i (h.succ hascii)), get_bind, if_neg hnot,
    hcurrent]
  refine (numberToken_at (happend ▸ h)).trans ?_
  rw [numberOf_whole (forall_isDigit hd cs), count_newline_of_forall (forall_isDigit hd cs) rfl]
  rfl

theorem yields_number (h : At text i (d :: cs)) (hd : d.isDigit = true) :
    Yields (number text) i l (Piece.number d cs) := by
  rcases number_cases d cs with ⟨e, rest, hdrop, he, hpiece⟩ | ⟨hnone, hpiece⟩
  · exact yields_fraction h hd hdrop he hpiece
  · exact yields_whole h hd hnone hpiece

/-- The bytes of a string are read up to its closing quote, or to the end without one. -/
theorem yields_string (h : At text i ('"' :: cs)) :
    Yields (string text) i l (Piece.string cs) := by
  have hquote : '"'.toNat < 128 := by decide
  have hafter : At text (i + 1) (cs.takeWhile (· != '"') ++ cs.dropWhile (· != '"')) := by
    rw [List.takeWhile_append_dropWhile]
    exact h.succ hquote
  unfold Yields string
  rw [bind_of_ok (skipString_at i (h.succ hquote)), get_bind]
  unfold Piece.string
  cases hdrop : cs.dropWhile (· != '"') with
  | nil =>
    have htake : cs.takeWhile (· != '"') = cs :=
      List.takeWhile_eq_self_iff.mpr (List.dropWhile_eq_nil_iff.mp hdrop)
    rw [hdrop, List.append_nil, htake] at hafter
    have hend : isAtEnd text ⟨i, i + 1 + (encode cs).length, l + cs.count '\n'⟩ = true :=
      decide_eq_true hafter.add_length.ge
    rw [htake, if_pos hend, length_encode_cons hquote, List.count_cons_of_ne (by decide),
      Nat.add_right_comm, Nat.add_assoc]
    rfl
  | cons q rest =>
    obtain rfl : q = '"' := by
      have hq : (q != '"') = false := head_dropWhile cs q (by rw [hdrop]; rfl)
      simpa using hq
    rw [hdrop] at hafter
    have hnext := hafter.append
    have hmore : ¬isAtEnd text ⟨i, i + 1 + (encode (cs.takeWhile (· != '"'))).length,
        l + (cs.takeWhile (· != '"')).count '\n'⟩ = true :=
      Bool.eq_false_iff.mp (not_isAtEnd_of_at hnext)
    have hcurrent : i + 1 + (encode (cs.takeWhile (· != '"'))).length + 1 =
        i + (encode ('"' :: (cs.takeWhile (· != '"') ++ ['"']))).length := by
      rw [length_encode_cons hquote, encode_append, List.length_append, length_encode_cons hquote,
        encode_nil, List.length_nil]
      omega
    rw [if_neg hmore, bind_of_ok (advance_ascii hnext hquote), get_bind, Nat.add_sub_cancel,
      bind_of_ok (hafter.slice _), hcurrent, List.count_cons_of_ne (by decide), List.count_append]
    rfl

theorem toNat_lt_of_symbolOf? {s : Symbol} (h : symbolOf? d = some s) : d.toNat < 128 := by
  unfold symbolOf? at h
  split at h
  any_goals decide
  cases h

theorem ne_newline_of_symbolOf? {s : Symbol} (h : symbolOf? d = some s) : d ≠ '\n' := by
  rintro rfl
  cases h

/-- A symbol takes an equals sign after it where there is a mark of both. -/
theorem yields_symbol {s : Symbol} (h : At text i (d :: cs)) (hs : symbolOf? d = some s) :
    Yields (symbol text s) i l (Piece.symbol s d cs) := by
  have hascii : d.toNat < 128 := toNat_lt_of_symbolOf? hs
  have hnext : At text (i + 1) cs := h.succ hascii
  unfold Yields symbol
  rcases symbol_piece_cases s d cs with ⟨t, rest, ht, rfl, hpiece⟩ | ⟨hnone, hpiece⟩
  · rw [hpiece, ht]
    simp only
    rw [bind_of_ok (takes_cons (by decide) hnext), length_encode_cons hascii,
      length_encode_cons (by decide), List.count_cons_of_ne (ne_newline_of_symbolOf? hs)]
    rfl
  · rw [hpiece]
    simp only
    rw [length_encode_cons hascii, count_newline_singleton (ne_newline_of_symbolOf? hs)]
    cases ht : withEqual? s with
    | none => rfl
    | some t =>
      have hequal : cs.head? ≠ some '=' := fun hhead => by
        obtain ⟨rest, rfl⟩ := List.head?_eq_some_iff.mp hhead
        exact hnone t ht rest rfl
      simp only
      rw [bind_of_ok (takes_ne (by decide) hnext hequal)]
      rfl

theorem yields_unrecognized (h : At text i (d :: cs)) (hd : d ≠ '\n') :
    Yields (unrecognized text) i l ⟨.unrecognized d, [d], cs⟩ := by
  have hwhole : At text i (d :: cs ++ []) := (List.append_nil (d :: cs)).symm ▸ h
  have hslice := hwhole.slice ⟨i, i + 1, l⟩
  rw [h.add_length] at hslice
  have hsize : (encode [d]).length = d.utf8Size := by
    rw [encode_cons, encode_nil, List.append_nil, String.length_utf8EncodeChar]
  have hafter : At text (i + (encode [d]).length) cs := At.append h
  have hnext : i + d.utf8Size ≤ text.utf8ByteSize := hsize ▸ hafter.le
  unfold Yields unrecognized
  rw [get_bind, bind_of_ok hslice, String.toList_ofList, List.head?_cons, Option.getD_some,
    bind_of_ok (moveTo_eq (Nat.le_succ_of_le hnext) _), hsize, count_newline_singleton hd]
  rfl

theorem yields_slash (h : At text i ('/' :: cs)) : Yields (slash text) i l (Piece.first '/' cs) := by
  have hnext : At text (i + 1) cs := h.succ (by decide)
  unfold Yields slash
  by_cases hslash : cs.head? = some '/'
  · obtain ⟨ds, rfl⟩ := List.head?_eq_some_iff.mp hslash
    have hcomment : Piece.first '/' ('/' :: ds) =
      ⟨.blank, '/' :: '/' :: ds.takeWhile (· != '\n'), ds.dropWhile (· != '\n')⟩ := rfl
    have hline : (ds.takeWhile (· != '\n')).count '\n' = 0 :=
      count_newline_of_forall (fun c => List.mem_takeWhile_imp) rfl
    rw [bind_of_ok (takes_cons (by decide) hnext), if_pos rfl,
      bind_of_ok (skipLine_at (hnext.succ (by decide))), hcomment]
    simp only
    rw [length_encode_cons (by decide), length_encode_cons (by decide),
      List.count_cons_of_ne (by decide), List.count_cons_of_ne (by decide), hline,
      Nat.add_assoc i 1 1, Nat.add_assoc i 2, Nat.add_comm 2]
    rfl
  · have hcomment : ¬('/' = '/' ∧ cs.head? = some '/') := fun hboth => hslash hboth.2
    have hsymbol : Piece.first '/' cs = ⟨.token (.symbol .slash), ['/'], cs⟩ := by
      unfold Piece.first
      rw [if_neg hcomment]
      rfl
    rw [bind_of_ok (takes_ne (by decide) hnext hslash), if_neg Bool.false_ne_true, hsymbol]
    rfl

/-- After a byte below `0x80` the step reads the element that starts with its character. -/
theorem yields_elementAfter (h : At text i (d :: cs)) (hd : d.toNat < 128) :
    Yields (elementAfter text d) i l (Piece.first d cs) := by
  by_cases hslash : d = '/'
  · subst hslash
    exact yields_slash h
  unfold elementAfter Piece.first
  by_cases hname : isNameStart d = true
  · rw [if_pos hname, if_pos hname]
    exact yields_word h hname
  rw [if_neg hname, if_neg hname]
  by_cases hdigit : d.isDigit = true
  · rw [if_pos hdigit, if_pos hdigit]
    exact yields_number h hdigit
  rw [if_neg hdigit, if_neg hdigit]
  by_cases hnewline : d = '\n'
  · subst hnewline
    rfl
  rw [if_neg hnewline]
  by_cases hblank : isBlank d = true
  · rw [if_pos hblank, if_pos hblank, Yields, length_encode_cons hd, count_newline_singleton hnewline]
    rfl
  rw [if_neg hblank, if_neg hblank]
  by_cases hquote : d = '"'
  · subst hquote
    exact yields_string h
  rw [if_neg hquote, if_neg hquote, if_neg hslash, if_neg fun hcomment => hslash hcomment.1]
  cases hs : symbolOf? d with
  | some s => exact yields_symbol h hs
  | none => exact yields_unrecognized h hnewline

end

structure StartsNothing (c : Char) : Prop where
  name : ¬isNameStart c = true
  digit : ¬c.isDigit = true
  blank : ¬isBlank c = true
  quote : c ≠ '"'
  symbol : symbolOf? c = none

section

variable {c : Char}

theorem startsNothing_of_large (h : ¬c.toNat < 128) : StartsNothing c where
  name hname := h (toNat_lt_of_isLetter (isNameStart_iff.mp hname))
  digit hdigit := h (toNat_lt_of_isDigit hdigit)
  blank hblank := by
    rcases isBlank_iff.mp hblank with rfl | rfl | rfl | rfl <;> exact h (by decide)
  quote := by
    rintro rfl
    exact h (by decide)
  symbol := Option.eq_none_iff_forall_not_mem.mpr fun s hs => h (toNat_lt_of_symbolOf? hs)

theorem StartsNothing.slash (h : StartsNothing c) : c ≠ '/' := by
  rintro rfl
  cases h.symbol

theorem StartsNothing.newline (h : StartsNothing c) : c ≠ '\n' := by
  rintro rfl
  exact h.blank rfl

theorem StartsNothing.first (h : StartsNothing c) (cs : List Char) :
    Piece.first c cs = ⟨.unrecognized c, [c], cs⟩ := by
  unfold Piece.first
  rw [if_neg h.name, if_neg h.digit, if_neg h.blank, if_neg h.quote, if_neg fun hc => h.slash hc.1,
    h.symbol]

theorem StartsNothing.elementAfter (h : StartsNothing c) :
    Scan.elementAfter text c = unrecognized text := by
  unfold Scan.elementAfter
  rw [if_neg h.name, if_neg h.digit, if_neg h.newline, if_neg h.blank, if_neg h.quote,
    if_neg h.slash, h.symbol]

end

/-- The element at a place is the first one of the characters there, whatever its first byte is. -/
theorem element_at {i l : Nat} {d : Char} {cs : List Char} (h : At text i (d :: cs)) :
    element text ⟨i, i, l⟩ = .ok (Piece.first d cs).element
      ⟨i, i + (encode (Piece.first d cs).text).length, l + (Piece.first d cs).text.count '\n'⟩ := by
  unfold element
  by_cases hascii : d.toNat < 128
  · rw [bind_of_ok (advance_ascii h hascii)]
    exact yields_elementAfter h hascii
  · obtain ⟨b, hb, hadvance⟩ := advance_large (s := i) (l := l) h hascii
    have hnothing := startsNothing_of_large hascii
    rw [bind_of_ok hadvance, (startsNothing_of_large hb).elementAfter, hnothing.first]
    exact yields_unrecognized h hnothing.newline

section

variable {c : Cursor} {d : Char} {cs : List Char}

theorem pass_nil (h : At text c.current []) :
    pass text c = .ok (some (.token ⟨.eof, "", c.line⟩))
      { c with current := text.utf8ByteSize + 1 } := by
  have hend : c.current = text.utf8ByteSize := h.add_length
  unfold pass
  rw [get_bind, if_pos hend, bind_of_ok (moveTo_eq (Nat.succ_le_succ hend.le) c), hend]
  rfl

/-- The characters at a place are the first element's and the rest. -/
theorem at_first (h : At text c.current (d :: cs)) :
    At text c.current ((Piece.first d cs).text ++ (Piece.first d cs).rest) := by
  rw [Piece.first_append]
  exact h

/-- The element at the cursor is the one at the front of the text that is left. -/
theorem itemOf_at {l : Nat} (h : At text c.current (d :: cs)) :
    let p := Piece.first d cs
    itemOf text p.element ⟨c.current, c.current + (encode p.text).length, l⟩ =
      .ok (Source.item? l p) ⟨c.current, c.current + (encode p.text).length, l⟩ := by
  simp only
  unfold itemOf Source.item?
  rw [get_bind]
  cases (Piece.first d cs).element with
  | blank => rfl
  | token kind =>
    simp only
    rw [bind_of_ok ((at_first h).slice _)]
    rfl
  | unterminatedString => rfl
  | unrecognized e => rfl

/-- One round gives the item of the first piece, and stands behind the piece. -/
theorem pass_cons (h : At text c.current (d :: cs)) :
    let p := Piece.first d cs
    pass text c = .ok (Source.item? (c.line + p.text.count '\n') p)
      ⟨c.current, c.current + (encode p.text).length, c.line + p.text.count '\n'⟩ := by
  simp only
  have hmore : ¬c.current = text.utf8ByteSize := by
    have hlength := h.add_length
    rw [encode_cons, List.length_append, String.length_utf8EncodeChar] at hlength
    have hpos := Char.utf8Size_pos d
    omega
  unfold pass
  rw [get_bind, if_neg hmore]
  show (element text >>= itemOf text) (⟨c.current, c.current, c.line⟩ : Cursor) = _
  rw [bind_of_ok (element_at h)]
  exact itemOf_at h

end

/-- A cursor with which a round can start. -/
inductive Reached (text : String) : Cursor → Prop
  | initial : Reached text .initial
  | pass {c c' : Cursor} {item : Option Item} (h : Reached text c)
      (hmore : c.current ≤ text.utf8ByteSize) (hpass : Scan.pass text c = .ok item c') :
      Reached text c'

/-- The cursor stands before what is left of the source, or beyond the end when it has been given. -/
inductive Follows (text : String) : Cursor → Source → Prop
  | reading {c : Cursor} {cs : List Char} (h : At text c.current cs) :
      Follows text c ⟨cs, c.line, false⟩
  | ended {c : Cursor} {cs : List Char} (h : c.current = text.utf8ByteSize + 1) :
      Follows text c ⟨cs, c.line, true⟩

section

variable {c c' : Cursor}

/-- A round from before a character leads before a character, to the end or beyond. -/
theorem pass_of_at {cs : List Char} (h : At text c.current cs) :
    ∃ item c', pass text c = .ok item c' ∧
      (c'.current = text.utf8ByteSize + 1 ∨ ∃ ds, At text c'.current ds) := by
  cases cs with
  | nil => exact ⟨_, _, pass_nil h, .inl rfl⟩
  | cons d ds => exact ⟨_, _, pass_cons h, .inr ⟨_, (at_first h).append⟩⟩

/-- A round can start before a character, or beyond the end. -/
theorem Reached.at_or (h : Reached text c) :
    c.current = text.utf8ByteSize + 1 ∨ ∃ cs, At text c.current cs := by
  induction h with
  | initial => exact .inr ⟨_, at_zero text⟩
  | pass h hmore hpass ih =>
    rcases ih with hend | ⟨cs, hplace⟩
    · omega
    · obtain ⟨item, c', hpass', hplace'⟩ := pass_of_at hplace
      rw [hpass] at hpass'
      cases hpass'
      exact hplace'

theorem next_of_item {item : Item} (hmore : c.current ≤ text.utf8ByteSize)
    (h : pass text c = .ok (some item) c') : next text c = .ok (some item) c' := by
  rw [next, if_pos hmore]
  split
  · next h' => rw [h] at h'; cases h'
  · next h' => rw [h] at h'; cases h'; rfl
  · next h' => rw [h] at h'; cases h'

theorem next_of_blank (hmore : c.current ≤ text.utf8ByteSize) (h : pass text c = .ok none c') :
    next text c = next text c' := by
  rw [next, if_pos hmore]
  split
  · next h' => rw [h] at h'; cases h'; rfl
  · next h' => rw [h] at h'; cases h'
  · next h' => rw [h] at h'; cases h'

theorem next_of_ended (h : c.current = text.utf8ByteSize + 1) : next text c = .ok none c := by
  rw [next, if_neg (by omega)]

/-- The next item is the one of the source. -/
theorem next_of_at {line : Nat} {cs : List Char} (c : Cursor) (h : At text c.current cs)
    (hline : c.line = line) (hc : Reached text c) :
    ∃ c', next text c = .ok (some (Source.advance line cs).1) c' ∧
      Follows text c' (Source.advance line cs).2 ∧ Reached text c' := by
  fun_induction Source.advance line cs generalizing c with
  | case1 line =>
    subst hline
    exact ⟨_, next_of_item h.le (pass_nil h), .ended rfl, hc.pass h.le (pass_nil h)⟩
  | case2 line d cs p line' item hitem =>
    subst hline
    have hpass : pass text c = .ok (Source.item? line' p) _ := pass_cons h
    rw [hitem] at hpass
    exact ⟨_, next_of_item h.le hpass, .reading (at_first h).append, hc.pass h.le hpass⟩
  -- after a blank the call goes on with another round
  | case3 line d cs p line' hitem ih =>
    subst hline
    have hpass : pass text c = .ok (Source.item? line' p) _ := pass_cons h
    rw [hitem] at hpass
    rw [next_of_blank h.le hpass]
    exact ih _ (at_first h).append rfl (hc.pass h.le hpass)

/-- The answers to calls are the items in order, and then nothing. -/
theorem calls_of_follows {s : Source} (h : Follows text c s) (hc : Reached text c) (n : Nat) :
    ∃ c', calls text n c = .ok ((List.range n).map (s.items[·]?)) c' ∧ Reached text c' := by
  induction n generalizing c s with
  | zero => exact ⟨c, rfl, hc⟩
  | succ n ih =>
    rw [List.range_succ_eq_map, List.map_cons, List.map_map]
    cases h with
    | @reading cs h =>
      obtain ⟨c₁, hnext, hfollows, hc₁⟩ := next_of_at c h rfl hc
      obtain ⟨c₂, hcalls, hc₂⟩ := ih hfollows hc₁
      refine ⟨c₂, ?_, hc₂⟩
      unfold calls
      rw [bind_of_ok hnext, bind_of_ok hcalls, items_of_advance]
      rfl
    | @ended cs h =>
      obtain ⟨c₂, hcalls, hc₂⟩ := ih (.ended h) hc
      refine ⟨c₂, ?_, hc₂⟩
      unfold calls
      rw [bind_of_ok (next_of_ended h), bind_of_ok hcalls, items_of_ended]
      rfl

end

/-- Reading by bytes never goes wrong. A slice has its ends in range and between characters, and a byte
that is taken is there; anything else is a fault. A cursor that is reached is at most one place beyond
the end, and from each one that is not beyond it the next round takes the cursor forward without a
fault. Any number of calls gives the items of the text in order, and then nothing. -/
theorem calls_in_range (text : String) :
    (∀ i j s c c', slice text i j c = .ok s c' → Between text s i j) ∧
    (∀ c b c', advance text c = .ok b c' → c.current < text.utf8ByteSize) ∧
    (∀ c, Reached text c → c.current ≤ text.utf8ByteSize + 1 ∧
      (c.current ≤ text.utf8ByteSize →
        ∃ item c', pass text c = .ok item c' ∧ c.current < c'.current)) ∧
    ∀ n, ∃ c, calls text n .initial = .ok ((List.range n).map ((scan text)[·]?)) c ∧
      Reached text c := by
  refine ⟨fun i j s c c' h => (slice_eq_ok_iff.mp h).2, fun c b c' h => (of_advance text h).1,
    fun c hc => ?_, fun n => ?_⟩
  · rcases hc.at_or with hend | ⟨cs, hplace⟩
    · exact ⟨hend.le, fun hmore => by omega⟩
    · obtain ⟨item, c', hpass, -⟩ := pass_of_at hplace
      exact ⟨Nat.le_succ_of_le hplace.le, fun _ => ⟨item, c', hpass, lt_of_pass text hpass⟩⟩
  · exact calls_of_follows (.reading (at_zero text)) .initial n

end Scan

end LoxLang

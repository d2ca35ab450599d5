import LoxLang.Proofs.Token.Bytes
import LoxLang.Proofs.Token.Lines

/-!
Steps of a cursor at the places of characters. The loops of the scanner take bytes; where the cursor
stands before a character they take the bytes of a run of characters, and end before a character again.
Main statements: `skipWhile_at`, `skipString_at`, `skipLine_at`.
-/
namespace LoxLang

namespace Scan

open Piece (isNamePart)

variable {text : String}

section

variable {α β : Type} {c c₁ : Cursor}

theorem bind_of_ok {x : Scan α} {f : α → Scan β} {a : α} (h : x c = .ok a c₁) :
    (x >>= f) c = f a c₁ := by
  simp only [bind, EStateM.bind, h]

theorem get_bind (f : Cursor → Scan β) (c : Cursor) : (get >>= f) c = f c c := rfl

theorem moveTo_eq {i : Nat} (h : i ≤ text.utf8ByteSize + 1) (c : Cursor) :
    moveTo text i c = .ok () { c with current := i } := by
  unfold moveTo
  rw [if_pos h]
  rfl

theorem advance_of_byte {b : UInt8} (h : text.toByteArray[c.current]? = some b) :
    advance text c = .ok (Char.ofUInt8 b) { c with current := c.current + 1 } := by
  obtain ⟨hlt, -⟩ := getElem?_eq_some_iff.mp h
  have hmove : moveTo text (c.current + 1) c = _ := moveTo_eq (Nat.le_succ_of_le hlt) c
  unfold advance
  rw [get_bind]
  simp only [h]
  exact bind_of_ok hmove

end

def left (text : String) (i : Nat) : List UInt8 := text.toByteArray.data.toList.drop i

theorem left_of_byte {i : Nat} {b : UInt8} (h : text.toByteArray[i]? = some b) :
    left text i = b :: left text (i + 1) := by
  rw [getElem?_toByteArray] at h
  obtain ⟨hlt, rfl⟩ := List.getElem?_eq_some_iff.mp h
  exact List.drop_eq_getElem_cons hlt

theorem left_of_none {i : Nat} (h : text.toByteArray[i]? = none) : left text i = [] := by
  rw [getElem?_toByteArray] at h
  exact List.drop_eq_nil_of_le (List.getElem?_eq_none_iff.mp h)

theorem peekAt_of_byte {i : Nat} {b : UInt8} (h : text.toByteArray[i]? = some b) :
    peekAt text i = Char.ofUInt8 b := by
  rw [peekAt, h, Option.getD_some]

/-- Only a byte that is there can be of a kind that the zero beyond the end is not of. -/
theorem exists_byte_of_peekAt {p : Char → Bool} (hp : p '\x00' = false) {i : Nat}
    (h : p (peekAt text i) = true) :
    ∃ b, text.toByteArray[i]? = some b ∧ p (Char.ofUInt8 b) = true := by
  cases hb : text.toByteArray[i]? with
  | none =>
    rw [peekAt, hb] at h
    exact absurd h (Bool.eq_false_iff.mp hp)
  | some b =>
    rw [peekAt_of_byte hb] at h
    exact ⟨b, rfl, h⟩

/-- Skipping bytes of a kind is skipping characters of it. -/
theorem skipWhile_eq {p : Char → Bool} (hp : p '\x00' = false) (c : Cursor) :
    skipWhile text p c = .ok ()
      { c with
        current := c.current + ((left text c.current).takeWhile (p ∘ Char.ofUInt8)).length } := by
  -- on the steps of the scanner; behind the end it sees a zero byte, which has no kind
  fun_induction skipWhile text p c with
  | case1 c hpeek b c₁ hstep ih =>
    obtain ⟨b', hb, hkind⟩ := exists_byte_of_peekAt hp hpeek
    rw [advance_of_byte hb] at hstep
    cases hstep
    rw [ih, left_of_byte hb, List.takeWhile_cons_of_pos (p := p ∘ Char.ofUInt8) hkind,
      List.length_cons, Nat.add_right_comm]
    rfl
  | case2 c hpeek e c₁ hstep =>
    obtain ⟨b', hb, -⟩ := exists_byte_of_peekAt hp hpeek
    rw [advance_of_byte hb] at hstep
    cases hstep
  | case3 c hpeek =>
    cases hb : text.toByteArray[c.current]? with
    | none => rw [left_of_none hb]; rfl
    | some b' =>
      rw [peekAt_of_byte hb] at hpeek
      rw [left_of_byte hb, List.takeWhile_cons_of_neg (p := p ∘ Char.ofUInt8) hpeek]
      rfl

theorem not_isAtEnd_of_byte {b : UInt8} {c : Cursor} (h : text.toByteArray[c.current]? = some b) :
    isAtEnd text c = false := by
  obtain ⟨hlt, -⟩ := getElem?_eq_some_iff.mp h
  exact decide_eq_false (Nat.not_le.mpr hlt)

theorem exists_byte_of_not_isAtEnd {c : Cursor} {p : Char → Bool}
    (h : (!isAtEnd text c && p (peekAt text c.current)) = true) :
    ∃ b, text.toByteArray[c.current]? = some b ∧ p (Char.ofUInt8 b) = true := by
  obtain ⟨hend, hkind⟩ := Bool.and_eq_true_iff.mp h
  have hlt : c.current < text.utf8ByteSize := by simpa [isAtEnd] using hend
  have hb := getElem?_pos text.toByteArray c.current hlt
  rw [peekAt_of_byte hb] at hkind
  exact ⟨_, hb, hkind⟩

theorem count_counting (c : Cursor) (b : Char) (bs : List Char) :
    c.line + (b :: bs).count '\n' = (c.counting b).line + bs.count '\n' := by
  rw [Cursor.counting, List.count_cons]
  by_cases hb : b = '\n'
  · simp [hb, Nat.add_assoc, Nat.add_comm 1]
  · simp [hb]

/-- Skipping the content of a string counts its newlines. -/
theorem skipString_eq (c : Cursor) :
    let run := (left text c.current).takeWhile ((· != '"') ∘ Char.ofUInt8)
    skipString text c = .ok ()
      { c with
        current := c.current + run.length
        line := c.line + (run.map Char.ofUInt8).count '\n' } := by
  simp only
  fun_induction skipString text c with
  | case1 c hpeek b c₁ hstep ih =>
    obtain ⟨b', hb, hother⟩ := exists_byte_of_not_isAtEnd (p := (· != '"')) hpeek
    rw [advance_of_byte hb] at hstep
    cases hstep
    rw [ih, left_of_byte hb, List.takeWhile_cons_of_pos (p := (· != '"') ∘ Char.ofUInt8) hother,
      List.length_cons, List.map_cons, count_counting]
    simp only [Cursor.counting, Nat.add_right_comm _ 1]
    rfl
  | case2 c hpeek e c₁ hstep =>
    obtain ⟨b', hb, -⟩ := exists_byte_of_not_isAtEnd (p := (· != '"')) hpeek
    rw [advance_of_byte hb] at hstep
    cases hstep
  | case3 c hpeek =>
    cases hb : text.toByteArray[c.current]? with
    | none => rw [left_of_none hb]; rfl
    | some b' =>
      rw [not_isAtEnd_of_byte hb, peekAt_of_byte hb] at hpeek
      rw [left_of_byte hb, List.takeWhile_cons_of_neg (p := (· != '"') ∘ Char.ofUInt8) hpeek]
      rfl

section

variable {i l : Nat} {cs : List Char} {d : Char}

theorem toNat_lt_of_isDigit (h : d.isDigit = true) : d.toNat < 128 :=
  Nat.lt_of_le_of_lt (isDigit_iff.mp h).2 (by decide)

theorem toNat_lt_of_isLetter (h : IsLetter d) : d.toNat < 128 := by
  rcases h with ⟨-, hle⟩ | ⟨-, hle⟩ | rfl
  · exact Nat.lt_of_le_of_lt hle (by decide)
  · exact Nat.lt_of_le_of_lt hle (by decide)
  · decide

theorem bytewise_isDigit : Bytewise Char.isDigit := bytewise_of_lt fun _ => toNat_lt_of_isDigit

theorem bytewise_isNamePart : Bytewise isNamePart := by
  refine bytewise_of_lt fun c h => ?_
  rcases isNamePart_iff.mp h with hletter | hdigit
  · exact toNat_lt_of_isLetter hletter
  · exact toNat_lt_of_isDigit (isDigit_iff.mpr hdigit)

theorem bytewise_beq {b : Char} (hb : b.toNat < 128) : Bytewise (· == b) :=
  bytewise_of_lt fun _ h => beq_iff_eq.mp h ▸ hb

theorem not_isAtEnd_of_at {c : Cursor} (h : At text c.current (d :: cs)) :
    isAtEnd text c = false := by
  obtain ⟨b, -, hb⟩ := h.exists_byte
  exact not_isAtEnd_of_byte hb

/-- A test of the next byte is one of the next character. -/
theorem peekAt_at {p : Char → Bool} (hp : Bytewise p) (hend : p '\x00' = false) (h : At text i cs) :
    p (peekAt text i) = cs.head?.any p := by
  cases cs with
  | nil =>
    rw [peekAt, h.getElem?_nil]
    exact hend
  | cons d cs =>
    obtain ⟨b, hmem, hb⟩ := h.exists_byte
    rw [peekAt_of_byte hb]
    exact hp.of_mem hmem

/-- The next byte is the given one if the next character is. -/
theorem peekAt_beq {b : Char} (hb : 0 < b.toNat ∧ b.toNat < 128) (h : At text i cs) :
    (peekAt text i == b) = (cs.head? == some b) := by
  have hend : ('\x00' == b) = false := by
    rw [beq_eq_false_iff_ne]
    rintro rfl
    exact absurd hb.1 (by decide)
  rw [peekAt_at (p := (· == b)) (bytewise_beq hb.2) hend h]
  cases cs with
  | nil => rfl
  | cons d ds => exact Option.some_beq_some.symm

/-- A character below `0x80` is taken whole. -/
theorem advance_ascii {s : Nat} (h : At text i (d :: cs)) (hd : d.toNat < 128) :
    advance text ⟨s, i, l⟩ = .ok d ⟨s, i + 1, l⟩ := by
  obtain ⟨b, hmem, hb⟩ := h.exists_byte
  obtain ⟨hencode, hchar⟩ := utf8EncodeChar_ascii hd
  rw [hencode, List.mem_singleton] at hmem
  rw [advance_of_byte (c := ⟨s, i, l⟩) hb, hmem, hchar]

/-- Of another character a byte is taken that is not below `0x80` either. -/
theorem advance_large {s : Nat} (h : At text i (d :: cs)) (hd : ¬d.toNat < 128) :
    ∃ b : Char, ¬b.toNat < 128 ∧ advance text ⟨s, i, l⟩ = .ok b ⟨s, i + 1, l⟩ := by
  obtain ⟨b, hmem, hb⟩ := h.exists_byte
  exact ⟨_, le_of_mem_utf8EncodeChar hd hmem, advance_of_byte hb⟩

/-- A loop over bytes takes a run of characters. -/
theorem skipWhile_at {p : Char → Bool} (hp : Bytewise p) (hend : p '\x00' = false) (s : Nat)
    (h : At text i cs) :
    skipWhile text p ⟨s, i, l⟩ = .ok () ⟨s, i + (encode (cs.takeWhile p)).length, l⟩ := by
  rw [skipWhile_eq hend]
  show EStateM.Result.ok () (⟨s, i + (List.takeWhile _ (left text i)).length, l⟩ : Cursor) = _
  rw [left, h.drop, takeWhile_encode hp]

/-- The bytes of a string's characters are passed over, and their newlines counted. -/
theorem skipString_at (s : Nat) (h : At text i cs) :
    skipString text ⟨s, i, l⟩ = .ok ()
      ⟨s, i + (encode (cs.takeWhile (· != '"'))).length, l + (cs.takeWhile (· != '"')).count '\n'⟩ := by
  have hquote : Bytewise (· != '"') := bytewise_ne (by decide)
  have heq := @skipString_eq text ⟨s, i, l⟩
  simp only at heq
  rw [heq, left, h.drop, takeWhile_encode hquote, count_encode]

theorem takes_cons {b : Char} {s : Nat} (hb : 0 < b.toNat ∧ b.toNat < 128) (h : At text i (b :: cs)) :
    takes text b ⟨s, i, l⟩ = .ok true ⟨s, i + 1, l⟩ := by
  have htest : (!isAtEnd text ⟨s, i, l⟩ && peekAt text i == b) = true := by
    rw [not_isAtEnd_of_at h, peekAt_beq hb h, List.head?_cons, beq_self_eq_true]
    rfl
  unfold takes
  rw [get_bind, if_pos htest, bind_of_ok (advance_ascii h hb.2)]
  rfl

theorem takes_ne {b : Char} {c : Cursor} (hb : 0 < b.toNat ∧ b.toNat < 128) (h : At text c.current cs)
    (hne : cs.head? ≠ some b) : takes text b c = .ok false c := by
  unfold takes
  rw [get_bind, peekAt_beq hb h, beq_eq_false_iff_ne.mpr hne, Bool.and_false,
    if_neg Bool.false_ne_true]
  rfl

/-- The first newline byte stands where the first newline does. -/
theorem findIdx_newline (cs : List Char) :
    (encode cs).findIdx (Char.ofUInt8 · == '\n') = (encode (cs.takeWhile (· != '\n'))).length := by
  have hnot : (fun b => !((· != '\n') ∘ Char.ofUInt8) b) = (Char.ofUInt8 · == '\n') :=
    funext fun b => Bool.not_not _
  rw [← takeWhile_encode (bytewise_ne (by decide)), List.takeWhile_eq_take_findIdx_not, hnot,
    List.length_take, Nat.min_eq_left List.findIdx_le_length]

theorem lineEnd_at (h : At text i cs) :
    lineEnd text i (encode cs) = i + (encode (cs.takeWhile (· != '\n'))).length := by
  unfold lineEnd
  rw [← findIdx_newline, List.findIdx_eq_getD_findIdx?, ← h.add_length]
  cases (encode cs).findIdx? (Char.ofUInt8 · == '\n') <;> rfl

/-- A jump to the next newline byte passes over the characters of a line. -/
theorem skipLine_at {s : Nat} (h : At text i cs) :
    skipLine text ⟨s, i, l⟩ = .ok () ⟨s, i + (encode (cs.takeWhile (· != '\n'))).length, l⟩ := by
  have hwhole : At text i (cs ++ []) := (List.append_nil cs).symm ▸ h
  have hline : i + (encode (cs.takeWhile (· != '\n'))).length ≤ text.utf8ByteSize := by
    rw [← findIdx_newline, ← h.add_length]
    exact Nat.add_le_add_left List.findIdx_le_length i
  have hrest := hwhole.byteSlice ⟨s, i, l⟩
  rw [h.add_length] at hrest
  unfold skipLine
  rw [get_bind, bind_of_ok hrest]
  show moveTo text (lineEnd text i (encode cs)) ⟨s, i, l⟩ = _
  rw [lineEnd_at h, moveTo_eq (Nat.le_succ_of_le hline)]

end

end Scan

end LoxLang

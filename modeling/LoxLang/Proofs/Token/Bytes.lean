import LoxLang.Token.Cursor
import LoxLang.Proofs.Token.Ends

/-!
The bytes of characters. A character below `0x80` is its own byte, and no byte of another character is
below `0x80`; so a run of bytes of a kind that does not tell the others apart is a run of characters.
A slice is taken without a fault exactly where both of its ends are between characters. Main statements:
`takeWhile_encode`, `slice_eq_ok_iff`.
-/
namespace LoxLang

def encode (cs : List Char) : List UInt8 := cs.flatMap String.utf8EncodeChar

@[simp] theorem encode_nil : encode [] = [] := rfl

@[simp] theorem encode_cons (c : Char) (cs : List Char) :
    encode (c :: cs) = String.utf8EncodeChar c ++ encode cs := List.flatMap_cons

@[simp] theorem encode_append (as bs : List Char) : encode (as ++ bs) = encode as ++ encode bs :=
  List.flatMap_append

theorem encode_toList (text : String) : text.toByteArray.data.toList = encode text.toList := by
  rw [← String.utf8Encode_toList, List.utf8Encode, List.toList_data_toByteArray, encode]

theorem length_encode_toList (text : String) :
    (encode text.toList).length = text.utf8ByteSize := by
  rw [← encode_toList]
  rfl

section

variable {c : Char}

theorem utf8EncodeChar_ascii (h : c.toNat < 128) :
    String.utf8EncodeChar c = [c.toUInt8] ∧ Char.ofUInt8 c.toUInt8 = c := by
  have hle : c.val ≤ 127 := Nat.le_of_lt_succ h
  refine ⟨String.utf8EncodeChar_eq_singleton (Char.utf8Size_eq_one_iff.mpr hle), Char.ext ?_⟩
  refine UInt32.toNat_inj.mp ?_
  show c.val.toUInt8.toUInt32.toNat = c.val.toNat
  rw [UInt8.toNat_toUInt32, UInt32.toNat_toUInt8]
  exact Nat.mod_eq_of_lt (Nat.lt_trans h (by decide))

/-- The bytes of a character beyond `0x80` are all beyond `0x80`, so none is taken for another character. -/
theorem le_of_mem_utf8EncodeChar (h : ¬c.toNat < 128) {b : UInt8} (hb : b ∈ String.utf8EncodeChar c) :
    ¬(Char.ofUInt8 b).toNat < 128 := by
  have hbyte : (Char.ofUInt8 b).toNat = b.toNat := rfl
  rw [hbyte]
  have hlarge : ¬c.val.toNat ≤ 127 := fun hle => h (Nat.lt_succ_of_le hle)
  unfold String.utf8EncodeChar at hb
  simp only [if_neg hlarge] at hb
  split at hb
  · simp at hb
    rcases hb with rfl | rfl <;> simp <;> omega
  split at hb
  · simp at hb
    rcases hb with rfl | rfl | rfl <;> simp <;> omega
  · simp at hb
    rcases hb with rfl | rfl | rfl | rfl <;> simp <;> omega

end

theorem length_encode_cons {c : Char} (h : c.toNat < 128) (cs : List Char) :
    (encode (c :: cs)).length = (encode cs).length + 1 := by
  rw [encode_cons, (utf8EncodeChar_ascii h).1, List.singleton_append, List.length_cons]

/-- The kind does not tell characters from `0x80` on apart, for which bytes of others are taken. -/
def Bytewise (p : Char → Bool) : Prop :=
  ∀ c d : Char, ¬c.toNat < 128 → ¬d.toNat < 128 → p c = p d

section

variable {p : Char → Bool}

/-- A kind of characters below `0x80`. -/
theorem bytewise_of_lt (h : ∀ c, p c = true → c.toNat < 128) : Bytewise p := by
  have hfalse : ∀ c : Char, ¬c.toNat < 128 → p c = false := fun c hc =>
    Bool.eq_false_iff.mpr fun hp => hc (h c hp)
  exact fun c d hc hd => (hfalse c hc).trans (hfalse d hd).symm

/-- All characters but one below `0x80`. -/
theorem bytewise_ne {d : Char} (hd : d.toNat < 128) : Bytewise (· != d) := by
  have htrue : ∀ c : Char, ¬c.toNat < 128 → (c != d) = true := by
    intro c hc
    rw [bne_iff_ne]
    rintro rfl
    exact hc hd
  exact fun c c' hc hc' => (htrue c hc).trans (htrue c' hc').symm

/-- The bytes of a character are of the kinds that it is of. -/
theorem Bytewise.of_mem (hp : Bytewise p) {c : Char} {b : UInt8}
    (hb : b ∈ String.utf8EncodeChar c) : p (Char.ofUInt8 b) = p c := by
  by_cases hascii : c.toNat < 128
  · obtain ⟨hencode, hchar⟩ := utf8EncodeChar_ascii hascii
    rw [hencode] at hb
    rw [List.mem_singleton.mp hb, hchar]
  · exact hp _ _ (le_of_mem_utf8EncodeChar hascii hb) hascii

theorem takeWhile_utf8EncodeChar (hp : Bytewise p) (c : Char) (bs : List UInt8) :
    (String.utf8EncodeChar c ++ bs).takeWhile (p ∘ Char.ofUInt8) =
      if p c then String.utf8EncodeChar c ++ bs.takeWhile (p ∘ Char.ofUInt8) else [] := by
  split
  · next hc => exact List.takeWhile_append_of_pos fun b hb => (hp.of_mem hb).trans hc
  · next hc =>
    obtain ⟨b, bs', hencode⟩ := List.exists_cons_of_ne_nil (String.utf8EncodeChar_ne_nil (c := c))
    have hb : (p ∘ Char.ofUInt8) b = p c := hp.of_mem (hencode ▸ List.mem_cons_self)
    rw [hencode, List.cons_append, List.takeWhile_cons_of_neg (by rw [hb]; exact hc)]

/-- A run of bytes is a run of characters. -/
theorem takeWhile_encode (hp : Bytewise p) (cs : List Char) :
    (encode cs).takeWhile (p ∘ Char.ofUInt8) = encode (cs.takeWhile p) := by
  induction cs with
  | nil => rfl
  | cons c cs ih =>
    rw [encode_cons, takeWhile_utf8EncodeChar hp, ih, List.takeWhile_cons]
    split
    · rw [encode_cons]
    · rfl

end

/-- Newlines are counted by their bytes. -/
theorem count_encode (cs : List Char) :
    ((encode cs).map Char.ofUInt8).count '\n' = cs.count '\n' := by
  induction cs with
  | nil => rfl
  | cons c cs ih =>
    rw [encode_cons, List.map_append, List.count_append, ih, Nat.add_comm, List.count_cons]
    congr 1
    by_cases hascii : c.toNat < 128
    · obtain ⟨hencode, hchar⟩ := utf8EncodeChar_ascii hascii
      rw [hencode, List.map_singleton, hchar, List.count_singleton]
    · have hother : ∀ d : Char, ¬d.toNat < 128 → d ≠ '\n' := by
        rintro _ hd rfl
        exact hd (by decide)
      rw [if_neg (by simpa using hother c hascii), List.count_eq_zero]
      intro hmem
      obtain ⟨b, hb, heq⟩ := List.mem_map.mp hmem
      exact hother _ (le_of_mem_utf8EncodeChar hascii hb) heq

def At (text : String) (i : Nat) (cs : List Char) : Prop :=
  ∃ before, text.toList = before ++ cs ∧ i = (encode before).length

section

variable {text : String} {i j : Nat} {as cs : List Char}

theorem at_zero (text : String) : At text 0 text.toList := ⟨[], rfl, rfl⟩

theorem At.append (h : At text i (as ++ cs)) : At text (i + (encode as).length) cs := by
  obtain ⟨before, htext, rfl⟩ := h
  refine ⟨before ++ as, by rw [htext, List.append_assoc], ?_⟩
  rw [encode_append, List.length_append]

theorem At.succ {c : Char} (h : At text i (c :: cs)) (hc : c.toNat < 128) : At text (i + 1) cs := by
  have hnext : At text (i + (encode [c]).length) cs := At.append h
  rw [encode_cons, (utf8EncodeChar_ascii hc).1] at hnext
  exact hnext

theorem At.add_length (h : At text i cs) : i + (encode cs).length = text.utf8ByteSize := by
  obtain ⟨before, htext, rfl⟩ := h
  rw [← length_encode_toList, htext, encode_append, List.length_append]

theorem At.le (h : At text i cs) : i ≤ text.utf8ByteSize := by
  rw [← h.add_length]
  exact Nat.le_add_right _ _

theorem At.drop (h : At text i cs) : text.toByteArray.data.toList.drop i = encode cs := by
  obtain ⟨before, htext, rfl⟩ := h
  rw [encode_toList, htext, encode_append, List.drop_left]

theorem getElem?_toByteArray (text : String) (i : Nat) :
    text.toByteArray[i]? = text.toByteArray.data.toList[i]? := by
  rw [Array.getElem?_toList]
  by_cases h : i < text.toByteArray.size
  · rw [getElem?_pos text.toByteArray i h, getElem?_pos text.toByteArray.data i h]
    rfl
  · rw [getElem?_neg text.toByteArray i h, getElem?_neg text.toByteArray.data i h]

/-- At the place of a character stands one of its bytes. -/
theorem At.exists_byte {c : Char} (h : At text i (c :: cs)) :
    ∃ b ∈ String.utf8EncodeChar c, text.toByteArray[i]? = some b := by
  obtain ⟨b, bs, hencode⟩ := List.exists_cons_of_ne_nil (String.utf8EncodeChar_ne_nil (c := c))
  refine ⟨b, hencode ▸ List.mem_cons_self, ?_⟩
  rw [getElem?_toByteArray, ← List.head?_drop, h.drop, encode_cons, hencode]
  rfl

theorem At.getElem?_nil (h : At text i []) : text.toByteArray[i]? = none := by
  rw [getElem?_toByteArray, ← List.head?_drop, h.drop]
  rfl

/-- The place of characters is one between characters. -/
theorem At.isValid (h : At text i cs) : String.Pos.Raw.isValid text ⟨i⟩ = true := by
  obtain ⟨before, htext, rfl⟩ := h
  refine String.Pos.Raw.isValid_eq_true_iff.mpr (String.Pos.Raw.isValid_iff_exists_append.mpr ?_)
  refine ⟨String.ofList before, String.ofList cs, ?_, ?_⟩
  · rw [← String.ofList_append, ← htext, String.ofList_toList]
  · rw [String.Pos.Raw.ext_iff]
    show (encode before).length = (String.ofList before).utf8ByteSize
    rw [← length_encode_toList, String.toList_ofList]

/-- The bytes between two places of characters are those of the characters between them. -/
theorem At.extract (h : At text i (as ++ cs)) :
    (text.toByteArray.extract i (i + (encode as).length)).data.toList = encode as := by
  rw [ByteArray.data_extract, Array.toList_extract, List.extract_eq_take_drop, h.drop, encode_append,
    Nat.add_sub_cancel_left, List.take_left]

theorem At.slice (h : At text i (as ++ cs)) (c : Cursor) :
    Scan.slice text i (i + (encode as).length) c = .ok (String.ofList as) c := by
  unfold Scan.slice
  rw [dif_pos ⟨Nat.le_add_right _ _, h.isValid, h.append.isValid⟩]
  refine congrArg (EStateM.Result.ok · c) (String.toByteArray_inj.mp (ByteArray.ext ?_))
  refine Array.toList_inj.mp ?_
  rw [String.toByteArray_extract, encode_toList, String.toList_ofList]
  exact h.extract

theorem At.byteSlice (h : At text i (as ++ cs)) (c : Cursor) :
    Scan.byteSlice text i (i + (encode as).length) c = .ok (encode as) c := by
  unfold Scan.byteSlice
  rw [if_pos ⟨Nat.le_add_right _ _, h.append.le⟩]
  exact congrArg (EStateM.Result.ok · c) h.extract

theorem exists_at_of_isValid (h : String.Pos.Raw.isValid text ⟨i⟩ = true) : ∃ cs, At text i cs := by
  obtain ⟨before, after, rfl, hi⟩ :=
    String.Pos.Raw.isValid_iff_exists_append.mp (String.Pos.Raw.isValid_eq_true_iff.mp h)
  refine ⟨after.toList, before.toList, String.toList_append, ?_⟩
  rw [length_encode_toList]
  exact congrArg String.Pos.Raw.byteIdx hi

/-- Of two places of characters the later one is reached over characters. -/
theorem At.exists_append {ds : List Char} (h : At text i cs) (h' : At text j ds) (hle : i ≤ j) :
    ∃ as, cs = as ++ ds := by
  obtain ⟨before, htext, rfl⟩ := h
  obtain ⟨before', htext', rfl⟩ := h'
  rw [htext] at htext'
  rcases List.append_eq_append_iff.mp htext' with ⟨as, -, hcs⟩ | ⟨as, hbefore, hds⟩
  · exact ⟨as, hcs⟩
  · rw [hbefore, encode_append, List.length_append] at hle
    have hnil : as = [] := by
      cases as with
      | nil => rfl
      | cons a as =>
        rw [encode_cons, List.length_append, String.length_utf8EncodeChar] at hle
        have := Char.utf8Size_pos a
        omega
    exact ⟨[], by rw [hds, hnil]; rfl⟩

def Between (text part : String) (i j : Nat) : Prop :=
  ∃ before after, text = before ++ part ++ after ∧ i = before.utf8ByteSize ∧
    j = i + part.utf8ByteSize

/-- A slice is taken where a part of the text lies, and nowhere else. -/
theorem slice_eq_ok_iff {s : String} {c c' : Cursor} :
    Scan.slice text i j c = .ok s c' ↔ c' = c ∧ Between text s i j := by
  constructor
  · intro h
    have hvalid : i ≤ j ∧ String.Pos.Raw.isValid text ⟨i⟩ = true ∧
        String.Pos.Raw.isValid text ⟨j⟩ = true := by
      by_contra hnot
      unfold Scan.slice at h
      rw [dif_neg hnot] at h
      cases h
    obtain ⟨cs, hi⟩ := exists_at_of_isValid hvalid.2.1
    obtain ⟨ds, hj⟩ := exists_at_of_isValid hvalid.2.2
    obtain ⟨as, rfl⟩ := hi.exists_append hj hvalid.1
    have hsize := hi.add_length
    have hsize' := hj.add_length
    rw [encode_append, List.length_append] at hsize
    have hj' : j = i + (encode as).length := by omega
    rw [hj', hi.slice] at h
    cases h
    obtain ⟨before, htext, hi'⟩ := hi
    refine ⟨rfl, String.ofList before, String.ofList ds, ?_, ?_, ?_⟩
    · rw [← String.ofList_append, ← String.ofList_append, List.append_assoc, ← htext,
        String.ofList_toList]
    · rw [← length_encode_toList, String.toList_ofList, hi']
    · rw [← length_encode_toList, String.toList_ofList, hj']
  · rintro ⟨rfl, before, after, rfl, rfl, rfl⟩
    have hplace : At (before ++ s ++ after) before.utf8ByteSize (s.toList ++ after.toList) :=
      ⟨before.toList, by rw [String.toList_append, String.toList_append, List.append_assoc],
        (length_encode_toList before).symm⟩
    have hslice := hplace.slice c'
    rwa [length_encode_toList, String.ofList_toList] at hslice

example : Scan.slice "é" 1 2 .initial = .error (.slice 1 2) .initial := by rfl

end

end LoxLang

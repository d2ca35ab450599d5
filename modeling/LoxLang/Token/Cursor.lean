import LoxLang.Token.Source

/-!
Reading a program text by its bytes. A cursor goes over the bytes of a text, and what is read is cut out
of the text between two places of the cursor. Each access is checked: a byte that is not there, a slice
that does not start and end between characters and a place beyond the end are faults. Bytes are taken
for the characters with their numbers, so that a byte below `0x80` is the character that it encodes.
-/
namespace LoxLang

inductive Fault
  | byte (index : Nat)
  /-- The ends are not in order, or one of them is out of range or inside of a character. -/
  | slice (start stop : Nat)
  /-- The cursor would be more than one place beyond the end. -/
  | place (index : Nat)
  deriving DecidableEq, Repr

structure Cursor where
  start : Nat
  current : Nat
  line : Nat
  deriving DecidableEq, Repr

abbrev Scan := EStateM Fault Cursor

namespace Cursor

def initial : Cursor := ⟨0, 0, 1⟩

def counting (c : Cursor) (b : Char) : Cursor :=
  { c with line := if b = '\n' then c.line + 1 else c.line }

end Cursor

namespace Scan

variable (text : String)

def slice (i j : Nat) : Scan String :=
  if h : i ≤ j ∧ String.Pos.Raw.isValid text ⟨i⟩ = true ∧ String.Pos.Raw.isValid text ⟨j⟩ = true then
    return text.extract ⟨⟨i⟩, String.Pos.Raw.isValid_eq_true_iff.mp h.2.1⟩
      ⟨⟨j⟩, String.Pos.Raw.isValid_eq_true_iff.mp h.2.2⟩
  else
    throw (.slice i j)

def byteSlice (i j : Nat) : Scan (List UInt8) :=
  if i ≤ j ∧ j ≤ text.utf8ByteSize then return (text.toByteArray.extract i j).data.toList
  else throw (.slice i j)

def moveTo (i : Nat) : Scan Unit :=
  if i ≤ text.utf8ByteSize + 1 then modify fun c => { c with current := i } else throw (.place i)

def advance : Scan Char := do
  let i := (← get).current
  match text.toByteArray[i]? with
  | some b =>
    moveTo text (i + 1)
    return Char.ofUInt8 b
  | none => throw (.byte i)

def peekAt (i : Nat) : Char := Char.ofUInt8 (text.toByteArray[i]?.getD 0)

def isAtEnd (c : Cursor) : Bool := text.utf8ByteSize ≤ c.current

def takes (b : Char) : Scan Bool := do
  let c ← get
  if !isAtEnd text c && peekAt text c.current == b then
    let _ ← advance text
    return true
  else
    return false

def Forward {α : Type} (x : Scan α) : Prop :=
  ∀ c a c', x c = .ok a c' → c.current ≤ c'.current

section

variable {α β : Type}

theorem bind_eq_ok {x : Scan α} {f : α → Scan β} {c c₂ : Cursor} {b : β}
    (h : (x >>= f) c = .ok b c₂) : ∃ a c₁, x c = .ok a c₁ ∧ f a c₁ = .ok b c₂ := by
  simp only [bind, EStateM.bind] at h
  split at h
  · exact ⟨_, _, ‹_›, h⟩
  · cases h

theorem Forward.bind {x : Scan α} {f : α → Scan β} (hx : Forward x) (hf : ∀ a, Forward (f a)) :
    Forward (x >>= f) := by
  intro c b c₂ h
  obtain ⟨a, c₁, hfirst, hrest⟩ := bind_eq_ok h
  exact Nat.le_trans (hx c a c₁ hfirst) (hf a c₁ b c₂ hrest)

theorem forward_pure (a : α) : Forward (pure a) := by
  rintro c a c' ⟨⟩
  exact Nat.le_refl _

theorem forward_get : Forward get := by
  rintro c a c' ⟨⟩
  exact Nat.le_refl _

theorem forward_slice (i j : Nat) : Forward (slice text i j) := by
  unfold slice
  split
  · exact forward_pure _
  · exact nofun

theorem forward_byteSlice (i j : Nat) : Forward (byteSlice text i j) := by
  unfold byteSlice
  split
  · exact forward_pure _
  · exact nofun

theorem of_moveTo {i : Nat} {c c' : Cursor} {u : Unit} (h : moveTo text i c = .ok u c') :
    c' = { c with current := i } := by
  unfold moveTo at h
  split at h
  · cases h
    rfl
  · cases h

/-- A byte is taken only where there is one. -/
theorem of_advance {c c' : Cursor} {b : Char} (h : advance text c = .ok b c') :
    c.current < text.utf8ByteSize ∧ c' = { c with current := c.current + 1 } := by
  obtain ⟨_, _, ⟨⟩, h⟩ := bind_eq_ok h
  cases hb : text.toByteArray[c.current]? with
  | none =>
    simp only [hb] at h
    cases h
  | some b' =>
    simp only [hb] at h
    obtain ⟨_, c₁, hmove, ⟨⟩⟩ := bind_eq_ok h
    obtain ⟨hlt, -⟩ := getElem?_eq_some_iff.mp hb
    exact ⟨hlt, of_moveTo text hmove⟩

theorem forward_advance : Forward (advance text) := by
  intro c b c' h
  rw [(of_advance text h).2]
  exact Nat.le_succ _

theorem forward_takes (b : Char) : Forward (takes text b) := by
  refine forward_get.bind fun c => ?_
  split
  · exact (forward_advance text).bind fun _ => forward_pure true
  · exact forward_pure false

end

def skipWhile (p : Char → Bool) (c : Cursor) : EStateM.Result Fault Cursor Unit :=
  if p (peekAt text c.current) then
    match _h : advance text c with
    | .ok _ c' => skipWhile p c'
    | .error e c' => .error e c'
  else
    .ok () c
termination_by text.utf8ByteSize - c.current
decreasing_by
  obtain ⟨hlt, rfl⟩ := of_advance text _h
  simp only
  omega

def skipString (c : Cursor) : EStateM.Result Fault Cursor Unit :=
  if !isAtEnd text c && peekAt text c.current != '"' then
    match _h : advance text c with
    | .ok b c' => skipString (c'.counting b)
    | .error e c' => .error e c'
  else
    .ok () c
termination_by text.utf8ByteSize - c.current
decreasing_by
  obtain ⟨hlt, rfl⟩ := of_advance text _h
  simp only [Cursor.counting]
  omega

theorem forward_skipWhile (p : Char → Bool) : Forward (skipWhile text p) := by
  intro c u c' h
  fun_induction skipWhile text p c with
  | case1 c hp b c₁ hstep ih =>
    obtain ⟨-, rfl⟩ := of_advance text hstep
    exact Nat.le_of_succ_le (ih h)
  | case2 c hp e c₁ hstep => cases h
  | case3 c hp =>
    cases h
    exact Nat.le_refl _

theorem forward_skipString : Forward (skipString text) := by
  intro c u c' h
  fun_induction skipString text c with
  | case1 c hp b c₁ hstep ih =>
    obtain ⟨-, rfl⟩ := of_advance text hstep
    exact Nat.le_of_succ_le (ih h)
  | case2 c hp e c₁ hstep => cases h
  | case3 c hp =>
    cases h
    exact Nat.le_refl _

def lineEnd (i : Nat) (rest : List UInt8) : Nat :=
  match rest.findIdx? (Char.ofUInt8 · == '\n') with
  | some k => i + k
  | none => text.utf8ByteSize

def skipLine : Scan Unit := do
  let c ← get
  let rest ← byteSlice text c.current text.utf8ByteSize
  moveTo text (lineEnd text c.current rest)

/-- Going to the end of a line does not take the cursor back. -/
theorem forward_skipLine : Forward (skipLine text) := by
  intro c u c' h
  obtain ⟨_, _, ⟨⟩, h⟩ := bind_eq_ok h
  obtain ⟨rest, c₁, hslice, h⟩ := bind_eq_ok h
  rw [of_moveTo text h]
  unfold byteSlice at hslice
  split at hslice
  · next hin =>
    cases hslice
    simp only [lineEnd]
    split
    · exact Nat.le_add_right _ _
    · exact hin.1
  · cases hslice

def string : Scan Element := do
  skipString text
  if isAtEnd text (← get) then return .unterminatedString
  let _ ← advance text
  let c ← get
  let content ← slice text (c.start + 1) (c.current - 1)
  return .token (.string content)

def numberOf (digits : String) : Float :=
  Number.ofDigits (digits.toList.takeWhile (· != '.')) (digits.toList.dropWhile (· != '.')).tail

def numberToken : Scan Element := do
  let c ← get
  let digits ← slice text c.start c.current
  return .token (.number (numberOf digits))

def number : Scan Element := do
  skipWhile text Char.isDigit
  let c ← get
  if peekAt text c.current == '.' && (peekAt text (c.current + 1)).isDigit then
    let _ ← advance text
    skipWhile text Char.isDigit
  numberToken text

def wordKind (bytes : List UInt8) : TokenKind :=
  match Keyword.all.find? (·.spelling.toByteArray.data.toList == bytes) with
  | some k => .keyword k
  | none => .identifier

def word : Scan Element := do
  skipWhile text Piece.isNamePart
  let c ← get
  return .token (wordKind (← byteSlice text c.start c.current))

def symbol (s : Symbol) : Scan Element := do
  match Piece.withEqual? s with
  | some t => return .token (.symbol (if ← takes text '=' then t else s))
  | none => return .token (.symbol s)

def slash : Scan Element := do
  if ← takes text '/' then
    skipLine text
    return .blank
  else
    return .token (.symbol .slash)

/-- After a byte that starts no element: all of its character is passed over. -/
def unrecognized : Scan Element := do
  let c ← get
  let rest ← slice text c.start text.utf8ByteSize
  let d := rest.toList.head?.getD '\ufffd'
  moveTo text (c.start + d.utf8Size)
  return .unrecognized d

section

variable {text}

theorem forward_string : Forward (string text) := by
  refine (forward_skipString text).bind fun _ => forward_get.bind fun c => ?_
  split
  · exact forward_pure _
  · refine (forward_advance text).bind fun _ => forward_get.bind fun c => ?_
    exact (forward_slice text _ _).bind fun _ => forward_pure _

theorem forward_numberToken : Forward (numberToken text) :=
  forward_get.bind fun _ => (forward_slice text _ _).bind fun _ => forward_pure _

theorem forward_number : Forward (number text) := by
  refine (forward_skipWhile text _).bind fun _ => forward_get.bind fun c => ?_
  split
  · exact (forward_advance text).bind fun _ => (forward_skipWhile text _).bind fun _ =>
      forward_numberToken
  · exact forward_numberToken

theorem forward_word : Forward (word text) :=
  (forward_skipWhile text _).bind fun _ => forward_get.bind fun _ =>
    (forward_byteSlice text _ _).bind fun _ => forward_pure _

theorem forward_symbol (s : Symbol) : Forward (symbol text s) := by
  unfold symbol
  split
  · exact (forward_takes text '=').bind fun _ => forward_pure _
  · exact forward_pure _

theorem forward_slash : Forward (slash text) := by
  refine (forward_takes text '/').bind fun isComment => ?_
  split
  · exact (forward_skipLine text).bind fun _ => forward_pure _
  · exact forward_pure _

theorem lt_of_unrecognized {c c' : Cursor} {e : Element} (h : unrecognized text c = .ok e c') :
    c.start < c'.current := by
  obtain ⟨_, _, ⟨⟩, h⟩ := bind_eq_ok h
  obtain ⟨rest, c₁, hslice, h⟩ := bind_eq_ok h
  obtain ⟨_, c₂, hmove, ⟨⟩⟩ := bind_eq_ok h
  rw [of_moveTo text hmove]
  exact Nat.lt_add_of_pos_right (Char.utf8Size_pos _)

end

def elementAfter (b : Char) : Scan Element :=
  if Piece.isNameStart b then word text
  else if b.isDigit then number text
  else if b = '\n' then do
    modify (·.counting b)
    return .blank
  else if Piece.isBlank b then return .blank
  else if b = '"' then string text
  else if b = '/' then slash text
  else
    match Piece.symbolOf? b with
    | some s => symbol text s
    | none => unrecognized text

def element : Scan Element := do
  let b ← advance text
  elementAfter text b

/-- Each element takes at least one byte. -/
theorem lt_of_element {c c' : Cursor} {e : Element} (hstart : c.start = c.current)
    (h : element text c = .ok e c') : c.current < c'.current := by
  obtain ⟨b, c₁, hbyte, h⟩ := bind_eq_ok h
  obtain ⟨-, rfl⟩ := of_advance text hbyte
  have hforward : ∀ {x : Scan Element}, Forward x →
      x { c with current := c.current + 1 } = .ok e c' → c.current < c'.current :=
    fun hx h => hx _ _ _ h
  unfold elementAfter at h
  split at h
  · exact hforward forward_word h
  split at h
  · exact hforward forward_number h
  split at h
  · obtain ⟨_, _, ⟨⟩, ⟨⟩⟩ := bind_eq_ok h
    exact Nat.lt_succ_self _
  split at h
  · cases h
    exact Nat.lt_succ_self _
  split at h
  · exact hforward forward_string h
  split at h
  · exact hforward forward_slash h
  cases hs : Piece.symbolOf? b with
  | some s =>
    simp only [hs] at h
    exact hforward (forward_symbol s) h
  | none =>
    simp only [hs] at h
    have hlt := lt_of_unrecognized h
    rw [← hstart]
    exact hlt

def itemOf (e : Element) : Scan (Option Item) := do
  let c ← get
  match e with
  | .blank => return none
  | .token kind => return some (.token ⟨kind, ← slice text c.start c.current, c.line⟩)
  | .unterminatedString => return some (.error ⟨c.line, .unterminatedString⟩)
  | .unrecognized d => return some (.error ⟨c.line, .unrecognized d⟩)

theorem forward_itemOf (e : Element) : Forward (itemOf text e) := by
  refine forward_get.bind fun c => ?_
  split
  · exact forward_pure _
  · exact (forward_slice text _ _).bind fun _ => forward_pure _
  · exact forward_pure _
  · exact forward_pure _

def pass : Scan (Option Item) := do
  let c ← get
  if c.current = text.utf8ByteSize then
    moveTo text (c.current + 1)
    return some (.token ⟨.eof, "", c.line⟩)
  else
    set { c with start := c.current }
    let e ← element text
    itemOf text e

/-- Every round takes the cursor forward. -/
theorem lt_of_pass {c c' : Cursor} {item : Option Item} (h : pass text c = .ok item c') :
    c.current < c'.current := by
  obtain ⟨_, _, ⟨⟩, h⟩ := bind_eq_ok h
  split at h
  · obtain ⟨_, _, hmove, ⟨⟩⟩ := bind_eq_ok h
    rw [of_moveTo text hmove]
    exact Nat.lt_succ_self _
  · obtain ⟨_, _, ⟨⟩, h⟩ := bind_eq_ok h
    obtain ⟨e, c₁, helement, h⟩ := bind_eq_ok h
    have hlt := lt_of_element text rfl helement
    exact Nat.lt_of_lt_of_le hlt (forward_itemOf text e _ _ _ h)

def next (c : Cursor) : EStateM.Result Fault Cursor (Option Item) :=
  if c.current ≤ text.utf8ByteSize then
    match _h : pass text c with
    | .ok none c' => next c'
    | .ok (some item) c' => .ok (some item) c'
    | .error e c' => .error e c'
  else
    .ok none c
termination_by text.utf8ByteSize + 1 - c.current
decreasing_by
  have := lt_of_pass text _h
  omega

def calls : Nat → Scan (List (Option Item))
  | 0 => return []
  | n + 1 => do
    let item ← next text
    return item :: (← calls n)

end Scan

end LoxLang

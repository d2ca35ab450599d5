/-!
Bytes as UTF-8 text. Reading stops at the first byte that cannot continue a character, so what is
wrong is known with its place and length. Strict reading reports it; lossy reading puts one
replacement character for each wrong sequence.
-/
namespace LoxLang.Text.Utf8

inductive Error
  /-- The `length` bytes from `index` on start no character. -/
  | invalid (length index : Nat)
  /-- The bytes from `index` on are the start of a character that the end cuts off. -/
  | incomplete (index : Nat)
  deriving DecidableEq, Repr

def Error.message : Error → String
  | invalid length index =>
    "invalid utf-8 sequence of " ++ toString length ++ " bytes from index " ++ toString index
  | incomplete index => "incomplete utf-8 byte sequence from index " ++ toString index

inductive Front
  | char (c : Char) (rest : List UInt8)
  | invalid (length : Nat) (rest : List UInt8)
  | incomplete

/-- The `n` bytes that complete a character of which `count` bytes are read; the first of them lies
between `low` and `high`. -/
def complete (code count : Nat) : Nat → UInt8 → UInt8 → List UInt8 → Front
  | 0, _, _, rest => .char (Char.ofNat code) rest
  | _ + 1, _, _, [] => .incomplete
  | n + 1, low, high, b :: rest =>
    if low ≤ b && b ≤ high then
      complete (code * 64 + (b.toNat - 0x80)) (count + 1) n 0x80 0xBF rest
    else
      .invalid count (b :: rest)

/-- The character that starts with the byte `b`. The second byte is bounded so that no character
has two spellings, none is a surrogate, and none lies beyond the last one. -/
def front (b : UInt8) (rest : List UInt8) : Front :=
  if b < 0x80 then .char (Char.ofNat b.toNat) rest
  else if b < 0xC2 then .invalid 1 rest
  else if b < 0xE0 then complete (b.toNat - 0xC0) 1 1 0x80 0xBF rest
  else if b < 0xF0 then
    let low := if b = 0xE0 then 0xA0 else 0x80
    let high := if b = 0xED then 0x9F else 0xBF
    complete (b.toNat - 0xE0) 1 2 low high rest
  else if b < 0xF5 then
    let low := if b = 0xF0 then 0x90 else 0x80
    let high := if b = 0xF4 then 0x8F else 0xBF
    complete (b.toNat - 0xF0) 1 3 low high rest
  else .invalid 1 rest

def Front.rest : Front → List UInt8
  | char _ rest | invalid _ rest => rest
  | incomplete => []

theorem length_rest_complete (code count n : Nat) (low high : UInt8) (bytes : List UInt8) :
    (complete code count n low high bytes).rest.length ≤ bytes.length := by
  fun_induction complete code count n low high bytes with
  | case1 => exact Nat.le_refl _
  | case2 => exact Nat.zero_le _
  | case3 code count n low high b rest h ih => exact Nat.le_succ_of_le ih
  | case4 => exact Nat.le_refl _

theorem length_rest_front (b : UInt8) (rest : List UInt8) :
    (front b rest).rest.length ≤ rest.length := by
  unfold front
  repeat' split
  all_goals first | exact Nat.le_refl _ | exact length_rest_complete ..

def decodeFrom (index : Nat) (out : String) : List UInt8 → Except Error String
  | [] => .ok out
  | b :: bytes =>
    match _h : front b bytes with
    | .char c rest => decodeFrom (index + c.utf8Size) (out.push c) rest
    | .invalid length _ => .error (.invalid length index)
    | .incomplete => .error (.incomplete index)
termination_by bytes => bytes.length
decreasing_by
  have := length_rest_front b bytes
  simp only [_h, Front.rest] at this
  exact Nat.lt_succ_of_le this

def decode (bytes : List UInt8) : Except Error String := decodeFrom 0 "" bytes

def lossyFrom (out : String) : List UInt8 → String
  | [] => out
  | b :: bytes =>
    match _h : front b bytes with
    | .char c rest => lossyFrom (out.push c) rest
    | .invalid _ rest => lossyFrom (out.push '\ufffd') rest
    | .incomplete => out.push '\ufffd'
termination_by bytes => bytes.length
decreasing_by
  all_goals
    have := length_rest_front b bytes
    simp only [_h, Front.rest] at this
    exact Nat.lt_succ_of_le this

def lossy (bytes : ByteArray) : String := lossyFrom "" bytes.toList

end LoxLang.Text.Utf8

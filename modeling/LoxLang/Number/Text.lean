import LoxLang.Number.Shortest

/-!
How a double is written. The digits are the shortest that read back; a `Layout` decides where an
exponent is used, whether a whole number ends in `.0`, and which way a tie of two shortest decimals
goes.
-/
namespace LoxLang.Number

structure Layout where
  positional : Int → Bool
  wholeEnding : String
  tie : Tie

def zeros (n : Nat) : String := "".pushn '0' n

def Layout.positionalText (layout : Layout) (digits : String) (point : Int) : String :=
  if point ≤ 0 then
    "0." ++ zeros (-point).toNat ++ digits
  else if point < digits.length then
    let ds := digits.toList
    String.ofList (ds.take point.toNat) ++ "." ++ String.ofList (ds.drop point.toNat)
  else
    digits ++ zeros (point.toNat - digits.length) ++ layout.wholeEnding

def exponentText (digits : String) (point : Int) : String :=
  let mantissa :=
    match digits.toList with
    | d :: e :: rest => String.ofList (d :: '.' :: e :: rest)
    | short => String.ofList short
  let exponent := point - 1
  mantissa ++ (if 0 ≤ exponent then "e+" else "e-") ++ toString exponent.natAbs

def Layout.positiveText (layout : Layout) (mantissa : Nat) (exponent : Int) : String :=
  let d := shortest layout.tie mantissa exponent
  let digits := toString d.digits
  let point := digits.length + d.exponent
  if layout.positional point then layout.positionalText digits point
  else exponentText digits point

def Layout.finiteText (layout : Layout) (negative : Bool) (mantissa : Nat) (exponent : Int) :
    String :=
  let magnitude :=
    if mantissa = 0 then "0" ++ layout.wholeEnding else layout.positiveText mantissa exponent
  if negative then "-" ++ magnitude else magnitude

/-- Numbers as `print` shows them: never an exponent, whole numbers without a point. -/
def Layout.plain : Layout where
  positional _ := true
  wholeEnding := ""
  tie := .up

/-- Numbers in JSON: an exponent below `1e-5` and from `1e16` on, a point everywhere else. -/
def Layout.json : Layout where
  positional point := -5 < point && point ≤ 16
  wholeEnding := ".0"
  tie := .toEven

def infinityText (negative : Bool) : String := if negative then "-inf" else "inf"

def valueText (x : Float) : String :=
  match Binary.ofFloat x with
  | .nan => "NaN"
  | .infinite negative => infinityText negative
  | .finite negative m e => Layout.plain.finiteText negative m e

def treeText (x : Float) : String :=
  match Binary.ofFloat x with
  | .nan => "NaN"
  | .infinite negative => infinityText negative
  | .finite negative m e =>
    match Binary.whole? m e with
    | some n => (if negative then "-" else "") ++ toString n ++ ".0"
    | none => Layout.plain.finiteText negative m e

def listedWholeBound : Nat := Nat.pow 10 15

/-- The text of a number in a list of tokens: a whole number below `10 ^ 15` has one decimal,
and zero has no sign. -/
def tokenText (x : Float) : String :=
  match Binary.ofFloat x with
  | .finite negative m e =>
    match Binary.whole? m e with
    | some n =>
      if n < listedWholeBound then
        (if negative && n != 0 then "-" else "") ++ toString n ++ ".0"
      else Layout.plain.finiteText negative m e
    | none => Layout.plain.finiteText negative m e
  | _ => valueText x

def jsonText (x : Float) : String :=
  match Binary.ofFloat x with
  | .finite negative m e => Layout.json.finiteText negative m e
  | _ => "null"

example : valueText 1e21 = "1000000000000000000000" := by decide +kernel

example : valueText (-1e-7) = "-0.0000001" := by decide +kernel

example : treeText 1e23 = "99999999999999991611392.0" := by decide +kernel

example : tokenText (-0.0) = "0.0" ∧ tokenText 1e15 = "1000000000000000" := by decide +kernel

example : jsonText 1e-5 = "0.00001" ∧ jsonText 1e-6 = "1e-6" ∧ jsonText 1e16 = "1e+16" := by
  decide +kernel

def ofDigits (whole fraction : List Char) : Float :=
  let value := (whole ++ fraction).foldl (fun n c => 10 * n + (c.toNat - '0'.toNat)) 0
  Float.ofScientific value true fraction.length

end LoxLang.Number

import ScriptFold.Number.Shortest

/-!
Numbers as text. Both styles write the shortest digits that read back; they differ in where they
leave positional form, and in the texts of zero and infinity.
-/

namespace ScriptFold

structure NumberStyle where
  /-- Whether a number with its decimal point here, counted from the first digit, is written
  without an exponent. -/
  positional : Int → Bool
  infinity : String
  /-- Whether the zero below zero keeps its sign. -/
  signedZero : Bool

/-- The style of number-to-string conversion in ECMAScript: positional from `1e-6` up to `1e21`. -/
def NumberStyle.ecmaScript : NumberStyle where
  positional point := -6 < point && point ≤ 21
  infinity := "Infinity"
  signedZero := false

/-- The style of number literals in rendered source: always positional. -/
def NumberStyle.source : NumberStyle where
  positional _ := true
  infinity := "inf"
  signedZero := true

namespace Decimal

def zeros (n : Nat) : List Char :=
  List.replicate n '0'

def positionalText (d : Decimal) : List Char :=
  let digits := Nat.toDigits 10 d.digits
  let point := d.point
  if d.exponent ≥ 0 then digits ++ zeros d.exponent.toNat
  else if point > 0 then digits.take point.toNat ++ '.' :: digits.drop point.toNat
  else '0' :: '.' :: zeros (-point).toNat ++ digits

def exponentText (d : Decimal) : List Char :=
  let exponent := d.point - 1
  let tail := 'e' :: (if exponent < 0 then '-' else '+') :: Nat.toDigits 10 exponent.natAbs
  match Nat.toDigits 10 d.digits with
  | [] => tail
  | [digit] => digit :: tail
  | digit :: rest => digit :: '.' :: rest ++ tail

end Decimal

def NumberStyle.text (style : NumberStyle) (x : Float) : String :=
  let sign := if isNegative x then "-" else ""
  if x.isNaN then "NaN"
  else if !x.isFinite then sign ++ style.infinity
  else if x == 0 then (if style.signedZero then sign else "") ++ "0"
  else
    let d := (Binary.ofFloat x).shortest
    sign ++ String.ofList
      (if style.positional d.point then d.positionalText else d.exponentText)

def numberToString (x : Float) : String :=
  NumberStyle.ecmaScript.text x

end ScriptFold

import ScriptFold.Text.Blank
import ScriptFold.Number.Shortest

/-!
Reading numbers from text, as ECMAScript converts strings to numbers: decimal literals, the words
for infinity, and literals of radix sixteen, eight and two, with blanks around them. Any other
text gives NaN.
-/

namespace ScriptFold

/-- A decimal literal: `± digits * 10 ^ exponent`. -/
structure DecimalLiteral where
  negative : Bool
  value : Decimal
  deriving DecidableEq

namespace Numeral

/-- The number a digit stands for, letters counting from ten. -/
def digit? (radix : Nat) (c : Char) : Option Nat :=
  let n := c.toNat
  let value? :=
    if '0' ≤ c && c ≤ '9' then some (n - '0'.toNat)
    else if 'a' ≤ c && c ≤ 'z' then some (n - 'a'.toNat + 10)
    else if 'A' ≤ c && c ≤ 'Z' then some (n - 'A'.toNat + 10)
    else none
  value?.filter fun value => value < radix

def digits (s : List Char) : List Char × List Char :=
  (s.takeWhile Char.isDigit, s.dropWhile Char.isDigit)

def natOf (s : List Char) : Nat :=
  s.foldl (fun n c => 10 * n + (c.toNat - '0'.toNat)) 0

def sign : List Char → Bool × List Char
  | '-' :: rest => (true, rest)
  | '+' :: rest => (false, rest)
  | s => (false, s)

def fraction : List Char → List Char × List Char
  | '.' :: rest => digits rest
  | s => ([], s)

/-- An exponent that ends the text; nothing left counts as exponent zero. -/
def exponent? : List Char → Option Int
  | [] => some 0
  | mark :: rest =>
    let (negative, rest) := sign rest
    let (places, rest) := digits rest
    if (mark == 'e' || mark == 'E') && !places.isEmpty && rest.isEmpty then
      some (if negative then -(natOf places : Int) else natOf places)
    else none

def decimal? (s : List Char) : Option DecimalLiteral :=
  let (negative, s) := sign s
  let (whole, s) := digits s
  let (part, s) := fraction s
  if whole.isEmpty && part.isEmpty then none
  else (exponent? s).map fun e => ⟨negative, natOf (whole ++ part), e - part.length⟩

def radix? : List Char → Option (Nat × List Char)
  | '0' :: mark :: rest =>
    if mark == 'x' || mark == 'X' then some (16, rest)
    else if mark == 'o' || mark == 'O' then some (8, rest)
    else if mark == 'b' || mark == 'B' then some (2, rest)
    else none
  | _ => none

/-- The value of digits in a radix, rounded after every digit; NaN without digits or with a
character that is no digit of the radix. -/
def radixValue (radix : Nat) (s : List Char) : Float :=
  if s.isEmpty then 0 / 0
  else
    match s.mapM (digit? radix) with
    | none => 0 / 0
    | some values => values.foldl (fun x d => x * Float.ofNat radix + Float.ofNat d) 0

end Numeral

/-- The double nearest to a decimal. Beyond the range of doubles it is infinite or zero. -/
def Decimal.toFloat (d : Decimal) : Float :=
  if d.digits = 0 || d.point < -330 then 0
  else if d.point > 310 then 1 / 0
  else Float.ofScientific d.digits (d.exponent < 0) d.exponent.natAbs

def DecimalLiteral.toFloat (d : DecimalLiteral) : Float :=
  if d.negative then -d.value.toFloat else d.value.toFloat

/-- The number into which ECMAScript converts a text. -/
def stringToNumber (text : String) : Float :=
  let s := trimBlanks text.toList
  if s.isEmpty then 0
  else
    match Numeral.radix? s with
    | some (radix, digits) => Numeral.radixValue radix digits
    | none =>
      let (negative, rest) := Numeral.sign s
      if rest = "Infinity".toList then (if negative then -(1 / 0) else 1 / 0)
      else
        match Numeral.decimal? s with
        | some d => d.toFloat
        | none => 0 / 0

end ScriptFold

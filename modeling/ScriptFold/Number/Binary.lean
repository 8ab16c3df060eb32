/-!
Finite doubles as exact numbers. A double is taken apart into a sign, a natural mantissa and a
power of two; integer parts and remainders are then computed without rounding.
-/

namespace ScriptFold

/-- The number `± mantissa * 2 ^ exponent`. -/
structure Binary where
  negative : Bool
  mantissa : Nat
  exponent : Int
  deriving DecidableEq

namespace Binary

/-- The parts of a finite double. Infinities and NaN have no parts: test for them first. -/
def ofFloat (x : Float) : Binary :=
  let bits := x.toBits.toNat
  let exponent : Nat := bits / Nat.pow 2 52 % Nat.pow 2 11
  let fraction : Nat := bits % Nat.pow 2 52
  { negative := bits / Nat.pow 2 63 = 1
    mantissa := if exponent = 0 then fraction else Nat.pow 2 52 + fraction
    exponent := if exponent = 0 then -1074 else (exponent : Int) - 1075 }

/-- The double with a given value, for a mantissa below `2 ^ 53` and an exponent of at least
`-1074` that keep it in range. -/
def toFloat (b : Binary) : Float :=
  let shift := min (52 - b.mantissa.log2) (b.exponent + 1074).toNat
  let mantissa := b.mantissa * Nat.pow 2 shift
  let exponent := (b.exponent + 1075 - shift).toNat
  let magnitude :=
    if mantissa < Nat.pow 2 52 then mantissa
    else exponent * Nat.pow 2 52 + (mantissa - Nat.pow 2 52)
  Float.ofBits (.ofNat (magnitude + if b.negative then Nat.pow 2 63 else 0))

def truncate (b : Binary) : Int :=
  let magnitude := b.mantissa * Nat.pow 2 b.exponent.toNat / Nat.pow 2 (-b.exponent).toNat
  if b.negative then -magnitude else magnitude

def isInteger (b : Binary) : Bool :=
  b.mantissa % Nat.pow 2 (-b.exponent).toNat = 0

def remainder (a b : Binary) : Binary :=
  let exponent := min a.exponent b.exponent
  let dividend := a.mantissa * Nat.pow 2 (a.exponent - exponent).toNat
  let divisor := b.mantissa * Nat.pow 2 (b.exponent - exponent).toNat
  { negative := a.negative, mantissa := dividend % divisor, exponent := exponent }

end Binary

/-- The integer equal to a double, if there is one; both zeros equal `0`. -/
def integer? (x : Float) : Option Int :=
  let b := Binary.ofFloat x
  if x.isFinite && b.isInteger then some b.truncate else none

def isNegative (x : Float) : Bool :=
  x.toBits.toNat / Nat.pow 2 63 = 1

/-- The remainder of a division that truncates towards zero: it has the sign of the dividend, and
is NaN when there is no quotient. -/
def remainder (x y : Float) : Float :=
  if !x.isFinite || y.isNaN || y == 0 then 0 / 0
  else if !y.isFinite then x
  else ((Binary.ofFloat x).remainder (Binary.ofFloat y)).toFloat

end ScriptFold

import ScriptFold.Number.Binary

/-!
The fewest decimal digits that read back as a given double.

The reals that round to `m * 2 ^ q` form an interval around it, whose ends belong to it exactly
when `m` is even. For one digit, two digits, and so on, the two decimals of that length next to
the value are tested against the interval; the first length with a hit wins, and of two hits the
nearer one.
-/

namespace ScriptFold

/-- The number `digits * 10 ^ exponent`. -/
structure Decimal where
  digits : Nat
  exponent : Int
  deriving DecidableEq, Repr

namespace Decimal

def compareBinary (d : Decimal) (m : Nat) (q : Int) : Ordering :=
  compare (d.digits * Nat.pow 10 d.exponent.toNat * Nat.pow 2 (-q).toNat)
    (m * Nat.pow 2 q.toNat * Nat.pow 10 (-d.exponent).toNat)

def length (n : Nat) : Nat :=
  (Nat.toDigits 10 n).length

def normalize (d : Decimal) : Decimal :=
  go (length d.digits) d
where
  go : Nat → Decimal → Decimal
    | 0, d => d
    | fuel + 1, d =>
      if d.digits % 10 = 0 then go fuel ⟨d.digits / 10, d.exponent + 1⟩ else d

def point (d : Decimal) : Int :=
  length d.digits + d.exponent

end Decimal

namespace Binary

/-- Whether the double below is only half as far away as the double above. -/
def narrowBelow (b : Binary) : Bool :=
  b.mantissa = Nat.pow 2 52 && b.exponent > -1074

/-- Whether `d` is one of the reals that round to the magnitude of `b`, to nearest and with ties
to even. -/
def readsBack (b : Binary) (d : Decimal) : Bool :=
  let low := d.compareBinary (4 * b.mantissa - if b.narrowBelow then 1 else 2) (b.exponent - 2)
  let high := d.compareBinary (4 * b.mantissa + 2) (b.exponent - 2)
  let even := b.mantissa % 2 = 0
  (low = .gt || even && low = .eq) && (high = .lt || even && high = .eq)

def floorAt (b : Binary) (e : Int) : Nat :=
  b.mantissa * Nat.pow 2 b.exponent.toNat * Nat.pow 10 (-e).toNat
    / (Nat.pow 2 (-b.exponent).toNat * Nat.pow 10 e.toNat)

/-- The power of ten of the leading digit of a non-zero double, which is never below `-324`. -/
def leadingPlace (b : Binary) : Int :=
  (Decimal.length (b.floorAt (-324)) : Int) - 1 - 324

def isNearerBelow (b : Binary) (n : Nat) (e : Int) : Bool :=
  (Decimal.mk (2 * n + 1) e).compareBinary (2 * b.mantissa) b.exponent = .gt

/-- The neighbour of the magnitude on the grid of `10 ^ e` that reads back; of two the nearer, and
the upper one if both are equally near. -/
def onGrid? (b : Binary) (e : Int) : Option Decimal :=
  let n := b.floorAt e
  let below : Decimal := ⟨n, e⟩
  let above : Decimal := ⟨n + 1, e⟩
  match b.readsBack below, b.readsBack above with
  | true, true => some (if b.isNearerBelow n e then below else above)
  | true, false => some below
  | false, true => some above
  | false, false => none

def toDecimal (b : Binary) : Decimal :=
  ⟨b.mantissa * Nat.pow 2 b.exponent.toNat * Nat.pow 5 (-b.exponent).toNat, min b.exponent 0⟩

def shortest (b : Binary) : Decimal :=
  let place := b.leadingPlace
  let found := (List.range 17).findSome? fun (n : Nat) => b.onGrid? (place - n)
  (found.getD b.toDecimal).normalize

end Binary

end ScriptFold

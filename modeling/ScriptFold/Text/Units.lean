/-!
UTF-16 code units: the units in which ECMAScript measures, indexes and orders strings.
-/

namespace ScriptFold

/-- The code units of a character: one, or two surrogates for a character above U+FFFF. -/
def charUnits (c : Char) : List Nat :=
  let n := c.toNat
  if n < 0x10000 then [n]
  else [0xD800 + (n - 0x10000) / 0x400, 0xDC00 + (n - 0x10000) % 0x400]

def units (s : String) : List Nat :=
  s.toList.flatMap charUnits

def charOfUnit? (unit : Nat) : Option Char :=
  if 0xD800 ≤ unit && unit < 0xE000 then none else some (Char.ofNat unit)

/-- The order of strings by code units, which is not their order by code points. -/
def unitsLess (a b : String) : Bool :=
  units a < units b

end ScriptFold

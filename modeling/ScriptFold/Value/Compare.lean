import ScriptFold.Value.Basic

/-!
Equality and order of values.
-/

namespace ScriptFold

namespace Value

def isNullish : Value → Bool
  | .undefined | .null => true
  | _ => false

/-- Equality without conversion. No array equals another. -/
def strictEquals : Value → Value → Bool
  | .undefined, .undefined => true
  | .null, .null => true
  | .bool a, .bool b => a == b
  | .number a, .number b => a == b
  | .string a, .string b => a == b
  | _, _ => false

/-- Equality with conversion. `undefined` and `null` equal each other and nothing else; an array
is compared with a string by its text; any other two values of different types are compared as
numbers. -/
def looseEquals : Value → Value → Bool
  | .undefined, b | .null, b => b.isNullish
  | _, .undefined | _, .null => false
  | .bool a, .bool b => a == b
  | .string a, .string b => a == b
  | .array _, .array _ => false
  | .array items, .string b => toText (.array items) == b
  | .string a, .array items => a == toText (.array items)
  | a, b => a.toNumber == b.toNumber

/-- Whether one value is less than another, in the order of code units for two strings and of
numbers otherwise; nothing if either number is NaN. -/
def less? (a b : Value) : Option Bool :=
  match a.toPrimitive, b.toPrimitive with
  | .string a, .string b => some (unitsLess a b)
  | a, b =>
    let (a, b) := (a.toNumber, b.toNumber)
    if a.isNaN || b.isNaN then none else some (a < b)

end Value

end ScriptFold

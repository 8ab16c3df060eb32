import ScriptFold.Value.Compare
import ScriptFold.Number.Word
import ScriptFold.Syntax.Operator

/-!
What operators make of values.
-/

namespace ScriptFold

namespace Value

/-- Concatenation if either operand is a string once objects are gone, and addition otherwise. -/
def add (a b : Value) : Value :=
  match a.toPrimitive, b.toPrimitive with
  | .string a, b => .string (a ++ b.toText)
  | a, .string b => .string (a.toText ++ b)
  | a, b => .number (a.toNumber + b.toNumber)

end Value

/-- The value of a unary expression. Deleting a value always succeeds. -/
def UnaryOp.evaluate (op : UnaryOp) (v : Value) : Value :=
  match op with
  | .minus => .number (-v.toNumber)
  | .plus => .number v.toNumber
  | .not => .bool !v.toBoolean
  | .bitNot => .number (ofInt32 (~~~toInt32 v.toNumber))
  | .typeof => .string v.typeName
  | .void => .undefined
  | .delete => .bool true

/-- The value of a binary expression; nothing for `**` and for operators on objects. -/
def BinaryOp.evaluate? (op : BinaryOp) (a b : Value) : Option Value :=
  let number (f : Float → Float → Float) : Option Value :=
    some (.number (f a.toNumber b.toNumber))
  let bits (f : Int32 → Int32 → Int32) : Option Value :=
    some (.number (ofInt32 (f (toInt32 a.toNumber) (toInt32 b.toNumber))))
  let places : UInt32 := toUint32 b.toNumber &&& 31
  match op with
  | .eq => some (.bool (a.looseEquals b))
  | .notEq => some (.bool !a.looseEquals b)
  | .strictEq => some (.bool (a.strictEquals b))
  | .strictNotEq => some (.bool !a.strictEquals b)
  | .lt => some (.bool (a.less? b == some true))
  | .ltEq => some (.bool (b.less? a == some false))
  | .gt => some (.bool (b.less? a == some true))
  | .gtEq => some (.bool (a.less? b == some false))
  | .shl => some (.number (ofInt32 (toUint32 a.toNumber <<< places).toInt32))
  | .shr => some (.number (ofInt32 (toInt32 a.toNumber >>> places.toInt32)))
  | .ushr => some (.number (ofUint32 (toUint32 a.toNumber >>> places)))
  | .add => some (a.add b)
  | .sub => number (· - ·)
  | .mul => number (· * ·)
  | .div => number (· / ·)
  | .mod => number remainder
  | .bitOr => bits (· ||| ·)
  | .bitXor => bits (· ^^^ ·)
  | .bitAnd => bits (· &&& ·)
  | .exp | .isIn | .instanceOf => none

end ScriptFold

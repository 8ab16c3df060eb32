import ScriptFold.Text.Quoted
import ScriptFold.Text.Units
import ScriptFold.Number.Text
import ScriptFold.Number.Numeral

/-!
JavaScript values known before a program runs, and their conversions.
-/

namespace ScriptFold

/-- A value. An array is always a new object, and `none` among its items is a hole. -/
inductive Value where
  | undefined
  | null
  | bool (value : Bool)
  | number (value : Float)
  | string (value : String)
  | array (items : List (Option Value))
  deriving Inhabited

namespace Value

def toBoolean : Value → Bool
  | .undefined | .null => false
  | .bool b => b
  | .number x => !(x.isNaN || x == 0)
  | .string s => !s.isEmpty
  | .array _ => true

mutual

/-- The text of a value. An array joins its items by commas; holes and items without a value are
empty. -/
def toText : Value → String
  | .undefined => "undefined"
  | .null => "null"
  | .bool b => if b then "true" else "false"
  | .number x => numberToString x
  | .string s => s
  | .array items => ",".intercalate (itemTexts items)

def itemTexts : List (Option Value) → List String
  | [] => []
  | item :: rest => itemText item :: itemTexts rest

def itemText : Option Value → String
  | none | some .undefined | some .null => ""
  | some v => toText v

end

def toNumber : Value → Float
  | .undefined => 0 / 0
  | .null => 0
  | .bool b => if b then 1 else 0
  | .number x => x
  | .string s => stringToNumber s
  | .array items => stringToNumber (toText (.array items))

def toPrimitive : Value → Value
  | .array items => .string (toText (.array items))
  | v => v

def typeName : Value → String
  | .undefined => "undefined"
  | .null | .array _ => "object"
  | .bool _ => "boolean"
  | .number _ => "number"
  | .string _ => "string"

def length? : Value → Option Nat
  | .string s => some (units s).length
  | .array items => some items.length
  | _ => none

def shown (v : Value) : String :=
  match v with
  | .string s => shownText s
  | .array _ => "[" ++ v.toText ++ "]"
  | v => v.toText

end Value

end ScriptFold

import ScriptFold.Fold.State
import ScriptFold.Fold.Position
import ScriptFold.Number.Word

/-!
The rule on member access: a string key that is a name becomes one, and length and elements of
constant strings and arrays are looked up.
-/

namespace ScriptFold

def isIdentifierName (text : String) : Bool :=
  let isStart (c : Char) : Bool := c == '$' || c == '_' || c.isAlpha
  match text.toList with
  | [] => false
  | c :: rest => isStart c && rest.all fun c => isStart c || c.isDigit

namespace Value

def arrayIndex? (key : Value) : Option Nat :=
  let text := key.toText
  let number := stringToNumber text
  -- `01` and `1.0` name no position
  if numberToString number = text then (integer? number).bind Int.toNat? else none

/-- The element of a string or array at a key. A surrogate is no string, and a hole no element. -/
def element? (object key : Value) : Option Value := do
  let index ← key.arrayIndex?
  match object with
  | .string text =>
    let c ← charOfUnit? (← (units text)[index]?)
    return .string (String.singleton c)
  | .array items => items[index]?.join
  | _ => none

end Value

def Tree.isReferenceTarget (t : Tree) (path : Path) : Bool :=
  match path.key?, path.parent?.bind t.nodeAt? with
  | some (.field .left), some (.assignmentExpression ..) => true
  | some (.field .left), some (.forInStatement ..) => true
  | some (.field .argument), some (.updateExpression ..) => true
  | some (.field .argument), some (.unaryExpression .delete _) => true
  | _, _ => false

/-- Whether a path leads to the whole expression of a statement that would be a directive if it
were a string. -/
def Tree.isWholeDirective (t : Tree) (path : Path) : Bool :=
  match path with
  | .child statement (.field .expression) _ =>
    ((t.nodeAt? statement).any fun node => node.kind = .expressionStatement)
      && t.inDirectivePosition statement
  | _ => false

namespace FoldM

def nameKey? (tree : Tree) (key : NodeId) : Option String :=
  (tree.node key).string?.filter isIdentifierName

def memberValue? (object : Value) (prop : NodeId) (computed : Bool) : FoldM (Option Value) := do
  if computed then
    return (← constant? prop).bind object.element?
  else
    match ← node prop with
    | .identifier "length" =>
      return object.length?.map fun length => .number (ofLength length)
    | _ => return none

/-- Folds a member access that is a statement where directives stand. A string must not become
one: a single character out of a longer object is written as `"c"[0]`. -/
def foldOutsidePrologue (path : Path) (object result : Value) : FoldM (Option Path) := do
  match result with
  | .string text =>
    if object.length?.all (· ≤ 1) || (units text).length ≠ 1 then return none
    let first ← toConst result
    let index ← toConst (.number 0)
    let member ← alloc (.memberExpression first index true)
    return some (← replace path member)
  | _ => return some (← replace path (← toConst result))

/-- Folds a member access. One that is assigned, updated or deleted is only renamed. -/
def foldMember (path : Path) : FoldM (Option Path) := do
  let tree ← getTree
  let some id := path.node? | return none
  let .memberExpression object prop computed := tree.node id | return none
  -- the key becomes a name first, also of what is assigned or deleted
  if computed then
    if let some name := nameKey? tree prop then
      let key ← alloc (.identifier name)
      modifyNode id fun _ => .memberExpression object key false
      return some path
  if tree.isReferenceTarget path then return none
  let some value ← constant? object | return none
  let some result ← memberValue? value prop computed | return none
  if tree.isWholeDirective path then foldOutsidePrologue path value result
  else return some (← replace path (← toConst result))

end FoldM

end ScriptFold

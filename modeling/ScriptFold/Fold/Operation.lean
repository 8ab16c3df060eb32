import ScriptFold.Fold.State
import ScriptFold.Value.Operator

/-!
Rules that evaluate: operators on constants, and boolean constants in their shortest form.
-/

namespace ScriptFold

def Value.isUnboundedNumber : Value → Bool
  | .number x => !x.isFinite
  | _ => false

def Value.isInfinite : Value → Bool
  | .number x => x.isInf
  | _ => false

namespace FoldM

/-- Writes `null` for an operand `void 0` of `==` and `!=`, which treat the two alike. -/
def nullifyOperand (path : Path) (field : Field) (operand : NodeId) : FoldM Bool := do
  if (← get).isUndefined operand then
    write path.value (.field field) (some (← store Store.null))
  else return false

/-- Evaluates a binary operator on constants. A result that is no finite number stays an
expression, and so does the shared node `0 / 0`. -/
def foldBinary (path : Path) : FoldM (Option Path) := do
  let tree ← getTree
  let some id := path.node? | return none
  let .binaryExpression operator left right := tree.node id | return none
  if tree.isFrozen id then return none
  if operator = .eq || operator = .notEq then
    let leftChanged ← nullifyOperand path .left left
    let rightChanged ← nullifyOperand path .right right
    -- the operands are evaluated when the path is walked again
    if leftChanged || rightChanged then return some path
  let leftValue ← constant? left
  let rightValue ← constant? right
  match leftValue, rightValue with
  | some a, some b =>
    let some result := operator.evaluate? a b | return none
    if result.isUnboundedNumber then return none
    return some (← replace path (← toConst result))
  | _, _ => return none

/-- Evaluates a unary operator on a constant. Constants such as `-1` are left as they are, and so
is an expression with an infinite value. -/
def foldUnary (path : Path) : FoldM (Option Path) := do
  let some id := path.node? | return none
  let .unaryExpression operator argument ← node id | return none
  -- constants such as `-1` and `void 0` are in their final form
  if ← isConstant id then return none
  let some value ← constant? argument | return none
  let result := operator.evaluate value
  if result.isInfinite then return none
  return some (← replace path (← toConst result))

def minifyBoolean (path : Path) : FoldM (Option Path) := do
  let some id := path.node? | return none
  if ((← getTree).flags id).minified then return none
  let some (.bool b) ← constant? id | return none
  return some (← replace path (← store fun s => s.minifiedBool b))

end FoldM

end ScriptFold

import ScriptFold.Fold.Statement

/-!
Rules on choices: a branch whose test is constant is taken, and an `if` becomes an expression
where that shows nowhere.
-/

namespace ScriptFold

namespace FoldM

def foldConditional (path : Path) : FoldM (Option Path) := do
  let some (.conditionalExpression test consequent alternate) := (← getTree).nodeAt? path
    | return none
  let some value ← constant? test | return none
  return some (← replace path (if value.toBoolean then consequent else alternate))

def foldLogical (path : Path) : FoldM (Option Path) := do
  let some (.logicalExpression operator left right) := (← getTree).nodeAt? path | return none
  let some value ← constant? left | return none
  let decided :=
    match operator with
    | .or => value.toBoolean
    | .and => !value.toBoolean
  return some (← replace path (if decided then left else right))

/-- The expression equal to an `if` whose branches are expressions: `?:` for two branches, and
`&&` for one where the value of the statement does not matter. -/
def ifExpression? (tree : Tree) (valueMatters : Bool) (test consequent : NodeId)
    (alternate : Option NodeId) : Option (Node NodeId) := do
  let thenExpression ← (tree.node consequent).expression?
  match alternate with
  | some alternate =>
    let elseExpression ← (tree.node alternate).expression?
    return .conditionalExpression test thenExpression elseExpression
  | none =>
    guard !valueMatters
    return .logicalExpression .and test thenExpression

def normalizeConsequent (path : Path) (consequent : NodeId) : FoldM Bool := do
  let s ← get
  if s.isEmptyStatement consequent || !(s.tree.node consequent).isEmptyStatement then return false
  write path.value (.field .consequent) (some (← emptyStatement))

def dropEmptyAlternate (path : Path) (alternate : Option NodeId) : FoldM Bool := do
  let tree ← getTree
  if alternate.any fun alternate => (tree.node alternate).isEmptyStatement then
    write path.value (.field .alternate) none
  else return false

/-- Turns an `if` into an expression or into the branch it takes, or tidies its branches. -/
def foldIf (path : Path) : FoldM (Option Path) := do
  let tree ← getTree
  let some (.ifStatement test consequent alternate) := tree.nodeAt? path | return none
  let valueMatters := tree.isCompletion path
  -- nothing is chosen here, but the test may do something
  if !valueMatters && alternate.isNone && (tree.node consequent).isEmptyStatement then
    return some (← replace path (← expressionStatement test))
  if let some expression := ifExpression? tree valueMatters test consequent alternate then
    return some (← replace path (← expressionStatement (← alloc expression)))
  if let some value ← constant? test then
    if value.toBoolean then return some (← replace path consequent)
    let branch ← alternate.elim emptyStatement pure
    return some (← replace path branch)
  let consequentChanged ← normalizeConsequent path consequent
  let alternateChanged ← dropEmptyAlternate path alternate
  return if consequentChanged || alternateChanged then some path else none

end FoldM

end ScriptFold

import ScriptFold.Fold.State
import ScriptFold.Fold.Position

/-!
Rules on lists of statements: what follows a jump is dropped, neighbouring expression statements
become one, and statements that do nothing go.
-/

namespace ScriptFold

/-- Statements after which the rest of their list does not run. -/
def Node.isJump {α : Type} : Node α → Bool
  | .returnStatement _ | .breakStatement _ | .continueStatement _ | .throwStatement _ => true
  | _ => false

/-- Statements that take effect without being reached. -/
def Node.isHoisted {α : Type} : Node α → Bool
  | .functionDeclaration .. | .variableDeclaration _ .var => true
  | _ => false

def Node.expression? {α : Type} : Node α → Option α
  | .expressionStatement expression _ => some expression
  | _ => none

namespace FoldM

/-- Takes a slot out of its list; the path then leads to the entry that moved up. -/
def removeFromList (path : Path) : FoldM Path := do
  remove path
  return path.refresh (← getTree)

/-- Drops the statements after a jump, except declarations that are hoisted. -/
def dropUnreachable (path : Path) : FoldM (Option Path) := do
  let tree ← getTree
  let some node := tree.nodeAt? path | return none
  unless node.isJump do return none
  let some (list, index) := path.listSlot? | return none
  let some items := tree.listItems? list.value | return none
  let tail := items.drop (index + 1)
  let kept := (tail.filterMap id).filter fun statement => (tree.node statement).isHoisted
  if kept.length = tail.length then return none
  splice list.value (index + 1) items.length kept
  return some path

def expressionRun (tree : Tree) (items : List (Option NodeId)) : List NodeId :=
  match items with
  | some statement :: rest =>
    match (tree.node statement).expression? with
    | some expression => expression :: expressionRun tree rest
    | none => []
  | _ => []

def sequenceItems (tree : Tree) (expression : NodeId) : List NodeId :=
  match tree.node expression with
  | .sequenceExpression expressions => expressions
  | _ => [expression]

def mergeRun (path : Path) : FoldM (Option Path) := do
  let tree ← getTree
  let some (list, index) := path.listSlot? | return none
  let some items := tree.listItems? list.value | return none
  let run := expressionRun tree (items.drop index)
  if run.length < 2 then return none
  let sequence ← alloc (.sequenceExpression (run.flatMap (sequenceItems tree)))
  let statement ← expressionStatement sequence
  splice list.value index (index + run.length) [statement]
  -- the path leads to the new statement now
  return some (path.refresh (← getTree))

/-- Merges a run of expression statements, or drops a constant one whose value nobody sees. A
directive stays as it is. -/
def foldExpressionStatement (path : Path) : FoldM (Option Path) := do
  let tree ← getTree
  let some expression := (tree.nodeAt? path).bind Node.expression? | return none
  if tree.isDirective path then return none
  if let some retry ← mergeRun path then return some retry
  if tree.isCompletion path then return none
  unless ← isConstant expression do return none
  if path.listSlot?.isSome then return some (← removeFromList path)
  return some (← replace path (← emptyStatement))

def dropEmptyStatement (path : Path) : FoldM (Option Path) := do
  let some node := (← getTree).nodeAt? path | return none
  unless node.isEmptyStatement && path.listSlot?.isSome do return none
  return some (← removeFromList path)

end FoldM

end ScriptFold

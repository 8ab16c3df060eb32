import ScriptFold.Fold.State

/-!
Rules on loops: a loop that never runs goes, and heads and empty bodies are tidied.
-/

namespace ScriptFold

namespace FoldM

def normalizeBody (path : Path) (body : NodeId) : FoldM Bool := do
  let s ← get
  if s.isEmptyStatement body || !(s.tree.node body).isEmptyStatement then return false
  write path.value (.field .body) (some (← emptyStatement))

/-- The statement left of a `for` that never runs: what its head does once. Declarations scoped
to the loop leave none. -/
def headStatement? (init : Option NodeId) : FoldM (Option NodeId) := do
  match init with
  | none => return some (← emptyStatement)
  | some init =>
    match ← node init with
    | .variableDeclaration _ .var => return some init
    | .variableDeclaration .. => return none
    | _ => return some (← expressionStatement init)

def clearConstant (path : Path) (field : Field) (child : Option NodeId) : FoldM Bool := do
  match child with
  | none => return false
  | some child =>
    if ← isConstant child then write path.value (.field field) none else return false

/-- Drops a test that always holds, and writes one that never holds as `false`. -/
def normalizeTest (path : Path) (value : Option Value) : FoldM Bool := do
  match value with
  | none | some (.bool false) => return false
  | some value =>
    if value.toBoolean then write path.value (.field .test) none
    else write path.value (.field .test) (some (← toConst (.bool false)))

def foldFor (path : Path) (init test update : Option NodeId) (body : NodeId) :
    FoldM (Option Path) := do
  let value ← test.elim (pure none) constant?
  if value.any fun value => !value.toBoolean then
    -- declarations scoped to the loop keep it, and then it is tidied like any other
    if let some statement ← headStatement? init then
      return some (← replace path statement)
  let bodyChanged ← normalizeBody path body
  let initChanged ← clearConstant path .init init
  let testChanged ← normalizeTest path value
  let updateChanged ← clearConstant path .update update
  return if bodyChanged || initChanged || testChanged || updateChanged then some path else none

/-- Removes a loop that never runs, or tidies its head and body. -/
def foldLoop (path : Path) : FoldM (Option Path) := do
  match (← getTree).nodeAt? path with
  | some (.doWhileStatement body _) =>
    return if ← normalizeBody path body then some path else none
  | some (.whileStatement test body) =>
    if (← constant? test).any fun value => !value.toBoolean then
      return some (← replace path (← emptyStatement))
    return if ← normalizeBody path body then some path else none
  | some (.forStatement init test update body) => foldFor path init test update body
  | _ => return none

end FoldM

end ScriptFold

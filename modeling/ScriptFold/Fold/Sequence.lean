import ScriptFold.Fold.State

/-!
The rule on sequences: constants before the last item go, and a sequence of one item is that item.
-/

namespace ScriptFold

def Tree.isCallee (t : Tree) (path : Path) : Bool :=
  match path.parent?.bind t.nodeAt?, path.key? with
  | some (.callExpression ..), some (.field .callee) => true
  | _, _ => false

def Tree.isDeleted (t : Tree) (path : Path) : Bool :=
  match path.parent?.bind t.nodeAt?, path.key? with
  | some (.unaryExpression .delete _), some (.field .argument) => true
  | _, _ => false

/-- Whether a node in the slot of a path would be a reference there and not just a value: the
callee of a method call, a direct `eval`, or something that `delete` removes. -/
def Tree.isReferenceAt (t : Tree) (path : Path) (id : NodeId) : Bool :=
  match t.node id with
  | .memberExpression .. => t.isCallee path || t.isDeleted path
  | .identifier name => t.isDeleted path || t.isCallee path && name == "eval"
  | _ => false

namespace FoldM

/-- Drops constants of a sequence other than its last item. One constant is kept where the last
item alone would become a reference. -/
def foldSequence (path : Path) : FoldM (Option Path) := do
  let s ← get
  let some id := path.node? | return none
  let .sequenceExpression expressions := s.tree.node id | return none
  let some last := expressions.getLast? | return none
  let leading := expressions.dropLast
  if leading.isEmpty then return some (← replace path last)
  let kept := leading.filter fun expression => !s.isConstant expression
  -- the last item alone would be the callee of a method call, or be deleted
  if kept.isEmpty && s.tree.isReferenceAt path last then
    if leading.length = 1 then return none
    let first ← toConst (.number 0)
    modifyNode id fun _ => .sequenceExpression [first, last]
    return some path
  if kept.length = leading.length then return none
  if kept.isEmpty then return some (← replace path last)
  modifyNode id fun _ => .sequenceExpression (kept ++ [last])
  return some path

end FoldM

end ScriptFold

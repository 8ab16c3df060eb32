import ScriptFold.Tree.Path

/-!
What the position of a statement tells: whether it can supply the completion value of the program,
and whether a string statement there would be a directive.
-/

namespace ScriptFold

def Path.listSlot? : Path → Option (Path × Nat)
  | .child parent (.index index) _ => if parent.isList then some (parent, index) else none
  | _ => none

namespace Tree

def lastIndex? (t : Tree) (list : Ref) : Option Nat :=
  (t.listLength? list).bind fun length => if length = 0 then none else some (length - 1)

/-- Whether a step leads to anything but an entry of a list that is not its last. -/
def isLastStep (t : Tree) (parent : Path) (key : Key) : Bool :=
  !parent.isList || key.index? = t.lastIndex? parent.value

/-- Whether the nearest node from a path upwards supplies the completion value of a program: it is
one, or it is the last statement on the way up to one, with no function in between. -/
def reachesProgram (t : Tree) : Path → Bool
  | .root value => value.node?.any fun id => (t.node id).kind = .program
  | .child parent key value =>
    match value with
    | .list .. => t.reachesProgram parent
    | .null => t.isLastStep parent key && t.reachesProgram parent
    | .node id =>
      match t.node id with
      | .program _ => true
      | node => !node.isFunction && t.isLastStep parent key && t.reachesProgram parent

def isCompletion (t : Tree) : Path → Bool
  | .root _ => false
  | .child parent key _ => t.isLastStep parent key && t.reachesProgram parent

def isStringStatement (t : Tree) (id : NodeId) : Bool :=
  match t.node id with
  | .expressionStatement expression _ => (t.node expression).string?.isSome
  | _ => false

def isMarkedDirective (t : Tree) (id : NodeId) : Bool :=
  match t.node id with
  | .expressionStatement _ (some _) => t.isStringStatement id
  | _ => false

/-- The list around a path, if directives may stand at its head: the body of a program, or of the
block that is the body of a function. -/
def prologueList? (t : Tree) (p : Path) : Option Path := do
  let list ← p.parent?
  guard list.isList
  let owner ← list.parent?
  match ← t.nodeAt? owner with
  | .program _ => return list
  | .blockStatement _ => do
    let function ← t.nodeAt? (← owner.parent?)
    guard (owner.key? = some (.field .body) && function.isFunction)
    return list
  | _ => none

/-- Whether only string statements stand before a path in a list that may start with directives,
so that a string statement there would be one. -/
def inDirectivePosition (t : Tree) (p : Path) : Bool :=
  match t.prologueList? p, p.index? with
  | some list, some index =>
    match t.listItems? list.value with
    | some items => (items.take index).all fun item => item.any t.isStringStatement
    | none => false
  | _, _ => false

def isDirective (t : Tree) (p : Path) : Bool :=
  p.node?.any t.isMarkedDirective && t.inDirectivePosition p

end Tree

end ScriptFold

import ScriptFold.Tree.Edit

/-!
Paths: the way from a root to a slot, with what was found at each step. A path is a record of the
tree as it was read; `refresh` reads its last step again.
-/

namespace ScriptFold

inductive Path where
  | root (value : Ref)
  | child (parent : Path) (key : Key) (value : Ref)
  deriving DecidableEq, Inhabited

namespace Path

/-- The path that starts and ends at a node. -/
def ofNode (id : NodeId) : Path :=
  .root (.node id)

def value : Path → Ref
  | .root value => value
  | .child _ _ value => value

def node? (p : Path) : Option NodeId :=
  p.value.node?

def isList (p : Path) : Bool :=
  p.value.isList

def parent? : Path → Option Path
  | .root _ => none
  | .child parent _ _ => some parent

def key? : Path → Option Key
  | .root _ => none
  | .child _ key _ => some key

def index? (p : Path) : Option Nat :=
  p.key?.bind Key.index?

/-- The nearest path above that does not end at a list. -/
def owner? : Path → Option Path
  | .root _ => none
  | .child parent _ _ => if parent.isList then parent.owner? else some parent

def depth : Path → Nat
  | .root _ => 0
  | .child parent _ _ => parent.depth + 1

/-- One step further, as the tree is now. -/
def step (p : Path) (t : Tree) (key : Key) : Path :=
  .child p key (t.read p.value key)

/-- Several steps further. After a step that leads nowhere, all others do too. -/
def get (p : Path) (t : Tree) (keys : List Key) : Path :=
  keys.foldl (fun p key => p.step t key) p

def withValue : Path → Ref → Path
  | .root _, value => .root value
  | .child parent key _, value => .child parent key value

/-- The same slot as the tree is now. -/
def refresh (p : Path) (t : Tree) : Path :=
  match p with
  | .root _ => p
  | .child parent key _ => parent.step t key

def keysText : Path → String
  | .root _ => "$"
  | .child parent key _ => parent.keysText ++ key.text

end Path

def Ref.text : Ref → String
  | .null => "Null"
  | .node id => "Node(NodeId(" ++ Nat.repr id ++ "))"
  | .list owner field =>
    "List \x7b owner: NodeId(" ++ Nat.repr owner ++ "), field: " ++ (spell field).capitalize
      ++ " \x7d"

def Path.text (p : Path) : String :=
  p.keysText ++ " = " ++ p.value.text

namespace Tree

def nodeAt? (t : Tree) (p : Path) : Option (Node NodeId) :=
  p.node?.map t.node

def replace (t : Tree) (p : Path) (id : NodeId) : Except TreeError (Path × Tree) :=
  match p with
  | .root _ => .error .detached
  | .child parent key _ => do
    let (_, t) ← t.write parent.value key (some id)
    return (p.withValue (.node id), t)

def remove (t : Tree) (p : Path) : Except TreeError Tree :=
  match p with
  | .root _ => .error .detached
  | .child parent key _ => do
    let (_, t) ← t.write parent.value key none
    return t

end Tree

end ScriptFold

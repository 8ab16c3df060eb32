import ScriptFold.Syntax.Node

/-!
Programs as tables of nodes. A `Tree` numbers its nodes from zero, and a node names its children
by their numbers, so that one node may stand in many places. Nodes are added at the end and never
removed; `revision` counts the edits made to them.

The numbers have no bound here, and `alloc` always succeeds. An arena whose numbers have 32 bits is full
with 2 ^ 32 nodes and refuses to make another one: what is said about a tree is said about such an
arena as long as it is not full.
-/

namespace ScriptFold

abbrev NodeId := Nat

/-- Marks set on a node when it is made, for good. -/
structure Flags where
  /-- The node is shared and must not be edited. -/
  frozen : Bool := false
  /-- The node is a boolean written as `!0` or `!1`. -/
  minified : Bool := false
  deriving DecidableEq, Inhabited

structure Cell where
  node : Node NodeId
  flags : Flags
  deriving DecidableEq, Inhabited

structure Tree where
  cells : Array Cell
  root : NodeId
  revision : Nat
  deriving DecidableEq

/-- What a slot holds: nothing, a node, or a list that belongs to a field of its owner. -/
inductive Ref where
  | null
  | node (id : NodeId)
  | list (owner : NodeId) (field : Field)
  deriving DecidableEq, Inhabited

namespace Ref

def node? : Ref → Option NodeId
  | .node id => some id
  | _ => none

def isNull : Ref → Bool
  | .null => true
  | _ => false

def isList : Ref → Bool
  | .list .. => true
  | _ => false

end Ref

namespace Tree

def empty : Tree where
  cells := #[⟨.program [], {}⟩]
  root := 0
  revision := 0

/-- The number of nodes, in use or not. -/
def size (t : Tree) : Nat :=
  t.cells.size

/-- The node with a given number; an empty statement if there is none. -/
def node (t : Tree) (id : NodeId) : Node NodeId :=
  (t.cells[id]?).elim .emptyStatement Cell.node

def flags (t : Tree) (id : NodeId) : Flags :=
  (t.cells[id]?).elim {} Cell.flags

def isFrozen (t : Tree) (id : NodeId) : Bool :=
  (t.flags id).frozen

/-- Adds a node, and gives the number it gets. This is no edit. -/
def alloc (t : Tree) (node : Node NodeId) (flags : Flags := {}) : NodeId × Tree :=
  (t.size, { t with cells := t.cells.push ⟨node, flags⟩ })

def setRoot (t : Tree) (root : NodeId) : Tree :=
  if t.root = root then t else { t with root := root, revision := t.revision + 1 }

theorem size_alloc (t : Tree) (node : Node NodeId) (flags : Flags) :
    (t.alloc node flags).2.size = t.size + 1 := by
  simp [alloc, size]

theorem node_alloc (t : Tree) (node : Node NodeId) (flags : Flags) (id : NodeId) :
    (t.alloc node flags).2.node id = if id = t.size then node else t.node id := by
  by_cases h : id = t.cells.size <;> simp [alloc, Tree.node, size, Array.getElem?_push, h]

end Tree

end ScriptFold

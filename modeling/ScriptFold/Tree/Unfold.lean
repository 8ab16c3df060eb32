import ScriptFold.Tree.Basic
import ScriptFold.Syntax.Term

/-!
From trees to terms and back. `Tree.termAt?` follows every reference below a node;
`Term.toTree` lays a term out as a tree in which children come before their parents.
-/

namespace ScriptFold

namespace Tree

/-- The term below a node, down to a given depth; nothing if the tree goes deeper. -/
def termTo? (t : Tree) : Nat → NodeId → Option Term
  | 0, _ => none
  | depth + 1, id => Term.mk <$> (t.node id).traverse (Visitor.each (t.termTo? depth))

/-- The term below a node. There is one unless the node is below itself. -/
def termAt? (t : Tree) (id : NodeId) : Option Term :=
  t.termTo? t.size id

def term? (t : Tree) : Option Term :=
  t.termAt? t.root

end Tree

namespace Term

/-- Adds a term to a tree, children first, and gives the number of its topmost node. -/
def allocate (t : Term) : StateM Tree NodeId :=
  t.fold fun node => do
    let node ← node.traverse (Visitor.each id)
    modifyGet fun tree => tree.alloc node

def toTree (t : Term) : Tree :=
  let (root, tree) := t.allocate.run Tree.empty
  tree.setRoot root

end Term

end ScriptFold

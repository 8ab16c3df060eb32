import ScriptFold.Tree.Basic

/-!
Attributes: what a recursion over everything below a node computes. Of a node it sees its number
and the results for its children.
-/

namespace ScriptFold

abbrev sum (numbers : List Nat) : Nat :=
  @List.sum Nat instAddNat Zero.ofOfNat0 numbers

/-- The sum of what the entries of a slot count for. A hole counts as `hole`, and each entry of a
list for `entry` more. -/
def Slot.total (entry hole : Nat) : Slot Nat → Nat
  | .required child => child
  | .optional child => child.getD 0
  | .list children => sum (children.map (entry + ·))
  | .holey children => sum (children.map fun child => entry + child.getD hole)

namespace Tree

variable {β : Type}

/-- An attribute of a node, looking no deeper than a given depth; below that, `base`. -/
def attrTo (t : Tree) (step : NodeId → Node β → β) (base : β) : Nat → NodeId → β
  | 0, _ => base
  | depth + 1, id => step id ((t.node id).map (t.attrTo step base depth))

def attr (t : Tree) (step : NodeId → Node β → β) (base : β) (id : NodeId) : β :=
  t.attrTo step base (t.size + 1) id

/-- How many nodes, entries of lists and holes are met by a walk below a node, the node included. -/
def span (t : Tree) : NodeId → Nat :=
  t.attr (fun _ node => 1 + sum (node.slots.map fun entry => entry.2.total 1 1)) 0

end Tree

end ScriptFold

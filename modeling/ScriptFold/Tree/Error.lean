import ScriptFold.Tree.Basic

/-!
Edits that a tree refuses. That an arena is full is not among them: it is what making a node may come to
once there are 2 ^ 32 of them, and a `Tree` has room for more.
-/

namespace ScriptFold

inductive TreeError where
  /-- The node is shared and must not be edited. -/
  | frozen (id : NodeId)
  /-- The field must hold a node. -/
  | requiredField (kind : Kind) (field : Field)
  /-- The node has no such field, or the field is no list. -/
  | notAField (kind : Kind) (field : Field)
  /-- The field is a list and cannot be assigned. -/
  | listField (kind : Kind) (field : Field)
  | indexOutOfBounds (index length : Nat)
  | notAList
  /-- The path leads to no slot. -/
  | detached
  deriving DecidableEq

def TreeError.message : TreeError → String
  | .frozen id => "node #" ++ Nat.repr id ++ " is frozen"
  | .requiredField kind field => "`" ++ spell field ++ "` of " ++ spell kind ++ " cannot be removed"
  | .notAField kind field => spell kind ++ " has no field `" ++ spell field ++ "`"
  | .listField kind field => "`" ++ spell field ++ "` of " ++ spell kind ++ " is a list"
  | .indexOutOfBounds index length =>
    "index " ++ Nat.repr index ++ " out of bounds for list of length " ++ Nat.repr length
  | .notAList => "value is not a list"
  | .detached => "path has no parent slot"

end ScriptFold

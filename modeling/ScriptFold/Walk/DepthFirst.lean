import ScriptFold.Walk.Stage

/-!
Walking children before their parents. Fields are walked in the order of their names and list
entries by position; a slot whose answer is `retry` is read and walked again until it answers
anything else. The length of a list is read again after each entry, so entries that come or go
during the walk are seen.
-/

namespace ScriptFold

section

variable {ε σ : Type} [HasTree σ]

mutual

/-- Walks everything below a path, then passes on the path itself. Nothing is below an empty
slot, and it is not passed on. -/
def descend (next : Next ε σ) : Nat → Path → WalkM ε σ Command
  | 0, _ => throw .outOfFuel
  | fuel + 1, path => do
    match path.value with
    | .null => return .proceed
    | .list .. => settleItems next fuel path 0
    | .node id =>
      ((← getTree).node id).fields.forM fun field => settle next fuel path (.field field)
    next path

def settleItems (next : Next ε σ) : Nat → Path → Nat → WalkM ε σ Unit
  | 0, _, _ => throw .outOfFuel
  | fuel + 1, list, index => do
    if index < ((← getTree).listLength? list.value).getD 0 then
      settle next fuel list (.index index)
      settleItems next fuel list (index + 1)

/-- Walks a slot until it asks for no further walk. -/
def settle (next : Next ε σ) : Nat → Path → Key → WalkM ε σ Unit
  | 0, _, _ => throw .outOfFuel
  | fuel + 1, parent, key => do
    let answer ← descend next fuel (parent.step (← getTree) key)
    if answer.isRetry then settle next fuel parent key

end

/-- Walks children before their parents. -/
def Stage.depthFirst : Stage ε σ where
  inward path next := do descend next ((← getTree).walkFuelFrom path) path

end

end ScriptFold

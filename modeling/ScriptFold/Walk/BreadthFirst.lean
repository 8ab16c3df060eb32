import ScriptFold.Walk.Stage

/-!
Walking level by level. Every path is passed on before what is below it, unless its answer is
`skip`, which leaves out what is below it, or `retry`, which reads the slot again.
-/

namespace ScriptFold

section

variable {ε σ : Type} [HasTree σ]

def Path.children (p : Path) (t : Tree) : List Path :=
  match p.value with
  | .null => []
  | .list .. =>
    (List.range ((t.listLength? p.value).getD 0)).map fun index => p.step t (.index index)
  | .node id => (t.node id).fields.map fun field => p.step t (.field field)

def drain (next : Next ε σ) : Nat → List Path → WalkM ε σ Unit
  | _, [] => return
  | 0, _ :: _ => throw .outOfFuel
  | fuel + 1, path :: queue => do
    if path.value.isNull then drain next fuel queue
    else
      match ← next path with
      | .proceed => drain next fuel (queue ++ path.children (← getTree))
      | .skip => drain next fuel queue
      | .retry _ => drain next fuel (path.refresh (← getTree) :: queue)

/-- Walks level by level. -/
def Stage.breadthFirst : Stage ε σ where
  inward path next := do
    drain next ((← getTree).walkFuelFrom path) [path]
    return .proceed

end

end ScriptFold

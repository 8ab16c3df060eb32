import ScriptFold.Tree.Attribute
import ScriptFold.Tree.Path

/-!
Walks over a tree that is edited on the way.

A stage is handed a path and passes on as many paths as it likes, each by a call of the function
it is given; the answer to such a call is a `Command`. Paths travel inward through the stages of
a pipe from first to last, and outward from last to first. A stage that edited the slot it was
handed answers `retry`, which asks the walker behind it to read that slot again.
-/

namespace ScriptFold

/-- The answer to a path that was passed on. -/
inductive Command where
  | proceed
  /-- The slot was edited and is to be walked again; its path after the edit. -/
  | retry (path : Path)
  /-- The children of the path are not to be walked. -/
  | skip
  deriving DecidableEq, Inhabited

def Command.isRetry : Command → Bool
  | .retry _ => true
  | _ => false

/-- Why a walk stopped before its end: it used up its fuel, or a stage failed. -/
inductive Halt (ε : Type) where
  | outOfFuel
  | error (error : ε)
  deriving DecidableEq

class HasTree (σ : Type) where
  tree : σ → Tree

/-- Steps of a walk. A failure keeps the state reached so far. -/
abbrev WalkM (ε σ : Type) := EStateM (Halt ε) σ

section

variable {ε σ : Type}

def getTree [HasTree σ] : WalkM ε σ Tree := do
  return HasTree.tree (← get)

/-- What a stage calls to pass a path on. -/
abbrev Next (ε σ : Type) := Path → WalkM ε σ Command

/-- One stage of a walk; by default it passes on what it is handed. -/
structure Stage (ε σ : Type) where
  inward : Path → Next ε σ → WalkM ε σ Command := fun path next => next path
  outward : Path → Next ε σ → WalkM ε σ Command := fun path next => next path

namespace Stage

def walkWith (stage : Stage ε σ) (start : Path) (consumer : Next ε σ) : WalkM ε σ Command :=
  stage.inward start fun path => stage.outward path consumer

def walk (stage : Stage ε σ) (start : Path) : WalkM ε σ Command :=
  stage.walkWith start fun _ => return .proceed

def inwardAll : List (Stage ε σ) → Path → Next ε σ → WalkM ε σ Command
  | [], path, next => next path
  | stage :: rest, path, next => stage.inward path fun item => inwardAll rest item next

def outwardAll : List (Stage ε σ) → Path → Next ε σ → WalkM ε σ Command
  | [], path, next => next path
  | stage :: rest, path, next => outwardAll rest path fun item => stage.outward item next

/-- Stages in a row, as one stage. -/
def pipe (stages : List (Stage ε σ)) : Stage ε σ where
  inward := inwardAll stages
  outward := outwardAll stages

/-- Passes on nodes only. Lists and empty slots are answered with `proceed`, so that walkers
still descend into them. -/
def nodesOnly : Stage ε σ where
  inward path next := if path.node?.isSome then next path else return .proceed

end Stage

end

/-- Steps granted to a walk of a tree: far more than any walk takes whose stages come to rest. Every
entry of a list takes a step, a hole too, so a tree counts for more than its nodes. -/
def Tree.walkFuel (t : Tree) : Nat :=
  let size := t.size + t.span t.root
  64 * (size + 16) * (size + 16)

def Tree.walkFuelFrom (t : Tree) (start : Path) : Nat :=
  match start.value with
  | .null => t.walkFuel
  | .node id | .list id _ => { t with root := id }.walkFuel

end ScriptFold

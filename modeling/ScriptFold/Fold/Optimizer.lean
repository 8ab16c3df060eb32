import ScriptFold.Fold.Rule
import ScriptFold.Fold.Options

/-!
Folding a program: rounds of passes until one changes nothing.
-/

namespace ScriptFold

namespace Options

def passes (options : Options) : List Pass :=
  if options.minifyBooleans then [.expressions, .statements, .minify]
  else [.expressions, .statements]

def round (options : Options) : FoldM Bool := do
  let before := (← getTree).revision
  options.passes.forM Pass.run
  modify fun s => { s with stats := { s.stats with rounds := s.stats.rounds + 1 } }
  return (← getTree).revision ≠ before

/-- At most a given number of rounds, up to the first that changes nothing. -/
def rounds (options : Options) : Nat → FoldM Unit
  | 0 => return
  | limit + 1 => do
    if ← options.round then options.rounds limit

end Options

def Tree.fold (tree : Tree) (options : Options := {}) : Except (Halt FoldError) (Tree × Stats) :=
  match (options.rounds options.maxRounds).run { tree } with
  | .ok () s => .ok (s.tree, s.stats)
  | .error e _ => .error e

end ScriptFold

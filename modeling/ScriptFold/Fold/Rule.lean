import ScriptFold.Fold.Branch
import ScriptFold.Fold.Loop
import ScriptFold.Fold.Member
import ScriptFold.Fold.Operation
import ScriptFold.Fold.Sequence
import ScriptFold.Walk.DepthFirst

/-!
Rules as stages of a walk, and the passes made of them.
-/

namespace ScriptFold

namespace Rule

/-- Applies a rule at a path: nothing if it leaves the tree alone, and otherwise the path to walk
again. -/
def apply (rule : Rule) : Path → FoldM (Option Path) :=
  match rule with
  | .unreachableTail => FoldM.dropUnreachable
  | .expressionStatements => FoldM.foldExpressionStatement
  | .conditionalExpr => FoldM.foldConditional
  | .logicalExpr => FoldM.foldLogical
  | .binaryExpr => FoldM.foldBinary
  | .unaryExpr => FoldM.foldUnary
  | .sequenceExpr => FoldM.foldSequence
  | .memberExpr => FoldM.foldMember
  | .emptyStatements => FoldM.dropEmptyStatement
  | .ifStatement => FoldM.foldIf
  | .loops => FoldM.foldLoop
  | .booleanLiterals => FoldM.minifyBoolean

def inFrozenNode (tree : Tree) (path : Path) : Bool :=
  (path.owner?.bind Path.node?).any tree.isFrozen

/-- A rule as a stage: it applies the rule to nodes, except below frozen ones, and answers `retry`
for every change. -/
def stage (rule : Rule) : Stage FoldError FoldState where
  inward path next := do
    if path.node?.isNone || inFrozenNode (← getTree) path then next path
    else
      match ← rule.apply path with
      | none => next path
      | some retry =>
        modify fun s => { s with stats := s.stats.record rule }
        return .retry retry

end Rule

inductive Pass where
  /-- Evaluates constants and removes dead expressions. -/
  | expressions
  /-- Tidies statements. -/
  | statements
  /-- Shortens booleans. -/
  | minify
  deriving DecidableEq, Repr, Inhabited

namespace Pass

instance : Vocabulary Pass where
  all := [.expressions, .statements, .minify]
  spelling
    | .expressions => "expressions" | .statements => "statements" | .minify => "minify"

instance : LawfulVocabulary Pass := ⟨by intro a; cases a <;> decide, by decide⟩

def rules : Pass → List Rule
  | .expressions =>
    [.unreachableTail, .expressionStatements, .conditionalExpr, .logicalExpr, .binaryExpr,
      .unaryExpr, .sequenceExpr, .memberExpr]
  | .statements => [.emptyStatements, .ifStatement, .loops]
  | .minify => [.booleanLiterals]

def stage (pass : Pass) : Stage FoldError FoldState :=
  .pipe (.depthFirst :: .nodesOnly :: pass.rules.map Rule.stage)

def run (pass : Pass) : FoldM Unit := do
  let _ ← pass.stage.walk (.ofNode (← getTree).root)

end Pass

end ScriptFold

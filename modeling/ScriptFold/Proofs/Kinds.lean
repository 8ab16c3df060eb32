import ScriptFold.Fold.Rule
import ScriptFold.Proofs.Run

/-!
What rules look at. Each rule looks at nodes of some kinds and leaves the others alone. Nodes with a value
are of few kinds, and of these only booleans are written in another way.
-/

namespace ScriptFold

namespace Rule

/-- The kinds of nodes that a rule looks at. A boolean may have been written in any way. -/
def kinds : Rule → List Kind
  | .unreachableTail => [.returnStatement, .breakStatement, .continueStatement, .throwStatement]
  | .expressionStatements => [.expressionStatement]
  | .conditionalExpr => [.conditionalExpression]
  | .logicalExpr => [.logicalExpression]
  | .binaryExpr => [.binaryExpression]
  | .unaryExpr => [.unaryExpression]
  | .sequenceExpr => [.sequenceExpression]
  | .memberExpr => [.memberExpression]
  | .emptyStatements => [.emptyStatement, .blockStatement]
  | .ifStatement => [.ifStatement]
  | .loops => [.whileStatement, .doWhileStatement, .forStatement]
  | .booleanLiterals => Vocabulary.all

variable {rule : Rule} {p : Path} {s : FoldState} {id : NodeId}

theorem kind_of_isJump {α : Type} {n : Node α} (h : n.isJump) : n.kind ∈ unreachableTail.kinds := by
  cases n <;> cases h <;> simp [kinds, Node.kind]

theorem kind_of_expression? {n : Node NodeId} {e : NodeId} (h : n.expression? = some e) :
    n.kind ∈ expressionStatements.kinds := by
  cases n <;> cases h
  simp [kinds, Node.kind]

theorem kind_of_isEmptyStatement {n : Node NodeId} (h : n.isEmptyStatement) :
    n.kind ∈ emptyStatements.kinds := by
  cases n <;> simp_all [kinds, Node.kind, Node.isEmptyStatement]

open FoldM in
/-- Nodes of other kinds are no business of a rule. -/
theorem apply_of_kind (hid : p.node? = some id) (h : (s.tree.node id).kind ∉ rule.kinds) :
    rule.apply p s = .ok none s := by
  have hat : s.tree.nodeAt? p = some (s.tree.node id) := by
    unfold Tree.nodeAt?
    rw [hid]
    rfl
  generalize hn : s.tree.node id = n at hat h
  refine Ensures.run_eq ?_
  cases rule with
  | unreachableTail =>
    simp only [apply, dropUnreachable]
    refine .read (getTree_run s) ?_
    rw [hat]
    dsimp only
    rw [if_neg fun hjump => h (kind_of_isJump hjump)]
    exact .pure ⟨rfl, rfl⟩
  | expressionStatements =>
    simp only [apply, foldExpressionStatement]
    refine .read (getTree_run s) ?_
    rw [hat, Option.bind_some]
    split
    · exact absurd (kind_of_expression? ‹_›) h
    · exact .pure ⟨rfl, rfl⟩
  | emptyStatements =>
    simp only [apply, dropEmptyStatement]
    refine .read (getTree_run s) ?_
    rw [hat]
    dsimp only
    rw [if_neg fun hempty => h (kind_of_isEmptyStatement (Bool.and_eq_true_iff.mp hempty).1)]
    exact .pure ⟨rfl, rfl⟩
  | conditionalExpr | logicalExpr | ifStatement | loops =>
    simp only [apply, foldConditional, foldLogical, foldIf, foldLoop]
    refine .read (getTree_run s) ?_
    rw [hat]
    cases n <;> first | exact .pure ⟨rfl, rfl⟩ | simp [kinds, Node.kind] at h
  | binaryExpr | memberExpr =>
    simp only [apply, foldBinary, foldMember, hid]
    refine .read (getTree_run s) ?_
    rw [hn]
    cases n <;> first | exact .pure ⟨rfl, rfl⟩ | simp [kinds, Node.kind] at h
  | sequenceExpr | unaryExpr =>
    simp only [apply, foldSequence, foldUnary, hid]
    refine .read rfl ?_
    rw [hn]
    cases n <;> first | exact .pure ⟨rfl, rfl⟩ | simp [kinds, Node.kind] at h
  | booleanLiterals => exact absurd (LawfulVocabulary.mem_all n.kind) h

theorem eq_booleanLiterals_of_program (h : Kind.program ∈ rule.kinds) : rule = .booleanLiterals := by
  revert h
  cases rule <;> simp [kinds]

/-- The rules that look at nodes of which values are made. -/
theorem cases_of_value {k : Kind} (hk : k ∈ rule.kinds)
    (hv : k ∈ [Kind.literal, .unaryExpression, .binaryExpression, .arrayExpression]) :
    rule = .binaryExpr ∨ rule = .unaryExpr ∨ rule = .booleanLiterals := by
  revert k
  cases rule <;> simp [kinds]

end Rule

namespace FoldM

variable {p : Path} {s : FoldState} {id : NodeId}

theorem foldBinary_of_frozen (hid : p.node? = some id) (hf : s.tree.isFrozen id) :
    foldBinary p s = .ok none s := by
  refine Ensures.run_eq ?_
  unfold foldBinary
  rw [hid]
  refine .read (getTree_run s) ?_
  dsimp only
  split
  · rw [if_pos hf]
    exact .pure ⟨rfl, rfl⟩
  · exact .pure ⟨rfl, rfl⟩

theorem foldUnary_of_value? (hid : p.node? = some id) {v : Value} (hv : s.value? id = some v) :
    foldUnary p s = .ok none s := by
  refine Ensures.run_eq ?_
  unfold foldUnary
  rw [hid]
  refine .read rfl ?_
  split
  · refine .read (isConstant_run s id) ?_
    rw [hv]
    exact .pure ⟨rfl, rfl⟩
  · exact .pure ⟨rfl, rfl⟩

end FoldM

namespace Rule

variable {rule : Rule} {p : Path} {s : FoldState} {id : NodeId}

theorem isFrozen_of_binary (h : s.Sound) {v : Value} (hv : s.value? id = some v)
    (hk : (s.tree.node id).kind ∈ binaryExpr.kinds) : s.tree.isFrozen id := by
  rcases h.value?_cases hv with hp | ⟨-, ⟨_, hn, -⟩ | ⟨_, _, hn, -, -⟩ | ⟨_, _, hn, -, -⟩⟩
  · exact (h.spells hp).isFrozen
  all_goals
    rw [hn] at hk
    simp [kinds, Node.kind] at hk

/-- Only the rule on booleans applies to a constant. -/
theorem apply_of_value? (h : s.Sound) (hid : p.node? = some id) {v : Value}
    (hv : s.value? id = some v) (hne : rule ≠ .booleanLiterals) : rule.apply p s = .ok none s := by
  by_cases hk : (s.tree.node id).kind ∈ rule.kinds
  · rcases cases_of_value hk (h.kind_of_value? hv) with rfl | rfl | rfl
    · exact FoldM.foldBinary_of_frozen hid (isFrozen_of_binary h hv hk)
    · exact FoldM.foldUnary_of_value? hid hv
    · exact absurd rfl hne
  · exact apply_of_kind hid hk

end Rule

end ScriptFold

import ScriptFold.Syntax.Node

/-!
Programs as trees. A `Term` is a node whose children are terms: what a program looks like once
every reference from node to node has been followed.

All recursion on terms goes through `Term.fold`. Main statement: `fold_mk` unfolds one step of it.
-/

namespace ScriptFold

/-- A node together with everything below it. -/
inductive Term where
  | mk (node : Node Term)

namespace Term

def node : Term → Node Term
  | ⟨n⟩ => n

variable {β : Type}

mutual

/-- Replaces every node, from the leaves upwards, by what `step` makes of it. -/
def fold (step : Node β → β) : Term → β
  | ⟨n⟩ => step (foldNode step n)

def foldNode (step : Node β → β) : Node Term → Node β
  | .program body => .program (foldList step body)
  | .expressionStatement expression directive =>
    .expressionStatement (fold step expression) directive
  | .blockStatement body => .blockStatement (foldList step body)
  | .emptyStatement => .emptyStatement
  | .debuggerStatement => .debuggerStatement
  | .withStatement object body => .withStatement (fold step object) (fold step body)
  | .returnStatement argument => .returnStatement (foldOption step argument)
  | .labeledStatement label body => .labeledStatement (fold step label) (fold step body)
  | .breakStatement label => .breakStatement (foldOption step label)
  | .continueStatement label => .continueStatement (foldOption step label)
  | .ifStatement test consequent alternate =>
    .ifStatement (fold step test) (fold step consequent) (foldOption step alternate)
  | .switchStatement discriminant cases =>
    .switchStatement (fold step discriminant) (foldList step cases)
  | .switchCase test consequent => .switchCase (foldOption step test) (foldList step consequent)
  | .throwStatement argument => .throwStatement (fold step argument)
  | .tryStatement block handler finalizer =>
    .tryStatement (fold step block) (foldOption step handler) (foldOption step finalizer)
  | .catchClause param body => .catchClause (foldOption step param) (fold step body)
  | .whileStatement test body => .whileStatement (fold step test) (fold step body)
  | .doWhileStatement body test => .doWhileStatement (fold step body) (fold step test)
  | .forStatement init test update body =>
    .forStatement (foldOption step init) (foldOption step test) (foldOption step update)
      (fold step body)
  | .forInStatement left right body =>
    .forInStatement (fold step left) (fold step right) (fold step body)
  | .functionDeclaration id params body generator async =>
    .functionDeclaration (foldOption step id) (foldList step params)
      (fold step body) generator async
  | .variableDeclaration declarations kind => .variableDeclaration (foldList step declarations) kind
  | .variableDeclarator id init => .variableDeclarator (fold step id) (foldOption step init)
  | .identifier name => .identifier name
  | .literal value => .literal value
  | .thisExpression => .thisExpression
  | .arrayExpression elements => .arrayExpression (foldHoley step elements)
  | .objectExpression properties => .objectExpression (foldList step properties)
  | .property key value kind computed method shorthand =>
    .property (fold step key) (fold step value) kind computed method shorthand
  | .functionExpression id params body generator async =>
    .functionExpression (foldOption step id) (foldList step params) (fold step body) generator async
  | .arrowFunctionExpression params body expression async =>
    .arrowFunctionExpression (foldList step params) (fold step body) expression async
  | .unaryExpression operator argument => .unaryExpression operator (fold step argument)
  | .updateExpression operator argument before =>
    .updateExpression operator (fold step argument) before
  | .binaryExpression operator left right =>
    .binaryExpression operator (fold step left) (fold step right)
  | .logicalExpression operator left right =>
    .logicalExpression operator (fold step left) (fold step right)
  | .assignmentExpression operator left right =>
    .assignmentExpression operator (fold step left) (fold step right)
  | .conditionalExpression test consequent alternate =>
    .conditionalExpression (fold step test) (fold step consequent) (fold step alternate)
  | .callExpression callee arguments => .callExpression (fold step callee) (foldList step arguments)
  | .newExpression callee arguments => .newExpression (fold step callee) (foldList step arguments)
  | .memberExpression object prop computed =>
    .memberExpression (fold step object) (fold step prop) computed
  | .sequenceExpression expressions => .sequenceExpression (foldList step expressions)

def foldOption (step : Node β → β) : Option Term → Option β
  | none => none
  | some t => some (fold step t)

def foldList (step : Node β → β) : List Term → List β
  | [] => []
  | t :: ts => fold step t :: foldList step ts

def foldHoley (step : Node β → β) : List (Option Term) → List (Option β)
  | [] => []
  | t :: ts => foldOption step t :: foldHoley step ts

end

theorem foldOption_eq_map (step : Node β → β) (t : Option Term) :
    foldOption step t = t.map (fold step) := by
  cases t <;> simp [foldOption]

theorem foldList_eq_map (step : Node β → β) (ts : List Term) :
    foldList step ts = ts.map (fold step) := by
  induction ts with
  | nil => rfl
  | cons t ts ih => simp [foldList, ih]

theorem foldHoley_eq_map (step : Node β → β) (ts : List (Option Term)) :
    foldHoley step ts = ts.map (Option.map (fold step)) := by
  induction ts with
  | nil => rfl
  | cons t ts ih => simp [foldHoley, foldOption_eq_map, ih]

theorem foldNode_eq_map (step : Node β → β) (n : Node Term) :
    foldNode step n = n.map (fold step) := by
  cases n <;>
    simp [foldNode, Node.map, Node.traverse, Visitor.plain, foldOption_eq_map, foldList_eq_map,
      foldHoley_eq_map, Id.run, pure, bind]

theorem fold_mk (step : Node β → β) (n : Node Term) :
    fold step ⟨n⟩ = step (n.map (fold step)) := by
  rw [fold, foldNode_eq_map]

end Term

end ScriptFold

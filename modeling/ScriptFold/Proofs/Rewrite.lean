import ScriptFold.Proofs.Constant
import ScriptFold.Proofs.Path

/-!
What the rules may do to a tree, each change with the facts that justify it. A change puts one node
in the slot of another (`Swap`), puts other entries into a stretch of a list (`Splice`), or rewrites
a node in place (`Rewrite`); an `Edit` is one of these at a path.
-/

namespace ScriptFold

def LogicalOp.decides (operator : LogicalOp) (left : Value) : Bool :=
  match operator with
  | .or => left.toBoolean
  | .and => !left.toBoolean

namespace Store

def Holds (s : Store) (v : Value) (id : NodeId) : Prop :=
  s.pool.values[id]? = some v

def memberValue? (s : Store) (object : Value) (prop : NodeId) (computed : Bool) : Option Value :=
  if computed then (s.value? prop).bind object.element?
  else
    match s.tree.node prop with
    | .identifier "length" => object.length?.map fun length => .number (ofLength length)
    | _ => none

/-- By a given rule, one node may be put where another is. Whether the slot may be observed as the
completion value of the program is told by `observed`. -/
inductive Swap (s : Store) (observed : Bool) : Rule → NodeId → NodeId → Prop
  | constantStatement {a e directive v b} : s.tree.node a = .expressionStatement e directive →
    s.value? e = some v → observed = false → s.pool.emptyStatement = some b →
    Swap s observed .expressionStatements a b
  | conditional {a test consequent alternate v} :
    s.tree.node a = .conditionalExpression test consequent alternate → s.value? test = some v →
    Swap s observed .conditionalExpr a (if v.toBoolean then consequent else alternate)
  | logical {a operator left right v} : s.tree.node a = .logicalExpression operator left right →
    s.value? left = some v →
    Swap s observed .logicalExpr a (if operator.decides v then left else right)
  | binary {a operator left right x y v b} :
    s.tree.node a = .binaryExpression operator left right → ¬ s.tree.isFrozen a →
    s.value? left = some x → s.value? right = some y → operator.evaluate? x y = some v →
    s.Holds v b → Swap s observed .binaryExpr a b
  | unary {a operator argument v b} : s.tree.node a = .unaryExpression operator argument →
    s.value? a = none → s.value? argument = some v → s.Holds (operator.evaluate v) b →
    Swap s observed .unaryExpr a b
  | lastItem {a leading last} : s.tree.node a = .sequenceExpression (leading ++ [last]) →
    (∀ e ∈ leading, (s.value? e).isSome) → Swap s observed .sequenceExpr a last
  | member {a object prop computed v w b} : s.tree.node a = .memberExpression object prop computed →
    s.value? object = some v → s.memberValue? v prop computed = some w → s.Holds w b →
    Swap s observed .memberExpr a b
  | memberOfCharacter {a object prop computed v text first index b} :
    s.tree.node a = .memberExpression object prop computed → s.value? object = some v →
    s.memberValue? v prop computed = some (.string text) → ¬ v.length?.all (· ≤ 1) →
    (units text).length = 1 → s.Holds (.string text) first → s.Holds (.number 0) index →
    s.tree.node b = .memberExpression first index true → s.tree.Unused b →
    Swap s observed .memberExpr a b
  | ifTest {a test consequent b} : s.tree.node a = .ifStatement test consequent none →
    (s.tree.node consequent).isEmptyStatement → observed = false →
    s.tree.node b = .expressionStatement test none → s.tree.Unused b →
    Swap s observed .ifStatement a b
  | ifExpression {a test consequent alternate n e b} :
    s.tree.node a = .ifStatement test consequent alternate →
    FoldM.ifExpression? s.tree observed test consequent alternate = some n →
    s.tree.node e = n → s.tree.node b = .expressionStatement e none → s.tree.Unused e →
    s.tree.Unused b → Swap s observed .ifStatement a b
  | ifTrue {a test consequent alternate v} :
    s.tree.node a = .ifStatement test consequent alternate → s.value? test = some v →
    v.toBoolean → Swap s observed .ifStatement a consequent
  | ifFalse {a test consequent alternate v} :
    s.tree.node a = .ifStatement test consequent (some alternate) → s.value? test = some v →
    ¬ v.toBoolean → Swap s observed .ifStatement a alternate
  | ifNever {a test consequent v b} : s.tree.node a = .ifStatement test consequent none →
    s.value? test = some v → ¬ v.toBoolean → s.pool.emptyStatement = some b →
    Swap s observed .ifStatement a b
  | whileNever {a test body v b} : s.tree.node a = .whileStatement test body →
    s.value? test = some v → ¬ v.toBoolean → s.pool.emptyStatement = some b →
    Swap s observed .loops a b
  | forNever {a test update body v b} : s.tree.node a = .forStatement none (some test) update body →
    s.value? test = some v → ¬ v.toBoolean → s.pool.emptyStatement = some b →
    Swap s observed .loops a b
  | forDeclaration {a init test update body v declarations} :
    s.tree.node a = .forStatement (some init) (some test) update body →
    s.value? test = some v → ¬ v.toBoolean →
    s.tree.node init = .variableDeclaration declarations .var → Swap s observed .loops a init
  | forExpression {a init test update body v b} :
    s.tree.node a = .forStatement (some init) (some test) update body →
    s.value? test = some v → ¬ v.toBoolean →
    (∀ declarations kind, s.tree.node init ≠ .variableDeclaration declarations kind) →
    s.tree.node b = .expressionStatement init none → s.tree.Unused b →
    Swap s observed .loops a b
  | minify {a v b} : s.value? a = some (.bool v) → ¬ (s.tree.flags a).minified →
    s.Holds (.bool v) b → (s.tree.flags b).minified → Swap s observed .booleanLiterals a b

/-- By a given rule, a stretch of a list of a node may be other entries. -/
inductive Splice (s : Store) (observed : Bool) (owner : NodeId) :
    Rule → List (Option NodeId) → List NodeId → Prop
  | swap {rule a b} : s.Swap observed rule a b → Splice s observed owner rule [some a] [b]
  | unreachable {jump tail} : (s.tree.node jump).isJump →
    ((tail.filterMap id).filter fun statement => (s.tree.node statement).isHoisted).length
      ≠ tail.length →
    Splice s observed owner .unreachableTail (some jump :: tail)
      (jump :: (tail.filterMap id).filter fun statement => (s.tree.node statement).isHoisted)
  | merge {statements expressions sequence statement} :
    List.Forall₂ (fun st e => (s.tree.node st).expression? = some e) statements expressions →
    2 ≤ statements.length →
    s.tree.node sequence = .sequenceExpression
      (expressions.flatMap (FoldM.sequenceItems s.tree)) →
    s.tree.node statement = .expressionStatement sequence none →
    owner ≠ sequence → owner ≠ statement → s.tree.Unused sequence → s.tree.Unused statement →
    Splice s observed owner .expressionStatements (statements.map some) [statement]
  | constant {a e directive v} : s.tree.node a = .expressionStatement e directive →
    s.value? e = some v → observed = false →
    Splice s observed owner .expressionStatements [some a] []
  | empty {a} : (s.tree.node a).isEmptyStatement →
    Splice s observed owner .emptyStatements [some a] []

theorem some_mem_of_mem_hoisted {jump c : NodeId} {tail : List (Option NodeId)}
    {hoisted : NodeId → Bool} (hc : c ∈ jump :: (tail.filterMap id).filter hoisted) :
    some c ∈ some jump :: tail := by
  rcases List.mem_cons.mp hc with rfl | hc
  · exact List.mem_cons_self
  · obtain ⟨e, he, rfl⟩ := List.mem_filterMap.mp (List.mem_filter.mp hc).1
    exact List.mem_cons_of_mem _ he

/-- By a given rule, a node may be rewritten. -/
inductive Rewrite (s : Store) : Rule → Node NodeId → Node NodeId → Prop
  | nullLeft {operator left right b} : operator = .eq ∨ operator = .notEq →
    s.Holds .undefined left → s.Holds .null b →
    Rewrite s .binaryExpr (.binaryExpression operator left right) (.binaryExpression operator b right)
  | nullRight {operator left right b} : operator = .eq ∨ operator = .notEq →
    s.Holds .undefined right → s.Holds .null b →
    Rewrite s .binaryExpr (.binaryExpression operator left right) (.binaryExpression operator left b)
  | consequent {test consequent alternate b} : (s.tree.node consequent).isEmptyStatement →
    consequent ≠ b → s.pool.emptyStatement = some b →
    Rewrite s .ifStatement (.ifStatement test consequent alternate) (.ifStatement test b alternate)
  | alternate {test consequent alternate} : (s.tree.node alternate).isEmptyStatement →
    Rewrite s .ifStatement (.ifStatement test consequent (some alternate))
      (.ifStatement test consequent none)
  | whileBody {test body b} : (s.tree.node body).isEmptyStatement → body ≠ b →
    s.pool.emptyStatement = some b →
    Rewrite s .loops (.whileStatement test body) (.whileStatement test b)
  | doWhileBody {test body b} : (s.tree.node body).isEmptyStatement → body ≠ b →
    s.pool.emptyStatement = some b →
    Rewrite s .loops (.doWhileStatement body test) (.doWhileStatement b test)
  | forBody {init test update body b} : (s.tree.node body).isEmptyStatement → body ≠ b →
    s.pool.emptyStatement = some b →
    Rewrite s .loops (.forStatement init test update body) (.forStatement init test update b)
  | forInit {init test update body v} : s.value? init = some v →
    Rewrite s .loops (.forStatement (some init) test update body)
      (.forStatement none test update body)
  | forUpdate {init test update body v} : s.value? update = some v →
    Rewrite s .loops (.forStatement init test (some update) body)
      (.forStatement init test none body)
  | forAlways {init test update body v} : s.value? test = some v → v.toBoolean →
    Rewrite s .loops (.forStatement init (some test) update body)
      (.forStatement init none update body)
  | forNever {init test update body v b} : s.value? test = some v → ¬ v.toBoolean →
    v ≠ .bool false → s.Holds (.bool false) b →
    Rewrite s .loops (.forStatement init (some test) update body)
      (.forStatement init (some b) update body)
  | leadingItems {leading last} :
    (leading.filter fun e => !s.isConstant e) ≠ [] →
    (leading.filter fun e => !s.isConstant e).length ≠ leading.length →
    Rewrite s .sequenceExpr (.sequenceExpression (leading ++ [last]))
      (.sequenceExpression ((leading.filter fun e => !s.isConstant e) ++ [last]))
  | firstItem {leading last first} : (∀ e ∈ leading, (s.value? e).isSome) → 2 ≤ leading.length →
    s.Holds (.number 0) first →
    Rewrite s .sequenceExpr (.sequenceExpression (leading ++ [last]))
      (.sequenceExpression [first, last])
  | name {object prop key name} : s.tree.node prop = .literal (.string name) →
    s.tree.node key = .identifier name → s.tree.Unused key →
    Rewrite s .memberExpr (.memberExpression object prop true) (.memberExpression object key false)

def put (s : Store) (owner : NodeId) (n : Node NodeId) : Store :=
  { s with tree := s.tree.setNode owner n }

/-- One change by a rule at a path: which node is rewritten, and to what. -/
inductive Edit (s : Store) (observed : Bool) (rule : Rule) (p : Path) : NodeId → Node NodeId → Prop
  | fill {owner a b n} : p.Leads s.tree owner a → ¬ s.tree.isFrozen owner →
    p.Fills s.tree owner a b n → s.Swap observed rule a b → Edit s observed rule p owner n
  | splice {owner a old new n} : p.Leads s.tree owner a → ¬ s.tree.isFrozen owner →
    p.Splices s.tree owner old new n → s.Splice observed owner rule old new →
    Edit s observed rule p owner n
  | rewrite {owner id n} : p.Leads s.tree owner id → ¬ s.tree.isFrozen id →
    s.Rewrite rule (s.tree.node id) n → Edit s observed rule p id n

/-- Growth, then one change. -/
def Step (observed : Bool) (rule : Rule) (p : Path) (s s' : Store) : Prop :=
  ∃ s₁ owner n, s.Grows s₁ ∧ s₁.Sound ∧ s₁.Edit observed rule p owner n ∧ s' = s₁.put owner n

/-- All that a rule does at a path where it applies. -/
def Fires (observed : Bool) (rule : Rule) (p : Path) : Store → Store → Prop :=
  Relation.TransGen (Step observed rule p)

end Store

end ScriptFold

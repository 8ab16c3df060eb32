import ScriptFold.Pool
import ScriptFold.Tree.Path
import ScriptFold.Walk.Stage

/-!
The state of a folding run, and the operations of rules on it.
-/

namespace ScriptFold

inductive Rule where
  | unreachableTail
  | expressionStatements
  | conditionalExpr
  | logicalExpr
  | binaryExpr
  | unaryExpr
  | sequenceExpr
  | memberExpr
  | emptyStatements
  | ifStatement
  | loops
  | booleanLiterals
  deriving DecidableEq, Repr, Inhabited

instance : Vocabulary Rule where
  all := [.unreachableTail, .expressionStatements, .conditionalExpr, .logicalExpr, .binaryExpr,
    .unaryExpr, .sequenceExpr, .memberExpr, .emptyStatements, .ifStatement, .loops,
    .booleanLiterals]
  spelling
    | .unreachableTail => "unreachable-tail"
    | .expressionStatements => "expression-statements"
    | .conditionalExpr => "conditional-expr"
    | .logicalExpr => "logical-expr"
    | .binaryExpr => "binary-expr"
    | .unaryExpr => "unary-expr"
    | .sequenceExpr => "sequence-expr"
    | .memberExpr => "member-expr"
    | .emptyStatements => "empty-statements"
    | .ifStatement => "if-statement"
    | .loops => "loops"
    | .booleanLiterals => "boolean-literals"

instance : LawfulVocabulary Rule := ⟨by intro a; cases a <;> decide, by decide⟩

structure Stats where
  /-- Rounds walked, with the last one that changed nothing. -/
  rounds : Nat := 0
  /-- Changes made, by all rules together. -/
  changes : Nat := 0
  /-- Changes made by each rule that made any. -/
  counts : List (Rule × Nat) := []
  deriving DecidableEq, Inhabited

namespace Stats

def hits (s : Stats) (rule : Rule) : Nat :=
  (s.counts.lookup rule).getD 0

def hitsNamed (s : Stats) (name : String) : Nat :=
  (unspell? Rule name).elim 0 s.hits

def bump (rule : Rule) : List (Rule × Nat) → List (Rule × Nat)
  | [] => [(rule, 1)]
  | (r, n) :: rest => if r = rule then (r, n + 1) :: rest else (r, n) :: bump rule rest

def record (s : Stats) (rule : Rule) : Stats :=
  { s with changes := s.changes + 1, counts := bump rule s.counts }

end Stats

structure FoldState extends Store where
  stats : Stats := {}

instance : HasTree FoldState where
  tree s := s.tree

abbrev FoldM := WalkM FoldError FoldState

namespace FoldM

def edit {α : Type} (f : Tree → Except TreeError (α × Tree)) : FoldM α := fun s =>
  match f s.tree with
  | .ok (a, tree) => .ok a { s with tree }
  | .error e => .error (.error (.tree e)) s

def store {α : Type} (f : Store → α × Store) : FoldM α := fun s =>
  let (a, store) := f s.toStore
  .ok a { s with toStore := store }

def tryStore {α : Type} (f : EStateM FoldError Store α) : FoldM α := fun s =>
  match f s.toStore with
  | .ok a store => .ok a { s with toStore := store }
  | .error e store => .error (.error e) { s with toStore := store }

def node (id : NodeId) : FoldM (Node NodeId) := do
  return (← get).tree.node id

def alloc (node : Node NodeId) : FoldM NodeId :=
  edit fun tree => .ok (tree.alloc node)

def isConstant (id : NodeId) : FoldM Bool := do
  return (← get).isConstant id

def constant? (id : NodeId) : FoldM (Option Value) := do
  let s ← get
  if s.isConstant id then
    match s.valueOf id with
    | .ok v => return some v
    | .error e => throw (.error e)
  else return none

def toConst (v : Value) : FoldM NodeId :=
  tryStore v.toNode

def emptyStatement : FoldM NodeId :=
  store Store.emptyStatement

def expressionStatement (expression : NodeId) : FoldM NodeId :=
  alloc (.expressionStatement expression none)

def write (parent : Ref) (key : Key) (new : Option NodeId) : FoldM Bool :=
  edit fun tree => tree.write parent key new

def splice (list : Ref) (start stop : Nat) (new : List NodeId) : FoldM Unit :=
  edit fun tree => (tree.splice list start stop new).map fun tree => ((), tree)

def modifyNode (id : NodeId) (change : Node NodeId → Node NodeId) : FoldM Unit :=
  edit fun tree => (tree.modifyNode id change).map fun tree => ((), tree)

/-- Puts a node into the slot of a path, and gives the path to walk again. -/
def replace (path : Path) (id : NodeId) : FoldM Path :=
  edit fun tree => tree.replace path id

def remove (path : Path) : FoldM Unit :=
  edit fun tree => (tree.remove path).map fun tree => ((), tree)

end FoldM

end ScriptFold

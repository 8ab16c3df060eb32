import Std.Data.HashMap
import ScriptFold.Tree.Edit
import ScriptFold.Value.Basic

/-!
Constant nodes. A `Pool` keeps the nodes it made for constants: each is frozen and shared, there
is one for each primitive value, and its value is remembered. That is how `void 0` made here is
told from the same expression in a program.
-/

namespace ScriptFold

inductive FoldError where
  /-- The node has no value known before the program runs. -/
  | notConstant (id : NodeId)
  /-- No expression is a constant of this value. -/
  | notRepresentable (value : String)
  | tree (error : TreeError)
  deriving DecidableEq

def FoldError.message : FoldError → String
  | .notConstant id => "node #" ++ Nat.repr id ++ " is not a compile-time constant"
  | .notRepresentable value => "value " ++ value ++ " has no constant expression form"
  | .tree error => error.message

/-- Constants that are made once. Numbers are told apart by their bits. -/
inductive Constant where
  | null
  | bool (value : Bool)
  | number (bits : UInt64)
  /-- The negation of the number with these bits. -/
  | negated (bits : UInt64)
  | string (value : String)
  deriving DecidableEq, Hashable

namespace Constant

def value : Constant → Value
  | .null => .null
  | .bool b => .bool b
  | .number bits => .number (Float.ofBits bits)
  | .negated bits => .number (-Float.ofBits bits)
  | .string s => .string s

/-- The literal of a constant; of a negation, the literal that is negated. -/
def literal : Constant → Literal
  | .null => .null
  | .bool b => .bool b
  | .number bits | .negated bits => .number (Float.ofBits bits)
  | .string s => .string s

def ofNumber (x : Float) : Constant :=
  if isNegative x then .negated (-x).toBits else .number x.toBits

end Constant

structure Pool where
  interned : Std.HashMap Constant NodeId := {}
  /-- The values of the nodes made here. -/
  values : Std.HashMap NodeId Value := {}
  undefined : Option NodeId := none
  nan : Option NodeId := none
  emptyStatement : Option NodeId := none
  minifiedTrue : Option NodeId := none
  minifiedFalse : Option NodeId := none

/-- A tree together with the pool of its constants. -/
structure Store where
  tree : Tree
  pool : Pool := {}

namespace Store

/-- Adds a frozen node, and remembers its value if it has one. -/
def freeze (s : Store) (node : Node NodeId) (value : Option Value) (minified : Bool := false) :
    NodeId × Store :=
  let ⟨tree, pool⟩ := s
  let (id, tree) := tree.alloc node { frozen := true, minified := minified }
  match value with
  | none => (id, ⟨tree, pool⟩)
  | some v => (id, ⟨tree, { pool with values := pool.values.insert id v }⟩)

def addConstant (s : Store) (c : Constant) (node : Node NodeId) : NodeId × Store :=
  let (id, ⟨tree, pool⟩) := s.freeze node (some c.value)
  (id, ⟨tree, { pool with interned := pool.interned.insert c id }⟩)

def internLiteral (s : Store) (c : Constant) : NodeId × Store :=
  match s.pool.interned[c]? with
  | some id => (id, s)
  | none => s.addConstant c (.literal c.literal)

def intern (s : Store) (c : Constant) : NodeId × Store :=
  match c with
  | .negated bits =>
    match s.pool.interned[c]? with
    | some id => (id, s)
    | none =>
      -- what is negated is shared as well
      let (argument, s) := s.internLiteral (.number bits)
      s.addConstant c (.unaryExpression .minus argument)
  | c => s.internLiteral c

def null (s : Store) : NodeId × Store :=
  s.intern .null

def zero (s : Store) : NodeId × Store :=
  s.intern (.number (0 : Float).toBits)

def negativeZero (s : Store) : NodeId × Store :=
  s.intern (.negated (0 : Float).toBits)

def undefined (s : Store) : NodeId × Store :=
  match s.pool.undefined with
  | some id => (id, s)
  | none =>
    let (argument, s) := s.zero
    let (id, ⟨tree, pool⟩) := s.freeze (.unaryExpression .void argument) (some .undefined)
    (id, ⟨tree, { pool with undefined := some id }⟩)

def nan (s : Store) : NodeId × Store :=
  match s.pool.nan with
  | some id => (id, s)
  | none =>
    let (operand, s) := s.zero
    let (id, ⟨tree, pool⟩) :=
      s.freeze (.binaryExpression .div operand operand) (some (.number (0 / 0)))
    (id, ⟨tree, { pool with nan := some id }⟩)

def emptyStatement (s : Store) : NodeId × Store :=
  match s.pool.emptyStatement with
  | some id => (id, s)
  | none =>
    let (id, ⟨tree, pool⟩) := s.freeze .emptyStatement none
    (id, ⟨tree, { pool with emptyStatement := some id }⟩)

def minifiedBool (s : Store) (b : Bool) : NodeId × Store :=
  match if b then s.pool.minifiedTrue else s.pool.minifiedFalse with
  | some id => (id, s)
  | none =>
    let (argument, s) := s.intern (.number (if b then 0 else 1 : Float).toBits)
    let (id, ⟨tree, pool⟩) := s.freeze (.unaryExpression .not argument) (some (.bool b)) true
    (id, ⟨tree, if b then { pool with minifiedTrue := some id }
      else { pool with minifiedFalse := some id }⟩)

def isUndefined (s : Store) (id : NodeId) : Bool :=
  s.pool.undefined = some id

def isNan (s : Store) (id : NodeId) : Bool :=
  s.pool.nan = some id

def isEmptyStatement (s : Store) (id : NodeId) : Bool :=
  s.pool.emptyStatement = some id

/-- Whether a node is constant, looking no deeper than a given depth. -/
def isConstantTo (s : Store) : Nat → NodeId → Bool
  | 0, _ => false
  | depth + 1, id =>
    s.pool.values.contains id ||
      match s.tree.node id with
      | .literal (.regExp ..) => false
      | .literal _ => true
      | .unaryExpression .minus argument => (s.tree.node argument).isNumber
      | .arrayExpression elements =>
        elements.all fun element => element.all (s.isConstantTo depth)
      | _ => false

/-- Whether a node has a value known before the program runs: a literal that is no regular
expression, the negation of a number literal, an array of constants and holes, or a node of the
pool with a value. -/
def isConstant (s : Store) (id : NodeId) : Bool :=
  s.isConstantTo s.tree.size id

def valueTo (s : Store) : Nat → NodeId → Except FoldError Value
  | 0, id => .error (.notConstant id)
  | depth + 1, id =>
    match s.pool.values[id]? with
    | some v => .ok v
    | none =>
      match s.tree.node id with
      | .literal .null => .ok .null
      | .literal (.bool b) => .ok (.bool b)
      | .literal (.number x) => .ok (.number x)
      | .literal (.string text) => .ok (.string text)
      | .unaryExpression .minus argument =>
        match s.tree.node argument with
        | .literal (.number x) => .ok (.number (-x))
        | _ => .error (.notConstant id)
      | .arrayExpression elements =>
        .array <$> elements.mapM fun element => element.mapM (s.valueTo depth)
      | _ => .error (.notConstant id)

def valueOf (s : Store) (id : NodeId) : Except FoldError Value :=
  s.valueTo s.tree.size id

end Store

namespace Value

mutual

/-- The node of a value. Primitive values share their nodes and an array gets a new one; an
infinite number has none. What was added before a failure stays. -/
def toNode : Value → EStateM FoldError Store NodeId
  | .undefined => modifyGet Store.undefined
  | .null => modifyGet Store.null
  | .bool b => modifyGet fun s => s.intern (.bool b)
  | .string text => modifyGet fun s => s.intern (.string text)
  | .number x =>
    if x.isNaN then modifyGet Store.nan
    else if !x.isFinite then throw (.notRepresentable (numberToString x))
    else modifyGet fun s => s.intern (.ofNumber x)
  | .array items => do
    let elements ← itemNodes items
    modifyGet fun s => s.freeze (.arrayExpression elements) (some (.array items))

def itemNodes : List (Option Value) → EStateM FoldError Store (List (Option NodeId))
  | [] => return []
  | item :: rest => do
    let node ← itemNode item
    return node :: (← itemNodes rest)

def itemNode : Option Value → EStateM FoldError Store (Option NodeId)
  | none => return none
  | some v => do return some (← toNode v)

end

end Value

end ScriptFold

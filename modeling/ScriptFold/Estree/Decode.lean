import ScriptFold.Json
import ScriptFold.Syntax.Term

/-!
Reading a program from its ESTree form.

A member whose value is `null` counts as absent, an absent list as empty and an absent flag as
false. Members that a node kind does not use are not looked at.
-/

namespace ScriptFold

inductive ImportError where
  /-- The value is no object, or has no `type`. -/
  | missingType
  | unknownType (name : String)
  | missingField (kind : Kind) (field : String)
  | invalidField (kind : Kind) (field : String)
  | unknownOperator (kind : Kind) (operator : String)
  /-- The outermost node is not a program. -/
  | notProgram (name : String)
  deriving DecidableEq

def ImportError.message : ImportError → String
  | .missingType => "node has no `type`"
  | .unknownType name => "unsupported node type `" ++ name ++ "`"
  | .missingField kind field => spell kind ++ " is missing `" ++ field ++ "`"
  | .invalidField kind field => spell kind ++ "." ++ field ++ " has the wrong shape"
  | .unknownOperator kind operator =>
    spell kind ++ " has unknown operator `" ++ operator ++ "`"
  | .notProgram name => "root node is " ++ name ++ ", expected Program"

namespace Estree

/-- A member of a node object: its value, and what comes out when that value, or each of its
items, is read as a node. -/
structure Member where
  name : String
  value : Json
  node : Except ImportError Term
  items : List (Json × Except ImportError Term)

structure Record where
  kind : Kind
  members : List Member

namespace Record

/-- The member with a given name, unless it is `null`. -/
def get? (r : Record) (name : String) : Option Member :=
  (r.members.find? fun m => m.name == name).filter fun m => !m.value.isNull

def missing {α : Type} (r : Record) (name : String) : Except ImportError α :=
  .error (.missingField r.kind name)

def invalid {α : Type} (r : Record) (name : String) : Except ImportError α :=
  .error (.invalidField r.kind name)

def required (r : Record) (field : Field) : Except ImportError Term :=
  match r.get? (spell field) with
  | none => r.missing (spell field)
  | some m => m.node

def optional (r : Record) (field : Field) : Except ImportError (Option Term) :=
  match r.get? (spell field) with
  | none => .ok none
  | some m => some <$> m.node

def items (r : Record) (name : String) :
    Except ImportError (List (Json × Except ImportError Term)) :=
  match r.get? name with
  | none => .ok []
  | some m =>
    match m.value with
    | .arr _ => .ok m.items
    | _ => r.invalid name

def list (r : Record) (field : Field) : Except ImportError (List Term) := do
  (← r.items (spell field)).mapM fun item =>
    if item.1.isNull then r.invalid (spell field) else item.2

def holey (r : Record) (field : Field) : Except ImportError (List (Option Term)) := do
  (← r.items (spell field)).mapM fun item =>
    if item.1.isNull then .ok none else some <$> item.2

def flag (r : Record) (name : String) : Except ImportError Bool :=
  match r.get? name with
  | none => .ok false
  | some m => (m.value.bool?).elim (r.invalid name) .ok

def string? (r : Record) (name : String) : Except ImportError (Option String) :=
  match r.get? name with
  | none => .ok none
  | some m => (m.value.str?).elim (r.invalid name) fun s => .ok (some s)

def string (r : Record) (name : String) : Except ImportError String := do
  match ← r.string? name with
  | none => r.missing name
  | some s => return s

def operator (r : Record) (α : Type) [Vocabulary α] : Except ImportError α := do
  let text ← r.string "operator"
  (unspell? α text).elim (.error (.unknownOperator r.kind text)) .ok

def varKind (r : Record) : Except ImportError VarKind := do
  let text ← r.string "kind"
  (unspell? VarKind text).elim (r.invalid "kind") .ok

def propertyKind (r : Record) : Except ImportError PropertyKind := do
  match ← r.string? "kind" with
  | none => return .init
  | some text => (unspell? PropertyKind text).elim (r.invalid "kind") .ok

/-- A literal is a regular expression if it has a `regex` member, and its `value` otherwise. -/
def literal (r : Record) : Except ImportError Literal :=
  match r.get? "regex" with
  | some regex =>
    let flags := (regex.value.member? "flags").bind Json.str?
    match (regex.value.member? "pattern").bind Json.str? with
    | some pattern => .ok (.regExp pattern (flags.getD ""))
    | none => r.invalid "regex"
  | none =>
    match r.get? "value" with
    | none => .ok .null
    | some m =>
      match m.value with
      | .bool b => .ok (.bool b)
      | .int n => .ok (.number (Float.ofInt n))
      | .float x => .ok (.number x)
      | .str s => .ok (.string s)
      | _ => r.invalid "value"

/-- The node a record describes. Members are read from left to right, and the first fault found
is the one reported. -/
def node (r : Record) : Except ImportError (Node Term) :=
  match r.kind with
  | .program => return .program (← r.list .body)
  | .expressionStatement =>
    return .expressionStatement (← r.required .expression) (← r.string? "directive")
  | .blockStatement => return .blockStatement (← r.list .body)
  | .emptyStatement => return .emptyStatement
  | .debuggerStatement => return .debuggerStatement
  | .withStatement => return .withStatement (← r.required .object) (← r.required .body)
  | .returnStatement => return .returnStatement (← r.optional .argument)
  | .labeledStatement => return .labeledStatement (← r.required .label) (← r.required .body)
  | .breakStatement => return .breakStatement (← r.optional .label)
  | .continueStatement => return .continueStatement (← r.optional .label)
  | .ifStatement =>
    return .ifStatement (← r.required .test) (← r.required .consequent) (← r.optional .alternate)
  | .switchStatement => return .switchStatement (← r.required .discriminant) (← r.list .cases)
  | .switchCase => return .switchCase (← r.optional .test) (← r.list .consequent)
  | .throwStatement => return .throwStatement (← r.required .argument)
  | .tryStatement =>
    return .tryStatement (← r.required .block) (← r.optional .handler) (← r.optional .finalizer)
  | .catchClause => return .catchClause (← r.optional .param) (← r.required .body)
  | .whileStatement => return .whileStatement (← r.required .test) (← r.required .body)
  | .doWhileStatement => return .doWhileStatement (← r.required .body) (← r.required .test)
  | .forStatement =>
    return .forStatement (← r.optional .init) (← r.optional .test) (← r.optional .update)
      (← r.required .body)
  | .forInStatement =>
    return .forInStatement (← r.required .left) (← r.required .right) (← r.required .body)
  | .functionDeclaration =>
    return .functionDeclaration (← r.optional .id) (← r.list .params) (← r.required .body)
      (← r.flag "generator") (← r.flag "async")
  | .variableDeclaration => return .variableDeclaration (← r.list .declarations) (← r.varKind)
  | .variableDeclarator => return .variableDeclarator (← r.required .id) (← r.optional .init)
  | .identifier => return .identifier (← r.string "name")
  | .literal => return .literal (← r.literal)
  | .thisExpression => return .thisExpression
  | .arrayExpression => return .arrayExpression (← r.holey .elements)
  | .objectExpression => return .objectExpression (← r.list .properties)
  | .property =>
    return .property (← r.required .key) (← r.required .value) (← r.propertyKind)
      (← r.flag "computed") (← r.flag "method") (← r.flag "shorthand")
  | .functionExpression =>
    return .functionExpression (← r.optional .id) (← r.list .params) (← r.required .body)
      (← r.flag "generator") (← r.flag "async")
  | .arrowFunctionExpression =>
    return .arrowFunctionExpression (← r.list .params) (← r.required .body) (← r.flag "expression")
      (← r.flag "async")
  | .unaryExpression => return .unaryExpression (← r.operator UnaryOp) (← r.required .argument)
  | .updateExpression =>
    return .updateExpression (← r.operator UpdateOp) (← r.required .argument) (← r.flag "prefix")
  | .binaryExpression =>
    return .binaryExpression (← r.operator BinaryOp) (← r.required .left) (← r.required .right)
  | .logicalExpression =>
    return .logicalExpression (← r.operator LogicalOp) (← r.required .left) (← r.required .right)
  | .assignmentExpression =>
    return .assignmentExpression (← r.operator AssignOp) (← r.required .left) (← r.required .right)
  | .conditionalExpression =>
    return .conditionalExpression (← r.required .test) (← r.required .consequent)
      (← r.required .alternate)
  | .callExpression => return .callExpression (← r.required .callee) (← r.list .arguments)
  | .newExpression => return .newExpression (← r.required .callee) (← r.list .arguments)
  | .memberExpression =>
    return .memberExpression (← r.required .object) (← r.required .property) (← r.flag "computed")
  | .sequenceExpression => return .sequenceExpression (← r.list .expressions)

end Record

mutual

def readTerm : Json → Except ImportError Term
  | .obj members =>
    match members.lookup "type" with
    | some (.str name) =>
      match unspell? Kind name with
      | some kind => Term.mk <$> (Record.mk kind (readMembers members)).node
      | none => .error (.unknownType name)
    | _ => .error .missingType
  | _ => .error .missingType

def readMembers : List (String × Json) → List Member
  | [] => []
  | (name, value) :: rest => ⟨name, value, readTerm value, readItems value⟩ :: readMembers rest

def readItems : Json → List (Json × Except ImportError Term)
  | .arr items => readList items
  | _ => []

def readList : List Json → List (Json × Except ImportError Term)
  | [] => []
  | item :: rest => (item, readTerm item) :: readList rest

end

end Estree

def Term.ofJson (json : Json) : Except ImportError Term :=
  match json.member? "type" with
  | some (.str name) =>
    if name = spell Kind.program then Estree.readTerm json else .error (.notProgram name)
  | _ => .error .missingType

end ScriptFold

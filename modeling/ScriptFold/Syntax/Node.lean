import ScriptFold.Syntax.Field
import ScriptFold.Syntax.Operator

/-!
Nodes of the supported grammar: the statements and expressions of ECMAScript 5 together with arrow
functions, as ESTree names them.

A `Node α` is one node whose children are of type `α`: identifiers of other nodes when nodes live
in a table, whole subtrees when the program is a tree. `slots` is the view through which children
are read and `traverse` the way they are rebuilt; every other operation on children goes through
these two.
-/

namespace ScriptFold

inductive Literal where
  | null
  | bool (value : Bool)
  | number (value : Float)
  | string (value : String)
  | regExp (pattern flags : String)
  deriving DecidableEq, Inhabited

inductive Kind where
  | program | expressionStatement | blockStatement | emptyStatement | debuggerStatement
  | withStatement | returnStatement | labeledStatement | breakStatement | continueStatement
  | ifStatement | switchStatement | switchCase | throwStatement | tryStatement | catchClause
  | whileStatement | doWhileStatement | forStatement | forInStatement | functionDeclaration
  | variableDeclaration | variableDeclarator | identifier | literal | thisExpression
  | arrayExpression | objectExpression | property | functionExpression | arrowFunctionExpression
  | unaryExpression | updateExpression | binaryExpression | logicalExpression
  | assignmentExpression | conditionalExpression | callExpression | newExpression
  | memberExpression | sequenceExpression
  deriving DecidableEq, Repr, Inhabited

instance : Vocabulary Kind where
  all := [
    .program, .expressionStatement, .blockStatement, .emptyStatement, .debuggerStatement,
    .withStatement, .returnStatement, .labeledStatement, .breakStatement, .continueStatement,
    .ifStatement, .switchStatement, .switchCase, .throwStatement, .tryStatement, .catchClause,
    .whileStatement, .doWhileStatement, .forStatement, .forInStatement, .functionDeclaration,
    .variableDeclaration, .variableDeclarator, .identifier, .literal, .thisExpression,
    .arrayExpression, .objectExpression, .property, .functionExpression, .arrowFunctionExpression,
    .unaryExpression, .updateExpression, .binaryExpression, .logicalExpression,
    .assignmentExpression, .conditionalExpression, .callExpression, .newExpression,
    .memberExpression, .sequenceExpression]
  spelling
    | .program => "Program"
    | .expressionStatement => "ExpressionStatement"
    | .blockStatement => "BlockStatement"
    | .emptyStatement => "EmptyStatement"
    | .debuggerStatement => "DebuggerStatement"
    | .withStatement => "WithStatement"
    | .returnStatement => "ReturnStatement"
    | .labeledStatement => "LabeledStatement"
    | .breakStatement => "BreakStatement"
    | .continueStatement => "ContinueStatement"
    | .ifStatement => "IfStatement"
    | .switchStatement => "SwitchStatement"
    | .switchCase => "SwitchCase"
    | .throwStatement => "ThrowStatement"
    | .tryStatement => "TryStatement"
    | .catchClause => "CatchClause"
    | .whileStatement => "WhileStatement"
    | .doWhileStatement => "DoWhileStatement"
    | .forStatement => "ForStatement"
    | .forInStatement => "ForInStatement"
    | .functionDeclaration => "FunctionDeclaration"
    | .variableDeclaration => "VariableDeclaration"
    | .variableDeclarator => "VariableDeclarator"
    | .identifier => "Identifier"
    | .literal => "Literal"
    | .thisExpression => "ThisExpression"
    | .arrayExpression => "ArrayExpression"
    | .objectExpression => "ObjectExpression"
    | .property => "Property"
    | .functionExpression => "FunctionExpression"
    | .arrowFunctionExpression => "ArrowFunctionExpression"
    | .unaryExpression => "UnaryExpression"
    | .updateExpression => "UpdateExpression"
    | .binaryExpression => "BinaryExpression"
    | .logicalExpression => "LogicalExpression"
    | .assignmentExpression => "AssignmentExpression"
    | .conditionalExpression => "ConditionalExpression"
    | .callExpression => "CallExpression"
    | .newExpression => "NewExpression"
    | .memberExpression => "MemberExpression"
    | .sequenceExpression => "SequenceExpression"

instance : LawfulVocabulary Kind := ⟨by intro a; cases a <;> decide, by decide⟩

/-- One node with children of type `α`. Arguments are in the order in which they are read. -/
inductive Node (α : Type) where
  | program (body : List α)
  | expressionStatement (expression : α) (directive : Option String)
  | blockStatement (body : List α)
  | emptyStatement
  | debuggerStatement
  | withStatement (object : α) (body : α)
  | returnStatement (argument : Option α)
  | labeledStatement (label : α) (body : α)
  | breakStatement (label : Option α)
  | continueStatement (label : Option α)
  | ifStatement (test : α) (consequent : α) (alternate : Option α)
  | switchStatement (discriminant : α) (cases : List α)
  | switchCase (test : Option α) (consequent : List α)
  | throwStatement (argument : α)
  | tryStatement (block : α) (handler : Option α) (finalizer : Option α)
  | catchClause (param : Option α) (body : α)
  | whileStatement (test : α) (body : α)
  | doWhileStatement (body : α) (test : α)
  | forStatement (init : Option α) (test : Option α) (update : Option α) (body : α)
  | forInStatement (left : α) (right : α) (body : α)
  | functionDeclaration (id : Option α) (params : List α) (body : α) (generator : Bool)
      (async : Bool)
  | variableDeclaration (declarations : List α) (kind : VarKind)
  | variableDeclarator (id : α) (init : Option α)
  | identifier (name : String)
  | literal (value : Literal)
  | thisExpression
  | arrayExpression (elements : List (Option α))
  | objectExpression (properties : List α)
  | property (key : α) (value : α) (kind : PropertyKind) (computed : Bool) (method : Bool)
      (shorthand : Bool)
  | functionExpression (id : Option α) (params : List α) (body : α) (generator : Bool)
      (async : Bool)
  | arrowFunctionExpression (params : List α) (body : α) (expression : Bool) (async : Bool)
  | unaryExpression (operator : UnaryOp) (argument : α)
  | updateExpression (operator : UpdateOp) (argument : α) (before : Bool)
  | binaryExpression (operator : BinaryOp) (left : α) (right : α)
  | logicalExpression (operator : LogicalOp) (left : α) (right : α)
  | assignmentExpression (operator : AssignOp) (left : α) (right : α)
  | conditionalExpression (test : α) (consequent : α) (alternate : α)
  | callExpression (callee : α) (arguments : List α)
  | newExpression (callee : α) (arguments : List α)
  | memberExpression (object : α) (prop : α) (computed : Bool)
  | sequenceExpression (expressions : List α)
  deriving DecidableEq, Inhabited

/-- A place for children: exactly one, at most one, or a list with or without holes. -/
inductive Slot (α : Type) where
  | required (child : α)
  | optional (child : Option α)
  | list (children : List α)
  | holey (children : List (Option α))
  deriving DecidableEq

def Slot.items? {α : Type} : Slot α → Option (List (Option α))
  | .required _ | .optional _ => none
  | .list children => some (children.map some)
  | .holey children => some children

def Slot.children {α : Type} : Slot α → List α
  | .required child => [child]
  | .optional child => child.toList
  | .list children => children
  | .holey children => children.filterMap id

/-- What to do with each slot of a node on the way to a node with other children. -/
structure Visitor (m : Type → Type) (α β : Type) where
  required : Field → α → m β
  optional : Field → Option α → m (Option β)
  list : Field → List α → m (List β)
  holey : Field → List (Option α) → m (List (Option β))

def Visitor.each {m : Type → Type} [Monad m] {α β : Type} (f : α → m β) : Visitor m α β where
  required _ child := f child
  optional _ child := child.mapM f
  list _ children := children.mapM f
  holey _ children := children.mapM fun child => child.mapM f

def Visitor.plain {α β : Type} (f : α → β) : Visitor Id α β where
  required _ child := f child
  optional _ child := child.map f
  list _ children := children.map f
  holey _ children := children.map (Option.map f)

namespace Node

variable {α β : Type}

def kind : Node α → Kind
  | .program .. => .program
  | .expressionStatement .. => .expressionStatement
  | .blockStatement .. => .blockStatement
  | .emptyStatement => .emptyStatement
  | .debuggerStatement => .debuggerStatement
  | .withStatement .. => .withStatement
  | .returnStatement .. => .returnStatement
  | .labeledStatement .. => .labeledStatement
  | .breakStatement .. => .breakStatement
  | .continueStatement .. => .continueStatement
  | .ifStatement .. => .ifStatement
  | .switchStatement .. => .switchStatement
  | .switchCase .. => .switchCase
  | .throwStatement .. => .throwStatement
  | .tryStatement .. => .tryStatement
  | .catchClause .. => .catchClause
  | .whileStatement .. => .whileStatement
  | .doWhileStatement .. => .doWhileStatement
  | .forStatement .. => .forStatement
  | .forInStatement .. => .forInStatement
  | .functionDeclaration .. => .functionDeclaration
  | .variableDeclaration .. => .variableDeclaration
  | .variableDeclarator .. => .variableDeclarator
  | .identifier .. => .identifier
  | .literal .. => .literal
  | .thisExpression => .thisExpression
  | .arrayExpression .. => .arrayExpression
  | .objectExpression .. => .objectExpression
  | .property .. => .property
  | .functionExpression .. => .functionExpression
  | .arrowFunctionExpression .. => .arrowFunctionExpression
  | .unaryExpression .. => .unaryExpression
  | .updateExpression .. => .updateExpression
  | .binaryExpression .. => .binaryExpression
  | .logicalExpression .. => .logicalExpression
  | .assignmentExpression .. => .assignmentExpression
  | .conditionalExpression .. => .conditionalExpression
  | .callExpression .. => .callExpression
  | .newExpression .. => .newExpression
  | .memberExpression .. => .memberExpression
  | .sequenceExpression .. => .sequenceExpression

/-- The slots of a node with their fields, in the order of the fields' names. -/
def slots : Node α → List (Field × Slot α)
  | .program body => [(.body, .list body)]
  | .expressionStatement expression _ => [(.expression, .required expression)]
  | .blockStatement body => [(.body, .list body)]
  | .emptyStatement => []
  | .debuggerStatement => []
  | .withStatement object body => [(.body, .required body), (.object, .required object)]
  | .returnStatement argument => [(.argument, .optional argument)]
  | .labeledStatement label body => [(.body, .required body), (.label, .required label)]
  | .breakStatement label => [(.label, .optional label)]
  | .continueStatement label => [(.label, .optional label)]
  | .ifStatement test consequent alternate =>
    [(.alternate, .optional alternate), (.consequent, .required consequent),
      (.test, .required test)]
  | .switchStatement discriminant cases =>
    [(.cases, .list cases), (.discriminant, .required discriminant)]
  | .switchCase test consequent => [(.consequent, .list consequent), (.test, .optional test)]
  | .throwStatement argument => [(.argument, .required argument)]
  | .tryStatement block handler finalizer =>
    [(.block, .required block), (.finalizer, .optional finalizer), (.handler, .optional handler)]
  | .catchClause param body => [(.body, .required body), (.param, .optional param)]
  | .whileStatement test body => [(.body, .required body), (.test, .required test)]
  | .doWhileStatement body test => [(.body, .required body), (.test, .required test)]
  | .forStatement init test update body =>
    [(.body, .required body), (.init, .optional init), (.test, .optional test),
      (.update, .optional update)]
  | .forInStatement left right body =>
    [(.body, .required body), (.left, .required left), (.right, .required right)]
  | .functionDeclaration id params body _ _ =>
    [(.body, .required body), (.id, .optional id), (.params, .list params)]
  | .variableDeclaration declarations _ => [(.declarations, .list declarations)]
  | .variableDeclarator id init => [(.id, .required id), (.init, .optional init)]
  | .identifier _ => []
  | .literal _ => []
  | .thisExpression => []
  | .arrayExpression elements => [(.elements, .holey elements)]
  | .objectExpression properties => [(.properties, .list properties)]
  | .property key value _ _ _ _ => [(.key, .required key), (.value, .required value)]
  | .functionExpression id params body _ _ =>
    [(.body, .required body), (.id, .optional id), (.params, .list params)]
  | .arrowFunctionExpression params body _ _ => [(.body, .required body), (.params, .list params)]
  | .unaryExpression _ argument => [(.argument, .required argument)]
  | .updateExpression _ argument _ => [(.argument, .required argument)]
  | .binaryExpression _ left right => [(.left, .required left), (.right, .required right)]
  | .logicalExpression _ left right => [(.left, .required left), (.right, .required right)]
  | .assignmentExpression _ left right => [(.left, .required left), (.right, .required right)]
  | .conditionalExpression test consequent alternate =>
    [(.alternate, .required alternate), (.consequent, .required consequent),
      (.test, .required test)]
  | .callExpression callee arguments => [(.arguments, .list arguments), (.callee, .required callee)]
  | .newExpression callee arguments => [(.arguments, .list arguments), (.callee, .required callee)]
  | .memberExpression object prop _ =>
    [(.object, .required object), (.property, .required prop)]
  | .sequenceExpression expressions => [(.expressions, .list expressions)]

/-- Rebuilds a node slot by slot, in the order in which its slots are read. -/
def traverse {m : Type → Type} [Monad m] (v : Visitor m α β) : Node α → m (Node β)
  | .program body => return .program (← v.list .body body)
  | .expressionStatement expression directive =>
    return .expressionStatement (← v.required .expression expression) directive
  | .blockStatement body => return .blockStatement (← v.list .body body)
  | .emptyStatement => return .emptyStatement
  | .debuggerStatement => return .debuggerStatement
  | .withStatement object body =>
    return .withStatement (← v.required .object object) (← v.required .body body)
  | .returnStatement argument => return .returnStatement (← v.optional .argument argument)
  | .labeledStatement label body =>
    return .labeledStatement (← v.required .label label) (← v.required .body body)
  | .breakStatement label => return .breakStatement (← v.optional .label label)
  | .continueStatement label => return .continueStatement (← v.optional .label label)
  | .ifStatement test consequent alternate =>
    return .ifStatement (← v.required .test test) (← v.required .consequent consequent)
      (← v.optional .alternate alternate)
  | .switchStatement discriminant cases =>
    return .switchStatement (← v.required .discriminant discriminant) (← v.list .cases cases)
  | .switchCase test consequent =>
    return .switchCase (← v.optional .test test) (← v.list .consequent consequent)
  | .throwStatement argument => return .throwStatement (← v.required .argument argument)
  | .tryStatement block handler finalizer =>
    return .tryStatement (← v.required .block block) (← v.optional .handler handler)
      (← v.optional .finalizer finalizer)
  | .catchClause param body =>
    return .catchClause (← v.optional .param param) (← v.required .body body)
  | .whileStatement test body =>
    return .whileStatement (← v.required .test test) (← v.required .body body)
  | .doWhileStatement body test =>
    return .doWhileStatement (← v.required .body body) (← v.required .test test)
  | .forStatement init test update body =>
    return .forStatement (← v.optional .init init) (← v.optional .test test)
      (← v.optional .update update) (← v.required .body body)
  | .forInStatement left right body =>
    return .forInStatement (← v.required .left left) (← v.required .right right)
      (← v.required .body body)
  | .functionDeclaration id params body generator async =>
    return .functionDeclaration (← v.optional .id id) (← v.list .params params)
      (← v.required .body body) generator async
  | .variableDeclaration declarations kind =>
    return .variableDeclaration (← v.list .declarations declarations) kind
  | .variableDeclarator id init =>
    return .variableDeclarator (← v.required .id id) (← v.optional .init init)
  | .identifier name => return .identifier name
  | .literal value => return .literal value
  | .thisExpression => return .thisExpression
  | .arrayExpression elements => return .arrayExpression (← v.holey .elements elements)
  | .objectExpression properties => return .objectExpression (← v.list .properties properties)
  | .property key value kind computed method shorthand =>
    return .property (← v.required .key key)
      (← v.required .value value) kind computed method shorthand
  | .functionExpression id params body generator async =>
    return .functionExpression (← v.optional .id id) (← v.list .params params)
      (← v.required .body body) generator async
  | .arrowFunctionExpression params body expression async =>
    return .arrowFunctionExpression (← v.list .params params)
      (← v.required .body body) expression async
  | .unaryExpression operator argument =>
    return .unaryExpression operator (← v.required .argument argument)
  | .updateExpression operator argument before =>
    return .updateExpression operator (← v.required .argument argument) before
  | .binaryExpression operator left right =>
    return .binaryExpression operator (← v.required .left left) (← v.required .right right)
  | .logicalExpression operator left right =>
    return .logicalExpression operator (← v.required .left left) (← v.required .right right)
  | .assignmentExpression operator left right =>
    return .assignmentExpression operator (← v.required .left left) (← v.required .right right)
  | .conditionalExpression test consequent alternate =>
    return .conditionalExpression (← v.required .test test)
      (← v.required .consequent consequent) (← v.required .alternate alternate)
  | .callExpression callee arguments =>
    return .callExpression (← v.required .callee callee) (← v.list .arguments arguments)
  | .newExpression callee arguments =>
    return .newExpression (← v.required .callee callee) (← v.list .arguments arguments)
  | .memberExpression object prop computed =>
    return .memberExpression (← v.required .object object)
      (← v.required .property prop) computed
  | .sequenceExpression expressions =>
    return .sequenceExpression (← v.list .expressions expressions)

def map (f : α → β) (n : Node α) : Node β :=
  Id.run (n.traverse (Visitor.plain f))

def fields (n : Node α) : List Field :=
  n.slots.map Prod.fst

def slot? (n : Node α) (field : Field) : Option (Slot α) :=
  n.slots.lookup field

def children (n : Node α) : List α :=
  n.slots.flatMap fun entry => entry.2.children

/-- Puts `slot` in the place of the slot of `field`, where that has the same shape. -/
def setSlot (n : Node α) (field : Field) (slot : Slot α) : Node α :=
  Id.run <| n.traverse
    { required := fun f old =>
        match slot with
        | .required new => if f = field then new else old
        | _ => old
      optional := fun f old =>
        match slot with
        | .optional new => if f = field then new else old
        | _ => old
      list := fun f old =>
        match slot with
        | .list new => if f = field then new else old
        | _ => old
      holey := fun f old =>
        match slot with
        | .holey new => if f = field then new else old
        | _ => old }

def isFunction : Node α → Bool
  | .functionDeclaration .. | .functionExpression .. | .arrowFunctionExpression .. => true
  | _ => false

/-- An empty statement or a block without statements. -/
def isEmptyStatement : Node α → Bool
  | .emptyStatement => true
  | .blockStatement body => body.isEmpty
  | _ => false

def isNumber : Node α → Bool
  | .literal (.number _) => true
  | _ => false

def string? : Node α → Option String
  | .literal (.string text) => some text
  | _ => none

theorem fields_nodup (n : Node α) : n.fields.Nodup := by
  cases n <;> simp [fields, slots]

end Node

end ScriptFold

import ScriptFold.Syntax.Term
import ScriptFold.Text.Quoted
import ScriptFold.Number.Text

/-!
Programs as one line of JavaScript, with parentheses where precedence asks for them and a space
between statements.

A node is rendered from its rendered children. What a parent needs to know of a child beside its
text, such as how tightly it binds, is kept in a `Phrase`.
-/

namespace ScriptFold

/-- How tightly an expression binds; a looser one needs parentheses. -/
abbrev Level := Nat

namespace Level

def sequence : Level := 0

def assignment : Level := 1

def conditional : Level := 2

def logical : LogicalOp → Level
  | .or => 3
  | .and => 4

def binary : BinaryOp → Level
  | .bitOr => 5
  | .bitXor => 6
  | .bitAnd => 7
  | .eq | .notEq | .strictEq | .strictNotEq => 8
  | .lt | .ltEq | .gt | .gtEq | .isIn | .instanceOf => 9
  | .shl | .shr | .ushr => 10
  | .add | .sub => 11
  | .mul | .div | .mod => 12
  | .exp => 13

def unary : Level := 14

def trailing : Level := 15

def call : Level := 16

def primary : Level := 17

def ofNode {α : Type} : Node α → Level
  | .sequenceExpression _ => sequence
  | .assignmentExpression .. | .arrowFunctionExpression .. => assignment
  | .conditionalExpression .. => conditional
  | .logicalExpression operator _ _ => logical operator
  | .binaryExpression operator _ _ => binary operator
  | .unaryExpression .. => unary
  | .updateExpression _ _ before => if before then unary else trailing
  | .callExpression .. | .newExpression .. | .memberExpression .. => call
  | _ => primary

end Level

structure Phrase where
  /-- The text without enclosing parentheses. -/
  text : String
  level : Level
  /-- The text in the head of a `for`, where a declaration has no semicolon. -/
  head : String
  isBlock : Bool
  isNumber : Bool

namespace Phrase

def operand (p : Phrase) (least : Level) : String :=
  if p.level < least then "(" ++ p.text ++ ")" else p.text

def separated (separator : String) (texts : List String) : String :=
  separator.intercalate texts

def spaced (ps : List Phrase) : String :=
  separated " " (ps.map text)

def led (ps : List Phrase) : String :=
  String.join (ps.map fun p => " " ++ p.text)

def commaList (ps : List Phrase) : String :=
  separated ", " (ps.map fun p => p.operand Level.assignment)

def after (before : String) (p : Option Phrase) : String :=
  p.elim "" fun p => before ++ p.text

def block (body : List Phrase) : String :=
  if body.isEmpty then "\x7b\x7d" else "\x7b " ++ spaced body ++ " \x7d"

def jump (keyword : String) (argument : Option Phrase) : String :=
  keyword ++ after " " argument ++ ";"

def function (id : Option Phrase) (params : List Phrase) (body : Phrase) : String :=
  "function" ++ after " " id ++ "(" ++ commaList params ++ ") " ++ body.text

def declaration (kind : VarKind) (declarations : List Phrase) : String :=
  spell kind ++ " " ++ separated ", " (declarations.map text)

/-- An expression statement; one that would start like a block or a function declaration is put
in parentheses. -/
def statement (expression : Phrase) : String :=
  let text := expression.text
  if text.startsWith "\x7b" || text.startsWith "function" then "(" ++ text ++ ");" else text ++ ";"

/-- Array elements; a hole at the end needs a comma of its own. -/
def elements (es : List (Option Phrase)) : String :=
  let texts := es.map fun e => e.elim "" fun p => p.operand Level.assignment
  let hole := es.getLast? matches some none
  "[" ++ separated ", " texts ++ (if hole then "," else "") ++ "]"

def object (properties : List Phrase) : String :=
  if properties.isEmpty then "\x7b\x7d" else "\x7b " ++ commaList properties ++ " \x7d"

def property (key value : Phrase) (kind : PropertyKind) (computed shorthand : Bool) : String :=
  let value := value.operand Level.assignment
  if shorthand then value
  else
    let role :=
      match kind with
      | .init => ""
      | .get => "get "
      | .set => "set "
    let key :=
      if computed then "[" ++ key.operand Level.assignment ++ "]" else key.operand Level.primary
    role ++ key ++ ": " ++ value

/-- A unary expression; words, and signs that would run together, are set off by a space. -/
def unary (operator : UnaryOp) (argument : Phrase) : String :=
  let argument := argument.operand Level.unary
  let sign := spell operator
  let gap :=
    match operator with
    | .typeof | .void | .delete => true
    | .minus | .plus => argument.startsWith sign
    | .not | .bitNot => false
  sign ++ (if gap then " " else "") ++ argument

def binary (operator : BinaryOp) (left right : Phrase) : String :=
  let level := Level.binary operator
  let (leftLevel, rightLevel) := if operator = .exp then (level + 1, level) else (level, level + 1)
  left.operand leftLevel ++ " " ++ spell operator ++ " " ++ right.operand rightLevel

def logical (operator : LogicalOp) (left right : Phrase) : String :=
  let level := Level.logical operator
  left.operand level ++ " " ++ spell operator ++ " " ++ right.operand (level + 1)

/-- A member access; a number is put in parentheses, as a dot after it would belong to it. -/
def member (object prop : Phrase) (computed : Bool) : String :=
  let object := if object.isNumber then "(" ++ object.text ++ ")" else object.operand Level.call
  if computed then object ++ "[" ++ prop.text ++ "]"
  else object ++ "." ++ prop.operand Level.primary

def arrow (params : List Phrase) (body : Phrase) : String :=
  "(" ++ commaList params ++ ") => " ++
    if body.isBlock then body.text else body.operand Level.assignment

end Phrase

def Literal.text : Literal → String
  | .null => "null"
  | .bool b => if b then "true" else "false"
  | .number x => NumberStyle.source.text x
  | .string s => literalText s
  | .regExp pattern flags => "/" ++ pattern ++ "/" ++ flags

namespace Source

open Phrase

def textOf : Node Phrase → String
  | .program body => spaced body
  | .expressionStatement expression _ => statement expression
  | .blockStatement body => block body
  | .emptyStatement => ";"
  | .debuggerStatement => "debugger;"
  | .withStatement object body => "with (" ++ object.text ++ ") " ++ body.text
  | .returnStatement argument => jump "return" argument
  | .labeledStatement label body => label.text ++ ": " ++ body.text
  | .breakStatement label => jump "break" label
  | .continueStatement label => jump "continue" label
  | .ifStatement test consequent alternate =>
    "if (" ++ test.text ++ ") " ++ consequent.text ++ after " else " alternate
  | .switchStatement discriminant cases =>
    "switch (" ++ discriminant.text ++ ") \x7b" ++ led cases ++ " \x7d"
  | .switchCase test consequent =>
    (test.elim "default:" fun test => "case " ++ test.text ++ ":") ++ led consequent
  | .throwStatement argument => jump "throw" (some argument)
  | .tryStatement tried handler finalizer =>
    "try " ++ tried.text ++ after " " handler ++ after " finally " finalizer
  | .catchClause param body =>
    "catch " ++ (param.elim "" fun param => "(" ++ param.text ++ ") ") ++ body.text
  | .whileStatement test body => "while (" ++ test.text ++ ") " ++ body.text
  | .doWhileStatement body test => "do " ++ body.text ++ " while (" ++ test.text ++ ");"
  | .forStatement init test update body =>
    "for (" ++ (init.elim "" Phrase.head) ++ ";" ++ after " " test ++ ";" ++ after " " update
      ++ ") " ++ body.text
  | .forInStatement left right body =>
    "for (" ++ left.head ++ " in " ++ right.text ++ ") " ++ body.text
  | .functionDeclaration id params body _ _ => function id params body
  | .variableDeclaration declarations kind => declaration kind declarations ++ ";"
  | .variableDeclarator id init =>
    id.text ++ init.elim "" fun init => " = " ++ init.operand Level.assignment
  | .identifier name => name
  | .literal value => value.text
  | .thisExpression => "this"
  | .arrayExpression es => elements es
  | .objectExpression properties => object properties
  | .property key value kind computed _ shorthand => property key value kind computed shorthand
  | .functionExpression id params body _ _ => function id params body
  | .arrowFunctionExpression params body _ _ => arrow params body
  | .unaryExpression operator argument => unary operator argument
  | .updateExpression operator argument before =>
    if before then spell operator ++ argument.operand Level.unary
    else argument.operand Level.trailing ++ spell operator
  | .binaryExpression operator left right => binary operator left right
  | .logicalExpression operator left right => logical operator left right
  | .assignmentExpression operator left right =>
    left.operand Level.call ++ " " ++ spell operator ++ " " ++ right.operand Level.assignment
  | .conditionalExpression test consequent alternate =>
    test.operand (Level.conditional + 1) ++ " ? " ++ consequent.operand Level.assignment
      ++ " : " ++ alternate.operand Level.assignment
  | .callExpression callee arguments =>
    callee.operand Level.call ++ "(" ++ commaList arguments ++ ")"
  | .newExpression callee arguments =>
    "new " ++ callee.operand Level.primary ++ "(" ++ commaList arguments ++ ")"
  | .memberExpression object prop computed => member object prop computed
  | .sequenceExpression expressions => commaList expressions

def phraseOf (n : Node Phrase) : Phrase :=
  let text := textOf n
  { text
    level := Level.ofNode n
    head :=
      match n with
      | .variableDeclaration declarations kind => declaration kind declarations
      | _ => text
    isBlock := n.kind = .blockStatement
    isNumber := n.isNumber }

end Source

def Term.phrase (t : Term) : Phrase :=
  t.fold Source.phraseOf

def Term.render (t : Term) : String :=
  t.phrase.text

end ScriptFold

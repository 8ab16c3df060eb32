import ScriptFold.Json
import ScriptFold.Syntax.Term
import ScriptFold.Number.Binary

/-!
Writing a program in its ESTree form.
-/

namespace ScriptFold

/-- A number as JSON: an integer below `2 ^ 53` in magnitude is written as one, zero below zero is
not an integer, and what is not finite is `null`. -/
def Json.ofNumber (x : Float) : Json :=
  if !x.isFinite then .null
  else
    match integer? x with
    | some n =>
      if n.natAbs < Nat.pow 2 53 && !(n = 0 && isNegative x) then .int n else .float x
    | none => .float x

namespace Estree

def orNull (json : Option Json) : Json :=
  json.getD .null

def literalMembers : Literal → List (String × Json)
  | .null => [("value", .null)]
  | .bool b => [("value", .bool b)]
  | .number x => [("value", .ofNumber x)]
  | .string s => [("value", .str s)]
  | .regExp pattern flags =>
    [("value", .null), ("regex", .obj [("pattern", .str pattern), ("flags", .str flags)])]

def membersOf : Node Json → List (String × Json)
  | .program body => [("sourceType", .str "script"), ("body", .arr body)]
  | .expressionStatement expression directive =>
    ("expression", expression) :: (directive.map fun text => ("directive", Json.str text)).toList
  | .blockStatement body => [("body", .arr body)]
  | .emptyStatement => []
  | .debuggerStatement => []
  | .withStatement object body => [("object", object), ("body", body)]
  | .returnStatement argument => [("argument", orNull argument)]
  | .labeledStatement label body => [("label", label), ("body", body)]
  | .breakStatement label => [("label", orNull label)]
  | .continueStatement label => [("label", orNull label)]
  | .ifStatement test consequent alternate =>
    [("test", test), ("consequent", consequent), ("alternate", orNull alternate)]
  | .switchStatement discriminant cases => [("discriminant", discriminant), ("cases", .arr cases)]
  | .switchCase test consequent => [("test", orNull test), ("consequent", .arr consequent)]
  | .throwStatement argument => [("argument", argument)]
  | .tryStatement block handler finalizer =>
    [("block", block), ("handler", orNull handler), ("finalizer", orNull finalizer)]
  | .catchClause param body => [("param", orNull param), ("body", body)]
  | .whileStatement test body => [("test", test), ("body", body)]
  | .doWhileStatement body test => [("body", body), ("test", test)]
  | .forStatement init test update body =>
    [("init", orNull init), ("test", orNull test), ("update", orNull update), ("body", body)]
  | .forInStatement left right body =>
    [("left", left), ("right", right), ("body", body), ("each", .bool false)]
  | .functionDeclaration id params body generator async =>
    [("id", orNull id), ("params", .arr params), ("body", body), ("generator", .bool generator),
     ("async", .bool async), ("expression", .bool false)]
  | .variableDeclaration declarations kind =>
    [("declarations", .arr declarations), ("kind", .str (spell kind))]
  | .variableDeclarator id init => [("id", id), ("init", orNull init)]
  | .identifier name => [("name", .str name)]
  | .thisExpression => []
  | .arrayExpression elements => [("elements", .arr (elements.map orNull))]
  | .objectExpression properties => [("properties", .arr properties)]
  | .property key value kind computed method shorthand =>
    [("key", key), ("value", value), ("kind", .str (spell kind)), ("computed", .bool computed),
     ("method", .bool method), ("shorthand", .bool shorthand)]
  | .functionExpression id params body generator async =>
    [("id", orNull id), ("params", .arr params), ("body", body), ("generator", .bool generator),
     ("async", .bool async), ("expression", .bool false)]
  | .arrowFunctionExpression params body expression async =>
    [("id", .null), ("params", .arr params), ("body", body), ("generator", .bool false),
     ("expression", .bool expression), ("async", .bool async)]
  | .unaryExpression operator argument =>
    [("operator", .str (spell operator)), ("argument", argument), ("prefix", .bool true)]
  | .updateExpression operator argument before =>
    [("operator", .str (spell operator)), ("argument", argument), ("prefix", .bool before)]
  | .binaryExpression operator left right =>
    [("operator", .str (spell operator)), ("left", left), ("right", right)]
  | .logicalExpression operator left right =>
    [("operator", .str (spell operator)), ("left", left), ("right", right)]
  | .assignmentExpression operator left right =>
    [("operator", .str (spell operator)), ("left", left), ("right", right)]
  | .conditionalExpression test consequent alternate =>
    [("test", test), ("consequent", consequent), ("alternate", alternate)]
  | .callExpression callee arguments => [("callee", callee), ("arguments", .arr arguments)]
  | .newExpression callee arguments => [("callee", callee), ("arguments", .arr arguments)]
  | .memberExpression object prop computed =>
    [("object", object), ("property", prop), ("computed", .bool computed)]
  | .sequenceExpression expressions => [("expressions", .arr expressions)]
  | .literal value => literalMembers value

def writeNode (n : Node Json) : Json :=
  .obj (("type", .str (spell n.kind)) :: membersOf n)

end Estree

def Term.toJson (t : Term) : Json :=
  t.fold Estree.writeNode

end ScriptFold

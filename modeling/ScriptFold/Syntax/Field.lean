import ScriptFold.Syntax.Spelling

/-!
Names of the fields that hold children, and keys: single steps from a value to one of its children.
-/

namespace ScriptFold

inductive Field where
  | alternate | argument | arguments | block | body | callee | cases | consequent
  | declarations | discriminant | elements | expression | expressions | finalizer | handler
  | id | init | key | label | left | object | param | params | properties | property
  | right | test | update | value
  deriving DecidableEq, Repr, Inhabited

instance : Vocabulary Field where
  all := [.alternate, .argument, .arguments, .block, .body, .callee, .cases, .consequent,
    .declarations, .discriminant, .elements, .expression, .expressions, .finalizer, .handler,
    .id, .init, .key, .label, .left, .object, .param, .params, .properties, .property,
    .right, .test, .update, .value]
  spelling
    | .alternate => "alternate" | .argument => "argument" | .arguments => "arguments"
    | .block => "block" | .body => "body" | .callee => "callee" | .cases => "cases"
    | .consequent => "consequent" | .declarations => "declarations"
    | .discriminant => "discriminant" | .elements => "elements"
    | .expression => "expression" | .expressions => "expressions"
    | .finalizer => "finalizer" | .handler => "handler" | .id => "id" | .init => "init"
    | .key => "key" | .label => "label" | .left => "left" | .object => "object"
    | .param => "param" | .params => "params" | .properties => "properties"
    | .property => "property" | .right => "right" | .test => "test" | .update => "update"
    | .value => "value"

instance : LawfulVocabulary Field := ⟨by intro a; cases a <;> decide, by decide⟩

/-- One step from a value to a child: a field of a node or a position in a list. -/
inductive Key where
  | field (field : Field)
  | index (index : Nat)
  deriving DecidableEq, Repr, Inhabited

namespace Key

def text : Key → String
  | .field f => "." ++ spell f
  | .index i => "[" ++ Nat.repr i ++ "]"

def index? : Key → Option Nat
  | .field _ => none
  | .index i => some i

end Key

end ScriptFold

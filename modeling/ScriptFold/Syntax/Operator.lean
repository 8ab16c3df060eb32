import ScriptFold.Syntax.Spelling

/-!
The operators and declaration keywords of the language, with their ESTree spellings.
-/

namespace ScriptFold

inductive UnaryOp where
  | minus | plus | not | bitNot | typeof | void | delete
  deriving DecidableEq, Repr, Inhabited

inductive BinaryOp where
  | eq | notEq | strictEq | strictNotEq
  | lt | ltEq | gt | gtEq
  | shl | shr | ushr
  | add | sub | mul | div | mod | exp
  | bitOr | bitXor | bitAnd
  | isIn | instanceOf
  deriving DecidableEq, Repr, Inhabited

inductive LogicalOp where
  | and | or
  deriving DecidableEq, Repr, Inhabited

inductive AssignOp where
  | assign
  | add | sub | mul | div | mod | exp
  | shl | shr | ushr
  | bitOr | bitXor | bitAnd
  deriving DecidableEq, Repr, Inhabited

inductive UpdateOp where
  | increment | decrement
  deriving DecidableEq, Repr, Inhabited

inductive VarKind where
  | var | let | const
  deriving DecidableEq, Repr, Inhabited

inductive PropertyKind where
  | init | get | set
  deriving DecidableEq, Repr, Inhabited

instance : Vocabulary UnaryOp where
  all := [.minus, .plus, .not, .bitNot, .typeof, .void, .delete]
  spelling
    | .minus => "-" | .plus => "+" | .not => "!" | .bitNot => "~"
    | .typeof => "typeof" | .void => "void" | .delete => "delete"

instance : Vocabulary BinaryOp where
  all := [.eq, .notEq, .strictEq, .strictNotEq, .lt, .ltEq, .gt, .gtEq, .shl, .shr, .ushr,
    .add, .sub, .mul, .div, .mod, .exp, .bitOr, .bitXor, .bitAnd, .isIn, .instanceOf]
  spelling
    | .eq => "==" | .notEq => "!=" | .strictEq => "===" | .strictNotEq => "!=="
    | .lt => "<" | .ltEq => "<=" | .gt => ">" | .gtEq => ">="
    | .shl => "<<" | .shr => ">>" | .ushr => ">>>"
    | .add => "+" | .sub => "-" | .mul => "*" | .div => "/" | .mod => "%" | .exp => "**"
    | .bitOr => "|" | .bitXor => "^" | .bitAnd => "&"
    | .isIn => "in" | .instanceOf => "instanceof"

instance : Vocabulary LogicalOp where
  all := [.and, .or]
  spelling
    | .and => "&&" | .or => "||"

instance : Vocabulary AssignOp where
  all := [.assign, .add, .sub, .mul, .div, .mod, .exp, .shl, .shr, .ushr, .bitOr, .bitXor,
    .bitAnd]
  spelling
    | .assign => "="
    | .add => "+=" | .sub => "-=" | .mul => "*=" | .div => "/=" | .mod => "%=" | .exp => "**="
    | .shl => "<<=" | .shr => ">>=" | .ushr => ">>>="
    | .bitOr => "|=" | .bitXor => "^=" | .bitAnd => "&="

instance : Vocabulary UpdateOp where
  all := [.increment, .decrement]
  spelling
    | .increment => "++" | .decrement => "--"

instance : Vocabulary VarKind where
  all := [.var, .let, .const]
  spelling
    | .var => "var" | .let => "let" | .const => "const"

instance : Vocabulary PropertyKind where
  all := [.init, .get, .set]
  spelling
    | .init => "init" | .get => "get" | .set => "set"

instance : LawfulVocabulary UnaryOp := ⟨by intro a; cases a <;> decide, by decide⟩

instance : LawfulVocabulary BinaryOp := ⟨by intro a; cases a <;> decide, by decide⟩

instance : LawfulVocabulary LogicalOp := ⟨by intro a; cases a <;> decide, by decide⟩

instance : LawfulVocabulary AssignOp := ⟨by intro a; cases a <;> decide, by decide⟩

instance : LawfulVocabulary UpdateOp := ⟨by intro a; cases a <;> decide, by decide⟩

instance : LawfulVocabulary VarKind := ⟨by intro a; cases a <;> decide, by decide⟩

instance : LawfulVocabulary PropertyKind := ⟨by intro a; cases a <;> decide, by decide⟩

end ScriptFold

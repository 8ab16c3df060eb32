/-!
Settings of folding, and their JSON text.

The text is an object with any of the two members, each at most once, or an array with the
settings in their order, from which the last may be missing. What is missing has its default.
-/

namespace ScriptFold

structure Options where
  /-- The most rounds walked over a program. -/
  maxRounds : Nat := 16
  /-- Whether booleans are written as `!0` and `!1`. -/
  minifyBooleans : Bool := true
  deriving DecidableEq, Repr, Inhabited

namespace Options

/-- Reads a value at the start of a text and gives the rest. -/
abbrev Reader (α : Type) := List Char → Option (α × List Char)

def isSpace (c : Char) : Bool :=
  c == ' ' || c == '\t' || c == '\n' || c == '\r'

def skipSpace (s : List Char) : List Char :=
  s.dropWhile isSpace

def word? : List Char → List Char → Option (List Char)
  | [], s => some s
  | c :: word, d :: s => if c == d then word? word s else none
  | _ :: _, [] => none

def readBool : Reader Bool := fun s =>
  match word? "true".toList s with
  | some rest => some (true, rest)
  | none => (word? "false".toList s).map fun rest => (false, rest)

/-- A natural number below `2 ^ 32` without superfluous zeros, and not part of a longer number. -/
def readCount : Reader Nat := fun s =>
  let digits := s.takeWhile Char.isDigit
  let rest := s.dropWhile Char.isDigit
  let value := digits.foldl (fun n c => 10 * n + (c.toNat - '0'.toNat)) 0
  let continues := rest.head?.any fun c => c == '.' || c == 'e' || c == 'E'
  if digits.isEmpty || (digits.head? = some '0' && digits.length > 1) || continues
    || value ≥ Nat.pow 2 32 then none
  else some (value, rest)

def hexValue? (c : Char) : Option Nat :=
  if c.isDigit then some (c.toNat - '0'.toNat)
  else if 'a' ≤ c && c ≤ 'f' then some (c.toNat - 'a'.toNat + 10)
  else if 'A' ≤ c && c ≤ 'F' then some (c.toNat - 'A'.toNat + 10)
  else none

def escaped? : Char → Option Char
  | '"' => some '"'
  | '\\' => some '\\'
  | '/' => some '/'
  | 'b' => some '\x08'
  | 'f' => some '\x0c'
  | 'n' => some '\n'
  | 'r' => some '\r'
  | 't' => some '\t'
  | _ => none

/-- The rest of a quoted name after its opening quote. A name with a character above U+FFFF is no
name of a setting, so surrogates are refused with all others that cannot stand alone. -/
def readQuoted : Reader (List Char)
  | [] => none
  | '"' :: rest => some ([], rest)
  | '\\' :: 'u' :: a :: b :: c :: d :: rest => do
    let code := (((← hexValue? a) * 16 + (← hexValue? b)) * 16 + (← hexValue? c)) * 16
      + (← hexValue? d)
    guard (code < 0xD800 || 0xDFFF < code)
    let (name, rest) ← readQuoted rest
    return (Char.ofNat code :: name, rest)
  | '\\' :: c :: rest => do
    let c ← escaped? c
    let (name, rest) ← readQuoted rest
    return (c :: name, rest)
  | c :: rest => do
    guard (c ≠ '\\' && 0x20 ≤ c.toNat)
    let (name, rest) ← readQuoted rest
    return (c :: name, rest)

inductive Setting where
  | maxRounds
  | minifyBooleans
  deriving DecidableEq, Repr

def Setting.ofName? (name : List Char) : Option Setting :=
  if name = "max_rounds".toList then some .maxRounds
  else if name = "minify_booleans".toList then some .minifyBooleans
  else none

def readSetting (setting : Setting) (options : Options) : Reader Options := fun s =>
  match setting with
  | .maxRounds => (readCount s).map fun (value, rest) => ({ options with maxRounds := value }, rest)
  | .minifyBooleans =>
    (readBool s).map fun (value, rest) => ({ options with minifyBooleans := value }, rest)

def readMember (seen : List Setting) (options : Options) : Reader (Setting × Options) := fun s => do
  let s ← word? ['"'] (skipSpace s)
  let (name, s) ← readQuoted s
  let setting ← Setting.ofName? name
  -- no setting is given twice
  guard (setting ∉ seen)
  let s ← word? [':'] (skipSpace s)
  let (options, s) ← readSetting setting options (skipSpace s)
  return ((setting, options), s)

/-- The rest of an object after its opening brace. It has at most two members. -/
def readObject (options : Options) : Reader Options := fun s => do
  if let some rest := word? ['\x7d'] (skipSpace s) then return (options, rest)
  let ((first, options), s) ← readMember [] options s
  if let some rest := word? ['\x7d'] (skipSpace s) then return (options, rest)
  let s ← word? [','] (skipSpace s)
  let ((_, options), s) ← readMember [first] options s
  let rest ← word? ['\x7d'] (skipSpace s)
  return (options, rest)

def readArray (options : Options) : Reader Options := fun s => do
  if let some rest := word? [']'] (skipSpace s) then return (options, rest)
  let (options, s) ← readSetting .maxRounds options (skipSpace s)
  if let some rest := word? [']'] (skipSpace s) then return (options, rest)
  let s ← word? [','] (skipSpace s)
  let (options, s) ← readSetting .minifyBooleans options (skipSpace s)
  let rest ← word? [']'] (skipSpace s)
  return (options, rest)

def ofText? (text : String) : Option Options := do
  let (options, rest) ←
    match skipSpace text.toList with
    | '\x7b' :: s => readObject {} s
    | '[' :: s => readArray {} s
    | _ => none
  guard (skipSpace rest).isEmpty
  return options

end Options

end ScriptFold

import ScriptFold.Fold.Options
import ScriptFold.Proofs.Print
import ScriptFold.Source

/-!
A reader of rendered expressions, by precedence climbing: an operand, and then every suffix that
binds tightly enough. It takes more than what is rendered; what matters is that nothing rendered is
read as another tree. The functions that call each other are bounded by the depth of their calls,
which is their first argument, and give nothing where that is too small.

The lemmas of this module are about single words. `Follows least r` says that `r` ends an expression
that is read with the level `least`.
-/

namespace ScriptFold

namespace Reader

def isNameChar (c : Char) : Bool :=
  c.isAlphanum || c == '_' || c == '$' || 0x80 ≤ c.toNat

/-- How an operand starts. -/
inductive Head where
  | leaf (t : Term)
  | paren
  | array
  | unary (operator : UnaryOp)
  | update (operator : UpdateOp)
  | new

/-- What an operand is extended by. -/
inductive Suffix where
  | update (operator : UpdateOp)
  | call
  | index
  | name
  | binary (operator : BinaryOp)
  | logical (operator : LogicalOp)
  | assignment (operator : AssignOp)
  | conditional

/-- How tightly a suffix binds. The point before a name binds tightest, so that it can be told from
the point of a number. -/
def Suffix.level : Suffix → Level
  | .update _ => Level.trailing
  | .call | .index => Level.call
  | .name => Level.primary
  | .binary operator => Level.binary operator
  | .logical operator => Level.logical operator
  | .assignment _ => Level.assignment
  | .conditional => Level.conditional

def keywords : List (String × Head) :=
  [("null", .leaf ⟨.literal .null⟩), ("true", .leaf ⟨.literal (.bool true)⟩),
    ("false", .leaf ⟨.literal (.bool false)⟩), ("this", .leaf ⟨.thisExpression⟩),
    ("typeof", .unary .typeof), ("void", .unary .void), ("delete", .unary .delete), ("new", .new)]

def wordHead (text : String) : Head :=
  (keywords.lookup text).getD (.leaf ⟨.identifier text⟩)

def Head.isLeaf : Head → Bool
  | .leaf _ => true
  | _ => false

/-- The start of an operand that is a word. The space after a word that is no leaf is skipped. -/
def word (s : List Char) : Head × List Char :=
  let head := wordHead (String.ofList (s.takeWhile isNameChar))
  let rest := s.dropWhile isNameChar
  (head, if head.isLeaf then rest else rest.tail)

def isNumberChar (c : Char) : Bool :=
  c.isDigit || c == '.'

def number (s : List Char) : Head × List Char :=
  let x := stringToNumber (String.ofList (s.takeWhile isNumberChar))
  (.leaf ⟨.literal (.number x)⟩, s.dropWhile isNumberChar)

def sign? : List Char → Option (Head × List Char)
  | '(' :: s => some (.paren, s)
  | '[' :: s => some (.array, s)
  | '"' :: s => (Options.readQuoted s).map fun (content, s) =>
    (.leaf ⟨.literal (.string (String.ofList content))⟩, s)
  | '!' :: s => some (.unary .not, s)
  | '~' :: s => some (.unary .bitNot, s)
  | '+' :: '+' :: s => some (.update .increment, s)
  | '-' :: '-' :: s => some (.update .decrement, s)
  | '+' :: ' ' :: s | '+' :: s => some (.unary .plus, s)
  | '-' :: ' ' :: s | '-' :: s => some (.unary .minus, s)
  | _ => none

def head? (s : List Char) : Option (Head × List Char) :=
  match s.head? with
  | none => none
  | some c =>
    if c.isDigit then some (number s) else if isNameChar c then some (word s) else sign? s

def spaced? (text : String) : Option Suffix :=
  (unspell? BinaryOp text).map Suffix.binary
    <|> (unspell? LogicalOp text).map Suffix.logical
    <|> (unspell? AssignOp text).map Suffix.assignment
    <|> if text = "?" then some .conditional else none

def suffix? : List Char → Option (Suffix × List Char)
  | '+' :: '+' :: s => some (.update .increment, s)
  | '-' :: '-' :: s => some (.update .decrement, s)
  | '(' :: s => some (.call, s)
  | '[' :: s => some (.index, s)
  | '.' :: s => some (.name, s)
  | ' ' :: s =>
    (spaced? (String.ofList (s.takeWhile (· != ' ')))).map fun suffix =>
      (suffix, (s.dropWhile (· != ' ')).tail)
  | _ => none

open Options (word?)

mutual

/-- An expression with everything after its first operand that binds at least as tightly as
`least`. -/
def expression : ℕ → Level → List Char → Option (Term × List Char)
  | 0, _, _ => none
  | n + 1, least, s => do
    let (t, s) ← operand n s
    continuation n least t s

def operand : ℕ → List Char → Option (Term × List Char)
  | 0, _ => none
  | n + 1, s => do
    let (head, s) ← head? s
    match head with
    | .leaf t => some (t, s)
    | .paren =>
      let (t, s) ← sequence n s
      let s ← word? [')'] s
      some (t, s)
    | .array =>
      let (es, s) ← elements n s
      some (⟨.arrayExpression es⟩, s)
    | .unary operator =>
      let (t, s) ← expression n Level.unary s
      some (⟨.unaryExpression operator t⟩, s)
    | .update operator =>
      let (t, s) ← expression n Level.unary s
      some (⟨.updateExpression operator t true⟩, s)
    | .new =>
      let (callee, s) ← expression n Level.primary s
      let s ← word? ['('] s
      let (ts, s) ← arguments n s
      some (⟨.newExpression callee ts⟩, s)

def continuation : ℕ → Level → Term → List Char → Option (Term × List Char)
  | 0, _, _, _ => none
  | n + 1, least, t, s =>
    match suffix? s with
    | none => some (t, s)
    | some (suffix, rest) =>
      if least ≤ suffix.level then do
        let (t, s) ← extension n suffix t rest
        continuation n least t s
      else some (t, s)

/-- A term with the rest of a suffix. -/
def extension : ℕ → Suffix → Term → List Char → Option (Term × List Char)
  | 0, _, _, _ => none
  | n + 1, suffix, t, s =>
    match suffix with
    | .update operator => some (⟨.updateExpression operator t false⟩, s)
    | .call => do
      let (ts, s) ← arguments n s
      some (⟨.callExpression t ts⟩, s)
    | .index => do
      let (prop, s) ← sequence n s
      let s ← word? [']'] s
      some (⟨.memberExpression t prop true⟩, s)
    | .name =>
      some (⟨.memberExpression t ⟨.identifier (String.ofList (s.takeWhile isNameChar))⟩ false⟩,
        s.dropWhile isNameChar)
    | .binary operator => do
      let (right, s) ← expression n
        (if operator = .exp then Level.binary operator else Level.binary operator + 1) s
      some (⟨.binaryExpression operator t right⟩, s)
    | .logical operator => do
      let (right, s) ← expression n (Level.logical operator + 1) s
      some (⟨.logicalExpression operator t right⟩, s)
    | .assignment operator => do
      let (right, s) ← expression n Level.assignment s
      some (⟨.assignmentExpression operator t right⟩, s)
    | .conditional => do
      let (consequent, s) ← expression n Level.assignment s
      let s ← word? " : ".toList s
      let (alternate, s) ← expression n Level.assignment s
      some (⟨.conditionalExpression t consequent alternate⟩, s)

def sequence : ℕ → List Char → Option (Term × List Char)
  | 0, _ => none
  | n + 1, s => do
    let (t, s) ← expression n Level.assignment s
    let (ts, s) ← more n s
    some (if ts.isEmpty then t else ⟨.sequenceExpression (t :: ts)⟩, s)

def more : ℕ → List Char → Option (List Term × List Char)
  | 0, _ => none
  | n + 1, ',' :: ' ' :: s => do
    let (t, s) ← expression n Level.assignment s
    let (ts, s) ← more n s
    some (t :: ts, s)
  | _ + 1, s => some ([], s)

def arguments : ℕ → List Char → Option (List Term × List Char)
  | 0, _ => none
  | _ + 1, ')' :: s => some ([], s)
  | n + 1, s => do
    let (t, s) ← expression n Level.assignment s
    let (ts, s) ← more n s
    let s ← word? [')'] s
    some (t :: ts, s)

def elements : ℕ → List Char → Option (List (Option Term) × List Char)
  | 0, _ => none
  | _ + 1, ']' :: s => some ([], s)
  | _ + 1, ',' :: ']' :: s => some ([none], s)
  | n + 1, ',' :: ' ' :: s => do
    let (es, s) ← elements n s
    some (none :: es, s)
  | n + 1, s => do
    let (t, s) ← expression n Level.assignment s
    elementsAfter n t s

def elementsAfter : ℕ → Term → List Char → Option (List (Option Term) × List Char)
  | 0, _, _ => none
  | n + 1, t, ',' :: ' ' :: s => do
    let (es, s) ← elements n s
    some (some t :: es, s)
  | _ + 1, t, s => do
    let s ← word? [']'] s
    some ([some t], s)

end

section Follows

variable {least k : Level} {r rest : List Char} {suffix : Suffix}

/-- What follows an expression that is read with the level `least`: it neither continues a word nor
holds a suffix that still belongs to the expression. -/
structure Follows (least : Level) (r : List Char) : Prop where
  apart : ∀ c ∈ r.head?, isNameChar c = false
  looser : ∀ p ∈ suffix? r, p.1.level < least

theorem Follows.mono (h : Follows least r) (hle : least ≤ k) : Follows k r where
  apart := h.apart
  looser p hp := (h.looser p hp).trans_le hle

theorem Follows.continuation (h : Follows least r) (n : ℕ) (t : Term) :
    continuation (n + 1) least t r = some (t, r) := by
  rw [Reader.continuation]
  cases hsuffix : suffix? r with
  | none => rfl
  | some p => exact if_neg (h.looser p hsuffix).not_ge

theorem isNameChar_of_suffix? (h : suffix? r = some (suffix, rest)) :
    ∀ c ∈ r.head?, isNameChar c = false := by
  unfold suffix? at h
  split at h
  all_goals first
    | (intro c hc; cases hc; decide)
    | cases h

theorem follows_of_suffix? (h : suffix? r = some (suffix, rest)) (hlevel : suffix.level < least) :
    Follows least r where
  apart := isNameChar_of_suffix? h
  looser p hp := by
    cases h.symm.trans hp
    exact hlevel

theorem follows_nil : Follows least [] where
  apart := by simp
  looser := by simp [suffix?]

theorem follows_closing (h : ∀ c ∈ r.head?, c = ')' ∨ c = ']' ∨ c = ';' ∨ c = ',') :
    Follows least r := by
  cases r with
  | nil => exact follows_nil
  | cons c r =>
    obtain rfl | rfl | rfl | rfl := h c rfl
    all_goals
      refine ⟨fun d hd => ?_, by simp [suffix?]⟩
      cases hd
      decide

end Follows

section Words

variable {w : String} {t : Term} {r : List Char}

structure IsWord (w : String) : Prop where
  ne_nil : w.toList ≠ []
  chars : ∀ c ∈ w.toList, isNameChar c

/-- The name of a variable: a word that starts with no digit and is no keyword. -/
structure IsIdentifier (w : String) : Prop extends IsWord w where
  first : ∀ c ∈ w.toList.head?, c.isDigit = false
  ordinary : w ∉ keywords.map Prod.fst

instance : Decidable (IsWord w) :=
  decidable_of_iff (w.toList ≠ [] ∧ w.toList.all isNameChar)
    ⟨fun h => ⟨h.1, List.all_eq_true.mp h.2⟩, fun h => ⟨h.1, List.all_eq_true.mpr h.2⟩⟩

instance : Decidable (IsIdentifier w) :=
  decidable_of_iff (IsWord w ∧ w.toList.head?.all (!·.isDigit) ∧ w ∉ keywords.map Prod.fst)
    ⟨fun h => ⟨h.1, by simpa [Option.all_eq_true] using h.2.1, h.2.2⟩,
      fun h => ⟨h.1, by simpa [Option.all_eq_true] using h.2, h.3⟩⟩

example : IsIdentifier "$0" ∧ ¬ IsIdentifier "this" := by decide

theorem IsWord.span (h : IsWord w) (hr : ∀ c ∈ r.head?, isNameChar c = false) :
    String.ofList ((w.toList ++ r).takeWhile isNameChar) = w ∧
      (w.toList ++ r).dropWhile isNameChar = r := by
  obtain ⟨htake, hdrop⟩ := Numeral.span_append h.chars fun c hc => by simp [hr c hc]
  rw [htake, hdrop, String.ofList_toList]
  exact ⟨rfl, rfl⟩

theorem IsWord.head? (h : IsWord w) (hfirst : ∀ c ∈ w.toList.head?, c.isDigit = false)
    (hr : ∀ c ∈ r.head?, isNameChar c = false) :
    head? (w.toList ++ r) =
      some (wordHead w, if (wordHead w).isLeaf then r else r.tail) := by
  obtain ⟨htake, hdrop⟩ := h.span hr
  obtain ⟨c, s, hw⟩ := List.exists_cons_of_ne_nil h.ne_nil
  have hdigit : c.isDigit = false := hfirst c (by rw [hw]; rfl)
  have hname : isNameChar c := h.chars c (by rw [hw]; exact List.mem_cons_self ..)
  have hhead : (w.toList ++ r).head? = some c := by rw [hw]; rfl
  unfold Reader.head? word
  rw [hhead, htake, hdrop]
  simp [hdigit, hname]

theorem IsIdentifier.head? (h : IsIdentifier w) (hr : ∀ c ∈ r.head?, isNameChar c = false) :
    Reader.head? (w.toList ++ r) = some (.leaf ⟨.identifier w⟩, r) := by
  have hlookup : keywords.lookup w = none := by
    rw [List.lookup_eq_none_iff]
    exact fun p hp => by simpa using fun heq => h.ordinary (List.mem_map.mpr ⟨p, hp, heq.symm⟩)
  have hword : wordHead w = .leaf ⟨.identifier w⟩ := by
    unfold wordHead
    rw [hlookup]
    rfl
  rw [h.toIsWord.head? h.first hr, hword]
  rfl

theorem isWord_keyword {head : Head} (h : (w, head) ∈ keywords) :
    IsWord w ∧ (∀ c ∈ w.toList.head?, c.isDigit = false) ∧ wordHead w = head := by
  simp only [keywords, List.mem_cons, Prod.mk.injEq, List.not_mem_nil, or_false] at h
  rcases h with ⟨rfl, rfl⟩ | ⟨rfl, rfl⟩ | ⟨rfl, rfl⟩ | ⟨rfl, rfl⟩ | ⟨rfl, rfl⟩ | ⟨rfl, rfl⟩ |
    ⟨rfl, rfl⟩ | ⟨rfl, rfl⟩
  all_goals exact ⟨⟨by simp, by simp; decide⟩, by simp, rfl⟩

theorem head?_keyword {head : Head} (h : (w, head) ∈ keywords)
    (hr : ∀ c ∈ r.head?, isNameChar c = false) :
    Reader.head? (w.toList ++ r) = some (head, if head.isLeaf then r else r.tail) := by
  obtain ⟨hw, hfirst, rfl⟩ := isWord_keyword h
  exact hw.head? hfirst hr

/-- The space after a keyword that is no operand of its own is skipped. -/
theorem head?_keyword_space {head : Head} (h : (w, head) ∈ keywords) (hleaf : head.isLeaf = false) :
    Reader.head? (w.toList ++ ' ' :: r) = some (head, r) := by
  rw [head?_keyword h fun c hc => by cases hc; decide, hleaf]
  rfl

end Words

section Literals

variable {r : List Char}

theorem isNumberChar_of_isNameChar {c : Char} (h : isNumberChar c) : isNameChar c ∨ c = '.' := by
  unfold isNumberChar at h
  rw [Bool.or_eq_true, beq_iff_eq] at h
  refine h.imp_left fun hdigit => ?_
  unfold isNameChar Char.isAlphanum
  simp [hdigit]

theorem head?_number {x : Float} (hfinite : x.isFinite) (hsign : isNegative x = false)
    (hr : Follows Level.primary r) :
    head? ((NumberStyle.source.text x).toList ++ r) = some (.leaf ⟨.literal (.number x)⟩, r) := by
  obtain ⟨⟨c, hc, hdigit⟩, hchars, hreads⟩ := sourceLiteral hfinite hsign
  have hall : ∀ c ∈ (NumberStyle.source.text x).toList, isNumberChar c := by
    intro c hc
    unfold isNumberChar
    simpa using hchars c hc
  have hend : ∀ c ∈ r.head?, ¬ isNumberChar c := by
    intro c hc hnumber
    rcases isNumberChar_of_isNameChar hnumber with hname | rfl
    · exact Bool.false_ne_true ((hr.apart c hc).symm.trans hname)
    · obtain ⟨s, rfl⟩ : ∃ s, r = '.' :: s := by
        cases r <;> simp_all
      exact (hr.looser (.name, s) rfl).ne rfl
  obtain ⟨htake, hdrop⟩ := Numeral.span_append hall hend
  have hhead : ((NumberStyle.source.text x).toList ++ r).head? = some c := by
    rw [List.head?_append, Option.mem_def.mp hc]
    rfl
  unfold head? number
  rw [hhead, htake, hdrop, String.ofList_toList, hreads]
  simp [hdigit]

theorem hexValue?_digitChar {n : ℕ} (h : n < 16) :
    Options.hexValue? (Nat.digitChar n) = some n := by
  decide +revert

theorem readQuoted_literalChar (c : Char) (s : List Char) :
    Options.readQuoted (literalChar c ++ s) =
      (Options.readQuoted s).map fun p => (c :: p.1, p.2) := by
  have hletter : ∀ d e, d ≠ 'u' → Options.escaped? d = some e →
      Options.readQuoted ('\\' :: d :: s) =
        (Options.readQuoted s).map fun p => (e :: p.1, p.2) := by
    intro d e hd he
    rw [Options.readQuoted, he]
    · cases Options.readQuoted s <;> rfl
    · simp [hd]
  unfold literalChar
  split
  · exact hletter _ _ (by decide) rfl
  · exact hletter _ _ (by decide) rfl
  · exact hletter _ _ (by decide) rfl
  · exact hletter _ _ (by decide) rfl
  · exact hletter _ _ (by decide) rfl
  · exact hletter _ _ (by decide) rfl
  · exact hletter _ _ (by decide) rfl
  · split
    · rename_i hlt
      have hzero : Options.hexValue? '0' = some 0 := rfl
      have hcode : ((0 * 16 + 0) * 16 + c.toNat / 16) * 16 + c.toNat % 16 = c.toNat := by omega
      have hguard : c.toNat < 0xD800 := by omega
      simp only [List.cons_append, List.nil_append]
      rw [Options.readQuoted, hexValue?_digitChar (by omega), hexValue?_digitChar (by omega)]
      simp only [hzero, Option.bind_eq_bind, Option.bind_some, hcode, hguard, decide_true,
        Bool.true_or, Char.ofNat_toNat]
      cases Options.readQuoted s <;> rfl
    · rename_i hquote hslash _ _ _ _ _ hlow
      have hquote : c ≠ '"' := hquote
      have hslash : c ≠ '\\' := hslash
      simp only [List.cons_append, List.nil_append]
      rw [Options.readQuoted]
      · have hguard : (decide (c ≠ '\\') && decide (32 ≤ c.toNat)) = true := by
          simp [hslash, Nat.not_lt.mp hlow]
        simp only [hguard, guard_true, Option.pure_def, Option.bind_eq_bind, Option.bind_some]
        cases Options.readQuoted s <;> rfl
      · exact hquote
      all_goals simp [hslash]

theorem readQuoted_flatMap (cs r : List Char) :
    Options.readQuoted (cs.flatMap literalChar ++ '"' :: r) = some (cs, r) := by
  induction cs with
  | nil => rfl
  | cons c cs ih =>
    rw [List.flatMap_cons, List.append_assoc, readQuoted_literalChar, ih]
    rfl

theorem head?_string (text : String) :
    head? ((literalText text).toList ++ r) = some (.leaf ⟨.literal (.string text)⟩, r) := by
  have hchars : (literalText text).toList ++ r =
      '"' :: (text.toList.flatMap literalChar ++ '"' :: r) := by
    unfold literalText
    rw [String.toList_ofList]
    simp
  rw [hchars]
  change (Options.readQuoted _).map _ = _
  rw [readQuoted_flatMap]
  simp

end Literals

section Operators

variable {least : Level} {r s : List Char}

theorem suffix?_spaced {text : String} {suffix : Suffix} (htext : ∀ c ∈ text.toList, c ≠ ' ')
    (h : spaced? text = some suffix) :
    suffix? (' ' :: (text.toList ++ ' ' :: s)) = some (suffix, s) := by
  have hrun : ∀ c ∈ text.toList, (c != ' ') = true := fun c hc => by simp [htext c hc]
  have hend : ∀ c ∈ (' ' :: s).head?, ¬ (c != ' ') = true := by simp
  obtain ⟨htake, hdrop⟩ := Numeral.span_append hrun hend
  rw [suffix?, htake, hdrop, String.ofList_toList, h]
  rfl

theorem suffix?_binary (operator : BinaryOp) :
    suffix? (' ' :: ((spell operator).toList ++ ' ' :: s)) = some (.binary operator, s) := by
  apply suffix?_spaced
  · cases operator <;> simp [spell, Vocabulary.spelling]
  · cases operator <;> rfl

theorem suffix?_logical (operator : LogicalOp) :
    suffix? (' ' :: ((spell operator).toList ++ ' ' :: s)) = some (.logical operator, s) := by
  apply suffix?_spaced
  · cases operator <;> simp [spell, Vocabulary.spelling]
  · cases operator <;> rfl

theorem suffix?_assignment (operator : AssignOp) :
    suffix? (' ' :: ((spell operator).toList ++ ' ' :: s)) = some (.assignment operator, s) := by
  apply suffix?_spaced
  · cases operator <;> simp [spell, Vocabulary.spelling]
  · cases operator <;> rfl

theorem suffix?_conditional : suffix? (" ? ".toList ++ s) = some (.conditional, s) :=
  rfl

theorem suffix?_update (operator : UpdateOp) :
    suffix? ((spell operator).toList ++ s) = some (.update operator, s) := by
  cases operator <;> rfl

theorem head?_update (operator : UpdateOp) :
    head? ((spell operator).toList ++ s) = some (.update operator, s) := by
  cases operator <;> rfl

/-- A sign is set off from an argument that starts with the same sign. -/
theorem head?_sign {operator : UnaryOp} {sign : String} {text : String} {c : Char}
    (hsign : operator = .minus ∧ sign = "-" ∨ operator = .plus ∧ sign = "+")
    (htext : text.toList.head? = some c) (hspace : c ≠ ' ') :
    head? (sign.toList ++ ((if text.startsWith sign then " " else "").toList
      ++ (text.toList ++ r))) = some (.unary operator, text.toList ++ r) := by
  obtain ⟨rest, hrest⟩ := List.head?_eq_some_iff.mp htext
  have hgap : text.startsWith sign = true ↔ sign.toList <+: c :: rest := by
    rw [String.startsWith_string_iff, hrest]
  rw [hrest]
  obtain ⟨rfl, rfl⟩ | ⟨rfl, rfl⟩ := hsign
  · by_cases hsame : c = '-'
    · rw [if_pos (hgap.mpr (by simp [hsame])), hsame]
      rfl
    · rw [if_neg (mt hgap.mp (by simpa using Ne.symm hsame))]
      change sign? ('-' :: c :: (rest ++ r)) = _
      rw [sign?]
      all_goals simp [hsame, hspace]
  · by_cases hsame : c = '+'
    · rw [if_pos (hgap.mpr (by simp [hsame])), hsame]
      rfl
    · rw [if_neg (mt hgap.mp (by simpa using Ne.symm hsame))]
      change sign? ('+' :: c :: (rest ++ r)) = _
      rw [sign?]
      all_goals simp [hsame, hspace]

theorem head?_unary (operator : UnaryOp) (argument : Phrase)
    (h : ∃ c ∈ (argument.operand Level.unary).toList.head?, c ≠ ' ') :
    head? ((Phrase.unary operator argument).toList ++ r) =
      some (.unary operator, (argument.operand Level.unary).toList ++ r) := by
  obtain ⟨c, hc, hspace⟩ := h
  unfold Phrase.unary
  generalize argument.operand Level.unary = text at hc
  simp only [String.toList_append, List.append_assoc]
  cases operator with
  | not => rfl
  | bitNot => rfl
  | typeof =>
    have hword : head? ("typeof".toList ++ ' ' :: (text.toList ++ r)) =
        some (.unary .typeof, text.toList ++ r) := head?_keyword_space (by simp [keywords]) rfl
    simpa [spell, Vocabulary.spelling] using hword
  | void =>
    have hword : head? ("void".toList ++ ' ' :: (text.toList ++ r)) =
        some (.unary .void, text.toList ++ r) := head?_keyword_space (by simp [keywords]) rfl
    simpa [spell, Vocabulary.spelling] using hword
  | delete =>
    have hword : head? ("delete".toList ++ ' ' :: (text.toList ++ r)) =
        some (.unary .delete, text.toList ++ r) := head?_keyword_space (by simp [keywords]) rfl
    simpa [spell, Vocabulary.spelling] using hword
  | minus => exact head?_sign (.inl ⟨rfl, rfl⟩) hc hspace
  | plus => exact head?_sign (.inr ⟨rfl, rfl⟩) hc hspace

theorem follows_colon : Follows least (" : ".toList ++ s) where
  apart c hc := by
    cases hc
    decide
  looser p hp := by
    have hnone : suffix? (" : ".toList ++ s) = none := rfl
    cases hnone.symm.trans hp

end Operators

end Reader

end ScriptFold

import ScriptFold.Proofs.Reader

/-!
How tightly the parts of rendered expressions bind, and the characters they are written with.

Beside the level of an expression, `Level.tail` tells that of its last operand, which would take a
suffix after the expression for its own. Main statements: an operand that needs no parentheses ends
in one that needs none (`le_tail`), and does not take the suffix it is followed by
(`level_lt_tail`).
-/

namespace ScriptFold

open Reader

/-- The level of the last operand of a node, which takes every suffix that binds as tightly; that of
a number is the point of a member access. -/
def Level.tail {α : Type} : Node α → Level
  | .assignmentExpression .. | .arrowFunctionExpression .. | .conditionalExpression .. =>
    assignment
  | .logicalExpression operator _ _ => logical operator + 1
  | .binaryExpression operator _ _ =>
    if operator = .exp then binary operator else binary operator + 1
  | .unaryExpression .. => unary
  | .updateExpression _ _ before => if before then unary else primary + 1
  | .literal (.number _) => primary
  | _ => primary + 1

def Reader.Suffix.least : Suffix → Level
  | .update _ => Level.trailing
  | .call | .index | .name | .assignment _ => Level.call
  | .binary operator => if operator = .exp then Level.binary operator + 1 else Level.binary operator
  | .logical operator => Level.logical operator
  | .conditional => Level.conditional + 1

namespace Level

variable {α : Type} {k : Level} {n : Node α}

theorem binary_bounds (operator : BinaryOp) :
    5 ≤ binary operator ∧ (operator = .exp ∧ binary operator = 13 ∨
      operator ≠ .exp ∧ binary operator ≤ 12) := by
  cases operator <;> decide

theorem logical_bounds (operator : LogicalOp) : 3 ≤ logical operator ∧ logical operator ≤ 4 := by
  cases operator <;> decide

/-- An operand that needs no parentheses ends in one that needs none. No operand of an operator has
the level of a sequence or of a conditional expression as its least. -/
theorem le_tail (hk : k ≠ sequence ∧ k ≠ conditional) (h : k ≤ ofNode n) : k ≤ tail n := by
  cases n
  case binaryExpression operator left right =>
    simp only [ofNode, tail, Level] at *
    split_ifs <;> omega
  case updateExpression operator argument before =>
    simp only [ofNode, tail, trailing, unary, primary, Level] at *
    split_ifs at h ⊢ <;> omega
  case literal value =>
    cases value <;> simp only [ofNode, tail, primary, Level] at * <;> omega
  all_goals
    simp only [ofNode, tail, sequence, assignment, conditional, unary, call, primary, Level] at *
    omega

theorem tail_ne (n : Node α) : tail n ≠ sequence ∧ tail n ≠ conditional := by
  cases n
  case binaryExpression operator left right =>
    have := binary_bounds operator
    simp only [tail, sequence, conditional, Level] at *
    split_ifs <;> omega
  case logicalExpression operator left right =>
    have := logical_bounds operator
    simp only [tail, sequence, conditional, Level] at *
    omega
  case updateExpression operator argument before =>
    cases before <;> exact ⟨Nat.ne_of_beq_eq_false rfl, Nat.ne_of_beq_eq_false rfl⟩
  case literal value =>
    cases value <;> exact ⟨Nat.ne_of_beq_eq_false rfl, Nat.ne_of_beq_eq_false rfl⟩
  all_goals exact ⟨Nat.ne_of_beq_eq_false rfl, Nat.ne_of_beq_eq_false rfl⟩

/-- A suffix binds as tightly as the operand before it must, or more loosely; only the point before
a name binds tighter. None has a level of the unary operators or of `**` and an operand to match. -/
theorem suffix_bounds (suffix : Suffix) :
    suffix.level = suffix.least ∧ (3 ≤ suffix.level ∧ suffix.level ≤ 12 ∨
        15 ≤ suffix.level ∧ suffix.level ≤ 16) ∨
      suffix.level < suffix.least ∧ 3 ≤ suffix.least ∧ suffix.level ≤ 13 ∨
      suffix = .name ∧ suffix.level = 17 ∧ suffix.least = 16 := by
  cases suffix with
  | update operator => exact .inl (by simp [Suffix.level, Suffix.least, trailing])
  | call => exact .inl (by decide)
  | index => exact .inl (by decide)
  | name => exact .inr (.inr ⟨rfl, rfl, rfl⟩)
  | binary operator => cases operator <;> simp [Suffix.level, Suffix.least, binary]
  | logical operator => cases operator <;> simp [Suffix.level, Suffix.least, logical]
  | assignment operator => simp [Suffix.level, Suffix.least, assignment, call]
  | conditional => exact .inr (.inl (by decide))

theorem suffix_pos (suffix : Suffix) : 1 ≤ min suffix.level suffix.least := by
  have hbounds := suffix_bounds suffix
  have hlevel : 1 ≤ suffix.level := by
    cases suffix with
    | binary operator => exact (binary_bounds operator).1.trans' (by decide)
    | logical operator => exact (logical_bounds operator).1.trans' (by decide)
    | _ => exact Nat.succ_pos _
  simp only [Level] at *
  omega

/-- An operand does not take the suffix it is followed by, unless that is the point before a name
and the operand a number. -/
theorem level_lt_tail {suffix : Suffix} (h : suffix.least ≤ ofNode n)
    (hname : suffix = .name → n.isNumber = false) : suffix.level < tail n := by
  have hsuffix := suffix_bounds suffix
  cases n
  case binaryExpression operator left right =>
    obtain ⟨hlow, ⟨rfl, hexp⟩ | ⟨hexp, hhigh⟩⟩ := binary_bounds operator
    all_goals
      simp_all only [ofNode, tail, Level, if_true, if_false]
      omega
  case logicalExpression operator left right =>
    have := logical_bounds operator
    simp only [ofNode, tail, Level] at *
    omega
  case updateExpression operator argument before =>
    simp only [ofNode, tail, trailing, unary, primary, Level] at *
    split_ifs at h ⊢ <;> omega
  case literal value =>
    cases value
    case number x =>
      have hne : suffix ≠ .name := fun h => Bool.true_eq_false.mp (hname h)
      simp only [ofNode, tail, primary, Level, hne, false_and, or_false] at *
      omega
    all_goals
      simp only [ofNode, tail, primary, Level] at *
      omega
  all_goals
    simp only [ofNode, tail, sequence, assignment, conditional, unary, call, primary, Level] at *
    omega

end Level

namespace Term

def level (t : Term) : Level :=
  Level.ofNode t.node

def tail (t : Term) : Level :=
  Level.tail t.node

/-- The characters of a rendered term. -/
def chars (t : Term) : List Char :=
  t.render.toList

def operand (t : Term) (least : Level) : List Char :=
  (t.phrase.operand least).toList

theorem phrase_mk (n : Node Term) : phrase ⟨n⟩ = Source.phraseOf (n.map phrase) :=
  fold_mk _ n

theorem chars_mk (n : Node Term) : chars ⟨n⟩ = (Source.textOf (n.map phrase)).toList := by
  unfold chars render
  rw [phrase_mk]
  rfl

theorem level_phrase (t : Term) : t.phrase.level = t.level := by
  obtain ⟨n⟩ := t
  rw [phrase_mk]
  cases n <;> rfl

theorem isNumber_phrase (t : Term) : t.phrase.isNumber = t.node.isNumber := by
  obtain ⟨n⟩ := t
  rw [phrase_mk]
  cases n with
  | literal value => cases value <;> rfl
  | _ => rfl

theorem level_of_isNumber {t : Term} (h : t.node.isNumber = true) : t.level = Level.primary := by
  obtain ⟨n⟩ := t
  cases n with
  | literal value => rfl
  | _ => cases h

theorem operand_of_lt {t : Term} {k : Level} (h : t.level < k) :
    t.operand k = '(' :: (t.chars ++ [')']) := by
  unfold operand Phrase.operand
  rw [level_phrase, if_pos h]
  simp [chars, render]

theorem operand_of_le {t : Term} {k : Level} (h : k ≤ t.level) : t.operand k = t.chars := by
  unfold operand Phrase.operand
  rw [level_phrase, if_neg h.not_gt]
  rfl

/-- The object of a member access is an operand of its own if it is a number. -/
theorem toList_member (object prop : Term) (computed : Bool) :
    (Phrase.member object.phrase prop.phrase computed).toList =
      object.operand (if object.node.isNumber then Level.primary + 1 else Level.call) ++
        (if computed then '[' :: (prop.chars ++ [']']) else '.' :: prop.operand Level.primary) := by
  unfold Phrase.member
  rw [isNumber_phrase]
  cases hnumber : object.node.isNumber with
  | true =>
    have hlt : object.level < Level.primary + 1 := by
      rw [level_of_isNumber hnumber]
      exact Nat.lt_succ_self _
    rw [if_pos rfl, if_pos rfl, operand_of_lt hlt]
    cases computed <;> simp [operand, chars, render]
  | false =>
    rw [if_neg Bool.false_ne_true, if_neg Bool.false_ne_true]
    cases computed <;> simp [operand, chars, render]

def commaList (ts : List Term) : List Char :=
  (Phrase.commaList (ts.map phrase)).toList

def commaLed (ts : List Term) : List Char :=
  ts.flatMap fun t => ", ".toList ++ t.operand Level.assignment

theorem commaList_nil : commaList [] = [] := by
  simp [commaList, Phrase.commaList, Phrase.separated]

theorem commaList_cons (t : Term) (ts : List Term) :
    commaList (t :: ts) = t.operand Level.assignment ++ commaLed ts := by
  unfold commaList Phrase.commaList Phrase.separated
  rw [String.toList_intercalate]
  induction ts generalizing t with
  | nil => simp [commaLed, operand]
  | cons u ts ih =>
    simp only [List.map_cons, List.intercalate_cons_cons] at ih ⊢
    rw [ih u]
    simp [commaLed, operand]

def elementList : List (Option Term) → List Char
  | [] => [']']
  | [e] => e.elim [','] (operand · Level.assignment) ++ [']']
  | e :: es => e.elim [] (operand · Level.assignment) ++ ", ".toList ++ elementList es

theorem toList_elements (es : List (Option Term)) :
    (Phrase.elements (es.map (Option.map phrase))).toList = '[' :: elementList es := by
  unfold Phrase.elements Phrase.separated
  have hopen : "[".toList = ['['] := rfl
  simp only [String.toList_append, String.toList_intercalate, List.append_assoc, hopen,
    List.cons_append, List.nil_append, List.cons.injEq, true_and]
  -- A hole at the end is told from the last element alone, so that the first one may be split off.
  induction es using elementList.induct with
  | case1 => simp [elementList]
  | case2 e => cases e <;> simp [elementList, operand]
  | case3 e es hne ih =>
    obtain ⟨f, es, rfl⟩ := List.exists_cons_of_ne_nil hne
    simp only [List.map_cons, List.intercalate_cons_cons, List.getLast?_cons_cons] at ih ⊢
    rw [elementList, List.append_assoc, List.append_assoc, ih, List.append_assoc]
    · cases e <;> simp [operand]
    · exact hne

end Term

end ScriptFold

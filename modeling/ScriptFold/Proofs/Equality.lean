import Mathlib
import ScriptFold.Value.Operator

/-!
Equality of values with conversion. Two values of different types are compared by turning one of
them into a simpler value and comparing again. Main statement: this ends for any two values and
decides as `looseEquals` does, which is symmetric, holds wherever strict equality does, and does not
tell `null` from `undefined`.
-/

namespace ScriptFold

namespace Value

/-- What comparing two values comes to: an answer, or the comparison of two other values. -/
inductive Comparison where
  | answer (equal : Bool)
  | convert (a b : Value)

/-- One step of a comparison. The first case that fits decides: a boolean is converted before an
array, and the left operand before the right one. -/
def comparison (a b : Value) : Comparison :=
  match a, b with
  | .undefined, .undefined | .null, .null | .bool _, .bool _ | .number _, .number _
  | .string _, .string _ | .array _, .array _ => .answer (a.strictEquals b)
  | .undefined, .null | .null, .undefined => .answer true
  | .undefined, _ | .null, _ | _, .undefined | _, .null => .answer false
  | .number _, .string _ | .string _, .number _ =>
    .answer (strictEquals (.number a.toNumber) (.number b.toNumber))
  | .bool _, _ => .convert (.number a.toNumber) b
  | _, .bool _ => .convert a (.number b.toNumber)
  | .array _, _ => .convert a.toPrimitive b
  | _, .array _ => .convert a b.toPrimitive

/-- A comparison of two values ends, with a given answer. -/
inductive Settles : Value → Value → Bool → Prop
  | answer {a b : Value} {equal : Bool} (step : a.comparison b = .answer equal) :
    Settles a b equal
  | convert {a b a' b' : Value} {equal : Bool} (step : a.comparison b = .convert a' b')
    (rest : Settles a' b' equal) : Settles a b equal

/-- How many conversions a value can still need. -/
def conversions : Value → ℕ
  | .bool _ | .array _ => 1
  | _ => 0

variable {a b a' b' : Value} {equal : Bool}

theorem conversions_lt (h : a.comparison b = .convert a' b') :
    a'.conversions + b'.conversions < a.conversions + b.conversions := by
  cases a <;> cases b <;> cases h <;> simp [conversions, toPrimitive]

theorem looseEquals_of_answer (h : a.comparison b = .answer equal) : a.looseEquals b = equal := by
  cases a <;> cases b <;> cases h <;> rfl

theorem looseEquals_of_convert (h : a.comparison b = .convert a' b') :
    a.looseEquals b = a'.looseEquals b' := by
  cases a <;> cases b <;> cases h <;> rfl

theorem settles_looseEquals (a b : Value) : a.Settles b (a.looseEquals b) := by
  induction hn : a.conversions + b.conversions using Nat.strong_induction_on generalizing a b with
  | _ n ih =>
    cases hstep : a.comparison b with
    | answer equal =>
      rw [looseEquals_of_answer hstep]
      exact .answer hstep
    | convert a' b' =>
      rw [looseEquals_of_convert hstep]
      exact .convert hstep (ih _ (hn ▸ conversions_lt hstep) a' b' rfl)

theorem settles_iff : a.Settles b equal ↔ a.looseEquals b = equal := by
  refine ⟨fun h => ?_, fun h => h ▸ settles_looseEquals a b⟩
  induction h with
  | answer step => exact looseEquals_of_answer step
  | convert step rest ih => exact (looseEquals_of_convert step).trans ih

theorem looseEquals_comm (a b : Value) : a.looseEquals b = b.looseEquals a := by
  cases a <;> cases b <;> first | exact BEq.comm | rfl

/-- The value that takes the place of another as an operand of `==`: `null` for `undefined`. -/
def nullified : Value → Value
  | .undefined => .null
  | v => v

theorem looseEquals_nullified (a b : Value) : a.nullified.looseEquals b = a.looseEquals b := by
  cases a <;> rfl

theorem looseEquals_of_strictEquals (h : a.strictEquals b) : a.looseEquals b := by
  cases a <;> cases b <;> first | exact h | cases h

theorem evaluate?_nullified {op : BinaryOp} (h : op = .eq ∨ op = .notEq) (a b : Value) :
    op.evaluate? a.nullified b = op.evaluate? a b ∧
      op.evaluate? a b.nullified = op.evaluate? a b := by
  have hright : a.looseEquals b.nullified = a.looseEquals b := by
    rw [looseEquals_comm, looseEquals_nullified, looseEquals_comm]
  rcases h with rfl | rfl
  all_goals simp only [BinaryOp.evaluate?, looseEquals_nullified, hright, true_and]

/-- Comparing two values ends, with one answer for both orders of the operands; values equal without
conversion are equal with it, and `undefined` may be replaced by `null` on either side of `==` and
`!=`. -/
theorem equality_laws (a b : Value) :
    (∀ equal, a.Settles b equal ↔ a.looseEquals b = equal) ∧
      a.looseEquals b = b.looseEquals a ∧
      a.looseEquals .undefined = a.looseEquals .null ∧
      (a.strictEquals b → a.looseEquals b) ∧
      ∀ op : BinaryOp, op = .eq ∨ op = .notEq → op.evaluate? a.nullified b = op.evaluate? a b ∧
        op.evaluate? a b.nullified = op.evaluate? a b := by
  refine ⟨fun equal => settles_iff, looseEquals_comm a b, ?_, looseEquals_of_strictEquals,
    fun op h => evaluate?_nullified h a b⟩
  rw [looseEquals_comm a, looseEquals_comm a, ← looseEquals_nullified .undefined]
  rfl

/-- Three conversions: a boolean, an array in an array, and the text of that. -/
example : (Value.bool true).looseEquals (.array [some (.array [some (.string "1")])]) := by
  decide +kernel

end Value

end ScriptFold

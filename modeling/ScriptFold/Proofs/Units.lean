import Mathlib
import ScriptFold.Value.Operator

/-!
Strings in the order of their code units. Where two strings first differ in a character, their code
units first differ within that character, so that the order of code units tells strings apart and
departs from the order of code points only where one of these characters lies above U+FFFF. Main
statement: the operators that compare strings are those of a strict total order.
-/

namespace ScriptFold

section Lists

variable {α : Type} {a b : List α} {c d : α}

/-- Two lists agree up to a place where one goes on with `c` and the other with `d`. -/
def PartAt (c d : α) (a b : List α) : Prop :=
  c ≠ d ∧ ∃ p x y, a = p ++ c :: x ∧ b = p ++ d :: y

theorem PartAt.append (h : PartAt c d a b) (p x y : List α) :
    PartAt c d (p ++ (a ++ x)) (p ++ (b ++ y)) := by
  obtain ⟨hne, q, x', y', rfl, rfl⟩ := h
  exact ⟨hne, p ++ q, x' ++ x, y' ++ y, by simp, by simp⟩

theorem PartAt.ne (h : PartAt c d a b) : a ≠ b := by
  obtain ⟨hne, p, x, y, rfl, rfl⟩ := h
  intro heq
  exact hne (List.cons.inj (List.append_cancel_left heq)).1

/-- Of two lists one continues the other, or they part somewhere. -/
theorem prefix_or_partAt (a b : List α) : a <+: b ∨ b <+: a ∨ ∃ c d, PartAt c d a b := by
  classical
  induction a generalizing b with
  | nil => exact .inl List.nil_prefix
  | cons c a ih =>
    cases b with
    | nil => exact .inr (.inl List.nil_prefix)
    | cons d b =>
      by_cases hcd : c = d
      · subst hcd
        rcases ih b with h | h | ⟨u, v, h⟩
        · exact .inl (List.cons_prefix_cons.mpr ⟨rfl, h⟩)
        · exact .inr (.inl (List.cons_prefix_cons.mpr ⟨rfl, h⟩))
        · exact .inr (.inr ⟨u, v, by simpa using h.append [c] [] []⟩)
      · exact .inr (.inr ⟨c, d, hcd, [], a, b, rfl, rfl⟩)

variable [LinearOrder α]

theorem PartAt.lt_iff (h : PartAt c d a b) : a < b ↔ c < d := by
  obtain ⟨hne, p, x, y, rfl, rfl⟩ := h
  induction p with
  | nil => simp [List.cons_lt_cons_iff, hne]
  | cons e p ih => simpa [List.cons_lt_cons_iff] using ih

theorem not_lt_of_isPrefix (h : a <+: b) : ¬ b < a := by
  obtain ⟨x, rfl⟩ := h
  induction a with
  | nil => exact List.not_lt_nil _
  | cons e a ih => simpa [List.cons_lt_cons_iff] using ih

/-- A list is less than another if that continues it, or if they part in favour of it. -/
theorem lt_iff_prefix_or_partAt : a < b ↔ (a <+: b ∧ a ≠ b) ∨ ∃ c d, PartAt c d a b ∧ c < d := by
  constructor
  · intro hlt
    rcases prefix_or_partAt a b with h | h | ⟨c, d, h⟩
    · exact .inl ⟨h, hlt.ne⟩
    · exact absurd hlt (not_lt_of_isPrefix h)
    · exact .inr ⟨c, d, h, h.lt_iff.mp hlt⟩
  · rintro (⟨h, hne⟩ | ⟨c, d, h, hlt⟩)
    · exact lt_of_le_of_ne (not_lt.mp (not_lt_of_isPrefix h)) hne
    · exact h.lt_iff.mpr hlt

end Lists

/-- Two characters part in their code units, and where both have one unit these are the characters
themselves. -/
theorem charUnits_partAt {c d : Char} (h : c ≠ d) : ∃ u v, PartAt u v (charUnits c) (charUnits d) ∧
    (c.toNat ≤ 0xFFFF → d.toNat ≤ 0xFFFF → u = c.toNat ∧ v = d.toNat) := by
  have hne : c.toNat ≠ d.toNat := fun heq => h (Char.toNat_inj.mp heq)
  have hc : c.toNat < 0xD800 ∨ 0xDFFF < c.toNat ∧ c.toNat < 0x110000 := c.valid
  have hd : d.toNat < 0xD800 ∨ 0xDFFF < d.toNat ∧ d.toNat < 0x110000 := d.valid
  unfold charUnits
  dsimp only
  split_ifs with hc' hd' hd'
  · exact ⟨_, _, ⟨hne, [], [], [], rfl, rfl⟩, fun _ _ => ⟨rfl, rfl⟩⟩
  -- a surrogate is no character, so one unit is never the first of two
  · exact ⟨_, _, ⟨by omega, [], [], [_], rfl, rfl⟩, fun _ _ => by omega⟩
  · exact ⟨_, _, ⟨by omega, [], [_], [], rfl, rfl⟩, fun _ _ => by omega⟩
  · by_cases hhigh : (c.toNat - 0x10000) / 0x400 = (d.toNat - 0x10000) / 0x400
    · refine ⟨_, _, ⟨?_, [_], [], [], rfl, by rw [hhigh]; rfl⟩, fun _ _ => by omega⟩
      omega
    · exact ⟨_, _, ⟨by omega, [], [_], [_], rfl, rfl⟩, fun _ _ => by omega⟩

theorem units_partAt {a b : String} {c d : Char} (h : PartAt c d a.toList b.toList) :
    ∃ u v, PartAt u v (units a) (units b) ∧
      (c.toNat ≤ 0xFFFF → d.toNat ≤ 0xFFFF → u = c.toNat ∧ v = d.toNat) := by
  obtain ⟨hne, p, x, y, ha, hb⟩ := h
  obtain ⟨u, v, hunits, hsmall⟩ := charUnits_partAt hne
  refine ⟨u, v, ?_, hsmall⟩
  have hpart := hunits.append (p.flatMap charUnits) (x.flatMap charUnits) (y.flatMap charUnits)
  rw [units, units, ha, hb, List.flatMap_append, List.flatMap_append, List.flatMap_cons,
    List.flatMap_cons]
  exact hpart

theorem charUnits_ne_nil (c : Char) : charUnits c ≠ [] := by
  unfold charUnits
  dsimp only
  split <;> simp

/-- A string that continues another has the same units only if it is the same. -/
theorem eq_of_prefix_of_units {a b : String} (h : a.toList <+: b.toList) (heq : units a = units b) :
    a = b := by
  obtain ⟨x, hx⟩ := h
  have hunits : units b = units a ++ x.flatMap charUnits := by
    rw [units, ← hx, List.flatMap_append]
    rfl
  rw [hunits] at heq
  have hnil := List.self_eq_append_right.mp heq
  cases x with
  | nil => exact String.toList_injective (by rw [← hx, List.append_nil])
  | cons c x =>
    rw [List.flatMap_cons] at hnil
    exact absurd (List.append_eq_nil_iff.mp hnil).1 (charUnits_ne_nil c)

theorem units_injective : Function.Injective units := by
  intro a b heq
  rcases prefix_or_partAt a.toList b.toList with h | h | ⟨c, d, h⟩
  · exact eq_of_prefix_of_units h heq
  · exact (eq_of_prefix_of_units h heq.symm).symm
  · obtain ⟨u, v, hpart, -⟩ := units_partAt h
    exact absurd heq hpart.ne

theorem units_isPrefix {a b : String} (h : a.toList <+: b.toList) : units a <+: units b := by
  obtain ⟨x, hx⟩ := h
  rw [units, units, ← hx, List.flatMap_append]
  exact List.prefix_append _ _

/-- Code units and code points disagree on the order of two strings only where they part in a
character of two units. -/
theorem partAt_of_order_ne {a b : String} (h : ¬ (units a < units b ↔ a < b)) :
    ∃ c d, PartAt c d a.toList b.toList ∧ (0xFFFF < c.toNat ∨ 0xFFFF < d.toNat) := by
  rw [String.lt_iff] at h
  rcases prefix_or_partAt a.toList b.toList with hpre | hpre | ⟨c, d, hpart⟩
  · have hunits := not_lt_of_isPrefix (units_isPrefix hpre)
    have hchars := not_lt_of_isPrefix hpre
    rw [← not_le, ← not_le, (not_lt.mp hunits).ge_iff_eq', (not_lt.mp hchars).ge_iff_eq',
      units_injective.eq_iff, String.toList_inj] at h
    exact absurd Iff.rfl h
  · have hunits := not_lt_of_isPrefix (units_isPrefix hpre)
    exact absurd (iff_of_false hunits (not_lt_of_isPrefix hpre)) h
  · refine ⟨c, d, hpart, ?_⟩
    by_contra! hsmall
    obtain ⟨u, v, hunits, heq⟩ := units_partAt hpart
    obtain ⟨rfl, rfl⟩ := heq hsmall.1 hsmall.2
    exact h (hunits.lt_iff.trans hpart.lt_iff.symm)

def BinaryOp.Holds (op : BinaryOp) (a b : String) : Prop :=
  op.evaluate? (.string a) (.string b) = some (.bool true)

namespace BinaryOp

variable {a b : String}

theorem holds_lt : lt.Holds a b ↔ units a < units b := by
  simp [Holds, evaluate?, Value.less?, Value.toPrimitive, unitsLess]

theorem holds_gt : gt.Holds a b ↔ units b < units a := by
  simp [Holds, evaluate?, Value.less?, Value.toPrimitive, unitsLess]

theorem holds_ltEq : ltEq.Holds a b ↔ units a ≤ units b := by
  simp [Holds, evaluate?, Value.less?, Value.toPrimitive, unitsLess]

theorem holds_gtEq : gtEq.Holds a b ↔ units b ≤ units a := by
  simp [Holds, evaluate?, Value.less?, Value.toPrimitive, unitsLess]

theorem holds_strictEq : strictEq.Holds a b ↔ units a = units b := by
  simp [Holds, evaluate?, Value.strictEquals, units_injective.eq_iff]

theorem existsUnique_holds (a b : String) : ∃! op, op ∈ [lt, gt, strictEq] ∧ op.Holds a b := by
  rcases lt_trichotomy (units a) (units b) with h | h | h
  · refine ⟨lt, ⟨by simp, holds_lt.mpr h⟩, ?_⟩
    simp [holds_gt, holds_strictEq, h.not_gt, h.ne]
  · refine ⟨strictEq, ⟨by simp, holds_strictEq.mpr h⟩, ?_⟩
    simp [holds_lt, holds_gt, h]
  · refine ⟨gt, ⟨by simp, holds_gt.mpr h⟩, ?_⟩
    simp [holds_lt, holds_strictEq, h.not_gt, h.ne']

end BinaryOp

open BinaryOp in
/-- The operators order strings by their code units, strictly and totally. -/
theorem strings_ordered (a b c : String) :
    (∀ op ∈ [lt, gt, ltEq, gtEq, strictEq],
      ∃ result, op.evaluate? (.string a) (.string b) = some (.bool result)) ∧
    (∃! op, op ∈ [lt, gt, strictEq] ∧ op.Holds a b) ∧
    (ltEq.Holds a b ↔ lt.Holds a b ∨ strictEq.Holds a b) ∧
    (gt.Holds a b ↔ lt.Holds b a) ∧
    (gtEq.Holds a b ↔ ltEq.Holds b a) ∧
    (lt.Holds a b → lt.Holds b c → lt.Holds a c) ∧
    (lt.Holds a b ↔ (units a <+: units b ∧ units a ≠ units b) ∨
      ∃ u v, PartAt u v (units a) (units b) ∧ u < v) ∧
    (¬ (lt.Holds a b ↔ a < b) →
      ∃ c d, PartAt c d a.toList b.toList ∧ (0xFFFF < c.toNat ∨ 0xFFFF < d.toNat)) := by
  refine ⟨?_, existsUnique_holds a b, ?_, ?_, ?_, ?_, ?_, ?_⟩
  · intro op hop
    simp only [List.mem_cons, List.not_mem_nil, or_false] at hop
    rcases hop with rfl | rfl | rfl | rfl | rfl <;> exact ⟨_, rfl⟩
  · rw [holds_ltEq, holds_lt, holds_strictEq, le_iff_lt_or_eq]
  · rw [holds_gt, holds_lt]
  · rw [holds_gtEq, holds_ltEq]
  · rw [holds_lt, holds_lt, holds_lt]
    exact lt_trans
  · rw [holds_lt, lt_iff_prefix_or_partAt]
  · rw [holds_lt]
    exact partAt_of_order_ne

/-- The two orders disagree: the first unit of U+10000 is 0xD800. -/
example : unitsLess (String.singleton (Char.ofNat 0x10000)) "\uFFFF" ∧
    "\uFFFF" < String.singleton (Char.ofNat 0x10000) := by
  decide

end ScriptFold

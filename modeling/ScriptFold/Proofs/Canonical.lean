import ScriptFold.Proofs.Constant
import ScriptFold.Proofs.Integer
import ScriptFold.Proofs.Run

/-!
The pool writes a number, and `void 0`, in one way only. Whether the node of a number is a literal
can be told from the number, so two pools that hold the same number have nodes of the same kind for
it, whatever was asked of each pool before.
-/

namespace ScriptFold

open Double in
theorem isNegative_neg {x : Float} (h : x.isFinite) : isNegative (-x) = !isNegative x := by
  obtain ⟨s, e, m, hx, -⟩ := exists_parts x
  have hneg := bits_neg hx (exponent_ne_top hx h)
  have sign : ∀ {y : Float} {s}, y.toModel.toBits.toBitVec = bits s e m →
      isNegative y = decide (s.toBitVec.toNat = 1) := fun hy =>
    congrArg Binary.negative (Binary.ofFloat_eq hy)
  rw [sign hneg, sign hx]
  cases s <;> rfl

/-- Numbers that are written without a sign. -/
def IsUnsigned (x : Float) : Prop :=
  ¬ isNegative x ∧ ¬ x.isNaN

/-- A node that holds a number is a literal just if the number needs no sign. -/
def Node.Writes (n : Node NodeId) (v : Value) : Prop :=
  ∀ x, v = .number x → (n.isNumber ↔ IsUnsigned x)

namespace Constant

/-- The literal of the constant is a number without a sign, if it is a number. -/
def Regular : Constant → Prop
  | .number bits | .negated bits => IsUnsigned (Float.ofBits bits) ∧ (Float.ofBits bits).isFinite
  | _ => True

theorem not_isNaN_of_isFinite {x : Float} (h : x.isFinite) : ¬ x.isNaN := by
  rw [isFinite_eq, Bool.and_eq_true, Bool.not_eq_true'] at h
  rw [h.1]
  exact Bool.false_ne_true

theorem regular_ofNumber {x : Float} (hx : x.isFinite) : (ofNumber x).Regular := by
  unfold ofNumber
  split <;> rename_i hneg <;> simp only [Regular, IsUnsigned, ofBits_toBits]
  · refine ⟨⟨?_, not_isNaN_of_isFinite ?_⟩, ?_⟩
    · rw [isNegative_neg hx, hneg]
      decide
    all_goals rwa [isFinite_neg]
  · exact ⟨⟨hneg, not_isNaN_of_isFinite hx⟩, hx⟩

theorem Regular.writes_literal {c : Constant} (h : c.Regular) (hc : ∀ bits, c ≠ .negated bits) :
    (Node.literal c.literal).Writes c.value := by
  intro x hx
  cases c <;> cases hx
  case number bits => exact iff_of_true rfl h.1
  case negated bits => exact absurd rfl (hc bits)

theorem Regular.writes_negation {bits : UInt64} (h : Regular (.negated bits)) (a : NodeId) :
    (Node.unaryExpression .minus a).Writes (Constant.negated bits).value := by
  intro x hx
  cases hx
  refine iff_of_false (fun hn => by cases hn) fun hsign => hsign.1 ?_
  rw [isNegative_neg h.2, Bool.eq_false_of_not_eq_true h.1.1]
  rfl

end Constant

namespace Store

/-- Constants are frozen, `undefined` is one node, and numbers are literals just if they need no
sign. -/
structure Canonical (s : Store) : Prop where
  frozen : ∀ {id v}, s.Holds v id → s.tree.isFrozen id
  undefined : ∀ {id}, s.Holds .undefined id → s.pool.undefined = some id
  number : ∀ {id v}, s.Holds v id → (s.tree.node id).Writes v

variable {s : Store}

theorem undefined_internLiteral (s : Store) (c : Constant) :
    (s.internLiteral c).2.pool.undefined = s.pool.undefined := by
  unfold internLiteral
  split <;> rfl

theorem undefined_intern (s : Store) (c : Constant) :
    (s.intern c).2.pool.undefined = s.pool.undefined := by
  unfold intern
  split
  · split
    · rfl
    · exact s.undefined_internLiteral _
  · exact s.undefined_internLiteral c

namespace Canonical

theorem keep (h : s.Canonical) {t : Tree} (ht : s.tree.KeepsFrozen t) :
    Canonical { s with tree := t } where
  frozen hv := (ht _ (h.frozen hv)).1
  undefined := h.undefined
  number hv := by
    rw [(ht _ (h.frozen hv)).2]
    exact h.number hv

/-- A new constant, in a pool that knows `undefined` if it is held now. -/
theorem freezeIn (h : s.Canonical) {n : Node NodeId} {v : Value} {minified : Bool} {pool : Pool}
    (hn : n.Writes v) (hvalues : pool.values = (s.freeze n (some v) minified).2.pool.values)
    (hnew : v = .undefined → pool.undefined = some s.tree.size)
    (hold : ∀ {id}, s.Holds .undefined id → pool.undefined = some id) :
    Canonical ⟨(s.freeze n (some v) minified).2.tree, pool⟩ := by
  have keeps : s.tree.KeepsFrozen (s.freeze n (some v) minified).2.tree := by
    rw [tree_freeze]
    exact (Tree.Grows.alloc _ _ _).keepsFrozen
  have new := isFrozen_freeze s n (some v) minified
  have cases : ∀ {id w}, Holds ⟨(s.freeze n (some v) minified).2.tree, pool⟩ w id →
      id = s.tree.size ∧ w = v ∨ s.Holds w id := fun {id w} hw => by
    rw [Holds, hvalues, values_freeze] at hw
    split at hw
    · exact .inl ⟨‹_›, (Option.some.inj hw).symm⟩
    · exact .inr hw
  refine ⟨fun hw => ?_, fun hw => ?_, fun hw => ?_⟩
  · obtain ⟨rfl, -⟩ | hw := cases hw
    · exact new.1
    · exact (keeps _ (h.frozen hw)).1
  · obtain ⟨rfl, hv⟩ | hw := cases hw
    · exact hnew hv.symm
    · exact hold hw
  · obtain ⟨rfl, rfl⟩ | hw := cases hw
    · rw [new.2]
      exact hn
    · rw [(keeps _ (h.frozen hw)).2]
      exact h.number hw

theorem freeze (h : s.Canonical) {n : Node NodeId} {v : Value} (minified : Bool)
    (hv : v ≠ .undefined) (hn : n.Writes v) : (s.freeze n (some v) minified).2.Canonical :=
  h.freezeIn hn rfl (fun hw => absurd hw hv) h.undefined

theorem addConstant (h : s.Canonical) {c : Constant} {n : Node NodeId} (hn : n.Writes c.value) :
    (s.addConstant c n).2.Canonical := by
  have hadd := h.freeze false (by cases c <;> simp [Constant.value]) hn
  exact ⟨hadd.frozen, hadd.undefined, hadd.number⟩

theorem internLiteral (h : s.Canonical) {c : Constant} (hr : c.Regular)
    (hc : ∀ bits, c ≠ .negated bits) : (s.internLiteral c).2.Canonical := by
  unfold Store.internLiteral
  split
  · exact h
  · exact h.addConstant (hr.writes_literal hc)

theorem intern (h : s.Canonical) {c : Constant} (hr : c.Regular) : (s.intern c).2.Canonical := by
  unfold Store.intern
  split
  · rename_i bits
    split
    · exact h
    · have harg := h.internLiteral (c := .number bits) hr fun _ hx => by cases hx
      exact harg.addConstant (hr.writes_negation _)
  · rename_i hc
    exact h.internLiteral hr hc

theorem zero (h : s.Canonical) : s.zero.2.Canonical :=
  h.intern (by simp only [Constant.Regular, IsUnsigned, ofBits_toBits]; decide)

theorem undefinedNode (h : s.Canonical) : s.undefined.2.Canonical := by
  unfold Store.undefined
  split
  · exact h
  · rename_i hnone
    refine h.zero.freezeIn (fun x hx => by cases hx) rfl (fun _ => rfl) fun hid => ?_
    -- what held `undefined` before would have been known
    have hknown := h.zero.undefined hid
    rw [Store.zero, undefined_intern, hnone] at hknown
    cases hknown

theorem nanNode (h : s.Canonical) : s.nan.2.Canonical := by
  unfold Store.nan
  split
  · exact h
  · have hn : (Node.binaryExpression .div s.zero.1 s.zero.1).Writes (.number (0 / 0)) := fun x hx => by
      cases hx
      exact iff_of_false (fun hn => by cases hn) fun hx => hx.2 (by decide)
    have hadd := h.zero.freeze false (fun hx => by cases hx) hn
    exact ⟨hadd.frozen, hadd.undefined, hadd.number⟩

theorem emptyStatement (h : s.Canonical) : s.emptyStatement.2.Canonical := by
  unfold Store.emptyStatement
  split
  · exact h
  · have hkeep := h.keep (Tree.Grows.alloc s.tree .emptyStatement { frozen := true }).keepsFrozen
    exact ⟨hkeep.frozen, hkeep.undefined, hkeep.number⟩

theorem minifiedBool (h : s.Canonical) (b : Bool) : (s.minifiedBool b).2.Canonical := by
  unfold Store.minifiedBool
  split
  · exact h
  · have harg : (s.intern (.number (if b then 0 else 1 : Float).toBits)).2.Canonical :=
      h.intern (by
        cases b <;> simp only [Constant.Regular, IsUnsigned, ofBits_toBits] <;> decide)
    have hadd := fun a => harg.freeze (n := .unaryExpression .not a) true (v := .bool b)
      (fun hx => by cases hx) fun x hx => by cases hx
    have hadd := hadd (s.intern (.number (if b then 0 else 1 : Float).toBits)).1
    cases b <;> exact ⟨hadd.frozen, hadd.undefined, hadd.number⟩

end Canonical

end Store

namespace Value

open Store (Canonical)

mutual

theorem canonical_toNode {s s' : Store} (h : s.Canonical) :
    ∀ {v : Value} {id : NodeId}, v.toNode s = .ok id s' → s'.Canonical
  | .undefined, _, hrun => by
    rw [toNode] at hrun
    cases hrun
    exact h.undefinedNode
  | .null, _, hrun => by
    rw [toNode] at hrun
    cases hrun
    exact h.intern (c := .null) trivial
  | .bool b, _, hrun => by
    rw [toNode] at hrun
    cases hrun
    exact h.intern (c := .bool b) trivial
  | .string text, _, hrun => by
    rw [toNode] at hrun
    cases hrun
    exact h.intern (c := .string text) trivial
  | .number x, _, hrun => by
    rw [toNode] at hrun
    split_ifs at hrun with hn hx
    · cases hrun
      exact h.nanNode
    · cases hrun
    · cases hrun
      exact h.intern (Constant.regular_ofNumber (by simpa using hx))
  | .array items, _, hrun => by
    rw [toNode] at hrun
    obtain ⟨elements, s₁, hitems, hrun⟩ := exists_run_of_bind hrun
    cases hrun
    exact (canonical_itemNodes h hitems).freeze false (fun hx => by cases hx) fun x hx => by cases hx

theorem canonical_itemNodes {s s' : Store} (h : s.Canonical) :
    ∀ {items : List (Option Value)} {elements : List (Option NodeId)},
      itemNodes items s = .ok elements s' → s'.Canonical
  | [], _, hrun => by
    rw [itemNodes] at hrun
    cases hrun
    exact h
  | item :: items, _, hrun => by
    rw [itemNodes] at hrun
    obtain ⟨e, s₁, hitem, hrun⟩ := exists_run_of_bind hrun
    obtain ⟨es, s₂, hitems, hrun⟩ := exists_run_of_bind hrun
    cases hrun
    exact canonical_itemNodes (canonical_itemNode h hitem) hitems

theorem canonical_itemNode {s s' : Store} (h : s.Canonical) :
    ∀ {item : Option Value} {e : Option NodeId}, itemNode item s = .ok e s' → s'.Canonical
  | none, _, hrun => by
    rw [itemNode] at hrun
    cases hrun
    exact h
  | some v, _, hrun => by
    rw [itemNode] at hrun
    obtain ⟨id, s₁, hnode, hrun⟩ := exists_run_of_bind hrun
    cases hrun
    exact canonical_toNode h hnode

end

end Value

end ScriptFold

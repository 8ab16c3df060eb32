import ScriptFold.Proofs.Double
import ScriptFold.Proofs.Sound

/-!
What the pool makes. Each of its operations adds nodes only, keeps the invariant, and gives a node
whose value it remembers; `Value.toNode` gives one for every value without an infinite number.
-/

namespace ScriptFold

namespace Store

/-- The outcome of an operation of the pool: the node of a value, in a larger store. -/
structure Interns (s : Store) (v : Value) (r : NodeId × Store) : Prop where
  sound : r.2.Sound
  grows : s.Grows r.2
  value : r.2.pool.values[r.1]? = some v

namespace Interns

variable {s s' : Store} {v : Value} {r : NodeId × Store}

theorem spells (h : s.Interns v r) : r.2.tree.Spells v r.1 :=
  h.sound.spells h.value

theorem lt_size (h : s.Interns v r) : r.1 < r.2.tree.size :=
  h.sound.lt_size_of_value h.value

theorem isFrozen (h : s.Interns v r) : r.2.tree.isFrozen r.1 :=
  h.spells.isFrozen

theorem after (hg : s.Grows s') (h : s'.Interns v r) : s.Interns v r :=
  ⟨h.sound, hg.trans h.grows, h.value⟩

end Interns

variable {s : Store}

theorem values_freeze (s : Store) (node : Node NodeId) (v : Value) (minified : Bool) (id : NodeId) :
    (s.freeze node (some v) minified).2.pool.values[id]? =
      if id = s.tree.size then some v else s.pool.values[id]? := by
  change (s.pool.values.insert s.tree.size v)[id]? = _
  rw [Std.HashMap.getElem?_insert]
  by_cases h : id = s.tree.size <;> simp [h, Ne.symm]

theorem tree_freeze (s : Store) (node : Node NodeId) (value : Option Value) (minified : Bool) :
    (s.freeze node value minified).2.tree =
      (s.tree.alloc node { frozen := true, minified := minified }).2 := by
  cases value <;> rfl

theorem isFrozen_freeze (s : Store) (node : Node NodeId) (value : Option Value) (minified : Bool) :
    (s.freeze node value minified).2.tree.isFrozen s.tree.size ∧
      (s.freeze node value minified).2.tree.node s.tree.size = node := by
  unfold Tree.isFrozen
  rw [tree_freeze, Tree.flags_alloc, if_pos rfl, Tree.node_alloc, if_pos rfl]
  exact ⟨rfl, rfl⟩

theorem internLiteral_of_some {c : Constant} {id : NodeId} (h : s.pool.interned[c]? = some id) :
    s.internLiteral c = (id, s) := by
  simp [internLiteral, h]

theorem internLiteral_of_none {c : Constant} (h : s.pool.interned[c]? = none) :
    s.internLiteral c = s.addConstant c (.literal c.literal) := by
  simp [internLiteral, h]

/-- A node is a form of a value: where it is added as a frozen node, it spells the value. -/
def FormOf (s : Store) (v : Value) (node : Node NodeId) : Prop :=
  ∀ (t : Tree) id, s.tree.KeepsFrozen t → t.isFrozen id → t.node id = node → t.Spells v id

namespace Sound

theorem interns_freeze (h : s.Sound) {n : Node NodeId} {v : Value} (minified : Bool)
    (hfinite : n.HasFiniteLiteral) (hnode : ∀ c ∈ n.children, c < s.tree.size)
    (hform : s.FormOf v n) : s.Interns v (s.freeze n (some v) minified) := by
  have self : (s.freeze n (some v) minified).2.pool.values[s.tree.size]? = some v := by
    rw [values_freeze, if_pos rfl]
  have other : ∀ {id}, id ≠ s.tree.size →
      (s.freeze n (some v) minified).2.pool.values[id]? = s.pool.values[id]? := fun hid => by
    rw [values_freeze, if_neg hid]
  refine ⟨h.add hfinite hnode other (fun hv => ?_) (fun _ => .inl ⟨v, self⟩) id .inl rfl,
    ⟨.alloc _ _ _, fun hid => other hid.ne⟩, self⟩
  obtain rfl : v = _ := Option.some.inj (self.symm.trans hv)
  have hf := isFrozen_freeze s n (some v) minified
  exact hform _ _ (Tree.Grows.alloc _ _ _).keepsFrozen hf.1 hf.2

/-- A frozen node of a value may be put into the index of constants. -/
theorem insertInterned (h : s.Sound) {c : Constant} {id : NodeId}
    (hv : s.pool.values[id]? = some c.value)
    (hc : (∃ bits, c = .negated bits) ∨ s.tree.node id = .literal c.literal) :
    Sound { s with pool := { s.pool with interned := s.pool.interned.insert c id } } where
  wellFormed := h.wellFormed
  program := h.program
  finite := h.finite
  spells := h.spells
  frozen := h.frozen
  interned := by
    intro c' id' hc'
    change (s.pool.interned.insert c id)[c']? = some id' at hc'
    rw [Std.HashMap.getElem?_insert] at hc'
    split at hc'
    · obtain rfl := eq_of_beq ‹_›
      obtain rfl := Option.some.inj hc'
      exact ⟨hv, hc⟩
    · exact h.interned hc'
  undefined := h.undefined
  nan := h.nan
  emptyStatement := h.emptyStatement
  minified := h.minified

theorem interns_addConstant (h : s.Sound) {c : Constant} {node : Node NodeId}
    (hfinite : node.HasFiniteLiteral) (hnode : ∀ x ∈ node.children, x < s.tree.size)
    (hform : s.FormOf c.value node) (hc : (∃ bits, c = .negated bits) ∨ node = .literal c.literal) :
    s.Interns c.value (s.addConstant c node) := by
  have hi := h.interns_freeze false hfinite hnode hform
  have hn := (isFrozen_freeze s node (some c.value) false).2
  exact ⟨hi.sound.insertInterned hi.value (hc.imp_right hn.trans),
    ⟨hi.grows.tree, hi.grows.values⟩, hi.value⟩

theorem formOf_literal (s : Store) {c : Constant} (hc : ∀ bits, c ≠ .negated bits) :
    s.FormOf c.value (.literal c.literal) := by
  intro t id _ hf hn
  cases c with
  | null => exact ⟨hf, hn⟩
  | bool b => exact .inl ⟨hf, hn⟩
  | number bits => exact .inl ⟨hf, hn⟩
  | negated bits => exact absurd rfl (hc bits)
  | string text => exact ⟨hf, hn⟩

theorem interns_internLiteral (h : s.Sound) {c : Constant} (hc : ∀ bits, c ≠ .negated bits)
    (hfinite : (Node.literal (α := NodeId) c.literal).HasFiniteLiteral) :
    s.Interns c.value (s.internLiteral c) ∧
      (s.internLiteral c).2.tree.FrozenLiteral c.literal (s.internLiteral c).1 := by
  unfold Store.internLiteral
  split
  · have hi := h.interned ‹_›
    have hn := hi.2.resolve_left fun ⟨bits, hb⟩ => hc bits hb
    exact ⟨⟨h, .refl s, hi.1⟩, (h.spells hi.1).isFrozen, hn⟩
  · have hi := h.interns_addConstant hfinite (by simp [Node.children, Node.slots]) (formOf_literal s hc)
      (.inr rfl)
    have hn := (isFrozen_freeze s (.literal c.literal) (some c.value) false).2
    exact ⟨hi, hi.isFrozen, hn⟩

theorem hasFiniteLiteral_number {x : Float} (h : x.isFinite) :
    (Node.literal (α := NodeId) (Constant.number x.toBits).literal).HasFiniteLiteral := by
  intro y hy
  simp only [Constant.literal, ofBits_toBits, Node.literal.injEq, Literal.number.injEq] at hy
  exact hy ▸ h

theorem interns_number (h : s.Sound) {x : Float} (hx : x.isFinite) :
    s.Interns (.number x) (s.intern (.number x.toBits)) ∧
      (s.intern (.number x.toBits)).2.tree.FrozenLiteral (.number x)
        (s.intern (.number x.toBits)).1 := by
  have hi := h.interns_internLiteral (c := .number x.toBits) nofun (hasFiniteLiteral_number hx)
  rw [Constant.value, Constant.literal, ofBits_toBits] at hi
  exact hi

theorem interns_intern (h : s.Sound) {c : Constant}
    (hfinite : (Node.literal (α := NodeId) c.literal).HasFiniteLiteral) :
    s.Interns c.value (s.intern c) := by
  unfold Store.intern
  split
  · rename_i bits
    split
    · exact ⟨h, .refl s, (h.interned ‹_›).1⟩
    · obtain ⟨hi, hl⟩ := h.interns_internLiteral (c := .number bits) nofun hfinite
      refine (hi.sound.interns_addConstant (fun _ hx => ?_) (fun x hx => ?_) (fun t id keep hf hn => ?_)
        (.inl ⟨bits, rfl⟩)).after hi.grows
      · cases hx
      · obtain rfl := List.mem_singleton.mp hx
        exact hi.lt_size
      · exact .inr (.inl ⟨hf, _, _, hn, hl.keep keep, rfl⟩)
  · exact (h.interns_internLiteral ‹_› hfinite).1

theorem interns_over (h : s.Sound) {x : Float} (hx : x.isFinite) {v : Value}
    {n : NodeId → Node NodeId} (minified : Bool) (hnode : ∀ a, ∀ c ∈ (n a).children, c = a)
    (hfinite : ∀ a, (n a).HasFiniteLiteral)
    (hform : ∀ (t : Tree) a id, t.isFrozen id → t.node id = n a → t.FrozenLiteral (.number x) a →
      t.Spells v id) :
    s.Interns v ((s.intern (.number x.toBits)).2.freeze (n (s.intern (.number x.toBits)).1)
      (some v) minified) := by
  obtain ⟨hi, hl⟩ := h.interns_number hx
  refine (hi.sound.interns_freeze minified (hfinite _) (fun c hc => ?_) ?_).after hi.grows
  · rw [hnode _ c hc]
    exact hi.lt_size
  · exact fun t id keep hf hn => hform t _ id hf hn (hl.keep keep)

theorem interns_undefined (h : s.Sound) : s.Interns .undefined s.undefined := by
  unfold Store.undefined
  split
  · exact ⟨h, .refl s, h.undefined ‹_›⟩
  · have hi := h.interns_over (x := 0) (v := .undefined) (n := .unaryExpression .void) (by decide)
      false (fun _ _ hc => List.mem_singleton.mp hc) (fun _ _ hn => by cases hn)
      fun t a id hf hn hl => ⟨hf, a, hn, hl⟩
    refine ⟨?_, ⟨hi.grows.tree, hi.grows.values⟩, hi.value⟩
    exact { hi.sound with undefined := fun hu => Option.some.inj hu ▸ hi.value }

theorem interns_nan (h : s.Sound) : s.Interns (.number (0 / 0)) s.nan := by
  unfold Store.nan
  split
  · exact ⟨h, .refl s, h.nan ‹_›⟩
  · have hi := h.interns_over (x := 0) (v := .number (0 / 0))
      (n := fun a => .binaryExpression .div a a) (by decide) false
      (fun _ _ hc => by simpa [Node.children, Node.slots, Slot.children] using hc)
      (fun _ _ hn => by cases hn)
      fun t a id hf hn hl => .inr (.inr ⟨hf, a, hn, hl, rfl⟩)
    refine ⟨?_, ⟨hi.grows.tree, hi.grows.values⟩, hi.value⟩
    exact { hi.sound with nan := fun hu => Option.some.inj hu ▸ hi.value }

theorem interns_minifiedBool (h : s.Sound) (b : Bool) :
    s.Interns (.bool b) (s.minifiedBool b) ∧
      ((s.minifiedBool b).2.tree.flags (s.minifiedBool b).1).minified := by
  unfold Store.minifiedBool
  split
  · have hm := h.minified ‹_›
    exact ⟨⟨h, .refl s, hm.1⟩, hm.2⟩
  · have hi := h.interns_over (x := if b then 0 else 1) (v := .bool b) (n := .unaryExpression .not)
      (by cases b <;> decide) true (fun _ _ hc => List.mem_singleton.mp hc)
      (fun _ _ hn => by cases hn) fun t a id hf hn hl => .inr ⟨hf, a, hn, hl⟩
    have hm : ∀ s' : Store, ((s'.freeze (.unaryExpression .not
        (s.intern (.number (if b then 0 else 1 : Float).toBits)).1) (some (.bool b)) true).2.tree.flags
          s'.tree.size).minified := fun s' => by
      rw [tree_freeze, Tree.flags_alloc, if_pos rfl]
    cases b with
    | false =>
      refine ⟨⟨?_, ⟨hi.grows.tree, hi.grows.values⟩, hi.value⟩, hm _⟩
      exact
        { hi.sound with
          minified := fun {b id} hb => by
            cases b with
            | false => exact Option.some.inj hb ▸ ⟨hi.value, hm _⟩
            | true => exact hi.sound.minified (b := true) hb }
    | true =>
      refine ⟨⟨?_, ⟨hi.grows.tree, hi.grows.values⟩, hi.value⟩, hm _⟩
      exact
        { hi.sound with
          minified := fun {b id} hb => by
            cases b with
            | false => exact hi.sound.minified (b := false) hb
            | true => exact Option.some.inj hb ▸ ⟨hi.value, hm _⟩ }

theorem frozen_emptyStatement (h : s.Sound) :
    s.emptyStatement.2.Sound ∧ s.Grows s.emptyStatement.2 ∧
      s.emptyStatement.2.tree.isFrozen s.emptyStatement.1 ∧
      s.emptyStatement.2.tree.node s.emptyStatement.1 = .emptyStatement := by
  unfold Store.emptyStatement
  split
  · exact ⟨h, .refl s, h.emptyStatement ‹_›⟩
  · have hf := isFrozen_freeze s .emptyStatement none false
    refine ⟨?_, ⟨.alloc _ _ _, fun _ => rfl⟩, hf⟩
    refine h.add (fun _ hn => by cases hn) (fun c hc => by cases hc) (fun _ => rfl) (fun hv => ?_)
      (fun _ => .inr rfl) (fun he => ?_) (fun he => ?_) rfl
    · exact absurd (h.lt_size_of_value hv) (lt_irrefl _)
    · rw [‹s.pool.emptyStatement = none›] at he
      cases he
    · exact .inr ⟨(Option.some.inj he).symm, rfl, rfl⟩

end Sound

end Store

namespace Constant

theorem value_ofNumber (x : Float) : (ofNumber x).value = .number x := by
  unfold ofNumber
  split
  · rw [value, ofBits_toBits, neg_neg_float]
  · rw [value, ofBits_toBits]

theorem hasFiniteLiteral_ofNumber {x : Float} (hx : x.isFinite) :
    (Node.literal (α := NodeId) (ofNumber x).literal).HasFiniteLiteral := by
  intro y hy
  unfold ofNumber at hy
  split at hy <;>
    simp only [literal, ofBits_toBits, Node.literal.injEq, Literal.number.injEq] at hy <;> subst hy
  · rwa [isFinite_neg]
  · exact hx

end Constant

namespace Value

mutual

/-- A value without an infinite number. Exactly these have nodes. -/
def Representable : Value → Prop
  | .number x => ¬ x.isInf
  | .array items => RepresentableItems items
  | _ => True

def RepresentableItems : List (Option Value) → Prop
  | [] => True
  | item :: items => RepresentableItem item ∧ RepresentableItems items

def RepresentableItem : Option Value → Prop
  | none => True
  | some v => Representable v

end

open Store

mutual

/-- Every value without an infinite number gets a node. -/
theorem toNode_ok {s : Store} (h : s.Sound) : ∀ {v : Value}, v.Representable →
    ∃ id s', v.toNode s = .ok id s' ∧ s.Interns v (id, s')
  | .undefined, _ => ⟨_, _, by rw [toNode]; rfl, h.interns_undefined⟩
  | .null, _ => ⟨_, _, by rw [toNode]; rfl, h.interns_intern (c := .null) fun _ hx => by cases hx⟩
  | .bool b, _ =>
    ⟨_, _, by rw [toNode]; rfl, h.interns_intern (c := .bool b) fun _ hx => by cases hx⟩
  | .string text, _ =>
    ⟨_, _, by rw [toNode]; rfl, h.interns_intern (c := .string text) fun _ hx => by cases hx⟩
  | .number x, hv => by
    by_cases hn : x.isNaN
    · refine ⟨s.nan.1, s.nan.2, ?_, ?_⟩
      · rw [toNode, if_pos hn]
        rfl
      · rw [eq_nan hn]
        exact h.interns_nan
    · have hx : x.isFinite := by
        rw [Representable] at hv
        rw [isFinite_eq, Bool.eq_false_of_not_eq_true hn, Bool.eq_false_of_not_eq_true hv]
        rfl
      have hi := h.interns_intern (Constant.hasFiniteLiteral_ofNumber hx)
      rw [Constant.value_ofNumber] at hi
      refine ⟨_, _, ?_, hi⟩
      rw [toNode, if_neg hn]
      simp only [hx]
      rfl
  | .array items, hv => by
    rw [Representable] at hv
    obtain ⟨elements, s', he, hs', hg, hes⟩ := itemNodes_ok h hv
    have hi := hs'.interns_freeze (v := .array items) (n := .arrayExpression elements) false
      (fun _ hx => by cases hx)
      (fun c hc => by
        have hc : some c ∈ elements := by simpa [Node.children, Node.slots, Slot.children] using hc
        obtain ⟨_, hspells⟩ := hes.exists_of_mem hc
        exact Tree.lt_size_of_isFrozen hspells.isFrozen)
      fun t id keep hf hn => ⟨hf, elements, hn, hes.keep keep⟩
    refine ⟨_, _, ?_, hi.after hg⟩
    simp only [toNode, bind, EStateM.bind, he]
    rfl

theorem itemNodes_ok {s : Store} (h : s.Sound) : ∀ {items : List (Option Value)},
    RepresentableItems items →
    ∃ elements s', itemNodes items s = .ok elements s' ∧ s'.Sound ∧ s.Grows s' ∧
      s'.tree.SpellsItems items elements
  | [], _ => ⟨[], s, by rw [itemNodes]; rfl, h, .refl s, rfl⟩
  | item :: items, hv => by
    rw [RepresentableItems] at hv
    obtain ⟨e, s₁, he, hs₁, hg₁, hes⟩ := itemNode_ok h hv.1
    obtain ⟨es, s₂, hes', hs₂, hg₂, hess⟩ := itemNodes_ok hs₁ hv.2
    refine ⟨e :: es, s₂, ?_, hs₂, hg₁.trans hg₂, e, es, rfl, hes.keep hg₂.tree.keepsFrozen, hess⟩
    simp only [itemNodes, bind, EStateM.bind, he, hes']
    rfl

theorem itemNode_ok {s : Store} (h : s.Sound) : ∀ {item : Option Value},
    RepresentableItem item →
    ∃ e s', itemNode item s = .ok e s' ∧ s'.Sound ∧ s.Grows s' ∧ s'.tree.SpellsItem item e
  | none, _ => ⟨none, s, by rw [itemNode]; rfl, h, .refl s, rfl⟩
  | some v, hv => by
    rw [RepresentableItem] at hv
    obtain ⟨id, s', he, hi⟩ := toNode_ok h hv
    refine ⟨some id, s', ?_, hi.sound, hi.grows, id, rfl, hi.spells⟩
    simp only [itemNode, bind, EStateM.bind, he]
    rfl

end

end Value

end ScriptFold

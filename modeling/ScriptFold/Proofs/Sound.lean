import ScriptFold.Pool
import ScriptFold.Proofs.Graph

/-!
The invariant of folding. `Spells` says which frozen nodes a value is written with; a store is
`Sound` if its tree is well formed and its pool tells the truth about its frozen nodes. Adding
nodes and rewriting nodes that are not frozen both keep it.
-/

namespace ScriptFold

namespace Tree

/-- A frozen node is a given literal. -/
def FrozenLiteral (t : Tree) (l : Literal) (id : NodeId) : Prop :=
  t.isFrozen id ∧ t.node id = .literal l

mutual

/-- A frozen node is an expression of a given value, in one of the forms the pool makes. -/
def Spells (t : Tree) : Value → NodeId → Prop
  | .undefined, id => t.isFrozen id ∧
    ∃ a, t.node id = .unaryExpression .void a ∧ t.FrozenLiteral (.number 0) a
  | .null, id => t.FrozenLiteral .null id
  | .bool b, id => t.FrozenLiteral (.bool b) id ∨ t.isFrozen id ∧
    ∃ a, t.node id = .unaryExpression .not a ∧ t.FrozenLiteral (.number (if b then 0 else 1)) a
  | .number x, id => t.FrozenLiteral (.number x) id ∨
    (t.isFrozen id ∧
      ∃ a y, t.node id = .unaryExpression .minus a ∧ t.FrozenLiteral (.number y) a ∧ x = -y) ∨
    (t.isFrozen id ∧
      ∃ a, t.node id = .binaryExpression .div a a ∧ t.FrozenLiteral (.number 0) a ∧ x = 0 / 0)
  | .string text, id => t.FrozenLiteral (.string text) id
  | .array items, id => t.isFrozen id ∧
    ∃ elements, t.node id = .arrayExpression elements ∧ t.SpellsItems items elements

def SpellsItems (t : Tree) : List (Option Value) → List (Option NodeId) → Prop
  | [], elements => elements = []
  | item :: items, elements =>
    ∃ e es, elements = e :: es ∧ t.SpellsItem item e ∧ t.SpellsItems items es

def SpellsItem (t : Tree) : Option Value → Option NodeId → Prop
  | none, e => e = none
  | some v, e => ∃ id, e = some id ∧ t.Spells v id

end

/-- Frozen nodes stay what they are. -/
def KeepsFrozen (t t' : Tree) : Prop :=
  ∀ id, t.isFrozen id → t'.isFrozen id ∧ t'.node id = t.node id

theorem FrozenLiteral.keep {t t' : Tree} (h : t.KeepsFrozen t') {l : Literal} {id : NodeId}
    (hl : t.FrozenLiteral l id) : t'.FrozenLiteral l id :=
  ⟨(h id hl.1).1, (h id hl.1).2.trans hl.2⟩

mutual

theorem Spells.keep {t t' : Tree} (h : t.KeepsFrozen t') :
    ∀ {v : Value} {id : NodeId}, t.Spells v id → t'.Spells v id
  | .undefined, id, hv => by
    simp only [Spells] at hv ⊢
    obtain ⟨hf, a, hn, ha⟩ := hv
    exact ⟨(h id hf).1, a, (h id hf).2.trans hn, ha.keep h⟩
  | .null, id, hv => by
    simp only [Spells] at hv ⊢
    exact hv.keep h
  | .bool b, id, hv => by
    simp only [Spells] at hv ⊢
    rcases hv with hl | ⟨hf, a, hn, ha⟩
    · exact .inl (hl.keep h)
    · exact .inr ⟨(h id hf).1, a, (h id hf).2.trans hn, ha.keep h⟩
  | .number x, id, hv => by
    simp only [Spells] at hv ⊢
    rcases hv with hl | ⟨hf, a, y, hn, ha, hy⟩ | ⟨hf, a, hn, ha, hx⟩
    · exact .inl (hl.keep h)
    · exact .inr (.inl ⟨(h id hf).1, a, y, (h id hf).2.trans hn, ha.keep h, hy⟩)
    · exact .inr (.inr ⟨(h id hf).1, a, (h id hf).2.trans hn, ha.keep h, hx⟩)
  | .string text, id, hv => by
    simp only [Spells] at hv ⊢
    exact hv.keep h
  | .array items, id, hv => by
    simp only [Spells] at hv ⊢
    obtain ⟨hf, elements, hn, hitems⟩ := hv
    exact ⟨(h id hf).1, elements, (h id hf).2.trans hn, hitems.keep h⟩

theorem SpellsItems.keep {t t' : Tree} (h : t.KeepsFrozen t') :
    ∀ {items : List (Option Value)} {elements : List (Option NodeId)},
      t.SpellsItems items elements → t'.SpellsItems items elements
  | [], _, hv => by
    simp only [SpellsItems] at hv ⊢
    exact hv
  | item :: items, elements, hv => by
    simp only [SpellsItems] at hv ⊢
    obtain ⟨e, es, rfl, he, hes⟩ := hv
    exact ⟨e, es, rfl, he.keep h, hes.keep h⟩

theorem SpellsItem.keep {t t' : Tree} (h : t.KeepsFrozen t') :
    ∀ {item : Option Value} {e : Option NodeId}, t.SpellsItem item e → t'.SpellsItem item e
  | none, _, hv => by
    simp only [SpellsItem] at hv ⊢
    exact hv
  | some v, e, hv => by
    simp only [SpellsItem] at hv ⊢
    obtain ⟨id, rfl, hid⟩ := hv
    exact ⟨id, rfl, hid.keep h⟩

end

theorem Spells.isFrozen {t : Tree} {v : Value} {id : NodeId} (h : t.Spells v id) :
    t.isFrozen id := by
  cases v <;> simp only [Spells] at h
  case undefined => exact h.1
  case null => exact h.1
  case bool => exact h.elim (·.1) (·.1)
  case number => exact h.elim (·.1) (·.elim (·.1) (·.1))
  case string => exact h.1
  case array => exact h.1

theorem Spells.kind {t : Tree} {v : Value} {id : NodeId} (h : t.Spells v id) :
    (t.node id).kind ∈ [Kind.literal, .unaryExpression, .binaryExpression, .arrayExpression] := by
  cases v <;> simp only [Spells, FrozenLiteral] at h <;> grind [Node.kind]

theorem lt_size_of_isFrozen {t : Tree} {id : NodeId} (h : t.isFrozen id) : id < t.size := by
  by_contra hid
  unfold isFrozen at h
  rw [flags_of_size_le (Nat.le_of_not_lt hid)] at h
  cases h

theorem SpellsItems.exists_of_mem {t : Tree} :
    ∀ {items : List (Option Value)} {elements : List (Option NodeId)} {c : NodeId},
      t.SpellsItems items elements → some c ∈ elements → ∃ v, t.Spells v c
  | [], elements, c, h, hc => by
    simp only [SpellsItems] at h
    rw [h] at hc
    cases hc
  | item :: items, elements, c, h, hc => by
    simp only [SpellsItems] at h
    obtain ⟨e, es, rfl, he, hes⟩ := h
    rcases List.mem_cons.mp hc with rfl | hc
    · cases item with
      | none => simp [SpellsItem] at he
      | some v =>
        simp only [SpellsItem, Option.some.injEq] at he
        obtain ⟨_, rfl, hid⟩ := he
        exact ⟨v, hid⟩
    · exact hes.exists_of_mem hc

theorem Spells.exists_child {t : Tree} {v : Value} {id c : NodeId} (h : t.Spells v id)
    (hc : t.Child c id) : ∃ w, t.Spells w c := by
  have number : ∀ {x a}, t.FrozenLiteral (.number x) a → ∃ w, t.Spells w a := fun {x a} ha => by
    refine ⟨.number x, ?_⟩
    simp only [Spells]
    exact .inl ha
  unfold Child Node.children at hc
  cases v <;> simp only [Spells] at h
  case undefined =>
    obtain ⟨-, a, hn, ha⟩ := h
    obtain rfl : c = a := by simpa [hn, Node.slots, Slot.children] using hc
    exact number ha
  case null => simp [h.2, Node.slots] at hc
  case bool =>
    rcases h with h | ⟨-, a, hn, ha⟩
    · simp [h.2, Node.slots] at hc
    · obtain rfl : c = a := by simpa [hn, Node.slots, Slot.children] using hc
      exact number ha
  case number =>
    rcases h with h | ⟨-, a, y, hn, ha, -⟩ | ⟨-, a, hn, ha, -⟩
    · simp [h.2, Node.slots] at hc
    · obtain rfl : c = a := by simpa [hn, Node.slots, Slot.children] using hc
      exact number ha
    · obtain rfl : c = a := by simpa [hn, Node.slots, Slot.children] using hc
      exact number ha
  case string => simp [h.2, Node.slots] at hc
  case array =>
    obtain ⟨-, elements, hn, hitems⟩ := h
    rw [hn] at hc
    exact hitems.exists_of_mem (by simpa [Node.slots, Slot.children] using hc)

theorem Spells.isFrozen_child {t : Tree} {v : Value} {id c : NodeId} (h : t.Spells v id)
    (hc : t.Child c id) : t.isFrozen c := by
  obtain ⟨w, hw⟩ := h.exists_child hc
  exact hw.isFrozen

theorem Grows.keepsFrozen {t t' : Tree} (h : t.Grows t') : t.KeepsFrozen t' := fun _ hf =>
  have hid := lt_size_of_isFrozen hf
  ⟨(h.isFrozen hid).trans hf, h.node hid⟩

theorem keepsFrozen_setNode {t : Tree} {owner : NodeId} (node : Node NodeId)
    (hsize : owner < t.size) (howner : ¬ t.isFrozen owner) : t.KeepsFrozen (t.setNode owner node) := by
  intro id hf
  refine ⟨(t.isFrozen_setNode owner node id).trans hf, ?_⟩
  rw [node_setNode hsize, if_neg]
  rintro rfl
  exact howner hf

end Tree

/-- Whether a node is anything but an infinite or NaN literal. -/
def Node.HasFiniteLiteral {α : Type} (n : Node α) : Prop :=
  ∀ x, n = .literal (.number x) → x.isFinite

namespace Store

/-- The invariant of folding. -/
structure Sound (s : Store) : Prop where
  wellFormed : s.tree.WellFormed
  program : (s.tree.node s.tree.root).kind = .program
  finite : ∀ id, (s.tree.node id).HasFiniteLiteral
  spells : ∀ {id v}, s.pool.values[id]? = some v → s.tree.Spells v id
  frozen : ∀ {id}, s.tree.isFrozen id →
    (∃ v, s.pool.values[id]? = some v) ∨ s.pool.emptyStatement = some id
  /-- Only a negation is not a literal. -/
  interned : ∀ {c : Constant} {id}, s.pool.interned[c]? = some id →
    s.pool.values[id]? = some c.value ∧
    ((∃ bits, c = .negated bits) ∨ s.tree.node id = .literal c.literal)
  undefined : ∀ {id}, s.pool.undefined = some id → s.pool.values[id]? = some .undefined
  nan : ∀ {id}, s.pool.nan = some id → s.pool.values[id]? = some (.number (0 / 0))
  emptyStatement : ∀ {id}, s.pool.emptyStatement = some id →
    s.tree.isFrozen id ∧ s.tree.node id = .emptyStatement
  minified : ∀ {b id}, (if b then s.pool.minifiedTrue else s.pool.minifiedFalse) = some id →
    s.pool.values[id]? = some (.bool b) ∧ (s.tree.flags id).minified

/-- A tree without frozen nodes is sound with an empty pool. -/
theorem Sound.of_unfrozen {t : Tree} (wellFormed : t.WellFormed)
    (program : (t.node t.root).kind = .program) (finite : ∀ id, (t.node id).HasFiniteLiteral)
    (frozen : ∀ id, ¬ t.isFrozen id) : Sound { tree := t } where
  wellFormed := wellFormed
  program := program
  finite := finite
  spells hv := by simp at hv
  frozen {id} hf := absurd hf (frozen id)
  interned hc := by simp at hc
  undefined := nofun
  nan := nofun
  emptyStatement := nofun
  minified {b _} hb := by cases b <;> cases hb

/-- One store is another with more nodes, and knows the same of the old ones. -/
structure Grows (s s' : Store) : Prop where
  tree : s.tree.Grows s'.tree
  values : ∀ {id}, id < s.tree.size → s'.pool.values[id]? = s.pool.values[id]?

namespace Grows

theorem refl (s : Store) : s.Grows s :=
  ⟨.refl _, fun _ => rfl⟩

theorem trans {s s' s'' : Store} (h : s.Grows s') (h' : s'.Grows s'') : s.Grows s'' where
  tree := h.tree.trans h'.tree
  values hid := (h'.values (hid.trans_le h.tree.size)).trans (h.values hid)

end Grows

namespace Sound

variable {s : Store} {id c owner : NodeId}

theorem lt_size_of_value (h : s.Sound) {v : Value} (hv : s.pool.values[id]? = some v) :
    id < s.tree.size :=
  Tree.lt_size_of_isFrozen (h.spells hv).isFrozen

theorem value_of_grows (h : s.Sound) {s' : Store} (hg : s.Grows s') {v : Value}
    (hv : s.pool.values[id]? = some v) : s'.pool.values[id]? = some v :=
  (hg.values (h.lt_size_of_value hv)).trans hv

theorem isFrozen_child (h : s.Sound) (hid : s.tree.isFrozen id) (hc : s.tree.Child c id) :
    s.tree.isFrozen c := by
  rcases h.frozen hid with ⟨v, hv⟩ | he
  · exact (h.spells hv).isFrozen_child hc
  · unfold Tree.Child at hc
    simp [(h.emptyStatement he).2, Node.children, Node.slots] at hc

/-- Nothing that can be edited is below a frozen node. -/
theorem isFrozen_within (h : s.Sound) (hid : s.tree.isFrozen id) (hw : s.tree.Within c id) :
    s.tree.isFrozen c := by
  induction hw using Relation.ReflTransGen.head_induction_on with
  | refl => exact hid
  | head hc _ ih => exact h.isFrozen_child ih hc

theorem not_within_frozen (h : s.Sound) (hid : s.tree.isFrozen id) (howner : ¬ s.tree.isFrozen owner) :
    ¬ s.tree.Within owner id := fun hw =>
  howner (h.isFrozen_within hid hw)

theorem lt_size_of_root (h : s.Sound) : s.tree.root < s.tree.size := by
  by_contra hid
  have := h.program
  rw [Tree.node_of_size_le (Nat.le_of_not_lt hid)] at this
  cases this

theorem root_not_frozen (h : s.Sound) : ¬ s.tree.isFrozen s.tree.root := by
  intro hf
  have hk := h.program
  rcases h.frozen hf with ⟨v, hv⟩ | he
  · have hkind := (h.spells hv).kind
    rw [hk] at hkind
    simp at hkind
  · rw [(h.emptyStatement he).2] at hk
    cases hk

/-- Rewriting a node that is not frozen. The new children must not lead back to it. -/
theorem setNode (h : s.Sound) {node : Node NodeId} (hsize : owner < s.tree.size)
    (howner : ¬ s.tree.isFrozen owner) (hkind : node.kind = (s.tree.node owner).kind)
    (hfinite : node.HasFiniteLiteral)
    (hnode : ∀ c ∈ node.children, c < s.tree.size ∧ ¬ s.tree.Within owner c) :
    Sound { s with tree := s.tree.setNode owner node } := by
  have keep := Tree.keepsFrozen_setNode node hsize howner
  refine
    { wellFormed := h.wellFormed.setNode hsize hnode
      program := ?_
      finite := fun id => ?_
      spells := fun hv => (h.spells hv).keep keep
      frozen := fun {id} hf => ?_
      interned := fun {c id} hc => ⟨(h.interned hc).1, ?_⟩
      undefined := h.undefined
      nan := h.nan
      emptyStatement := fun {id} he => ?_
      minified := fun {b id} hb => ⟨(h.minified hb).1, ?_⟩ }
  · rw [Tree.root_setNode, Tree.node_setNode hsize]
    split
    · rw [hkind, ← ‹s.tree.root = owner›]
      exact h.program
    · exact h.program
  · rw [Tree.node_setNode hsize]
    split
    · exact hfinite
    · exact h.finite id
  · rw [Tree.isFrozen_setNode] at hf
    exact h.frozen hf
  · rcases (h.interned hc).2 with hneg | hn
    · exact .inl hneg
    · have hf := (h.spells (h.interned hc).1).isFrozen
      exact .inr ((keep id hf).2.trans hn)
  · have := h.emptyStatement he
    exact ⟨(keep id this.1).1, (keep id this.1).2.trans this.2⟩
  · rw [Tree.flags_setNode]
    exact (h.minified hb).2

/-- Adding a node, with its value where it is the frozen node of a value. -/
theorem add (h : s.Sound) {node : Node NodeId} {flags : Flags} {pool : Pool}
    (hfinite : node.HasFiniteLiteral) (hnode : ∀ c ∈ node.children, c < s.tree.size)
    (hsame : ∀ {id}, id ≠ s.tree.size → pool.values[id]? = s.pool.values[id]?)
    (hspells : ∀ {v}, pool.values[s.tree.size]? = some v →
      (s.tree.alloc node flags).2.Spells v s.tree.size)
    (hfrozen : flags.frozen →
      (∃ v, pool.values[s.tree.size]? = some v) ∨ pool.emptyStatement = some s.tree.size)
    (hkeep : ∀ {id}, s.pool.emptyStatement = some id → pool.emptyStatement = some id)
    (hempty : ∀ {id}, pool.emptyStatement = some id → s.pool.emptyStatement = some id ∨
      id = s.tree.size ∧ flags.frozen ∧ node = .emptyStatement)
    (hpool : pool = { s.pool with
      values := pool.values, emptyStatement := pool.emptyStatement }) :
    Sound { tree := (s.tree.alloc node flags).2, pool } := by
  have grows := Tree.Grows.alloc s.tree node flags
  have values : ∀ {id v}, s.pool.values[id]? = some v → pool.values[id]? = some v := fun hv =>
    (hsame (h.lt_size_of_value hv).ne).trans hv
  have new : (s.tree.alloc node flags).2.node s.tree.size = node := by
    rw [Tree.node_alloc, if_pos rfl]
  refine
    { wellFormed := h.wellFormed.alloc flags hnode
      program := ?_
      finite := fun id => ?_
      spells := fun {id v} hv => ?_
      frozen := fun {id} hf => ?_
      interned := fun {c id} hc => ?_
      undefined := fun {id} hu => ?_
      nan := fun {id} hn => ?_
      emptyStatement := fun {id} he => ?_
      minified := fun {b id} hb => ?_ }
  · rw [grows.root, grows.node h.lt_size_of_root]
    exact h.program
  · rw [Tree.node_alloc]
    split
    · exact hfinite
    · exact h.finite id
  · by_cases hid : id = s.tree.size
    · subst hid
      exact hspells hv
    · exact (h.spells ((hsame hid).symm.trans hv)).keep grows.keepsFrozen
  · unfold Tree.isFrozen at hf
    rw [Tree.flags_alloc] at hf
    split at hf
    · subst id
      exact hfrozen hf
    · refine (h.frozen hf).imp (fun ⟨v, hv⟩ => ⟨v, values hv⟩) hkeep
  · rw [hpool] at hc
    have := h.interned hc
    refine ⟨values this.1, this.2.imp_right fun hn => ?_⟩
    rw [grows.node (h.lt_size_of_value this.1)]
    exact hn
  · rw [hpool] at hu
    exact values (h.undefined hu)
  · rw [hpool] at hn
    exact values (h.nan hn)
  · rcases hempty he with he | ⟨rfl, hf, hn⟩
    · have := grows.keepsFrozen _ (h.emptyStatement he).1
      exact ⟨this.1, this.2.trans (h.emptyStatement he).2⟩
    · refine ⟨?_, new.trans hn⟩
      unfold Tree.isFrozen
      rw [Tree.flags_alloc, if_pos rfl]
      exact hf
  · rw [hpool] at hb
    have := h.minified hb
    refine ⟨values this.1, ?_⟩
    rw [grows.flags (h.lt_size_of_value this.1)]
    exact this.2

theorem alloc (h : s.Sound) {node : Node NodeId} (hfinite : node.HasFiniteLiteral)
    (hnode : ∀ c ∈ node.children, c < s.tree.size) :
    Sound { s with tree := (s.tree.alloc node).2 } := by
  refine h.add hfinite hnode (fun _ => rfl) (fun hv => ?_) (fun hf => ?_) id .inl rfl
  · exact absurd (h.lt_size_of_value hv) (lt_irrefl _)
  · cases hf

end Sound

theorem grows_alloc (s : Store) (node : Node NodeId) (flags : Flags) :
    s.Grows { s with tree := (s.tree.alloc node flags).2 } :=
  ⟨.alloc _ _ _, fun _ => rfl⟩

end Store

end ScriptFold

import ScriptFold.Proofs.Node
import ScriptFold.Tree.Attribute
import ScriptFold.Tree.Edit

/-!
Trees as graphs of nodes. In a well formed tree no node is below itself, so recursion over the
nodes below a node ends, and the depths that `attr` and its like are given are deep enough.
-/

namespace ScriptFold

namespace Tree

open Relation

theorem node_of_size_le {t : Tree} {id : NodeId} (h : t.size ≤ id) : t.node id = .emptyStatement := by
  unfold node
  rw [Array.getElem?_eq_none (by exact h)]
  rfl

theorem flags_of_size_le {t : Tree} {id : NodeId} (h : t.size ≤ id) : t.flags id = {} := by
  unfold flags
  rw [Array.getElem?_eq_none (by exact h)]
  rfl

theorem flags_alloc (t : Tree) (node : Node NodeId) (flags : Flags) (id : NodeId) :
    (t.alloc node flags).2.flags id = if id = t.size then flags else t.flags id := by
  by_cases h : id = t.cells.size <;> simp [alloc, Tree.flags, size, Array.getElem?_push, h]

@[simp] theorem size_setNode (t : Tree) (id : NodeId) (node : Node NodeId) :
    (t.setNode id node).size = t.size := by
  simp [setNode, size]

@[simp] theorem root_setNode (t : Tree) (id : NodeId) (node : Node NodeId) :
    (t.setNode id node).root = t.root := rfl

theorem node_setNode {t : Tree} {id : NodeId} (h : id < t.size) (node : Node NodeId) (x : NodeId) :
    (t.setNode id node).node x = if x = id then node else t.node x := by
  have h : id < t.cells.size := h
  by_cases hx : x = id
  · subst hx
    simp [setNode, Tree.node, Array.getElem?_modify, Array.getElem?_eq_getElem h]
  · simp [setNode, Tree.node, Array.getElem?_modify, hx, Ne.symm hx]

@[simp] theorem flags_setNode (t : Tree) (id : NodeId) (node : Node NodeId) (x : NodeId) :
    (t.setNode id node).flags x = t.flags x := by
  by_cases hx : x = id
  · subst hx
    cases h : t.cells[x]? <;> simp [setNode, Tree.flags, Array.getElem?_modify, h]
  · simp [setNode, Tree.flags, Array.getElem?_modify, Ne.symm hx]

@[simp] theorem isFrozen_setNode (t : Tree) (id : NodeId) (node : Node NodeId) (x : NodeId) :
    (t.setNode id node).isFrozen x = t.isFrozen x := by
  simp [isFrozen]

def Child (t : Tree) (c id : NodeId) : Prop :=
  c ∈ (t.node id).children

abbrev Within (t : Tree) : NodeId → NodeId → Prop :=
  ReflTransGen t.Child

abbrev Below (t : Tree) : NodeId → NodeId → Prop :=
  TransGen t.Child

/-- Every child is a node of the tree, and no node is below itself. -/
structure WellFormed (t : Tree) : Prop where
  closed : ∀ {c id}, t.Child c id → c < t.size
  acyclic : WellFounded t.Child

theorem lt_size_of_child {t : Tree} {c id : NodeId} (h : t.Child c id) : id < t.size := by
  by_contra hid
  unfold Child at h
  rw [node_of_size_le (Nat.le_of_not_lt hid)] at h
  simp [Node.children, Node.slots] at h

theorem lt_size_of_above {t : Tree} {a b : NodeId} (hb : t.Below a b) : b < t.size := by
  obtain ⟨x, -, hx⟩ := TransGen.tail'_iff.mp hb
  exact lt_size_of_child hx

namespace WellFormed

variable {t : Tree} {a b c id : NodeId}

theorem not_below_self (h : t.WellFormed) : ¬ t.Below id id :=
  (h.acyclic.transGen.irrefl).irrefl id

theorem not_within_child (h : t.WellFormed) (hc : t.Child c id) : ¬ t.Within id c := fun hw =>
  h.not_below_self (TransGen.tail' hw hc)

theorem not_within_below (h : t.WellFormed) (hc : t.Below c id) : ¬ t.Within id c := fun hw =>
  h.not_below_self (TransGen.trans_right hw hc)

theorem within_lt_size (h : t.WellFormed) (hw : t.Within a b) (hb : b < t.size) : a < t.size := by
  rcases ReflTransGen.cases_head hw with rfl | ⟨x, hx, -⟩
  · exact hb
  · exact h.closed hx

theorem lt_size_of_below (h : t.WellFormed) (hb : t.Below a b) : a < t.size := by
  obtain ⟨x, hx, -⟩ := TransGen.head'_iff.mp hb
  exact h.closed hx

end WellFormed

open Classical in
/-- How many nodes are below a node. It bounds the depth of what is below it. -/
noncomputable def countBelow (t : Tree) (id : NodeId) : Nat :=
  ((Finset.range t.size).filter (t.Below · id)).card

theorem countBelow_le (t : Tree) (id : NodeId) : t.countBelow id ≤ t.size := by
  classical
  unfold countBelow
  have hle := Finset.card_filter_le (Finset.range t.size) (t.Below · id)
  rwa [Finset.card_range] at hle

theorem countBelow_lt {t : Tree} {c id : NodeId} (hc : t.Child c id) (hsize : c < t.size)
    (hself : ¬ t.Below c c) : t.countBelow c < t.countBelow id := by
  classical
  unfold countBelow
  refine Finset.card_lt_card ⟨fun x hx => ?_, fun hsub => ?_⟩
  · simp only [Finset.mem_filter] at hx ⊢
    exact ⟨hx.1, hx.2.tail hc⟩
  · -- the child itself is below its parent and not below itself
    have hmem := hsub (Finset.mem_filter.mpr ⟨Finset.mem_range.mpr hsize, TransGen.single hc⟩)
    exact hself (Finset.mem_filter.mp hmem).2

open Classical in
theorem countBelow_lt_size {t : Tree} {id : NodeId} (hsize : id < t.size) (hself : ¬ t.Below id id) :
    t.countBelow id < t.size := by
  have hsub : (Finset.range t.size).filter (t.Below · id) ⊂ Finset.range t.size := by
    refine ⟨Finset.filter_subset _ _, fun hall => ?_⟩
    have hmem := hall (Finset.mem_range.mpr hsize)
    exact hself (Finset.mem_filter.mp hmem).2
  have hlt := Finset.card_lt_card hsub
  rwa [Finset.card_range] at hlt

namespace WellFormed

variable {t : Tree} {c id : NodeId}

theorem countBelow_lt (h : t.WellFormed) (hc : t.Child c id) : t.countBelow c < t.countBelow id :=
  Tree.countBelow_lt hc (h.closed hc) h.not_below_self

theorem countBelow_lt_size (h : t.WellFormed) (hid : id < t.size) : t.countBelow id < t.size :=
  Tree.countBelow_lt_size hid h.not_below_self

end WellFormed

/-- A property of all nodes within a node. -/
def Throughout (t : Tree) (F : NodeId → Prop) (id : NodeId) : Prop :=
  ∀ x, t.Within x id → F x

section Throughout

variable {t : Tree} {F : NodeId → Prop} {id c x y z : NodeId} {node : Node NodeId}

theorem Throughout.self (h : t.Throughout F id) : F id :=
  h id .refl

theorem Throughout.within (h : t.Throughout F id) (hw : t.Within x id) : t.Throughout F x :=
  fun y hy => h y (hy.trans hw)

theorem Throughout.child (h : t.Throughout F id) (hc : t.Child c id) : t.Throughout F c :=
  h.within (.single hc)

theorem throughout_iff : t.Throughout F id ↔ F id ∧ ∀ c, t.Child c id → t.Throughout F c := by
  constructor
  · intro h
    exact ⟨h.self, fun c hc => h.child hc⟩
  · intro h x hx
    rcases ReflTransGen.cases_tail hx with rfl | ⟨c, hxc, hc⟩
    · exact h.1
    · exact h.2 c hc x hxc

/-- What is below a node of an edited tree was below it before, or below a new child. -/
theorem within_setNode (hx : x < t.size) (hw : (t.setNode x node).Within y z) :
    t.Within y z ∨ ∃ c ∈ node.children, t.Within y c := by
  induction hw using ReflTransGen.head_induction_on with
  | refl => exact .inl .refl
  | @head y w hc _ ih =>
    unfold Child at hc
    rw [node_setNode hx] at hc
    split at hc
    · exact .inr ⟨y, hc, .refl⟩
    · rcases ih with hw | ⟨c, hmem, hw⟩
      · exact .inl (.head hc hw)
      · exact .inr ⟨c, hmem, .head hc hw⟩

theorem Throughout.setNode (h : t.Throughout F z) (hx : x < t.size)
    (hnode : ∀ c ∈ node.children, t.Throughout F c) : (t.setNode x node).Throughout F z := by
  intro y hy
  rcases within_setNode hx hy with hy | ⟨c, hc, hy⟩
  · exact h y hy
  · exact hnode c hc y hy

end Throughout

section Attribute

variable {β : Type} {step : NodeId → Node β → β} {base : β}

theorem attrTo_eq {t : Tree} (h : t.WellFormed) {d e : Nat} {id : NodeId}
    (hd : t.countBelow id < d) (he : t.countBelow id < e) :
    t.attrTo step base d id = t.attrTo step base e id := by
  induction d generalizing e id with
  | zero => omega
  | succ d ih =>
    obtain ⟨e, rfl⟩ : ∃ e', e = e' + 1 := ⟨e - 1, by omega⟩
    unfold attrTo
    rw [Node.map_congr fun c hc => ?_]
    have := h.countBelow_lt (c := c) hc
    exact ih (by omega) (by omega)

theorem attr_eq {t : Tree} (h : t.WellFormed) (id : NodeId) :
    t.attr step base id = step id ((t.node id).map (t.attr step base)) := by
  conv_lhs => unfold attr attrTo
  rw [Node.map_congr fun c hc => ?_]
  have hc := h.countBelow_lt (c := c) hc
  have := t.countBelow_le id
  exact attrTo_eq h (by omega) (by omega)

theorem attr_congr {t t' : Tree} (h : t.WellFormed) (h' : t'.WellFormed)
    {step' : NodeId → Node β → β} {id : NodeId}
    (hnode : ∀ x, t.Within x id → t'.node x = t.node x)
    (hstep : ∀ x node, t.Within x id → step' x node = step x node) :
    t'.attr step' base id = t.attr step base id := by
  induction id using h.acyclic.induction with
  | _ id ih =>
    rw [attr_eq h, attr_eq h', hnode id .refl, hstep id _ .refl]
    rw [Node.map_congr fun c hc => ?_]
    exact ih c hc (fun x hx => hnode x (hx.tail hc)) fun x n hx => hstep x n (hx.tail hc)

end Attribute

section Edits

variable {t : Tree} {owner c : NodeId} {node : Node NodeId}

/-- A node is not within another if it is not the other and not within its children. -/
theorem not_within_of_children (hne : owner ≠ c) (h : ∀ x, t.Child x c → ¬ t.Within owner x) :
    ¬ t.Within owner c := by
  intro hw
  rcases ReflTransGen.cases_tail hw with rfl | ⟨x, hx, hc⟩
  · exact hne rfl
  · exact h x hc hx

theorem WellFormed.alloc (h : t.WellFormed) (flags : Flags) (hnode : ∀ c ∈ node.children, c < t.size) :
    (t.alloc node flags).2.WellFormed := by
  have child : ∀ {c id}, (t.alloc node flags).2.Child c id →
      id = t.size ∧ c < t.size ∨ id ≠ t.size ∧ t.Child c id := by
    intro c id hc
    unfold Child at hc
    rw [node_alloc] at hc
    split at hc
    · exact .inl ⟨‹_›, hnode c hc⟩
    · exact .inr ⟨‹_›, hc⟩
  have old : ∀ id, id ≠ t.size → Acc (t.alloc node flags).2.Child id := by
    intro id
    induction id using h.acyclic.induction with
    | _ id ih =>
      refine fun hid => ⟨id, fun c hc => ?_⟩
      rcases child hc with ⟨rfl, -⟩ | ⟨-, hc⟩
      · exact absurd rfl hid
      · exact ih c hc (h.closed hc).ne
  refine ⟨fun {c id} hc => ?_, ⟨fun id => ?_⟩⟩
  · rw [size_alloc]
    rcases child hc with ⟨-, hc⟩ | ⟨-, hc⟩
    · exact Nat.lt_succ_of_lt hc
    · exact Nat.lt_succ_of_lt (h.closed hc)
  · by_cases hid : id = t.size
    · refine ⟨id, fun c hc => ?_⟩
      rcases child hc with ⟨-, hc⟩ | ⟨hne, -⟩
      · exact old c hc.ne
      · exact absurd hid hne
    · exact old id hid

theorem WellFormed.setNode (h : t.WellFormed) (howner : owner < t.size)
    (hnode : ∀ c ∈ node.children, c < t.size ∧ ¬ t.Within owner c) :
    (t.setNode owner node).WellFormed := by
  have child : ∀ {c id}, (t.setNode owner node).Child c id →
      id = owner ∧ c ∈ node.children ∨ id ≠ owner ∧ t.Child c id := by
    intro c id hc
    unfold Child at hc
    rw [node_setNode howner] at hc
    split at hc
    · exact .inl ⟨‹_›, hc⟩
    · exact .inr ⟨‹_›, hc⟩
  have apart : ∀ id, ¬ t.Within owner id → Acc (t.setNode owner node).Child id := by
    intro id
    induction id using h.acyclic.induction with
    | _ id ih =>
      refine fun hid => ⟨id, fun c hc => ?_⟩
      rcases child hc with ⟨rfl, -⟩ | ⟨-, hc⟩
      · exact absurd .refl hid
      · exact ih c hc fun hw => hid (hw.tail hc)
  have self : Acc (t.setNode owner node).Child owner := by
    refine ⟨owner, fun c hc => ?_⟩
    rcases child hc with ⟨-, hc⟩ | ⟨hne, -⟩
    · exact apart c (hnode c hc).2
    · exact absurd rfl hne
  refine ⟨fun {c id} hc => ?_, ⟨fun id => ?_⟩⟩
  · rw [size_setNode]
    rcases child hc with ⟨-, hc⟩ | ⟨-, hc⟩
    · exact (hnode c hc).1
    · exact h.closed hc
  · induction id using h.acyclic.induction with
    | _ id ih =>
      by_cases hid : id = owner
      · exact hid ▸ self
      · refine ⟨id, fun c hc => ?_⟩
        rcases child hc with ⟨rfl, -⟩ | ⟨-, hc⟩
        · exact absurd rfl hid
        · exact ih c hc

end Edits

/-- One tree is another with more nodes. -/
structure Grows (t t' : Tree) : Prop where
  size : t.size ≤ t'.size
  root : t'.root = t.root
  revision : t'.revision = t.revision
  node : ∀ {id}, id < t.size → t'.node id = t.node id
  flags : ∀ {id}, id < t.size → t'.flags id = t.flags id

namespace Grows

variable {t t' t'' : Tree}

theorem refl (t : Tree) : t.Grows t :=
  ⟨le_rfl, rfl, rfl, fun _ => rfl, fun _ => rfl⟩

theorem trans (h : t.Grows t') (h' : t'.Grows t'') : t.Grows t'' where
  size := h.size.trans h'.size
  root := h'.root.trans h.root
  revision := h'.revision.trans h.revision
  node hid := (h'.node (hid.trans_le h.size)).trans (h.node hid)
  flags hid := (h'.flags (hid.trans_le h.size)).trans (h.flags hid)

theorem alloc (t : Tree) (node : Node NodeId) (flags : Flags) :
    t.Grows (t.alloc node flags).2 where
  size := by rw [size_alloc]; omega
  root := rfl
  revision := rfl
  node hid := by rw [node_alloc, if_neg (Nat.ne_of_lt hid)]
  flags hid := by rw [flags_alloc, if_neg (Nat.ne_of_lt hid)]

theorem isFrozen (h : t.Grows t') {id : NodeId} (hid : id < t.size) :
    t'.isFrozen id = t.isFrozen id := by
  unfold Tree.isFrozen
  rw [h.flags hid]

theorem child_iff (h : t.Grows t') {c id : NodeId} (hid : id < t.size) :
    t'.Child c id ↔ t.Child c id := by
  unfold Child
  rw [h.node hid]

theorem within (h : t.Grows t') (wf : t.WellFormed) {a id : NodeId} (hid : id < t.size) :
    t'.Within a id ↔ t.Within a id := by
  constructor
  · intro hw
    induction hw using ReflTransGen.head_induction_on with
    | refl => exact .refl
    | head hc _ ih =>
      exact .head ((h.child_iff (wf.within_lt_size ih hid)).mp hc) ih
  · intro hw
    induction hw using ReflTransGen.head_induction_on with
    | refl => exact .refl
    | head hc hw ih =>
      exact .head ((h.child_iff (wf.within_lt_size hw hid)).mpr hc) ih

theorem throughout (h : t.Grows t') (wf : t.WellFormed) {F : NodeId → Prop} {id : NodeId}
    (hid : id < t.size) (hF : t.Throughout F id) : t'.Throughout F id := fun x hx =>
  hF x ((h.within wf hid).mp hx)

end Grows

def Unused (t : Tree) (id : NodeId) : Prop :=
  ¬ t.Within id t.root

theorem Unused.grows {t t' : Tree} {id : NodeId} (h : t.Unused id) (hg : t.Grows t')
    (wf : t.WellFormed) (hroot : t.root < t.size) : t'.Unused id := by
  unfold Unused
  rw [hg.root, hg.within wf hroot]
  exact h

theorem unused_of_size_le {t : Tree} {id : NodeId} (h : t.size ≤ id) (wf : t.WellFormed)
    (hroot : t.root < t.size) : t.Unused id := fun hw =>
  absurd (wf.within_lt_size hw hroot) (Nat.not_lt.mpr h)

end Tree

end ScriptFold

import ScriptFold.Proofs.Sound
import ScriptFold.Text.Units

/-!
Weights of nodes. The weight of a frozen node is that of the value it is written for; any other node
weighs something of its own and what its slots weigh. Rewriting a node so that its slots weigh less
makes no node heavier.
-/

namespace ScriptFold

namespace Value

mutual

/-- How many arrays, items and holes there are in a value; an array counts four times. -/
def bulk : Value → Nat
  | .array items => 4 + itemsBulk items
  | _ => 1

def itemsBulk : List (Option Value) → Nat
  | [] => 0
  | item :: items => itemBulk item + itemsBulk items

def itemBulk : Option Value → Nat
  | none => 1
  | some v => bulk v

end

def weight (v : Value) (minified : Bool) : Nat :=
  match v with
  | .undefined => 4
  | .null | .number _ => 3
  | .bool _ => if minified then 1 else 2
  | .string text => if (units text).length ≤ 1 then 3 else 4
  | .array items => bulk (.array items)

theorem bulk_pos (v : Value) : 1 ≤ v.bulk := by
  cases v <;> simp [bulk]
  omega

theorem bulk_le_weight (v : Value) (minified : Bool) : v.bulk ≤ v.weight minified := by
  cases v <;> rw [weight] <;> simp only [bulk] <;> (try split) <;> omega

theorem weight_le (v : Value) (minified : Bool) : v.weight minified ≤ max 4 v.bulk := by
  cases v <;> rw [weight] <;> (try split) <;> omega

theorem le_weight {v : Value} (minified : Bool) (hv : ∀ b, v ≠ .bool b) : 3 ≤ v.weight minified := by
  cases v with
  | bool b => exact absurd rfl (hv b)
  | array items =>
    rw [weight, bulk]
    omega
  | _ =>
    rw [weight]
    try split
    all_goals omega

theorem le_weight_of_length? {v : Value} (minified : Bool) (h : ¬ v.length?.all (· ≤ 1)) :
    4 ≤ v.weight minified := by
  cases v with
  | string text =>
    simp only [length?, Option.all_some, decide_eq_true_eq] at h
    rw [weight, if_neg h]
  | array items =>
    rw [weight, bulk]
    omega
  | _ => simp [length?] at h

theorem itemBulk_le {items : List (Option Value)} {i : Nat} {v : Value}
    (h : items[i]? = some (some v)) : v.bulk ≤ itemsBulk items := by
  induction items generalizing i with
  | nil => cases h
  | cons item items ih =>
    rw [itemsBulk]
    cases i with
    | zero =>
      obtain rfl : item = some v := Option.some.inj h
      rw [itemBulk]
      omega
    | succ i =>
      have := ih (i := i) h
      omega

end Value

namespace Node

/-- What a node weighs on its own. -/
def burden {α : Type} : Node α → Nat
  | .literal _ => 5
  | .expressionStatement .. | .ifStatement .. | .forStatement .. | .unaryExpression ..
  | .binaryExpression .. | .memberExpression .. | .arrayExpression .. => 4
  | .emptyStatement | .blockStatement _ => 2
  | _ => 1

/-- What the slots of a node weigh. An entry of a list weighs two more than its node. -/
def load (n : Node Nat) : Nat :=
  (n.slots.map fun e => e.2.total 2 0).sum

theorem burden_map {α β : Type} (f : α → β) (n : Node α) : (n.map f).burden = n.burden := by
  cases n <;> rfl

theorem burden_of_kind {α : Type} {n m : Node α} (h : n.kind = m.kind) : n.burden = m.burden := by
  cases n <;> cases m <;> first | rfl | cases h

theorem burden_pos {α : Type} (n : Node α) : 1 ≤ n.burden := by
  cases n <;> simp [burden]

end Node

theorem Slot.total_mono {α : Type} {f g : α → Nat} {slot : Slot α} {entry hole : Nat}
    (h : ∀ c ∈ slot.children, f c ≤ g c) :
    (slot.map f).total entry hole ≤ (slot.map g).total entry hole := by
  cases slot with
  | required c => exact h c (by simp [children])
  | optional c =>
    cases c with
    | none => exact le_rfl
    | some c => exact h c (by simp [children])
  | list cs =>
    simp only [map, total, List.map_map]
    refine List.sum_le_sum fun c hc => ?_
    exact Nat.add_le_add_left (h c hc) entry
  | holey cs =>
    simp only [map, total, List.map_map]
    refine List.sum_le_sum fun c hc => ?_
    cases c with
    | none => exact le_rfl
    | some c => exact Nat.add_le_add_left (h c (mem_children_holey.mpr hc)) entry

theorem Node.load_mono {α : Type} {f g : α → Nat} {n : Node α} (h : ∀ c ∈ n.children, f c ≤ g c) :
    (n.map f).load ≤ (n.map g).load := by
  unfold load
  rw [slots_map, slots_map, List.map_map, List.map_map]
  refine List.sum_le_sum fun e he => Slot.total_mono fun c hc => h c ?_
  exact mem_children.mpr ⟨e, he, hc⟩

namespace Tree

def bulkStep : Node Nat → Nat
  | .arrayExpression elements => 4 + (elements.map fun element => element.getD 1).sum
  | _ => 1

def bulk (t : Tree) : NodeId → Nat :=
  t.attr (fun _ node => bulkStep node) 0

/-- What a frozen node weighs, told from its form. -/
def frozenWeight (t : Tree) (id : NodeId) : Nat :=
  match t.node id with
  | .literal (.bool _) | .unaryExpression .not _ => if (t.flags id).minified then 1 else 2
  | .literal (.string text) => if (units text).length ≤ 1 then 3 else 4
  | .literal _ => 3
  | .unaryExpression .void _ => 4
  | .unaryExpression .. | .binaryExpression .. => 3
  | .arrayExpression _ => t.bulk id
  | _ => 1

def weightStep (t : Tree) (id : NodeId) (node : Node Nat) : Nat :=
  if t.isFrozen id then t.frozenWeight id else node.burden + node.load

/-- The weight of a node. -/
def weight (t : Tree) : NodeId → Nat :=
  t.attr t.weightStep 0

variable {t : Tree} {id : NodeId}

theorem bulk_eq (h : t.WellFormed) (id : NodeId) :
    t.bulk id = bulkStep ((t.node id).map t.bulk) :=
  attr_eq h id

theorem weight_of_frozen (h : t.WellFormed) (hf : t.isFrozen id) : t.weight id = t.frozenWeight id := by
  unfold weight
  rw [attr_eq h, weightStep, if_pos hf]

theorem weight_eq (h : t.WellFormed) (hf : ¬ t.isFrozen id) :
    t.weight id = (t.node id).burden + ((t.node id).map t.weight).load := by
  unfold weight
  rw [attr_eq h, weightStep, if_neg hf, Node.burden_map]

theorem weight_of_node (h : t.WellFormed) (hf : ¬ t.isFrozen id) {n : Node NodeId}
    (hn : t.node id = n) : t.weight id = n.burden + (n.map t.weight).load := by
  rw [weight_eq h hf, hn]

theorem bulk_pos (h : t.WellFormed) (id : NodeId) : 1 ≤ t.bulk id := by
  rw [bulk_eq h]
  unfold bulkStep
  split <;> omega

theorem weight_pos (h : t.WellFormed) (id : NodeId) : 1 ≤ t.weight id := by
  by_cases hf : t.isFrozen id
  · rw [weight_of_frozen h hf]
    unfold frozenWeight
    split <;> try split
    all_goals first | omega | exact bulk_pos h id
  · rw [weight_eq h hf]
    exact (Node.burden_pos _).trans (Nat.le_add_right _ _)

mutual

theorem Spells.bulk (h : t.WellFormed) : ∀ {v : Value} {id : NodeId}, t.Spells v id →
    t.bulk id = v.bulk
  | .array items, id, hv => by
    rw [Spells] at hv
    obtain ⟨-, elements, hn, hitems⟩ := hv
    rw [bulk_eq h, hn, Value.bulk]
    exact congrArg (4 + ·) (hitems.bulk h)
  | .undefined, id, hv => by
    rw [Spells] at hv
    obtain ⟨-, a, hn, -⟩ := hv
    rw [bulk_eq h, hn, Value.bulk]
    · rfl
    · nofun
  | .null, id, hv => by
    rw [Spells] at hv
    rw [bulk_eq h, hv.2, Value.bulk]
    · rfl
    · nofun
  | .bool b, id, hv => by
    rw [Spells] at hv
    rw [bulk_eq h, Value.bulk]
    · rcases hv with hl | ⟨-, a, hn, -⟩
      · rw [hl.2]
        rfl
      · rw [hn]
        rfl
    · nofun
  | .number x, id, hv => by
    rw [Spells] at hv
    rw [bulk_eq h, Value.bulk]
    · rcases hv with hl | ⟨-, a, y, hn, -⟩ | ⟨-, a, hn, -⟩
      · rw [hl.2]
        rfl
      · rw [hn]
        rfl
      · rw [hn]
        rfl
    · nofun
  | .string text, id, hv => by
    rw [Spells] at hv
    rw [bulk_eq h, hv.2, Value.bulk]
    · rfl
    · nofun

theorem SpellsItems.bulk (h : t.WellFormed) :
    ∀ {items : List (Option Value)} {elements : List (Option NodeId)}, t.SpellsItems items elements →
      ((elements.map (Option.map t.bulk)).map fun element => element.getD 1).sum =
        Value.itemsBulk items
  | [], _, hv => by
    rw [SpellsItems] at hv
    subst hv
    rw [Value.itemsBulk]
    rfl
  | item :: items, _, hv => by
    rw [SpellsItems] at hv
    obtain ⟨e, es, rfl, he, hes⟩ := hv
    rw [Value.itemsBulk, ← he.bulk h, ← hes.bulk h]
    rfl

theorem SpellsItem.bulk (h : t.WellFormed) : ∀ {item : Option Value} {e : Option NodeId},
    t.SpellsItem item e → (e.map t.bulk).getD 1 = Value.itemBulk item
  | none, _, hv => by
    rw [SpellsItem] at hv
    subst hv
    rw [Value.itemBulk]
    rfl
  | some v, _, hv => by
    rw [SpellsItem] at hv
    obtain ⟨id, rfl, hid⟩ := hv
    rw [Value.itemBulk, ← hid.bulk h]
    rfl

end

theorem Spells.frozenWeight (h : t.WellFormed) {v : Value} (hv : t.Spells v id) :
    t.frozenWeight id = v.weight (t.flags id).minified := by
  have hbulk := hv.bulk h
  unfold Tree.frozenWeight
  cases v <;> rw [Spells] at hv
  case undefined =>
    obtain ⟨-, a, hn, -⟩ := hv
    rw [hn, Value.weight]
  case null => rw [hv.2, Value.weight]
  case bool b =>
    rw [Value.weight]
    rcases hv with hl | ⟨-, a, hn, -⟩
    · rw [hl.2]
    · rw [hn]
  case number x =>
    rw [Value.weight]
    rcases hv with hl | ⟨-, a, y, hn, -⟩ | ⟨-, a, hn, -⟩
    · rw [hl.2]
    · rw [hn]
    · rw [hn]
  case string text => rw [hv.2, Value.weight]
  case array items =>
    obtain ⟨-, elements, hn, -⟩ := hv
    rw [hn, Value.weight]
    exact hbulk

variable {t' : Tree} {owner : NodeId} {node : Node NodeId}

theorem frozenWeight_congr (h : t.WellFormed) (h' : t'.WellFormed)
    (hnode : ∀ x, t.Within x id → t'.node x = t.node x) (hflags : t'.flags id = t.flags id) :
    t'.frozenWeight id = t.frozenWeight id := by
  have hbulk : t'.bulk id = t.bulk id := attr_congr h h' hnode fun _ _ _ => rfl
  unfold frozenWeight
  rw [hnode id .refl, hflags, hbulk]

theorem weight_congr (h : t.WellFormed) (h' : t'.WellFormed)
    (hnode : ∀ x, t.Within x id → t'.node x = t.node x)
    (hflags : ∀ x, t.Within x id → t'.flags x = t.flags x) : t'.weight id = t.weight id := by
  refine attr_congr h h' hnode fun x n hx => ?_
  unfold weightStep isFrozen
  rw [hflags x hx, frozenWeight_congr h h' (fun y hy => hnode y (hy.trans hx)) (hflags x hx)]

theorem weight_grows (h : t.WellFormed) (h' : t'.WellFormed) (hg : t.Grows t') (hid : id < t.size) :
    t'.weight id = t.weight id := by
  refine weight_congr h h' (fun x hx => ?_) fun x hx => ?_
  · exact hg.node (h.within_lt_size hx hid)
  · exact hg.flags (h.within_lt_size hx hid)

/-- Where a node has lost weight, no node has gained any. -/
theorem weight_setNode_le (h : t.WellFormed) (h' : (t.setNode owner node).WellFormed)
    (howner : owner < t.size) (hf : ¬ t.isFrozen owner) (hfrozen : ∀ {id}, t.isFrozen id →
      ¬ t.Within owner id) (hkind : node.kind = (t.node owner).kind)
    (hlt : (node.map t.weight).load < ((t.node owner).map t.weight).load) (id : NodeId) :
    (t.setNode owner node).weight id ≤ t.weight id := by
  induction id using h'.acyclic.induction with
  | _ id ih =>
    by_cases hid : t.isFrozen id
    · refine (weight_congr h h' (fun x hx => ?_) fun x _ => t.flags_setNode owner node x).le
      rw [node_setNode howner, if_neg]
      rintro rfl
      exact hfrozen hid hx
    · rw [weight_eq h hid, weight_eq h' (by rwa [isFrozen_setNode])]
      have hchild : ((((t.setNode owner node).node id).map (t.setNode owner node).weight).load) ≤
          (((t.setNode owner node).node id).map t.weight).load :=
        Node.load_mono fun c hc => ih c hc
      rw [node_setNode howner] at hchild ⊢
      split at hchild
      · subst id
        rw [if_pos rfl, Node.burden_of_kind hkind]
        omega
      · rw [if_neg ‹_›]
        omega

theorem weight_setNode_lt (h : t.WellFormed) (h' : (t.setNode owner node).WellFormed)
    (howner : owner < t.size) (hf : ¬ t.isFrozen owner) (hfrozen : ∀ {id}, t.isFrozen id →
      ¬ t.Within owner id) (hkind : node.kind = (t.node owner).kind)
    (hlt : (node.map t.weight).load < ((t.node owner).map t.weight).load) :
    (t.setNode owner node).weight owner < t.weight owner := by
  have hle := weight_setNode_le h h' howner hf hfrozen hkind hlt
  have hchild := Node.load_mono (n := node) fun c _ => hle c
  rw [weight_eq h hf, weight_eq h' (by rwa [isFrozen_setNode]), node_setNode howner, if_pos rfl,
    Node.burden_of_kind hkind]
  omega

theorem sum_map_le_mul {α : Type} {f g : α → Nat} {k : Nat} {xs : List α}
    (h : ∀ x ∈ xs, f x ≤ k * g x) : (xs.map f).sum ≤ k * (xs.map g).sum := by
  induction xs with
  | nil => exact Nat.zero_le _
  | cons x xs ih =>
    rw [List.map_cons, List.map_cons, List.sum_cons, List.sum_cons, Nat.mul_add]
    exact Nat.add_le_add (h x (by simp)) (ih fun y hy => h y (by simp [hy]))

/-- What a walk meets below a node, whatever is done with it there. -/
def extent (t : Tree) : NodeId → Nat :=
  t.attr (fun _ node => 1 + node.load) 0

theorem extent_of_node (h : t.WellFormed) {n : Node NodeId} (hn : t.node id = n) :
    t.extent id = 1 + (n.map t.extent).load := by
  unfold extent
  rw [attr_eq h, hn]

def spread (n : Node Nat) : Nat :=
  (n.slots.map fun e => e.2.total 1 1).sum

theorem span_eq (h : t.WellFormed) (id : NodeId) :
    t.span id = 1 + spread ((t.node id).map t.span) :=
  attr_eq h id

theorem total_le_total {w span : NodeId → Nat} {slot : Slot NodeId}
    (h : ∀ c ∈ slot.children, w c ≤ 5 * span c) :
    (slot.map w).total 2 0 ≤ 5 * (slot.map span).total 1 1 := by
  cases slot with
  | required c => exact h c (by simp [Slot.children])
  | optional c =>
    cases c with
    | none => exact Nat.zero_le _
    | some c => exact h c (by simp [Slot.children])
  | list cs =>
    simp only [Slot.map, Slot.total, List.map_map]
    refine sum_map_le_mul fun c hc => ?_
    have := h c hc
    simp only [Function.comp_apply]
    omega
  | holey cs =>
    simp only [Slot.map, Slot.total, List.map_map]
    refine sum_map_le_mul fun e he => ?_
    cases e with
    | none => simp
    | some c =>
      have := h c (Slot.mem_children_holey.mpr he)
      simp only [Function.comp_apply, Option.map_some, Option.getD_some]
      omega

theorem load_le_spread {w span : NodeId → Nat} {n : Node NodeId}
    (h : ∀ c ∈ n.children, w c ≤ 5 * span c) : (n.map w).load ≤ 5 * spread (n.map span) := by
  unfold Node.load spread
  rw [Node.slots_map, Node.slots_map, List.map_map, List.map_map]
  refine sum_map_le_mul fun e he => total_le_total fun c hc => h c ?_
  exact Node.mem_children.mpr ⟨e, he, hc⟩

theorem bulk_le_span (h : t.WellFormed) (id : NodeId) : t.bulk id ≤ 4 * t.span id := by
  induction id using h.acyclic.induction with
  | _ id ih =>
    rw [bulk_eq h, span_eq h]
    unfold Child at ih
    generalize t.node id = n at ih
    cases n with
    | arrayExpression elements =>
      have hitems : ((elements.map (Option.map t.bulk)).map fun e => e.getD 1).sum ≤
          4 * ((elements.map (Option.map t.span)).map fun e => 1 + e.getD 1).sum := by
        rw [List.map_map, List.map_map]
        refine sum_map_le_mul fun e he => ?_
        cases e with
        | none => simp
        | some c =>
          have := ih c (by simpa [Node.children, Node.slots, Slot.children] using he)
          simp only [Function.comp_apply, Option.map_some, Option.getD_some]
          omega
      change 4 + ((elements.map (Option.map t.bulk)).map fun e => e.getD 1).sum ≤
        4 * (1 + (((elements.map (Option.map t.span)).map fun e => 1 + e.getD 1).sum + 0))
      omega
    | _ =>
      change 1 ≤ _
      omega

theorem frozenWeight_le_span (h : t.WellFormed) (id : NodeId) :
    t.frozenWeight id ≤ 5 * t.span id := by
  have hspan := span_eq h id
  have hbulk := bulk_le_span h id
  unfold frozenWeight
  split <;> try split
  all_goals omega

/-- A tree weighs at most five times its span. -/
theorem weight_le_span (h : t.WellFormed) (id : NodeId) : t.weight id ≤ 5 * t.span id := by
  induction id using h.acyclic.induction with
  | _ id ih =>
    by_cases hf : t.isFrozen id
    · rw [weight_of_frozen h hf]
      exact frozenWeight_le_span h id
    · have hload := load_le_spread (n := t.node id) ih
      have hburden : (t.node id).burden ≤ 5 := by cases t.node id <;> simp [Node.burden]
      rw [weight_eq h hf, span_eq h]
      omega

end Tree

end ScriptFold

import ScriptFold.Fold.Optimizer
import ScriptFold.Proofs.Graph

/-!
Paths that are still true, and what edits at their slots do. Such a path leads to a slot of a node
of the tree; an edit there rewrites that node, and succeeds unless the node is frozen.
-/

namespace ScriptFold

theorem Tree.items?_of_splice {t t' : Tree} {owner : NodeId} {f : Field} {slot : Slot NodeId}
    {l old r : List (Option NodeId)} {new : List NodeId} (hs : t.slot? owner f = some slot)
    (hi : slot.items? = some (l ++ old ++ r))
    (hn : t'.node owner = (t.node owner).setSlot f (slot.setItems (l ++ new.map some ++ r))) :
    ∃ slot', t'.slot? owner f = some slot' ∧ slot'.items? = some (l ++ new.map some ++ r) := by
  refine ⟨_, (congrArg (Node.slot? · f) hn).trans ?_, Slot.items?_splice hi new⟩
  exact Node.slot?_setSlot hs _ (slot.put_setItems _)

namespace Path

/-- A path starts at the root, and at each step finds what is there now. -/
def Live (t : Tree) : Path → Prop
  | .root value => value = .node t.root
  | .child parent key value => parent.Live t ∧ value = t.read parent.value key

theorem live_ofNode (t : Tree) : (Path.ofNode t.root).Live t :=
  rfl

theorem Live.get {t : Tree} {p : Path} (h : p.Live t) (keys : List Key) : (p.get t keys).Live t := by
  induction keys generalizing p with
  | nil => exact h
  | cons key keys ih => exact ih (p := p.step t key) ⟨h, rfl⟩

/-- A path leads to a slot of one node, in which there is another. -/
inductive Leads (t : Tree) : Path → NodeId → NodeId → Prop
  | required {parent f owner id} : parent.value = .node owner →
    t.slot? owner f = some (.required id) → Leads t (.child parent (.field f) (.node id)) owner id
  | optional {parent f owner id} : parent.value = .node owner →
    t.slot? owner f = some (.optional (some id)) →
    Leads t (.child parent (.field f) (.node id)) owner id
  | item {parent f owner id i slot items} : parent.value = .list owner f →
    t.slot? owner f = some slot → slot.items? = some items → items[i]? = some (some id) →
    Leads t (.child parent (.index i) (.node id)) owner id

/-- The entries `old` of a list, from the position of a path on, make way for `new`. -/
inductive Splices (t : Tree) : Path → NodeId → List (Option NodeId) → List NodeId →
    Node NodeId → Prop
  | intro {parent f owner slot l old r new value} : parent.value = .list owner f →
    t.slot? owner f = some slot → slot.items? = some (l ++ old ++ r) →
    Splices t (.child parent (.index l.length) value) owner old new
      ((t.node owner).setSlot f (slot.setItems (l ++ new.map some ++ r)))

/-- The node in the slot of a path makes way for another. -/
inductive Fills (t : Tree) : Path → NodeId → NodeId → NodeId → Node NodeId → Prop
  | required {parent f owner id new value} : parent.value = .node owner →
    t.slot? owner f = some (.required id) →
    Fills t (.child parent (.field f) value) owner id new
      ((t.node owner).setSlot f (.required new))
  | optional {parent f owner id new value} : parent.value = .node owner →
    t.slot? owner f = some (.optional (some id)) →
    Fills t (.child parent (.field f) value) owner id new
      ((t.node owner).setSlot f (.optional (some new)))
  | item {p owner id new n} : Splices t p owner [some id] [new] n → Fills t p owner id new n

variable {t : Tree} {p : Path} {owner id : NodeId}

theorem value_eq_node (h : p.node? = some id) : p.value = .node id := by
  unfold node? Ref.node? at h
  cases hv : p.value <;> rw [hv] at h <;> cases h
  rfl

theorem leads_of_read {key : Key} (h : t.read p.value key = .node id) :
    ∃ owner, (Path.child p key (.node id)).Leads t owner id := by
  unfold Tree.read at h
  split at h
  · rename_i owner f hv
    refine ⟨owner, ?_⟩
    split at h
    · cases h
      exact .required hv ‹_›
    · rename_i child hs
      cases child with
      | none => cases h
      | some c =>
        cases h
        exact .optional hv hs
    all_goals cases h
  · rename_i owner f i hv
    refine ⟨owner, ?_⟩
    split at h
    · rename_i hitem
      cases h
      obtain ⟨items, hitems, hi⟩ := Option.bind_eq_some_iff.mp hitem
      obtain ⟨slot, hs, hsi⟩ := Option.bind_eq_some_iff.mp hitems
      exact .item hv hs hsi hi
    · cases h
  · cases h

theorem list_of_read {r : Ref} {key : Key} {f : Field} (h : t.read r key = .list owner f) :
    r = .node owner ∧ key = .field f := by
  unfold Tree.read at h
  split at h
  · split at h
    · cases h
    · rename_i child hs
      cases child <;> cases h
    · cases h
      exact ⟨rfl, rfl⟩
    · cases h
      exact ⟨rfl, rfl⟩
    · cases h
  · split at h <;> cases h
  · cases h

/-- A path that is still true and finds a node is the root, or leads to that node. -/
theorem Live.cases (h : p.Live t) (hid : p.node? = some id) :
    p = .root (.node t.root) ∧ id = t.root ∨ ∃ owner, p.Leads t owner id := by
  have hv := value_eq_node hid
  cases p with
  | root value =>
    have hroot : value = .node t.root := h
    subst hroot
    cases hv
    exact .inl ⟨rfl, rfl⟩
  | child parent key value =>
    obtain ⟨-, hread⟩ := h
    obtain rfl : value = .node id := hv
    exact .inr (leads_of_read hread.symm)

theorem Leads.child (h : p.Leads t owner id) : t.Child id owner := by
  cases h with
  | required _ hs => exact Node.mem_children_of_slot? hs (by simp [Slot.children])
  | optional _ hs => exact Node.mem_children_of_slot? hs (by simp [Slot.children])
  | item _ hs hi hget =>
    refine Node.mem_children_of_slot? hs ((Slot.mem_children_of_items? hi).mpr ?_)
    exact List.mem_of_getElem? hget

theorem Leads.inFrozenNode (h : p.Leads t owner id) (hp : p.Live t) :
    Rule.inFrozenNode t p = t.isFrozen owner := by
  unfold Rule.inFrozenNode
  cases h with
  | @required parent f _ _ hv hs =>
    simp [owner?, isList, hv, Ref.isList, node?, Ref.node?]
  | @optional parent f _ _ hv hs =>
    simp [owner?, isList, hv, Ref.isList, node?, Ref.node?]
  | @item parent f _ _ i slot items hv hs hi hget =>
    obtain ⟨hparent, -⟩ := hp
    -- the list is itself a step from its owner
    cases parent with
    | root value =>
      have : value = .node t.root := hparent
      subst this
      cases hv
    | child above key value =>
      obtain ⟨-, hread⟩ := hparent
      obtain rfl : value = .list owner f := hv
      obtain ⟨hv, -⟩ := list_of_read hread.symm
      have hlist : above.isList = false := by rw [isList, hv]; rfl
      have hnode : above.node? = some owner := by rw [node?, hv]; rfl
      change ((if above.isList then above.owner? else some above).bind node?).any t.isFrozen = _
      rw [hlist, if_neg Bool.false_ne_true, Option.bind_some, hnode, Option.any_some]

theorem split_of_getElem? {α : Type} {xs : List α} {i : Nat} {a : α} (h : xs[i]? = some a) :
    ∃ l r, xs = l ++ a :: r ∧ l.length = i := by
  obtain ⟨hi, rfl⟩ := List.getElem?_eq_some_iff.mp h
  refine ⟨xs.take i, xs.drop (i + 1), ?_, by simp; omega⟩
  rw [← List.drop_eq_getElem_cons, List.take_append_drop]

/-- What there is to know of an entry of a list. -/
theorem Leads.item_cases (h : p.Leads t owner id) (hp : p.listSlot?.isSome) :
    ∃ parent f slot l r, p = .child parent (.index l.length) (.node id) ∧
      parent.value = .list owner f ∧ t.slot? owner f = some slot ∧
      slot.items? = some (l ++ some id :: r) := by
  cases h with
  | required => cases hp
  | optional => cases hp
  | @item parent f _ _ i slot items hv hs hi hget =>
    obtain ⟨l, r, rfl, rfl⟩ := split_of_getElem? hget
    exact ⟨parent, f, slot, l, r, rfl, hv, hs, hi⟩

theorem checkWritable_ok (h : ¬ t.isFrozen owner) : t.checkWritable owner = .ok () := by
  rw [Tree.checkWritable, if_neg h]

theorem Leads.replace (h : p.Leads t owner id) (howner : ¬ t.isFrozen owner) {new : NodeId}
    (hne : new ≠ id) : ∃ n, p.Fills t owner id new n ∧
      t.replace p new = .ok (p.withValue (.node new), t.setNode owner n) := by
  cases h with
  | @required parent f _ _ hv hs =>
    refine ⟨_, .required hv hs, ?_⟩
    simp only [Tree.replace, Tree.write, hv, checkWritable_ok howner, Tree.writeField, hs,
      if_neg hne.symm]
    rfl
  | @optional parent f _ _ hv hs =>
    refine ⟨_, .optional hv hs, ?_⟩
    have : ¬ some id = some new := fun he => hne (Option.some.inj he).symm
    simp only [Tree.replace, Tree.write, hv, checkWritable_ok howner, Tree.writeField, hs, if_neg this]
    rfl
  | @item parent f _ _ i slot items hv hs hi hget =>
    obtain ⟨l, r, rfl, rfl⟩ := split_of_getElem? hget
    refine ⟨_, .item (.intro hv hs (by simpa using hi)), ?_⟩
    have : ¬ some id = some new := fun he => hne (Option.some.inj he).symm
    simp only [Tree.replace, Tree.write, hv, checkWritable_ok howner, Tree.writeItem, hs, hi, hget,
      if_neg this]
    simp
    rfl

theorem Leads.remove (h : p.Leads t owner id) (howner : ¬ t.isFrozen owner)
    (hp : p.listSlot?.isSome) : ∃ n, p.Splices t owner [some id] [] n ∧
      t.remove p = .ok (t.setNode owner n) := by
  obtain ⟨parent, f, slot, l, r, rfl, hv, hs, hi⟩ := h.item_cases hp
  refine ⟨_, .intro hv hs (by simpa using hi), ?_⟩
  have hget : (l ++ some id :: r)[l.length]? = some (some id) := by simp
  have herase : (l ++ some id :: r).eraseIdx l.length = l ++ r := by
    rw [List.eraseIdx_append_of_length_le le_rfl]
    simp
  simp only [Tree.remove, Tree.write, hv, checkWritable_ok howner, Tree.writeItem, hs, hi, hget,
    herase]
  simp
  rfl

theorem splice_ok {list : Ref} {f : Field} {slot : Slot NodeId} {l old r : List (Option NodeId)}
    (hlist : list = .list owner f) (howner : ¬ t.isFrozen owner)
    (hs : t.slot? owner f = some slot) (hi : slot.items? = some (l ++ old ++ r)) (hold : old ≠ [])
    (new : List NodeId) :
    t.splice list l.length (l.length + old.length) new =
      .ok (t.setNode owner ((t.node owner).setSlot f (slot.setItems (l ++ new.map some ++ r)))) := by
  have hlen := List.length_pos_of_ne_nil hold
  have hbounds : (decide (l.length > l.length + old.length) ||
      decide (l.length + old.length > (l ++ old ++ r).length)) = false := by
    simp
  have hchange : (decide (l.length = l.length + old.length) && new.isEmpty) = false := by
    simp [hold]
  have htake : (l ++ old ++ r).take l.length = l := by simp
  have hdrop : (l ++ old ++ r).drop (l.length + old.length) = r := by
    rw [← List.length_append, List.drop_left]
  subst hlist
  simp only [Tree.splice, checkWritable_ok howner, hs, hi, hbounds, hchange, htake, hdrop]
  rfl

theorem Leads.read {parent : Path} {key : Key} {v : Ref}
    (h : (Path.child parent key v).Leads t owner id) : v = t.read parent.value key := by
  cases h with
  | required hv hs =>
    rw [hv, Tree.read, hs]
  | optional hv hs =>
    rw [hv, Tree.read, hs]
    rfl
  | item hv hs hi hget =>
    rw [hv, Tree.read, Tree.listItems?, hs, Option.bind_some, hi, Option.bind_some, hget]

theorem Leads.refresh_eq (h : p.Leads t owner id) : p.refresh t = p := by
  cases p with
  | root value => cases h
  | child parent key v => exact congrArg (Path.child parent key) h.read.symm

theorem Leads.unique {t' : Tree} {owner' id' : NodeId} (h : p.Leads t owner id)
    (h' : p.Leads t' owner' id') : owner' = owner ∧ id' = id := by
  cases h with
  | required hv | optional hv =>
    cases h' with
    | required hv' | optional hv' =>
      rw [hv] at hv'
      exact ⟨(Ref.node.inj hv').symm, rfl⟩
  | item hv =>
    cases h' with
    | item hv' =>
      rw [hv] at hv'
      exact ⟨(Ref.list.inj hv').1.symm, rfl⟩

/-- After a splice the path leads to the first of what was put there. -/
theorem Splices.leads_new {t' : Tree} {parent : Path} {key : Key} {v : Ref} {n : Node NodeId}
    {old : List (Option NodeId)} {new : List NodeId} {b : NodeId}
    (h : (Path.child parent key v).Splices t owner old (b :: new) n) (hn : t'.node owner = n) :
    (Path.child parent key (.node b)).Leads t' owner b := by
  cases h with
  | intro hv hs hi =>
    obtain ⟨slot', hs', hi'⟩ := Tree.items?_of_splice hs hi hn
    exact .item hv hs' hi' (by simp)

theorem Fills.leads_new {t' : Tree} {parent : Path} {key : Key} {v : Ref} {n : Node NodeId}
    {b : NodeId} (h : (Path.child parent key v).Fills t owner id b n) (hn : t'.node owner = n) :
    (Path.child parent key (.node b)).Leads t' owner b := by
  have slot : ∀ {f slot new}, t.slot? owner f = some slot → slot.put new = new →
      n = (t.node owner).setSlot f new → t'.slot? owner f = some new := fun hs hput hset =>
    (congrArg (Node.slot? · _) (hn.trans hset)).trans (Node.slot?_setSlot hs _ hput)
  cases h with
  | required hv hs => exact .required hv (slot hs rfl rfl)
  | optional hv hs => exact .optional hv (slot hs rfl rfl)
  | item h => exact h.leads_new hn

theorem Fills.refresh_eq {t' : Tree} {n : Node NodeId} {b : NodeId} (h : p.Fills t owner id b n)
    (hp : p.Leads t owner id) (hn : t'.node owner = n) :
    p.withValue (.node b) = p.refresh t' := by
  cases p with
  | root value => cases hp
  | child parent key v => exact congrArg (Path.child parent key) (h.leads_new hn).read

end Path

end ScriptFold

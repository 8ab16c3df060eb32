import ScriptFold.Proofs.History
import ScriptFold.Proofs.Layout

/-!
Trees in which every node that may be edited has one place. A slot of a shared node is one slot, however
many paths lead to it. Where nothing below a frozen node may be edited, a node that is held by one slot is
also found by one path. Entries of lists can be dropped without harm to that.
-/

namespace ScriptFold

theorem eq_of_count_le_one {α : Type} [BEq α] [LawfulBEq α] {l : List α} {a : α} {i j : Nat}
    (h : l.count a ≤ 1) (hi : l[i]? = some a) (hj : l[j]? = some a) : i = j := by
  have apart : ∀ {i j : Nat}, l[i]? = some a → l[j]? = some a → ¬ i < j := by
    intro i j hi hj hlt
    have hleft : 0 < (l.take j).count a := List.count_pos_iff.mpr (List.mem_of_getElem? (i := i)
      (by rw [List.getElem?_take_of_lt hlt, hi]))
    have hright : 0 < (l.drop j).count a := List.count_pos_iff.mpr (List.mem_of_getElem? (i := 0)
      (by rw [List.getElem?_drop, Nat.add_zero, hj]))
    rw [← List.take_append_drop j l, List.count_append] at h
    omega
  exact Nat.le_antisymm (Nat.le_of_not_lt (apart hj hi)) (Nat.le_of_not_lt (apart hi hj))

namespace Node

variable {n : Node NodeId} {f g : Field} {slot slot' : Slot NodeId} {c : NodeId}

theorem field_eq_of_count (h : n.children.count c ≤ 1) (hs : n.slot? f = some slot)
    (hs' : n.slot? g = some slot') (hc : c ∈ slot.children) (hc' : c ∈ slot'.children) : f = g := by
  by_contra hne
  obtain ⟨l, r, hslots, -⟩ := slots_split hs
  have hmem := mem_slots_of_slot? hs'
  have hhere := List.count_pos_iff.mpr hc
  have hthere : 0 < (l.flatMap (·.2.children)).count c + (r.flatMap (·.2.children)).count c := by
    rw [← List.count_append, List.count_pos_iff, ← List.flatMap_append, List.mem_flatMap]
    refine ⟨(g, slot'), ?_, hc'⟩
    rw [hslots, List.mem_append, List.mem_cons] at hmem
    rcases hmem with hl | heq | hr
    · exact List.mem_append_left r hl
    · exact absurd (congrArg Prod.fst heq) (Ne.symm hne)
    · exact List.mem_append_right l hr
  rw [children, hslots, List.flatMap_append, List.flatMap_cons, List.count_append,
    List.count_append] at h
  dsimp only at h
  omega

theorem index_eq_of_count {items : List (Option NodeId)} {i j : Nat} (h : n.children.count c ≤ 1)
    (hs : n.slot? f = some slot) (hi : slot.items? = some items)
    (hc : items[i]? = some (some c)) (hc' : items[j]? = some (some c)) : i = j := by
  refine eq_of_count_le_one (l := items) (a := some c) ?_ hc hc'
  obtain ⟨l, r, hchildren, -⟩ := children_setSlot hs (slot.put_setItems items)
  rw [hchildren, List.count_append, List.count_append, Slot.children_of_items? hi,
    List.count_filterMap] at h
  have hcount : items.count (some c) = items.countP fun e => id e == some c := rfl
  omega

theorem fields_setSlot (n : Node NodeId) (f : Field) (slot : Slot NodeId) :
    (n.setSlot f slot).fields = n.fields := by
  unfold fields
  rw [slots_setSlot, List.map_map]
  refine List.map_congr_left fun e _ => ?_
  dsimp only [Function.comp_apply]
  split <;> rfl

theorem slot?_setSlot_of_ne (h : g ≠ f) (slot : Slot NodeId) :
    (n.setSlot f slot).slot? g = n.slot? g := by
  unfold slot?
  rw [slots_setSlot]
  induction n.slots with
  | nil => rfl
  | cons e es ih =>
    rw [List.map_cons, List.lookup_cons, List.lookup_cons, ih]
    split_ifs with he
    · rw [he, beq_eq_false_iff_ne.mpr h]
    · rfl

end Node

theorem Ref.eq_null {r : Ref} (h : r.owner? = none) : r = .null := by
  cases r with
  | null => rfl
  | node | list => cases h

namespace Tree

variable {t t' : Tree} {x : NodeId} {f : Field}

theorem read_of_null {r : Ref} (h : r = .null) (key : Key) : t'.read r key = t.read r key := by
  subst h
  cases key <;> rfl

theorem read_congr_slot (h : t'.slot? x f = t.slot? x f) :
    t'.read (.node x) (.field f) = t.read (.node x) (.field f) ∧
      ∀ i, t'.read (.list x f) (.index i) = t.read (.list x f) (.index i) := by
  refine ⟨?_, fun i => ?_⟩
  · simp only [read, h]
  · simp only [read, listItems?, h]

theorem read_field_of_items {slot : Slot NodeId} {items : List (Option NodeId)}
    (hs : t.slot? x f = some slot) (hi : slot.items? = some items) :
    t.read (.node x) (.field f) = .list x f := by
  cases slot with
  | required c | optional c => cases hi
  | list cs | holey cs => simp only [read, hs]

theorem read_index_of_items {slot : Slot NodeId} {items : List (Option NodeId)}
    (hs : t.slot? x f = some slot) (hi : slot.items? = some items) (i : Nat) :
    t.read (.list x f) (.index i) = (items[i]?.join.elim .null .node) := by
  simp only [read, listItems?, hs, Option.bind_some, hi]
  rcases items[i]? with - | - | c <;> rfl

end Tree

namespace Path

variable {t : Tree} {p q : Path} {owner id : NodeId}

theorem Live.exists_owner (h : p.Live t) (hid : p.value.owner? = some id) :
    ∃ o : Path, o.Above p ∧ o.Live t ∧ o.node? = some id ∧
      (p = o ∨ ∃ f, p = .child o (.field f) (.list id f)) := by
  cases hv : p.value with
  | null =>
    rw [hv] at hid
    cases hid
  | node x =>
    rw [hv] at hid
    obtain rfl : x = id := Option.some.inj hid
    exact ⟨p, .refl, h, by rw [node?, hv]; rfl, .inl rfl⟩
  | list x f =>
    rw [hv] at hid
    obtain rfl : x = id := Option.some.inj hid
    cases p with
    | root value =>
      obtain rfl : value = .node t.root := h
      cases hv
    | child parent key value =>
      obtain rfl : value = .list x f := hv
      obtain ⟨hparent, hread⟩ := h
      obtain ⟨hv, rfl⟩ := list_of_read hread.symm
      exact ⟨parent, .child .refl, hparent, by rw [node?, hv]; rfl, .inr ⟨f, rfl⟩⟩

theorem Leads.slot (h : p.Leads t owner id) : ∃ parent key f slot, p = .child parent key (.node id) ∧
    t.slot? owner f = some slot ∧ id ∈ slot.children ∧
      (key = .field f ∧ parent.value = .node owner ∧ slot.items? = none ∨
        ∃ i items, key = .index i ∧ parent.value = .list owner f ∧ slot.items? = some items ∧
          items[i]? = some (some id)) := by
  cases h with
  | @required parent f owner id hv hs =>
    exact ⟨parent, .field f, f, _, rfl, hs, by simp [Slot.children], .inl ⟨rfl, hv, rfl⟩⟩
  | @optional parent f owner id hv hs =>
    exact ⟨parent, .field f, f, _, rfl, hs, by simp [Slot.children], .inl ⟨rfl, hv, rfl⟩⟩
  | @item parent f owner id i slot items hv hs hi hget =>
    refine ⟨parent, .index i, f, slot, rfl, hs, ?_, .inr ⟨i, items, rfl, hv, hi, hget⟩⟩
    exact (Slot.mem_children_of_items? hi).mpr (List.mem_of_getElem? hget)

theorem Live.exists_owner_of_list {f : Field} (h : p.Live t) (hv : p.value = .list owner f) :
    ∃ o : Path, p = .child o (.field f) (.list owner f) ∧ o.Live t ∧ o.node? = some owner := by
  obtain ⟨o, -, ho, hnode, rfl | ⟨g, rfl⟩⟩ := h.exists_owner (by rw [hv]; rfl)
  · rw [value_eq_node hnode] at hv
    cases hv
  · cases hv
    exact ⟨o, rfl, ho, hnode⟩

/-- Where the owner of a slot has one place, what it holds once has one place. -/
theorem Leads.eq_of_owner (hp : p.Leads t owner id) (hq : q.Leads t owner id) (hplive : p.Live t)
    (hqlive : q.Live t) (hcount : (t.node owner).children.count id ≤ 1)
    (howner : ∀ {o o' : Path}, o.depth < p.depth → o.Live t → o'.Live t → o.node? = some owner →
      o'.node? = some owner → o = o') : p = q := by
  obtain ⟨parent, key, f, slot, rfl, hs, hc, hway⟩ := hp.slot
  obtain ⟨parent', key', g, slot', rfl, hs', hc', hway'⟩ := hq.slot
  obtain rfl := Node.field_eq_of_count hcount hs hs' hc hc'
  obtain rfl : slot = slot' := Option.some.inj (hs.symm.trans hs')
  rcases hway with ⟨rfl, hv, hnone⟩ | ⟨i, items, rfl, hv, hi, hget⟩
  · rcases hway' with ⟨rfl, hv', -⟩ | ⟨j, items', -, -, hi', -⟩
    · have hnode : ∀ {o : Path}, o.value = .node owner → o.node? = some owner := fun hv => by
        rw [node?, hv]
        rfl
      obtain rfl := howner (Nat.lt_succ_self _) hplive.1 hqlive.1 (hnode hv) (hnode hv')
      rfl
    · rw [hnone] at hi'
      cases hi'
  · rcases hway' with ⟨-, -, hnone⟩ | ⟨j, items', rfl, hv', hi', hget'⟩
    · rw [hi] at hnone
      cases hnone
    · obtain rfl : items = items' := Option.some.inj (hi.symm.trans hi')
      obtain rfl := Node.index_eq_of_count hcount hs hi hget hget'
      obtain ⟨o, rfl, ho, hnode⟩ := hplive.1.exists_owner_of_list hv
      obtain ⟨o', rfl, ho', hnode'⟩ := hqlive.1.exists_owner_of_list hv'
      obtain rfl := howner (Nat.lt_succ_of_lt (Nat.lt_succ_self _)) ho ho' hnode hnode'
      rfl

end Path

/-- Trees in which what may be edited is in one place: the program holds together, no node of it is
below itself, and at most one slot of it holds a node that may be edited. -/
structure Tree.OneSlot (t : Tree) : Prop where
  root_lt_size : t.root < t.size
  closed : ∀ {c id}, t.Within id t.root → t.Child c id → c < t.size
  acyclic : ∀ {id}, t.Within id t.root → ¬ t.Below id id
  held_once : ∀ {id owner owner' i i'}, ¬ t.isFrozen id → t.Within owner t.root →
    t.Holds owner i id → t.Within owner' t.root → t.Holds owner' i' id → owner = owner' ∧ i = i'

/-- Such trees in which nothing below a frozen node may be edited. Without that, a node in one slot of a
shared node is found by as many paths as the shared node. -/
structure Tree.Sealed (t : Tree) : Prop extends t.OneSlot where
  frozen : ∀ {c id}, t.Within id t.root → t.isFrozen id → t.Child c id → t.isFrozen c

/-- Trees in which one path at most leads to what may be edited. -/
structure Tree.Shaped (t : Tree) : Prop where
  closed : ∀ {p : Path} {id}, p.Live t → p.node? = some id → id < t.size
  unshared : ∀ {p q : Path} {id}, p.Live t → q.Live t → p.node? = some id → q.node? = some id →
    ¬ t.isFrozen id → p = q

namespace Tree

variable {t t' : Tree} {id owner : NodeId}

namespace OneSlot

theorem root_free (h : t.OneSlot) (hid : t.Within id t.root) : ¬ t.Child t.root id := fun hc =>
  h.acyclic .refl (.head' hc hid)

theorem count_children_le (h : t.OneSlot) (howner : t.Within owner t.root)
    (hf : ¬ t.isFrozen id) : (t.node owner).children.count id ≤ 1 := by
  by_contra hlt
  have htwice := List.duplicate_iff_two_le_count.mpr (Nat.lt_of_not_le hlt)
  obtain ⟨i, j, hij, hi, hj⟩ := List.duplicate_iff_exists_distinct_get.mp htwice
  have hold : ∀ k : Fin (t.node owner).children.length, id = (t.node owner).children.get k →
      t.Holds owner k id := fun k hk => List.getElem?_eq_some_iff.mpr ⟨k.2, hk.symm⟩
  exact hij.ne (Fin.ext (h.held_once hf howner (hold i hi) howner (hold j hj)).2)

/-- Where numbers grow from children to parents, the slots can be compared one by one. -/
theorem of_ordered (hroot : t.root < t.size)
    (hordered : ∀ id < t.size, ∀ c ∈ (t.node id).children, c < id)
    (hheld : ∀ owner < t.size, ∀ owner' < t.size, ∀ c ∈ (t.node owner).children,
      c ∈ (t.node owner').children → t.isFrozen c ∨
        owner = owner' ∧ (t.node owner).children.count c ≤ 1) : t.OneSlot where
  root_lt_size := hroot
  closed {c id} _ hc := by
    have hid := lt_size_of_child hc
    exact (hordered id hid c hc).trans hid
  acyclic {id} _ hbelow := by
    have lower : ∀ {a b}, t.Below a b → a < b := fun h => by
      induction h with
      | single hc => exact hordered _ (lt_size_of_child hc) _ hc
      | tail _ hc ih => exact ih.trans (hordered _ (lt_size_of_child hc) _ hc)
    exact (lower hbelow).false
  held_once {id owner owner' i i'} hf _ hi _ hi' := by
    obtain hfrozen | ⟨rfl, hcount⟩ := hheld owner (lt_size_of_child hi.child) owner'
      (lt_size_of_child hi'.child) id hi.child hi'.child
    · exact absurd hfrozen hf
    · exact ⟨rfl, eq_of_count_le_one hcount hi hi'⟩

end OneSlot

/-- Where a node that may be edited is held once, and none is below a frozen one, it has one path. -/
theorem Sealed.shaped (h : t.Sealed) : t.Shaped where
  closed {p id} hp hid := by
    rcases hp.cases hid with ⟨-, rfl⟩ | ⟨owner, hleads⟩
    · exact h.root_lt_size
    · exact h.closed (hp.owner_within_root hleads) hleads.child
  unshared {p q id} hp hq hid hid' hf := by
    -- the owner of a node is nearer to the program
    induction hdepth : p.depth using Nat.strong_induction_on generalizing p q id with
    | _ depth ih =>
      subst hdepth
      rcases hp.cases hid with ⟨rfl, rfl⟩ | ⟨owner, hleads⟩ <;>
        rcases hq.cases hid' with ⟨rfl, hroot⟩ | ⟨owner', hleads'⟩
      · rfl
      · exact absurd hleads'.child (h.root_free (hq.owner_within_root hleads'))
      · subst hroot
        exact absurd hleads.child (h.root_free (hp.owner_within_root hleads))
      · have howner := hp.owner_within_root hleads
        obtain ⟨i, hi⟩ := hleads.child.holds
        obtain ⟨j, hj⟩ := hleads'.child.holds
        obtain ⟨rfl, -⟩ := h.held_once hf howner hi (hq.owner_within_root hleads') hj
        refine hleads.eq_of_owner hleads' hp hq (h.count_children_le howner hf) ?_
        intro o o' hlt ho ho' hnode hnode'
        refine ih o.depth hlt ho ho' hnode hnode' (fun hfrozen => ?_) rfl
        exact hf (h.frozen howner hfrozen hleads.child)

theorem Orderly.sealed (h : t.Orderly) : t.Sealed where
  root_lt_size := by
    by_contra hsize
    have hprogram := h.program
    rw [node_of_size_le (Nat.le_of_not_lt hsize)] at hprogram
    cases hprogram
  closed _ := h.closed
  acyclic _ := h.acyclic
  held_once {id owner owner' i i'} hf ho hi ho' hi' := by
    have hne : id ≠ t.root := by
      rintro rfl
      exact h.root_free ho hi.child
    have heq : (owner, i) = (owner', i') :=
      (h.held_once (.head hi.child ho) hf hne).unique ⟨ho, hi⟩ ⟨ho', hi'⟩
    exact Prod.mk.inj heq
  frozen _ := h.frozen

theorem Orderly.shaped (h : t.Orderly) : t.Shaped :=
  h.sealed.shaped

theorem sealed_ofJson {json : Json} (hj : json.Finite) (ht : ofJson json = .ok t) : t.Sealed := by
  have hs : Store.Sound { tree := t } := (fresh_ofJson hj ht).sound
  exact (hs.orderly (nodup_members hs.wellFormed (laid_ofJson hj ht).held t.root)).sealed

variable {p q : Path}

namespace Shaped

theorem lt_size (h : t.Shaped) (hp : p.Live t) (hid : p.value.owner? = some id) : id < t.size := by
  obtain ⟨o, -, ho, hnode, -⟩ := hp.exists_owner hid
  exact h.closed ho hnode

/-- Where the owner may be edited, paths that find the same are the same. -/
theorem eq_of_value (h : t.Shaped) (hf : ¬ t.isFrozen id) (hp : p.Live t) (hq : q.Live t)
    (hid : p.value.owner? = some id) (heq : p.value = q.value) : p = q := by
  obtain ⟨o, -, ho, hnode, hpo⟩ := hp.exists_owner hid
  obtain ⟨o', -, ho', hnode', hqo⟩ := hq.exists_owner (heq ▸ hid)
  obtain rfl := h.unshared ho ho' hnode hnode' hf
  rcases hpo with rfl | ⟨f, rfl⟩ <;> rcases hqo with rfl | ⟨g, rfl⟩
  · rfl
  · rw [Path.value_eq_node hnode] at heq
    cases heq
  · rw [Path.value_eq_node hnode'] at heq
    cases heq
  · cases heq
    rfl

end Shaped

/-- Entries are dropped from lists, and nothing else is changed. -/
structure Thins (t t' : Tree) : Prop where
  root : t'.root = t.root
  size : t'.size = t.size
  frozen : ∀ id, t'.isFrozen id = t.isFrozen id
  children : ∀ id, (t'.node id).children.Sublist (t.node id).children

namespace Thins

theorem refl (t : Tree) : t.Thins t where
  root := rfl
  size := rfl
  frozen _ := rfl
  children _ := .refl _

theorem child {c : NodeId} (h : t.Thins t') (hc : t'.Child c id) : t.Child c id :=
  (h.children id).subset hc

theorem within (h : t.Thins t') (hw : t'.Within id t'.root) : t.Within id t.root := by
  rw [h.root] at hw
  exact Relation.ReflTransGen.mono (fun _ _ => h.child) _ _ hw

theorem oneSlot (h : t.Thins t') (ht : t.OneSlot) : t'.OneSlot where
  root_lt_size := by
    rw [h.root, h.size]
    exact ht.root_lt_size
  closed hid hc := (ht.closed (h.within hid) (h.child hc)).trans_eq h.size.symm
  acyclic hid hbelow := ht.acyclic (h.within hid) (Relation.TransGen.mono (fun _ _ => h.child) _ _ hbelow)
  held_once {id owner owner' i i'} hf ho hi ho' hi' := by
    rw [h.frozen] at hf
    obtain ⟨k, hk⟩ := (h.child hi.child).holds
    obtain ⟨k', hk'⟩ := (h.child hi'.child).holds
    obtain ⟨rfl, -⟩ := ht.held_once hf (h.within ho) hk (h.within ho') hk'
    have hcount := ((h.children owner).count_le id).trans (ht.count_children_le (h.within ho) hf)
    exact ⟨rfl, eq_of_count_le_one hcount hi hi'⟩

theorem sealed (h : t.Thins t') (ht : t.Sealed) : t'.Sealed where
  toOneSlot := h.oneSlot ht.toOneSlot
  frozen hid hf hc := by
    rw [h.frozen] at hf ⊢
    exact ht.frozen (h.within hid) hf (h.child hc)

variable {f : Field} {slot : Slot NodeId} {items items' : List (Option NodeId)} {b : Bool}

theorem setItems (hs : t.slot? owner f = some slot) (hi : slot.items? = some items)
    (hitems : items'.Sublist items) : t.Thins (t.setSlot owner f (slot.setItems items')) where
  root := rfl
  size := size_setNode ..
  frozen _ := isFrozen_setNode ..
  children id := by
    unfold setSlot
    rw [node_setNode (lt_size_of_slot? hs)]
    split
    · subst id
      obtain ⟨l, r, hchildren, hset⟩ := Node.children_setSlot hs (slot.put_setItems items')
      have hi' : (slot.setItems items').items? = some items' :=
        Slot.items?_setItems hi fun e he => .inl (hitems.subset he)
      rw [hchildren, hset, Slot.children_of_items? hi, Slot.children_of_items? hi']
      exact ((List.Sublist.refl l).append (hitems.filterMap id)).append (.refl r)
    · exact .refl _

theorem of_write {r : Ref} {i : Nat} (hw : t.write r (.index i) none = .ok (b, t')) :
    t.Thins t' := by
  unfold write at hw
  split at hw
  · rename_i heq
    cases heq
  · rename_i owner f _ heq
    cases heq
    obtain ⟨-, hw⟩ := of_checkWritable hw
    unfold writeItem at hw
    split at hw
    · cases hw
    · rename_i slot hs
      split at hw
      · cases hw
      · rename_i items hi
        split at hw
        · cases hw
        · cases hw
          exact setItems hs hi (List.eraseIdx_sublist items i)
        · rename_i heq
          cases heq
  all_goals cases hw

theorem of_splice {r : Ref} {start stop : Nat} (h : t.splice r start stop [] = .ok t') :
    t.Thins t' := by
  unfold splice at h
  split at h
  · obtain ⟨-, h⟩ := of_checkWritable h
    split at h
    · cases h
    · rename_i slot hs
      split at h
      · cases h
      · rename_i items hi
        split at h
        · cases h
        · rename_i hrange
          split at h
          · cases h
            exact .refl t
          · cases h
            have hle : start ≤ stop := by
              simp only [Bool.or_eq_true, decide_eq_true_eq] at hrange
              omega
            refine setItems hs hi ?_
            rw [List.map_nil, List.append_nil]
            calc (items.take start ++ items.drop stop).Sublist (items.take start ++ items.drop start) :=
                  (List.Sublist.refl _).append (List.drop_sublist_drop_left items hle)
              _ = items := List.take_append_drop start items
  · cases h

theorem of_truncate {r : Ref} {length : Nat} (h : t.truncate r length = .ok (b, t')) :
    t.Thins t' := by
  unfold truncate at h
  split at h
  · cases h
  · split at h
    · cases h
      exact .refl t
    · obtain ⟨t₁, h, heq⟩ := exists_of_map h
      cases heq
      exact of_splice h

end Thins

end Tree

end ScriptFold

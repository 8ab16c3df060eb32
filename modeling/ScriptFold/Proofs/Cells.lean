import ScriptFold.Proofs.Change
import ScriptFold.Proofs.Shape

/-!
Slots as independent cells. What is written to a slot is read back, nothing else is read otherwise
than before, and an edit is refused for one of four reasons only. Main statement: this holds of
assignments, splices and truncations alike, whatever the kind of the node.
-/

namespace ScriptFold

namespace Tree

variable {t t' : Tree} {owner : NodeId} {f : Field} {b : Bool}

/-- A tree in which at most one slot of one node is another. -/
structure OnlySlot (t : Tree) (owner : NodeId) (f : Field) (t' : Tree) : Prop where
  size : t'.size = t.size
  root : t'.root = t.root
  flags : ∀ id, t'.flags id = t.flags id
  node : ∀ id, id ≠ owner → t'.node id = t.node id
  slot : ∃ slot, t'.node owner = (t.node owner).setSlot f slot
  read : ∀ parent key, parent ≠ .list owner f → ¬ (parent = .node owner ∧ key = .field f) →
    t'.read parent key = t.read parent key
  items : ∀ list, list ≠ .list owner f → t'.listItems? list = t.listItems? list

/-- A tree in which a field holds another child or none, and all else is as it was. -/
structure Assigns (t : Tree) (owner : NodeId) (f : Field) (new : Option NodeId) (t' : Tree) :
    Prop where
  only : t.OnlySlot owner f t'
  field : t'.read (.node owner) (.field f) = new.elim .null .node
  entry : ∀ key, t'.read (.list owner f) key = t.read (.list owner f) key

/-- A tree in which a list has other entries, and all else is as it was. -/
structure Relists (t : Tree) (owner : NodeId) (f : Field) (items : List (Option NodeId))
    (t' : Tree) : Prop where
  only : t.OnlySlot owner f t'
  field : t'.read (.node owner) (.field f) = t.read (.node owner) (.field f)
  entries : t'.listItems? (.list owner f) = some items
  entry : ∀ i, t'.read (.list owner f) (.index i) = items[i]?.join.elim .null .node

namespace Changes

variable {ch : Slot.Change NodeId}

theorem slot?_of_ne (h : t.Changes owner f ch t') {id : NodeId} {g : Field}
    (hne : ¬ (id = owner ∧ g = f)) : t'.slot? id g = t.slot? id g := by
  obtain ⟨slot, slot', -, -, hset⟩ := h
  have hn := hset.node id
  split at hn
  · rename_i hid
    subst hid
    exact (congrArg (Node.slot? · g) hn).trans
      (Node.slot?_setSlot_of_ne (fun hg => hne ⟨rfl, hg⟩) _)
  · exact congrArg (Node.slot? · g) hn

theorem exists_slot? (h : t.Changes owner f ch t') : ∃ slot slot', t.slot? owner f = some slot ∧
    slot.change? ch = some slot' ∧ t'.slot? owner f = some slot' := by
  obtain ⟨slot, slot', hs, hc, hset⟩ := h
  refine ⟨slot, slot', hs, hc, (congrArg (Node.slot? · f) ?_).trans
    (Node.slot?_setSlot hs slot' (Slot.change?_spec hc).1)⟩
  rw [hset.node, if_pos rfl]

theorem onlySlot (h : t.Changes owner f ch t') : t.OnlySlot owner f t' := by
  have hslot {id : NodeId} {g : Field} (hne : ¬ (id = owner ∧ g = f)) :
      t'.slot? id g = t.slot? id g := h.slot?_of_ne hne
  obtain ⟨slot, slot', hs, hc, hset⟩ := h
  refine ⟨hset.size, hset.root, hset.flags, fun id hid => ?_, ⟨slot', ?_⟩,
    fun parent key hp hk => ?_, fun list hlist => ?_⟩
  · rw [hset.node, if_neg hid]
  · rw [hset.node, if_pos rfl]
  · cases parent with
    | null => exact read_of_null rfl key
    | node id =>
      cases key with
      | field g =>
        exact (read_congr_slot (hslot fun heq => hk ⟨congrArg _ heq.1, congrArg _ heq.2⟩)).1
      | index i => rfl
    | list id g =>
      cases key with
      | field _ => rfl
      | index i => exact (read_congr_slot (hslot fun heq => hp (by rw [heq.1, heq.2]))).2 i
  · cases list with
    | null | node => rfl
    | list id g =>
      rw [listItems?, listItems?, hslot fun heq => hlist (by rw [heq.1, heq.2])]

theorem assigns {new : Option NodeId} (h : t.Changes owner f (.child new) t') :
    t.Assigns owner f new t' := by
  obtain ⟨slot, slot', hs, hc, hs'⟩ := h.exists_slot?
  -- no list takes a child, so that there are no entries to read before or after
  have hread : t'.read (.node owner) (.field f) = new.elim .null .node ∧
      slot.items? = none ∧ slot'.items? = none := by
    cases slot with
    | required c =>
      cases new with
      | none => cases hc
      | some id =>
        obtain rfl := Option.some.inj hc
        exact ⟨by simp only [read, hs', Option.elim], rfl, rfl⟩
    | optional c =>
      obtain rfl := Option.some.inj hc
      exact ⟨by simp only [read, hs'], rfl, rfl⟩
    | list cs | holey cs => cases hc
  refine ⟨h.onlySlot, hread.1, fun key => ?_⟩
  cases key with
  | field g => rfl
  | index i =>
    simp only [read, listItems?, hs, hs', Option.bind_some, hread.2.1, hread.2.2, Option.bind_none]

/-- A change of the entries of a list, which brings no new holes into it. -/
theorem relists (h : t.Changes owner f ch t') (hchild : ∀ new, ch ≠ .child new)
    (hnew : ∀ {items new}, Slot.changeItems? items ch = some new →
      ∀ e ∈ new, e ∈ items ∨ e.isSome) :
    ∃ items new, t.listItems? (.list owner f) = some items ∧
      Slot.changeItems? items ch = some new ∧ t.Relists owner f new t' := by
  obtain ⟨slot, slot', hs, hc, hs'⟩ := h.exists_slot?
  obtain ⟨items, hi⟩ : ∃ items, slot.items? = some items := by
    cases slot with
    | list cs | holey cs => exact ⟨_, rfl⟩
    | required c | optional c =>
      cases ch with
      | child new => exact absurd rfl (hchild new)
      | item _ _ | stretch _ _ _ => cases hc
  rw [Slot.change?_eq_bind hi] at hc
  obtain ⟨new, hch, rfl⟩ := Option.map_eq_some_iff.mp hc
  have hi' := Slot.items?_setItems hi (hnew hch)
  refine ⟨items, new, ?_, hch, h.onlySlot, ?_, ?_, read_index_of_items hs' hi'⟩
  · rw [listItems?, hs]
    exact hi
  · rw [read_field_of_items hs' hi', read_field_of_items hs hi]
  · rw [listItems?, hs']
    exact hi'

end Changes

section Lists

variable {i start stop length : Nat} {new : List NodeId}

theorem write_item_relists {new : Option NodeId}
    (h : t.write (.list owner f) (.index i) new = .ok (b, t')) :
    ∃ items, t.listItems? (.list owner f) = some items ∧ i < items.length ∧
      t.Relists owner f (new.elim (items.eraseIdx i) fun id => items.set i (some id)) t' := by
  obtain ⟨items, new', hi, hch, hr⟩ := (write_item_changes h).relists (by simp) fun hch e he => by
    rw [Slot.changeItems?, Option.ite_none_right_eq_some] at hch
    obtain ⟨-, rfl⟩ := hch.imp_right Option.some.inj
    cases new with
    | none => exact .inl (List.mem_of_mem_eraseIdx he)
    | some id =>
      rcases List.mem_or_eq_of_mem_set he with he | rfl
      · exact .inl he
      · exact .inr rfl
  rw [Slot.changeItems?, Option.ite_none_right_eq_some] at hch
  obtain ⟨hlt, rfl⟩ := hch.imp_right Option.some.inj
  exact ⟨items, hi, hlt, hr⟩

theorem splice_relists (h : t.splice (.list owner f) start stop new = .ok t') :
    ∃ items, t.listItems? (.list owner f) = some items ∧ start ≤ stop ∧ stop ≤ items.length ∧
      t.Relists owner f (items.take start ++ new.map some ++ items.drop stop) t' := by
  obtain ⟨_, _, heq, hc⟩ := splice_changes h
  cases heq
  obtain ⟨items, new', hi, hch, hr⟩ := hc.relists (by simp) fun hch e he => by
    rw [Slot.changeItems?, Option.ite_none_right_eq_some] at hch
    obtain ⟨-, rfl⟩ := hch.imp_right Option.some.inj
    simp only [List.mem_append, List.mem_map] at he
    rcases he with (he | ⟨c, -, rfl⟩) | he
    · exact .inl (List.mem_of_mem_take he)
    · exact .inr rfl
    · exact .inl (List.mem_of_mem_drop he)
  rw [Slot.changeItems?, Option.ite_none_right_eq_some] at hch
  obtain ⟨hbounds, rfl⟩ := hch.imp_right Option.some.inj
  exact ⟨items, hi, hbounds.1, hbounds.2, hr⟩

theorem exists_slot_of_listItems? {items : List (Option NodeId)}
    (h : t.listItems? (.list owner f) = some items) :
    ∃ slot, t.slot? owner f = some slot ∧ slot.items? = some items :=
  Option.bind_eq_some_iff.mp h

theorem Relists.self {items : List (Option NodeId)}
    (h : t.listItems? (.list owner f) = some items) :
    t.Relists owner f items t := by
  obtain ⟨slot, hs, hi⟩ := exists_slot_of_listItems? h
  refine ⟨⟨rfl, rfl, fun _ => rfl, fun _ _ => rfl, ⟨slot, ?_⟩, fun _ _ _ _ => rfl, fun _ _ => rfl⟩,
    rfl, h, read_index_of_items hs hi⟩
  exact (Node.setSlot_self hs).symm

theorem truncate_relists (h : t.truncate (.list owner f) length = .ok (b, t')) :
    ∃ items, t.listItems? (.list owner f) = some items ∧ b = decide (length < items.length) ∧
      t.Relists owner f (items.take length) t' := by
  unfold truncate listLength? at h
  cases hi : t.listItems? (.list owner f) with
  | none =>
    rw [hi] at h
    cases h
  | some items =>
    rw [hi] at h
    simp only [Option.map_some] at h
    refine ⟨items, rfl, ?_⟩
    split at h
    · rename_i hle
      cases h
      rw [List.take_of_length_le hle]
      exact ⟨(decide_eq_false (Nat.not_lt.mpr hle)).symm, .self hi⟩
    · rename_i hlt
      obtain ⟨t₁, hs, heq⟩ := exists_of_map h
      cases heq
      obtain ⟨items', hi', -, -, hr⟩ := splice_relists hs
      obtain rfl := Option.some.inj (hi.symm.trans hi')
      rw [List.map_nil, List.append_nil, List.drop_length, List.append_nil] at hr
      exact ⟨(decide_eq_true (Nat.lt_of_not_le hlt)).symm, hr⟩

end Lists

theorem read_of_write {parent : Ref} {key : Key} {id : NodeId}
    (h : t.write parent key (some id) = .ok (b, t')) : t'.read parent key = .node id := by
  rcases write_changes h with ⟨owner, f, rfl, rfl, hc⟩ | ⟨owner, f, i, rfl, rfl, -⟩
  · exact hc.assigns.field
  · obtain ⟨items, -, hlt, hr⟩ := write_item_relists h
    rw [hr.entry]
    simp [hlt]

theorem checked_eq {α : Type} {r : Except TreeError α} (h : ¬ t.isFrozen owner) :
    (do t.checkWritable owner; r) = r := by
  rw [Path.checkWritable_ok h]
  rfl

theorem write_of_read {parent : Ref} {key : Key} {id : NodeId}
    (howner : parent.owner? = some owner) (hf : ¬ t.isFrozen owner)
    (h : t.read parent key = .node id) : t.write parent key (some id) = .ok (false, t) := by
  cases parent with
  | null => cases howner
  | node x =>
    obtain rfl := Option.some.inj howner
    cases key with
    | index i => cases h
    | field f =>
      rw [write, checked_eq hf]
      cases hs : t.slot? x f with
      | none => simp [read, hs] at h
      | some slot =>
        cases slot with
        | required c => simpa [read, writeField, hs] using h
        | optional c =>
          cases c with
          | none => simp [read, hs] at h
          | some c => simpa [read, writeField, hs] using h
        | list cs | holey cs => simp [read, hs] at h
  | list x f =>
    obtain rfl := Option.some.inj howner
    cases key with
    | field g => cases h
    | index i =>
      rw [write, checked_eq hf]
      cases hi : t.listItems? (.list x f) with
      | none => simp [read, hi] at h
      | some items =>
        obtain ⟨slot, hs, hi⟩ := exists_slot_of_listItems? hi
        rw [read_index_of_items hs hi] at h
        rcases hget : items[i]? with - | - | c <;> rw [hget] at h <;> cases h
        simp [writeItem, hs, hi, hget]

theorem node_setSlot_ne {slot slot' : Slot NodeId} (hs : t.slot? owner f = some slot)
    (hput : slot.put slot' = slot') (hne : slot' ≠ slot) :
    (t.setSlot owner f slot').node owner ≠ t.node owner := by
  intro heq
  rw [setSlot, node_setNode (lt_size_of_slot? hs), if_pos rfl] at heq
  have hslot := Node.slot?_setSlot hs slot' hput
  rw [heq] at hslot
  exact hne (Option.some.inj (hslot.symm.trans hs))

theorem changed_assign {same : Prop} [Decidable same] {slot slot' : Slot NodeId}
    (hs : t.slot? owner f = some slot) (hput : slot.put slot' = slot') (hne : ¬ same → slot' ≠ slot)
    (h : (if same then (false, t) else (true, t.setSlot owner f slot')) = (b, t')) :
    (b = true ↔ t'.node owner ≠ t.node owner) ∧ (b = false → t' = t) := by
  split at h <;> cases h
  · simp
  · rename_i hsame
    simpa using node_setSlot_ne hs hput (hne hsame)

theorem writeField_changed {new : Option NodeId} (h : t.writeField owner f new = .ok (b, t')) :
    (b = true ↔ t'.node owner ≠ t.node owner) ∧ (b = false → t' = t) := by
  unfold writeField at h
  split at h
  · cases h
  · cases h
  · rename_i hs
    exact changed_assign hs rfl (fun hne heq => hne (Slot.required.inj heq).symm) (Except.ok.inj h)
  · rename_i hs
    exact changed_assign hs rfl (fun hne heq => hne (Slot.optional.inj heq).symm) (Except.ok.inj h)
  · cases h
  · cases h

theorem writeItem_changed {i : Nat} {new : Option NodeId}
    (h : t.writeItem owner f i new = .ok (b, t')) :
    (b = true ↔ t'.node owner ≠ t.node owner) ∧ (b = false → t' = t) := by
  unfold writeItem at h
  split at h
  · cases h
  · rename_i slot hs
    split at h
    · cases h
    · rename_i items hi
      -- other entries make another slot
      have hne : ∀ {new : List (Option NodeId)}, (∀ e ∈ new, e ∈ items ∨ e.isSome) → new ≠ items →
          slot.setItems new ≠ slot := fun hnew hne heq => hne <| by
        have hi' := Slot.items?_setItems hi hnew
        rw [heq] at hi'
        exact Option.some.inj (hi'.symm.trans hi)
      split at h
      · cases h
      · rename_i old hold
        cases h
        have hlt := (List.getElem?_eq_some_iff.mp hold).1
        have hlength := List.length_eraseIdx_of_lt hlt
        have hslot := hne (fun e he => .inl (List.mem_of_mem_eraseIdx he)) fun heq => by
          rw [heq] at hlength
          omega
        simpa using node_setSlot_ne hs (slot.put_setItems _) hslot
      · rename_i old id hold
        have hlt := (List.getElem?_eq_some_iff.mp hold).1
        refine changed_assign hs (slot.put_setItems _) (fun hsame => hne ?_ ?_) (Except.ok.inj h)
        · intro e he
          rcases List.mem_or_eq_of_mem_set he with he | rfl
          · exact .inl he
          · exact .inr rfl
        · intro heq
          rw [← heq, List.getElem?_set_self hlt] at hold
          exact hsame (Option.some.inj hold).symm

/-- An assignment tells whether it changed the owner of the slot. -/
theorem write_changed {parent : Ref} {key : Key} {new : Option NodeId}
    (h : t.write parent key new = .ok (b, t')) : ∃ owner, parent.owner? = some owner ∧
      (b = true ↔ t'.node owner ≠ t.node owner) ∧ (b = false → t' = t) := by
  unfold write at h
  split at h
  · exact ⟨_, rfl, writeField_changed (of_checkWritable h).2⟩
  · exact ⟨_, rfl, writeItem_changed (of_checkWritable h).2⟩
  all_goals cases h

section Refusals

/-- A parent and a key name a slot: a field of a node that holds no list, or a place in a list. -/
inductive HasSlot (t : Tree) : Ref → Key → Prop
  | field {owner f slot} (hs : t.slot? owner f = some slot) (hi : slot.items? = none) :
    HasSlot t (.node owner) (.field f)
  | entry {owner f i items} (hi : t.listItems? (.list owner f) = some items) :
    HasSlot t (.list owner f) (.index i)

inductive RefusesWrite (t : Tree) : Ref → Key → Option NodeId → Prop
  | frozen {parent key new owner} (howner : parent.owner? = some owner) (hf : t.isFrozen owner) :
    RefusesWrite t parent key new
  | shape {parent key new} (h : ¬ t.HasSlot parent key) : RefusesWrite t parent key new
  | bounds {owner f i new items} (hi : t.listItems? (.list owner f) = some items)
    (h : items.length ≤ i) : RefusesWrite t (.list owner f) (.index i) new
  | required {owner f child} (hs : t.slot? owner f = some (.required child)) :
    RefusesWrite t (.node owner) (.field f) none

/-- Why a splice is refused. -/
inductive RefusesSplice (t : Tree) : Ref → Nat → Nat → Prop
  | frozen {owner f start stop} (hf : t.isFrozen owner) : RefusesSplice t (.list owner f) start stop
  | shape {list start stop} (h : t.listItems? list = none) : RefusesSplice t list start stop
  | reversed {list start stop} (h : stop < start) : RefusesSplice t list start stop
  | bounds {list start stop items} (hi : t.listItems? list = some items)
    (h : items.length < stop) : RefusesSplice t list start stop

variable {parent : Ref} {key : Key} {new : Option NodeId} {i : Nat} {e : TreeError}

theorem refused_checked_iff {α : Type} {r : Except TreeError α} :
    (∃ e, (do t.checkWritable owner; r) = .error e) ↔ t.isFrozen owner ∨ ∃ e, r = .error e := by
  by_cases hf : t.isFrozen owner
  · simp only [hf, true_or, iff_true]
    rw [checkWritable, if_pos hf]
    exact ⟨_, rfl⟩
  · rw [checked_eq hf]
    simp [hf]

theorem refused_writeField_iff : (∃ e, t.writeField owner f new = .error e) ↔
    ¬ t.HasSlot (.node owner) (.field f) ∨
      (∃ child, t.slot? owner f = some (.required child)) ∧ new = none := by
  have hslot : t.HasSlot (.node owner) (.field f) ↔
      ∃ slot, t.slot? owner f = some slot ∧ slot.items? = none := by
    constructor
    · rintro ⟨hs, hi⟩
      exact ⟨_, hs, hi⟩
    · rintro ⟨slot, hs, hi⟩
      exact .field hs hi
  rw [hslot]
  cases hs : t.slot? owner f with
  | none => simp [writeField, hs]
  | some slot => cases slot <;> cases new <;> simp [writeField, hs, Slot.items?]

theorem refused_writeItem_iff : (∃ e, t.writeItem owner f i new = .error e) ↔
    ∀ items, t.listItems? (.list owner f) = some items → items.length ≤ i := by
  rw [writeItem, listItems?]
  cases hs : t.slot? owner f with
  | none => simp
  | some slot =>
    cases hi : slot.items? with
    | none => simp [hi]
    | some items =>
      simp only [hi, Option.bind_some, Option.some.injEq, forall_eq']
      cases hget : items[i]? with
      | none => simpa using hget
      | some old =>
        have hlt := (List.getElem?_eq_some_iff.mp hget).1
        cases new <;> simp [hlt]

theorem refused_write_iff :
    (∃ e, t.write parent key new = .error e) ↔ t.RefusesWrite parent key new := by
  cases parent with
  | null => exact iff_of_true ⟨_, rfl⟩ (.shape fun h => by cases h)
  | node owner =>
    cases key with
    | index i => exact iff_of_true ⟨_, rfl⟩ (.shape fun h => by cases h)
    | field f =>
      rw [write, refused_checked_iff, refused_writeField_iff]
      constructor
      · rintro (hf | hslot | ⟨⟨child, hs⟩, rfl⟩)
        · exact .frozen rfl hf
        · exact .shape hslot
        · exact .required hs
      · rintro (⟨howner, hf⟩ | hslot | - | hs)
        · obtain rfl := Option.some.inj howner
          exact .inl hf
        · exact .inr (.inl hslot)
        · exact .inr (.inr ⟨⟨_, hs⟩, rfl⟩)
  | list owner f =>
    cases key with
    | field g => exact iff_of_true ⟨_, rfl⟩ (.shape fun h => by cases h)
    | index i =>
      rw [write, refused_checked_iff, refused_writeItem_iff]
      constructor
      · rintro (hf | hbounds)
        · exact .frozen rfl hf
        · cases hi : t.listItems? (.list owner f) with
          | none =>
            refine .shape fun hslot => ?_
            cases hslot with
            | entry hi' => cases hi.symm.trans hi'
          | some items => exact .bounds hi (hbounds items hi)
      · rintro (⟨howner, hf⟩ | hslot | ⟨hi, hle⟩)
        · obtain rfl := Option.some.inj howner
          exact .inl hf
        · exact .inr fun items hi => absurd (.entry hi) hslot
        · refine .inr fun items hi' => ?_
          obtain rfl := Option.some.inj (hi.symm.trans hi')
          exact hle

theorem refused_splice_iff {list : Ref} {start stop : Nat} {new : List NodeId} :
    (∃ e, t.splice list start stop new = .error e) ↔ t.RefusesSplice list start stop := by
  cases list with
  | null | node => exact iff_of_true ⟨_, rfl⟩ (.shape rfl)
  | list owner f =>
    have hlist : t.RefusesSplice (.list owner f) start stop ↔ t.isFrozen owner ∨
        ∀ items, t.listItems? (.list owner f) = some items →
          stop < start ∨ items.length < stop := by
      constructor
      · rintro (hf | hnone | hlt | ⟨hi, hlt⟩)
        · exact .inl hf
        · exact .inr fun items hi => by cases hnone.symm.trans hi
        · exact .inr fun items hi => .inl hlt
        · refine .inr fun items hi' => .inr ?_
          obtain rfl := Option.some.inj (hi.symm.trans hi')
          exact hlt
      · rintro (hf | hbounds)
        · exact .frozen hf
        · cases hi : t.listItems? (.list owner f) with
          | none => exact .shape hi
          | some items => exact (hbounds items hi).elim .reversed (.bounds hi)
    rw [splice, refused_checked_iff, hlist, listItems?]
    refine or_congr_right ?_
    cases hs : t.slot? owner f with
    | none => simp
    | some slot =>
      cases hi : slot.items? with
      | none => simp [hi]
      | some items =>
        simp only [hi, Option.bind_some, Option.some.injEq, forall_eq', Bool.or_eq_true,
          decide_eq_true_eq]
        split_ifs <;> simp_all

/-- A list is shortened unless its owner is frozen and has something to lose. -/
theorem refused_truncate_iff {list : Ref} {length : Nat} :
    (∃ e, t.truncate list length = .error e) ↔ ∀ items, t.listItems? list = some items →
      length < items.length ∧ ∃ owner, list.owner? = some owner ∧ t.isFrozen owner := by
  unfold truncate listLength?
  cases hi : t.listItems? list with
  | none => simp
  | some items =>
    cases list with
    | null | node => cases hi
    | list owner f =>
      simp only [Option.map_some, Option.some.injEq, forall_eq', Ref.owner?, exists_eq_left']
      split
      · rename_i hle
        simp [Nat.not_lt.mpr hle]
      · rename_i hlt
        have hmap {r : Except TreeError Tree} :
            (∃ e, r.map (fun t => (true, t)) = .error e) ↔ ∃ e, r = .error e := by
          cases r <;> simp [Except.map]
        rw [hmap, refused_splice_iff, and_iff_right (Nat.lt_of_not_le hlt)]
        refine ⟨fun h => ?_, .frozen⟩
        cases h with
        | frozen hf => exact hf
        | shape hnone => cases hi.symm.trans hnone
        | reversed hlt' => omega
        | bounds hi' hlt' =>
          obtain rfl := Option.some.inj (hi.symm.trans hi')
          exact absurd hlt' (lt_irrefl _)

end Refusals

/-- The slots of a tree are independent of each other. What is assigned is read back, and assigning
what is there changes nothing; an assignment tells whether it changed the owner. Assignments to
fields and entries, splices and truncations make of a slot what they say, and all else is read as
before. They are refused only where the owner is frozen, nothing of the right shape is named, a
place lies outside of the list, or a required field would be cleared. -/
theorem slots_independent (t : Tree) :
    (∀ parent key id b t', t.write parent key (some id) = .ok (b, t') →
      t'.read parent key = .node id) ∧
    (∀ parent key id owner, parent.owner? = some owner → ¬ t.isFrozen owner →
      t.read parent key = .node id → t.write parent key (some id) = .ok (false, t)) ∧
    (∀ parent key new b t', t.write parent key new = .ok (b, t') → ∃ owner,
      parent.owner? = some owner ∧ (b = true ↔ t'.node owner ≠ t.node owner) ∧
        (b = false → t' = t)) ∧
    (∀ owner f new b t', t.write (.node owner) (.field f) new = .ok (b, t') →
      t.Assigns owner f new t') ∧
    (∀ owner f i new b t', t.write (.list owner f) (.index i) new = .ok (b, t') → ∃ items,
      t.listItems? (.list owner f) = some items ∧
        t.Relists owner f (new.elim (items.eraseIdx i) fun id => items.set i (some id)) t') ∧
    (∀ owner f start stop new t', t.splice (.list owner f) start stop new = .ok t' → ∃ items,
      t.listItems? (.list owner f) = some items ∧
        t.Relists owner f (items.take start ++ new.map some ++ items.drop stop) t') ∧
    (∀ owner f length b t', t.truncate (.list owner f) length = .ok (b, t') → ∃ items,
      t.listItems? (.list owner f) = some items ∧ b = decide (length < items.length) ∧
        t.Relists owner f (items.take length) t') ∧
    (∀ owner f items, t.listItems? (.list owner f) = some items → t.Relists owner f items t) ∧
    (∀ parent key new, (∃ e, t.write parent key new = .error e) ↔ t.RefusesWrite parent key new) ∧
    (∀ list start stop new, (∃ e, t.splice list start stop new = .error e) ↔
      t.RefusesSplice list start stop) ∧
    ∀ list length, (∃ e, t.truncate list length = .error e) ↔ ∀ items,
      t.listItems? list = some items →
        length < items.length ∧ ∃ owner, list.owner? = some owner ∧ t.isFrozen owner := by
  refine ⟨fun _ _ _ _ _ => read_of_write, fun _ _ _ _ => write_of_read,
    fun _ _ _ _ _ => write_changed, fun _ _ _ _ _ h => (write_field_changes h).assigns,
    fun _ _ _ _ _ _ h => ?_, fun _ _ _ _ _ _ h => ?_, fun _ _ _ _ _ => truncate_relists,
    fun _ _ _ => Relists.self, fun _ _ _ => refused_write_iff, fun _ _ _ _ => refused_splice_iff,
    fun _ _ => refused_truncate_iff⟩
  · obtain ⟨items, hi, -, hr⟩ := write_item_relists h
    exact ⟨items, hi, hr⟩
  · obtain ⟨items, hi, -, -, hr⟩ := splice_relists h
    exact ⟨items, hi, hr⟩

/-- The program `f([, a], b);`. -/
def holedCall : Tree where
  cells := #[⟨.program [], {}⟩, ⟨.identifier "f", {}⟩, ⟨.identifier "a", {}⟩, ⟨.identifier "b", {}⟩,
    ⟨.arrayExpression [none, some 2], {}⟩, ⟨.callExpression 1 [4, 3], {}⟩,
    ⟨.expressionStatement 5 none, {}⟩, ⟨.program [6], {}⟩]
  root := 7
  revision := 1

/-- There an argument is assigned, one is dropped, and the hole is filled by a splice. -/
theorem slots_independent_holedCall :
    (∃ t, holedCall.write (.list 5 .arguments) (.index 1) (some 2) = .ok (true, t) ∧
      t.read (.list 5 .arguments) (.index 1) = .node 2 ∧ t.node 5 ≠ holedCall.node 5 ∧
      holedCall.Relists 5 .arguments [some 4, some 2] t ∧
      t.write (.list 5 .arguments) (.index 1) (some 2) = .ok (false, t)) ∧
    (∃ t, holedCall.write (.node 5) (.field .callee) (some 3) = .ok (true, t) ∧
      holedCall.Assigns 5 .callee (some 3) t) ∧
    (∃ t, holedCall.truncate (.list 5 .arguments) 1 = .ok (true, t) ∧
      holedCall.Relists 5 .arguments [some 4] t) ∧
    (∃ t, holedCall.splice (.list 4 .elements) 0 1 [3, 3] = .ok t ∧
      holedCall.Relists 4 .elements [some 3, some 3, some 2] t) ∧
    holedCall.write (.node 5) (.field .callee) none = .error (.requiredField .callExpression .callee) ∧
      holedCall.RefusesWrite (.node 5) (.field .callee) none := by
  obtain ⟨hread, -, hchanged, hassign, hentry, hsplice, htruncate, -, hrefused, -⟩ :=
    slots_independent holedCall
  refine ⟨⟨_, rfl, hread _ _ _ _ _ rfl, ?_, ?_, ?_⟩, ⟨_, rfl, hassign _ _ _ _ _ rfl⟩, ⟨_, rfl, ?_⟩,
    ⟨_, rfl, ?_⟩, rfl, (hrefused _ _ _).mp ⟨_, rfl⟩⟩
  · obtain ⟨owner, howner, hb, -⟩ := hchanged (.list 5 .arguments) (.index 1) (some 2) _ _ rfl
    obtain rfl := Option.some.inj howner
    exact hb.mp rfl
  · obtain ⟨items, hi, hr⟩ := hentry 5 .arguments 1 (some 2) _ _ rfl
    obtain rfl := Option.some.inj hi
    exact hr
  · exact (slots_independent _).2.1 _ _ _ _ rfl (by decide) rfl
  · obtain ⟨items, hi, -, hr⟩ := htruncate 5 .arguments 1 _ _ rfl
    obtain rfl := Option.some.inj hi
    exact hr
  · obtain ⟨items, hi, hr⟩ := hsplice 4 .elements 0 1 [3, 3] _ rfl
    obtain rfl := Option.some.inj hi
    exact hr

end Tree

end ScriptFold

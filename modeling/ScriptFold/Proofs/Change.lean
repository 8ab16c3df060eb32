import ScriptFold.Proofs.Evolve
import ScriptFold.Proofs.History

/-!
What an edit does to a node, said for nodes over any children. A change to a slot does not look at
what the children are, so it commutes with `map`: where two nodes are images of one, the changed
nodes are images of the changed one.
-/

namespace ScriptFold

namespace Slot

/-- What an edit does to a slot: it assigns the child, assigns or takes out an entry of the list, or
replaces a stretch of the list. -/
inductive Change (α : Type) where
  | child (new : Option α)
  | item (index : Nat) (new : Option α)
  | stretch (start stop : Nat) (new : List α)

namespace Change

variable {α β : Type}

def map (f : α → β) : Change α → Change β
  | .child new => .child (new.map f)
  | .item index new => .item index (new.map f)
  | .stretch start stop new => .stretch start stop (new.map f)

def children : Change α → List α
  | .child new | .item _ new => new.toList
  | .stretch _ _ new => new

end Change

variable {α β : Type}

/-- The entries of a list after a change. -/
def changeItems? (items : List (Option α)) : Change α → Option (List (Option α))
  | .child _ => none
  | .item index new =>
    if index < items.length then
      some (new.elim (items.eraseIdx index) fun c => items.set index (some c))
    else none
  | .stretch start stop new =>
    if start ≤ stop ∧ stop ≤ items.length then
      some (items.take start ++ new.map some ++ items.drop stop)
    else none

/-- A slot after a change, if the change suits its shape. -/
def change? : Slot α → Change α → Option (Slot α)
  | .required _, .child (some new) => some (.required new)
  | .optional _, .child new => some (.optional new)
  | slot, ch => slot.items?.bind fun items => (changeItems? items ch).map slot.setItems

theorem changeItems?_map (f : α → β) (items : List (Option α)) (ch : Change α) :
    changeItems? (items.map (Option.map f)) (ch.map f) =
      (changeItems? items ch).map (List.map (Option.map f)) := by
  cases ch with
  | child new => rfl
  | item index new =>
    simp only [Change.map, changeItems?, List.length_map]
    split
    · cases new <;> simp [List.eraseIdx_map, List.map_set]
    · rfl
  | stretch start stop new =>
    simp only [Change.map, changeItems?, List.length_map]
    split
    · simp [List.map_take, List.map_drop]
    · rfl

theorem change?_eq_bind {slot : Slot α} {items : List (Option α)} (h : slot.items? = some items)
    (ch : Change α) : slot.change? ch = (changeItems? items ch).map slot.setItems := by
  cases slot <;> cases h <;> simp [change?, items?]

theorem change?_map (f : α → β) (slot : Slot α) (ch : Change α) :
    (slot.map f).change? (ch.map f) = (slot.change? ch).map (Slot.map f) := by
  cases hi : slot.items? with
  | none =>
    cases slot with
    | required c =>
      cases ch with
      | child new => cases new <;> rfl
      | item _ _ | stretch _ _ _ => rfl
    | optional c => cases ch <;> rfl
    | list cs | holey cs => cases hi
  | some items =>
    have hmap : (slot.map f).items? = some (items.map (Option.map f)) := by
      rw [items?_map, hi]
      rfl
    rw [change?_eq_bind hi, change?_eq_bind hmap, changeItems?_map, Option.map_map, Option.map_map]
    congr 1
    funext new
    exact (map_setItems f slot new).symm

theorem mem_changeItems? {items new : List (Option α)} {ch : Change α} {c : α}
    (h : changeItems? items ch = some new) (hc : some c ∈ new) :
    some c ∈ items ∨ c ∈ ch.children := by
  cases ch with
  | child _ => cases h
  | item index child =>
    rw [changeItems?, Option.ite_none_right_eq_some] at h
    obtain ⟨-, h⟩ := h
    cases h
    cases child with
    | none => exact .inl (List.mem_of_mem_eraseIdx hc)
    | some child =>
      rcases List.mem_or_eq_of_mem_set hc with hc | hc
      · exact .inl hc
      · exact .inr (by simp [Change.children, Option.some.inj hc])
  | stretch start stop children =>
    rw [changeItems?, Option.ite_none_right_eq_some] at h
    obtain ⟨-, h⟩ := h
    cases h
    simp only [List.mem_append, List.mem_map, Option.some.injEq, exists_eq_right] at hc
    rcases hc with (hc | hc) | hc
    · exact .inl (List.mem_of_mem_take hc)
    · exact .inr hc
    · exact .inl (List.mem_of_mem_drop hc)

theorem change?_spec {slot slot' : Slot α} {ch : Change α} (h : slot.change? ch = some slot') :
    slot.put slot' = slot' ∧ ∀ c ∈ slot'.children, c ∈ slot.children ∨ c ∈ ch.children := by
  cases hi : slot.items? with
  | none =>
    cases slot with
    | required c =>
      cases ch with
      | child new =>
        cases new <;> cases h
        exact ⟨rfl, fun x hx => .inr hx⟩
      | item _ _ | stretch _ _ _ => cases h
    | optional c =>
      cases ch <;> cases h
      exact ⟨rfl, fun x hx => .inr hx⟩
    | list cs | holey cs => cases hi
  | some items =>
    rw [change?_eq_bind hi] at h
    obtain ⟨new, hnew, rfl⟩ := Option.map_eq_some_iff.mp h
    refine ⟨put_setItems _ _, fun c hc => ?_⟩
    rw [mem_children_of_items? hi]
    exact mem_changeItems? hnew (mem_of_mem_children_setItems hi hc)

end Slot

namespace Node

variable {α β : Type}

/-- Two nodes of one shape, with related children in the same slots: the images of one node of
related pairs. -/
def Matches (R : α → β → Prop) (n : Node α) (n' : Node β) : Prop :=
  ∃ m : Node (α × β), m.map Prod.fst = n ∧ m.map Prod.snd = n' ∧ ∀ e ∈ m.children, R e.1 e.2

namespace Matches

variable {R R' : α → β → Prop} {n : Node α} {n' : Node β}

theorem mono (h : n.Matches R n') (hR : ∀ {a b}, R a b → R' a b) : n.Matches R' n' := by
  obtain ⟨m, hn, hn', hm⟩ := h
  exact ⟨m, hn, hn', fun e he => hR (hm e he)⟩

theorem refl {R : α → α → Prop} {n : Node α} (h : ∀ c ∈ n.children, R c c) : n.Matches R n := by
  refine ⟨n.map fun c => (c, c), ?_, ?_, fun e he => ?_⟩
  · rw [map_map]
    exact n.map_id
  · rw [map_map]
    exact n.map_id
  · rw [children_map] at he
    obtain ⟨c, hc, rfl⟩ := List.mem_map.mp he
    exact h c hc

theorem fields_eq (h : n.Matches R n') : n'.fields = n.fields := by
  obtain ⟨m, rfl, rfl, -⟩ := h
  simp [fields, slots_map]

theorem slot?_eq (h : n.Matches R n') (f : Field) : ∃ slot : Option (Slot (α × β)),
    n.slot? f = slot.map (Slot.map Prod.fst) ∧ n'.slot? f = slot.map (Slot.map Prod.snd) ∧
      ∀ s ∈ slot, ∀ e ∈ s.children, R e.1 e.2 := by
  obtain ⟨m, rfl, rfl, hm⟩ := h
  refine ⟨m.slot? f, slot?_map _ _ _, slot?_map _ _ _, fun s hs e he => hm e ?_⟩
  exact mem_children_of_slot? hs he

theorem items?_eq (h : n.Matches R n') (f : Field) : ∃ items : Option (List (Option (α × β))),
    (n.slot? f).bind Slot.items? = items.map (List.map (Option.map Prod.fst)) ∧
      (n'.slot? f).bind Slot.items? = items.map (List.map (Option.map Prod.snd)) ∧
      ∀ is ∈ items, ∀ e, some e ∈ is → R e.1 e.2 := by
  obtain ⟨slot, hn, hn', hs⟩ := h.slot?_eq f
  refine ⟨slot.bind Slot.items?, ?_, ?_, fun is his e he => ?_⟩
  · rw [hn]
    cases slot with
    | none => rfl
    | some slot => exact Slot.items?_map _ slot
  · rw [hn']
    cases slot with
    | none => rfl
    | some slot => exact Slot.items?_map _ slot
  · obtain ⟨slot, rfl, his⟩ := Option.bind_eq_some_iff.mp his
    exact hs slot rfl e ((Slot.mem_children_of_items? his).mpr he)

/-- The same change of the same slot keeps two nodes alike. -/
theorem change (h : n.Matches R n') {f : Field} {ch : Slot.Change (α × β)}
    (hch : ∀ e ∈ ch.children, R e.1 e.2) {slot slot₁ : Slot α} {slot' slot₁' : Slot β}
    (hs : n.slot? f = some slot) (hc : slot.change? (ch.map Prod.fst) = some slot₁)
    (hs' : n'.slot? f = some slot') (hc' : slot'.change? (ch.map Prod.snd) = some slot₁') :
    (n.setSlot f slot₁).Matches R (n'.setSlot f slot₁') := by
  obtain ⟨m, rfl, rfl, hm⟩ := h
  rw [slot?_map, Option.map_eq_some_iff] at hs hs'
  obtain ⟨ms, hms, rfl⟩ := hs
  obtain ⟨ms', hms', rfl⟩ := hs'
  obtain rfl : ms = ms' := Option.some.inj (hms.symm.trans hms')
  rw [Slot.change?_map, Option.map_eq_some_iff] at hc hc'
  obtain ⟨new, hnew, rfl⟩ := hc
  obtain ⟨new', hnew', rfl⟩ := hc'
  obtain rfl : new = new' := Option.some.inj (hnew.symm.trans hnew')
  obtain ⟨hput, hchildren⟩ := Slot.change?_spec hnew
  refine ⟨m.setSlot f new, map_setSlot _ _ _ _, map_setSlot _ _ _ _, fun e he => ?_⟩
  rcases mem_children_setSlot hms hput he with he | he
  · exact hm e he
  · rcases hchildren e he with he | he
    · exact hm e (mem_children_of_slot? hms he)
    · exact hch e he

end Matches

end Node

namespace Tree

variable {t t' : Tree} {owner : NodeId} {f : Field} {b : Bool}

/-- A tree in which one node, that may be edited, is another and all else is as before. -/
structure Sets (t : Tree) (owner : NodeId) (n : Node NodeId) (t' : Tree) : Prop where
  writable : ¬ t.isFrozen owner
  size : t'.size = t.size
  root : t'.root = t.root
  flags : ∀ id, t'.flags id = t.flags id
  node : ∀ id, t'.node id = if id = owner then n else t.node id

theorem sets_setNode {n : Node NodeId} (hf : ¬ t.isFrozen owner) (hsize : owner < t.size) :
    t.Sets owner n (t.setNode owner n) :=
  ⟨hf, size_setNode _ _ _, rfl, flags_setNode _ _ _, node_setNode hsize n⟩

theorem sets_self (hf : ¬ t.isFrozen owner) : t.Sets owner (t.node owner) t := by
  refine ⟨hf, rfl, rfl, fun _ => rfl, fun id => ?_⟩
  split
  · rename_i hid
    rw [hid]
  · rfl

def Changes (t : Tree) (owner : NodeId) (f : Field) (ch : Slot.Change NodeId) (t' : Tree) : Prop :=
  ∃ slot slot', t.slot? owner f = some slot ∧ slot.change? ch = some slot' ∧
    t.Sets owner ((t.node owner).setSlot f slot') t'

/-- An assignment that is left out where nothing would change is one all the same. -/
theorem changes_assign {same : Prop} [Decidable same] {slot slot' : Slot NodeId}
    {ch : Slot.Change NodeId} (hf : ¬ t.isFrozen owner) (hs : t.slot? owner f = some slot)
    (hc : slot.change? ch = some slot') (hsame : same → slot' = slot)
    (h : (if same then (false, t) else (true, t.setSlot owner f slot')) = (b, t')) :
    t.Changes owner f ch t' := by
  refine ⟨slot, slot', hs, hc, ?_⟩
  split at h <;> cases h
  · rename_i hs'
    rw [hsame hs', Node.setSlot_self hs]
    exact sets_self hf
  · exact sets_setNode hf (lt_size_of_slot? hs)

theorem writeField_changes {new : Option NodeId} (hf : ¬ t.isFrozen owner)
    (h : t.writeField owner f new = .ok (b, t')) : t.Changes owner f (.child new) t' := by
  unfold writeField at h
  split at h
  · cases h
  · cases h
  · refine changes_assign hf ‹_› rfl (fun hsame => ?_) (Except.ok.inj h)
    rw [hsame]
  · refine changes_assign hf ‹_› rfl (fun hsame => ?_) (Except.ok.inj h)
    rw [hsame]
  · cases h
  · cases h

theorem writeItem_changes {index : Nat} {new : Option NodeId} (hf : ¬ t.isFrozen owner)
    (h : t.writeItem owner f index new = .ok (b, t')) : t.Changes owner f (.item index new) t' := by
  unfold writeItem at h
  split at h
  · cases h
  · rename_i slot hs
    split at h
    · cases h
    · rename_i items hi
      split at h
      · cases h
      · rename_i old hold
        cases h
        refine ⟨slot, _, hs, ?_, sets_setNode hf (lt_size_of_slot? hs)⟩
        rw [Slot.change?_eq_bind hi, Slot.changeItems?, if_pos (List.getElem?_eq_some_iff.mp hold).1]
        rfl
      · rename_i old id hold
        obtain ⟨hlt, hget⟩ := List.getElem?_eq_some_iff.mp hold
        refine changes_assign hf hs ?_ (fun hsame => ?_) (Except.ok.inj h)
        · rw [Slot.change?_eq_bind hi, Slot.changeItems?, if_pos hlt]
          rfl
        · rw [← hsame, ← hget, List.set_getElem_self]
          exact Slot.setItems_self hi

theorem write_field_changes {new : Option NodeId}
    (h : t.write (.node owner) (.field f) new = .ok (b, t')) : t.Changes owner f (.child new) t' := by
  obtain ⟨hf, h⟩ := of_checkWritable h
  exact writeField_changes hf h

theorem write_item_changes {i : Nat} {new : Option NodeId}
    (h : t.write (.list owner f) (.index i) new = .ok (b, t')) :
    t.Changes owner f (.item i new) t' := by
  obtain ⟨hf, h⟩ := of_checkWritable h
  exact writeItem_changes hf h

theorem write_changes {parent : Ref} {key : Key} {new : Option NodeId}
    (h : t.write parent key new = .ok (b, t')) :
    (∃ owner f, parent = .node owner ∧ key = .field f ∧ t.Changes owner f (.child new) t') ∨
      ∃ owner f i, parent = .list owner f ∧ key = .index i ∧ t.Changes owner f (.item i new) t' := by
  cases parent <;> cases key
  case node.field => exact .inl ⟨_, _, rfl, rfl, write_field_changes h⟩
  case list.index => exact .inr ⟨_, _, _, rfl, rfl, write_item_changes h⟩
  all_goals cases h

theorem splice_changes {list : Ref} {start stop : Nat} {new : List NodeId}
    (h : t.splice list start stop new = .ok t') :
    ∃ owner f, list = .list owner f ∧ t.Changes owner f (.stretch start stop new) t' := by
  unfold splice at h
  split at h
  · obtain ⟨hf, h⟩ := of_checkWritable h
    refine ⟨_, _, rfl, ?_⟩
    split at h
    · cases h
    · rename_i slot hs
      split at h
      · cases h
      · rename_i items hi
        split at h
        · cases h
        · rename_i hbounds
          simp only [Bool.or_eq_true, decide_eq_true_eq, not_or, not_lt] at hbounds
          have hchange : slot.change? (.stretch start stop new) =
              some (slot.setItems (items.take start ++ new.map some ++ items.drop stop)) := by
            rw [Slot.change?_eq_bind hi, Slot.changeItems?, if_pos hbounds]
            rfl
          refine ⟨slot, _, hs, hchange, ?_⟩
          split at h <;> cases h
          · rename_i hsame
            simp only [Bool.and_eq_true, decide_eq_true_eq, List.isEmpty_iff] at hsame
            obtain ⟨rfl, rfl⟩ := hsame
            rw [List.map_nil, List.append_nil, List.take_append_drop, Slot.setItems_self hi,
              Node.setSlot_self hs]
            exact sets_self hf
          · exact sets_setNode hf (lt_size_of_slot? hs)
  · cases h

end Tree

end ScriptFold

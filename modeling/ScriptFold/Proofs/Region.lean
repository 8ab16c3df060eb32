import ScriptFold.Proofs.History
import ScriptFold.Proofs.Shape

/-!
Edits that stay in one part of the program. The part is a slot with what is below it, and, where the
slot is a position in a list, the later positions with what is below them. Paths that do not go
through that part are true before such an edit exactly if they are true after it.
-/

namespace ScriptFold

namespace Node

variable {n : Node NodeId}

/-- A node is changed in one slot, and where that is a position in a list, not before the position.
The slot is told by what it is read from, and its key. -/
inductive Assigned (n : Node NodeId) : Ref → Key → Node NodeId → Prop
  | field {owner f} (slot : Slot NodeId) : Assigned n (.node owner) (.field f) (n.setSlot f slot)
  | item {owner f i slot slot' items items'} : n.slot? f = some slot → slot.items? = some items →
    slot.put slot' = slot' → slot'.items? = some items' → items'.take i = items.take i →
    Assigned n (.list owner f) (.index i) (n.setSlot f slot')

theorem Assigned.fields_eq {n' : Node NodeId} {r : Ref} {key : Key} (h : n.Assigned r key n') :
    n'.fields = n.fields := by
  cases h with
  | field | item => exact fields_setSlot ..

end Node

inductive Key.Reaches : Key → Key → Prop
  | self (key : Key) : Reaches key key
  | later {i j : Nat} : i ≤ j → Reaches (.index i) (.index j)

theorem Key.Reaches.exists_index {i : Nat} {key : Key} (h : Reaches (.index i) key) :
    ∃ j, key = .index j ∧ i ≤ j := by
  cases h with
  | self => exact ⟨i, rfl, le_rfl⟩
  | later hle => exact ⟨_, rfl, hle⟩

namespace Path

def keys : Path → List Key
  | .root _ => []
  | .child parent key _ => parent.keys ++ [key]

/-- A path goes through a slot, or through a later one of the same list. -/
def Through (parent : Path) (key : Key) (q : Path) : Prop :=
  ∃ key' value, key.Reaches key' ∧ (Path.child parent key' value).Above q

/-- What an edit at a path may touch. At the start of all paths that is everything. -/
def Region : Path → Path → Prop
  | .root _, _ => True
  | .child parent key _, q => Through parent key q

variable {t t' : Tree} {p q r : Path} {key : Key} {id : NodeId}

namespace Above

theorem not_child {v : Ref} (h : q.Above p) : ¬ (Path.child p key v).Above q := fun h' => by
  have hle : p.depth + 1 ≤ q.depth := h'.depth_le
  have hle' := h.depth_le
  omega

theorem total (h : p.Above r) (h' : q.Above r) : p.Above q ∨ q.Above p := by
  induction h with
  | refl => exact .inr h'
  | child h ih =>
    cases h' with
    | refl => exact .inl (.child h)
    | child h' => exact ih h'

theorem live (h : p.Above q) (hq : q.Live t) : p.Live t := by
  induction h with
  | refl => exact hq
  | child _ ih => exact ih hq.1

end Above

theorem Live.eq_of_keys (hp : p.Live t) (hq : q.Live t) (h : p.keys = q.keys) : p = q := by
  induction p generalizing q with
  | root value =>
    cases q with
    | root value' => exact congrArg root (hp.trans hq.symm)
    | child => simp [keys] at h
  | child parent key value ih =>
    cases q with
    | root => simp [keys] at h
    | child parent' key' value' =>
      obtain ⟨hkeys, hkey⟩ := List.append_inj' h rfl
      obtain rfl := ih hp.1 hq.1 hkeys
      obtain rfl : key = key' := List.singleton_inj.mp hkey
      exact congrArg (Path.child parent key) (hp.2.trans hq.2.symm)

theorem Through.trans (h : p.Through key q) (h' : q.Above r) : p.Through key r := by
  obtain ⟨key', value, hkey, h⟩ := h
  exact ⟨key', value, hkey, h.trans h'⟩

theorem not_through (h : q.Above p) : ¬ p.Through key q := by
  rintro ⟨key', value, -, h'⟩
  exact h.not_child h'

/-- A path is strictly below another. -/
def Inside (p q : Path) : Prop :=
  ∃ key value, (child p key value).Above q

theorem not_inside (p : Path) : ¬ p.Inside p := by
  rintro ⟨key, value, h⟩
  exact Above.refl.not_child h

theorem Above.eq_or_inside (h : p.Above q) : q = p ∨ p.Inside q := by
  induction h with
  | refl => exact .inl rfl
  | @child q key v _ ih =>
    rcases ih with rfl | ⟨key', v', h⟩
    · exact .inr ⟨key, v, .refl⟩
    · exact .inr ⟨key', v', .child h⟩

theorem Inside.region (h : p.Inside q) : p.Region q := by
  obtain ⟨key, value, h⟩ := h
  cases p with
  | root => trivial
  | child parent key' value' => exact ⟨key', value', .self key', h.of_child⟩

theorem key_eq_of_above {key' : Key} {v v' : Ref} (h : (Path.child p key v).Above q)
    (h' : (Path.child p key' v').Above q) : key = key' := by
  have same : ∀ {k k' : Key} {w w' : Ref}, (Path.child p k w).Above (.child p k' w') → k = k' := by
    intro k k' w w' h
    cases h with
    | refl => rfl
    | child h => exact absurd h (Above.refl.not_child)
  rcases h.total h' with h | h
  · exact same h
  · exact (same h).symm

end Path

namespace Tree

variable {t t' : Tree} {id : NodeId}

theorem read_of_assigned {r r' : Ref} {key : Key} (h : (t.node id).Assigned r key (t'.node id))
    (hr : r.owner? = some id) (hr' : r'.owner? = some id) (key' : Key) :
    t'.read r' key' = t.read r' key' ∨ r' = r ∧ key.Reaches key' ∨
      ∃ f, r = .node id ∧ key = .field f ∧ r' = .list id f := by
  have other : ∀ {f g slot}, t'.node id = (t.node id).setSlot f slot → g ≠ f →
      t'.slot? id g = t.slot? id g := fun hn hg =>
    (congrArg (Node.slot? · _) hn).trans (Node.slot?_setSlot_of_ne hg _)
  generalize hn : t'.node id = n at h
  -- a slot of the owner that is read is in another field, or is reached by the key
  cases h with
  | @field owner f slot =>
    obtain rfl : owner = id := Option.some.inj hr
    cases r' with
    | null => cases hr'
    | node y =>
      obtain rfl : y = owner := Option.some.inj hr'
      cases key' with
      | index i => exact .inl rfl
      | field g =>
        by_cases hg : g = f
        · exact .inr (.inl ⟨rfl, hg ▸ .self _⟩)
        · exact .inl (read_congr_slot (other hn hg)).1
    | list y g =>
      obtain rfl : y = owner := Option.some.inj hr'
      by_cases hg : g = f
      · exact .inr (.inr ⟨f, rfl, rfl, by rw [hg]⟩)
      · cases key' with
        | field _ => exact .inl rfl
        | index i => exact .inl ((read_congr_slot (other hn hg)).2 i)
  | @item owner f i slot slot' items items' hs hi hput hi' htake =>
    obtain rfl : owner = id := Option.some.inj hr
    have hs' : t'.slot? owner f = some slot' :=
      (congrArg (Node.slot? · f) hn).trans (Node.slot?_setSlot hs slot' hput)
    cases r' with
    | null => cases hr'
    | node y =>
      obtain rfl : y = owner := Option.some.inj hr'
      cases key' with
      | index j => exact .inl rfl
      | field g =>
        by_cases hg : g = f
        · subst hg
          exact .inl ((read_field_of_items hs' hi').trans (read_field_of_items hs hi).symm)
        · exact .inl (read_congr_slot (other hn hg)).1
    | list y g =>
      obtain rfl : y = owner := Option.some.inj hr'
      by_cases hg : g = f
      · subst hg
        cases key' with
        | field _ => exact .inl rfl
        | index j =>
          by_cases hj : i ≤ j
          · exact .inr (.inl ⟨rfl, .later hj⟩)
          · left
            rw [read_index_of_items hs' hi', read_index_of_items hs hi]
            have hget : (items'.take i)[j]? = (items.take i)[j]? := by rw [htake]
            rw [List.getElem?_take_of_lt (by omega), List.getElem?_take_of_lt (by omega)] at hget
            rw [hget]
      · cases key' with
        | field _ => exact .inl rfl
        | index j => exact .inl ((read_congr_slot (other hn hg)).2 j)

end Tree

/-- A tree becomes another by an edit that stays in a slot, what is below it and what comes later in
its list. A node of the program that changes is found there, or is the owner of the slot and changes
in it only. -/
structure Tree.ConfinedTo (parent : Path) (key : Key) (t t' : Tree) : Prop where
  root : t'.root = t.root
  node : ∀ {q : Path} {id}, q.Live t → q.node? = some id → t'.node id ≠ t.node id →
    (∃ r : Path, parent.Through key r ∧ r.Live t ∧ r.node? = some id) ∨
      parent.value.owner? = some id ∧ (t.node id).Assigned parent.value key (t'.node id)

namespace Tree

variable {t t' : Tree} {parent p q : Path} {key : Key} {id : NodeId}

namespace ConfinedTo

/-- A node on a path that does not go through the slot is as it was, or is the owner of the slot. -/
theorem node_cases (h : ConfinedTo parent key t t') (hb : t.Becomes t') (ht : t.Shaped)
    (hparent : parent.Live t) (hq : q.Live t) (hid : q.node? = some id)
    (hout : ¬ parent.Through key q) : t'.node id = t.node id ∨ ¬ t.isFrozen id ∧ q.Above parent ∧
      parent.value.owner? = some id ∧ (t.node id).Assigned parent.value key (t'.node id) := by
  by_cases hn : t'.node id = t.node id
  · exact .inl hn
  · have hf : ¬ t.isFrozen id := fun hf => hn (hb.frozen hf)
    rcases h.node hq hid hn with ⟨r, hr, hlive, hrid⟩ | ⟨howner, hassigned⟩
    · obtain rfl := ht.unshared hq hlive hid hrid hf
      exact absurd hr hout
    · obtain ⟨o, habove, ho, hnode, -⟩ := hparent.exists_owner howner
      obtain rfl := ht.unshared hq ho hid hnode hf
      exact .inr ⟨hf, habove, howner, hassigned⟩

theorem read_eq (h : ConfinedTo parent key t t') (hb : t.Becomes t') (ht : t.Shaped)
    (hparent : parent.Live t) (hq : q.Live t) {key' : Key} {v : Ref}
    (hout : ¬ parent.Through key (.child q key' v)) :
    t'.read q.value key' = t.read q.value key' := by
  cases hid : q.value.owner? with
  | none => exact read_of_null (Ref.eq_null hid) key'
  | some id =>
    obtain ⟨o, habove, ho, hnode, hqo⟩ := hq.exists_owner hid
    have hout' : ¬ parent.Through key o := fun ho => hout (ho.trans (.child habove))
    rcases h.node_cases hb ht hparent ho hnode hout' with hn | ⟨hf, -, howner, hassigned⟩
    · exact read_congr hid hn key'
    · rcases read_of_assigned hassigned howner hid key' with hread | ⟨hv, hkey⟩ | ⟨f, hv, rfl, hlist⟩
      · exact hread
      · obtain rfl := ht.eq_of_value hf hq hparent hid hv
        exact absurd ⟨key', v, hkey, .refl⟩ hout
      · -- the list is what the slot holds
        rcases hqo with rfl | ⟨g, rfl⟩
        · rw [Path.value_eq_node hnode] at hlist
          cases hlist
        · cases hlist
          have hparentid : parent.node? = some id := by
            rw [Path.node?, hv]
            rfl
          obtain rfl := ht.unshared ho hparent hnode hparentid hf
          exact absurd ⟨.field f, _, .self _, .child .refl⟩ hout

/-- Outside of the slot the same paths are true. -/
theorem live_iff (h : ConfinedTo parent key t t') (hb : t.Becomes t') (ht : t.Shaped)
    (hparent : parent.Live t) (hout : ¬ parent.Through key q) : q.Live t' ↔ q.Live t := by
  induction q with
  | root value =>
    change value = .node t'.root ↔ value = .node t.root
    rw [h.root]
  | child q key' value ih =>
    have hout' : ¬ parent.Through key q := fun hq => hout (hq.trans (.child .refl))
    constructor
    · rintro ⟨hq, hvalue⟩
      have hq := (ih hout').mp hq
      exact ⟨hq, hvalue.trans (h.read_eq hb ht hparent hq hout)⟩
    · rintro ⟨hq, hvalue⟩
      exact ⟨(ih hout').mpr hq, hvalue.trans (h.read_eq hb ht hparent hq hout).symm⟩

end ConfinedTo

theorem Grows.live_iff (h : t.Grows t') (ht : t.Shaped) : q.Live t' ↔ q.Live t := by
  induction q with
  | root value =>
    change value = .node t'.root ↔ value = .node t.root
    rw [h.root]
  | child q key value ih =>
    have hread : q.Live t → t'.read q.value key = t.read q.value key := fun hq => by
      cases hid : q.value.owner? with
      | none => exact read_of_null (Ref.eq_null hid) key
      | some id => exact read_congr hid (h.node (ht.lt_size hq hid)) key
    constructor
    · rintro ⟨hq, hvalue⟩
      have hq := ih.mp hq
      exact ⟨hq, hvalue.trans (hread hq)⟩
    · rintro ⟨hq, hvalue⟩
      exact ⟨ih.mpr hq, hvalue.trans (hread hq).symm⟩

theorem ConfinedTo.refl (parent : Path) (key : Key) (t : Tree) : ConfinedTo parent key t t :=
  ⟨rfl, fun _ _ hne => absurd rfl hne⟩

variable {owner : NodeId} {f : Field} {b : Bool}

theorem ConfinedTo.setSlot {slot : Slot NodeId} (howner : parent.value.owner? = some owner)
    (h : (t.node owner).Assigned parent.value key ((t.node owner).setSlot f slot)) :
    ConfinedTo parent key t (t.setSlot owner f slot) where
  root := rfl
  node {q x} _ _ hne := by
    obtain rfl : x = owner := of_not_not fun hx => hne (node_setNode_of_ne hx _)
    refine .inr ⟨howner, ?_⟩
    by_cases hsize : x < t.size
    · have hnode : (t.setSlot x f slot).node x = (t.node x).setSlot f slot := by
        unfold Tree.setSlot
        rw [node_setNode hsize, if_pos rfl]
      rwa [hnode]
    · refine absurd ?_ hne
      rw [node_of_size_le (Nat.le_of_not_lt hsize), node_of_size_le]
      exact (size_setNode ..).trans_le (Nat.le_of_not_lt hsize)

theorem ConfinedTo.setItems {slot : Slot NodeId} {i : Nat} {items items' : List (Option NodeId)}
    (hv : parent.value = .list owner f) (hs : t.slot? owner f = some slot)
    (hi : slot.items? = some items) (hnew : ∀ e ∈ items', e ∈ items ∨ e.isSome)
    (htake : items'.take i = items.take i) :
    ConfinedTo parent (.index i) t (t.setSlot owner f (slot.setItems items')) := by
  refine .setSlot (by rw [hv]; rfl) ?_
  rw [hv]
  exact .item hs hi (slot.put_setItems items') (Slot.items?_setItems hi hnew) htake

/-- An assignment to a slot stays in it, or moves what comes later in its list. -/
theorem ConfinedTo.of_write {new : Option NodeId} (h : t.write parent.value key new = .ok (b, t')) :
    ConfinedTo parent key t t' := by
  unfold write at h
  split at h
  · rename_i owner f hv
    obtain ⟨-, h⟩ := of_checkWritable h
    have assigned : ∀ {same : Prop} [Decidable same] {slot : Slot NodeId},
        (if same then (false, t) else (true, t.setSlot owner f slot)) = (b, t') →
          ConfinedTo parent (.field f) t t' := by
      intro same _ slot h
      split at h
      · cases h
        exact .refl ..
      · cases h
        exact .setSlot (by rw [hv]; rfl) (hv ▸ .field slot)
    unfold writeField at h
    split at h
    · cases h
    · cases h
    · exact assigned (Except.ok.inj h)
    · exact assigned (Except.ok.inj h)
    · cases h
    · cases h
  · rename_i owner f i hv
    obtain ⟨-, h⟩ := of_checkWritable h
    unfold writeItem at h
    split at h
    · cases h
    · rename_i slot hs
      split at h
      · cases h
      · rename_i items hi
        split at h
        · cases h
        · cases h
          refine .setItems hv hs hi (fun e he => .inl (List.mem_of_mem_eraseIdx he)) ?_
          exact List.take_eraseIdx_eq_take_of_le _ _ _ le_rfl
        · rename_i new _
          have h := Except.ok.inj h
          split at h
          · cases h
            exact .refl ..
          · cases h
            refine .setItems hv hs hi (fun e he => ?_) (List.take_set_of_le le_rfl)
            rcases List.mem_or_eq_of_mem_set he with he | rfl
            · exact .inl he
            · exact .inr rfl
  all_goals cases h

theorem ConfinedTo.of_splice {i start stop : Nat} {new : List NodeId} (hstart : i ≤ start)
    (h : t.splice parent.value start stop new = .ok t') : ConfinedTo parent (.index i) t t' := by
  unfold splice at h
  split at h
  · rename_i owner f hv
    obtain ⟨-, h⟩ := of_checkWritable h
    split at h
    · cases h
    · rename_i slot hs
      split at h
      · cases h
      · rename_i items hi
        split at h
        · cases h
        · rename_i hrange
          split at h
          · cases h
            exact .refl ..
          · cases h
            refine .setItems hv hs hi (fun e he => ?_) ?_
            · rw [List.append_assoc, List.mem_append, List.mem_append] at he
              rcases he with he | he | he
              · exact .inl (List.mem_of_mem_take he)
              · obtain ⟨c, -, rfl⟩ := List.mem_map.mp he
                exact .inr rfl
              · exact .inl (List.mem_of_mem_drop he)
            · have hle : i ≤ (items.take start).length := by
                simp only [Bool.or_eq_true, decide_eq_true_eq] at hrange
                rw [List.length_take]
                omega
              rw [List.append_assoc, List.take_append_of_le_length hle, List.take_take,
                Nat.min_eq_left hstart]
  · cases h

theorem ConfinedTo.of_truncate {i length : Nat} (hlength : i ≤ length)
    (h : t.truncate parent.value length = .ok (b, t')) : ConfinedTo parent (.index i) t t' := by
  unfold truncate at h
  split at h
  · cases h
  · split at h
    · cases h
      exact .refl ..
    · obtain ⟨t₁, hs, heq⟩ := exists_of_map h
      cases heq
      exact .of_splice hlength hs

end Tree

end ScriptFold

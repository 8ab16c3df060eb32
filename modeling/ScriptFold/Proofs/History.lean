import ScriptFold.Proofs.InPlace

/-!
Histories of a tree. Whatever is asked of a tree, and however often it refuses, its frozen nodes stay
as they are, it never shrinks, and its revision tells whether it was edited: two moments of one
revision differ only by nodes that were added in between.
-/

namespace ScriptFold

/-- What can be asked of a tree. -/
inductive Operation where
  | alloc (node : Node NodeId) (flags : Flags)
  | write (parent : Ref) (key : Key) (new : Option NodeId)
  | splice (list : Ref) (start stop : Nat) (new : List NodeId)
  | truncate (list : Ref) (length : Nat)
  | modifyNode (id : NodeId) (change : Node NodeId → Node NodeId)
  | setRoot (root : NodeId)
  | replace (path : Path) (id : NodeId)
  | remove (path : Path)

def Operation.apply (t : Tree) : Operation → Except TreeError Tree
  | .alloc node flags => .ok (t.alloc node flags).2
  | .write parent key new => Prod.snd <$> t.write parent key new
  | .splice list start stop new => t.splice list start stop new
  | .truncate list length => Prod.snd <$> t.truncate list length
  | .modifyNode id change => t.modifyNode id change
  | .setRoot root => .ok (t.setRoot root)
  | .replace path id => Prod.snd <$> t.replace path id
  | .remove path => t.remove path

/-- An operation step by step. -/
def Operation.run : Operation → EditM Unit
  | .alloc node flags => discard (EditM.alloc node flags)
  | .write parent key new => discard (EditM.write parent key new)
  | .splice list start stop new => EditM.splice list start stop new
  | .truncate list length => discard (EditM.truncate list length)
  | .modifyNode id change => EditM.modifyNode id change
  | .setRoot root => EditM.setRoot root
  | .replace path id => discard (EditM.replace path id)
  | .remove path => EditM.remove path

theorem EditM.discard_run {α : Type} {m : EditM α} {t : Tree} {r : Except TreeError (α × Tree)}
    (h : m t = t.outcome r) : (discard m : EditM Unit) t = t.outcome (r.map fun made => ((), made.2)) := by
  change EStateM.map _ m t = _
  rw [EStateM.map, h]
  cases r <;> rfl

/-- Whatever an operation does step by step, it makes the tree that it is said to make, or it is refused
before it has changed anything. -/
theorem Operation.run_eq (op : Operation) (t : Tree) :
    op.run t = t.outcome ((op.apply t).map fun t' => ((), t')) := by
  have snd : ∀ {α : Type} (r : Except TreeError (α × Tree)),
      ((Prod.snd <$> r).map fun t' => ((), t')) = r.map fun made => ((), made.2) := fun r => by
    cases r <;> rfl
  cases op with
  | alloc => rfl
  | setRoot root => exact EditM.setRoot_run t root
  | splice => exact EditM.splice_run ..
  | modifyNode => exact EditM.modifyNode_run ..
  | remove => exact EditM.remove_run ..
  | write => exact (EditM.discard_run (EditM.write_run ..)).trans (congrArg t.outcome (snd _).symm)
  | truncate =>
    exact (EditM.discard_run (EditM.truncate_run ..)).trans (congrArg t.outcome (snd _).symm)
  | replace =>
    exact (EditM.discard_run (EditM.replace_run ..)).trans (congrArg t.outcome (snd _).symm)

namespace Tree

/-- The tree that an operation leaves, refused or not. -/
def perform (t : Tree) (op : Operation) : Tree :=
  match op.run t with
  | .ok _ t' => t'
  | .error _ t' => t'

def performAll (t : Tree) (ops : List Operation) : Tree :=
  ops.foldl perform t

theorem performAll_append (t : Tree) (ops more : List Operation) :
    t.performAll (ops ++ more) = (t.performAll ops).performAll more :=
  List.foldl_append

theorem node_setNode_of_ne {t : Tree} {id x : NodeId} (h : x ≠ id) (n : Node NodeId) :
    (t.setNode id n).node x = t.node x := by
  simp [setNode, Tree.node, Array.getElem?_modify, Ne.symm h]

theorem lt_size_of_frozen {t : Tree} {id : NodeId} (h : t.isFrozen id) : id < t.size := by
  by_contra hid
  unfold isFrozen at h
  rw [flags_of_size_le (Nat.le_of_not_lt hid)] at h
  cases h

/-- One tree is what has become of another. -/
structure Becomes (t t' : Tree) : Prop where
  size : t.size ≤ t'.size
  flags : ∀ {id}, id < t.size → t'.flags id = t.flags id
  frozen : ∀ {id}, t.isFrozen id → t'.node id = t.node id
  revision : t.revision ≤ t'.revision
  unedited : t'.revision = t.revision → t.Grows t'

namespace Becomes

variable {t t' t'' : Tree} {id : NodeId}

theorem isFrozen (h : t.Becomes t') (hid : id < t.size) : t'.isFrozen id = t.isFrozen id := by
  unfold Tree.isFrozen
  rw [h.flags hid]

theorem of_grows (h : t.Grows t') : t.Becomes t' where
  size := h.size
  flags := h.flags
  frozen hf := h.node (lt_size_of_frozen hf)
  revision := h.revision.ge
  unedited _ := h

theorem refl (t : Tree) : t.Becomes t :=
  of_grows (.refl t)

theorem trans (h : t.Becomes t') (h' : t'.Becomes t'') : t.Becomes t'' where
  size := h.size.trans h'.size
  flags hid := (h'.flags (hid.trans_le h.size)).trans (h.flags hid)
  frozen hf := by
    have hf' : t'.isFrozen _ := (h.isFrozen (lt_size_of_frozen hf)).trans hf
    exact (h'.frozen hf').trans (h.frozen hf)
  revision := h.revision.trans h'.revision
  unedited heq := by
    -- the revision in between lies between two equal ones
    have hle := h.revision
    have hle' := h'.revision
    exact (h.unedited (by omega)).trans (h'.unedited (by omega))

theorem setNode (h : ¬ t.isFrozen id) (n : Node NodeId) : t.Becomes (t.setNode id n) where
  size := (size_setNode t id n).ge
  flags _ := flags_setNode t id n _
  frozen hf := node_setNode_of_ne (by rintro rfl; exact h hf) n
  revision := Nat.le_succ _
  unedited heq := absurd heq (Nat.succ_ne_self t.revision)

theorem setRoot (t : Tree) (root : NodeId) : t.Becomes (t.setRoot root) := by
  unfold Tree.setRoot
  split
  · exact refl t
  · exact ⟨le_rfl, fun _ => rfl, fun _ => rfl, Nat.le_succ _,
      fun heq => absurd heq (Nat.succ_ne_self t.revision)⟩

end Becomes

section Edits

theorem exists_of_bind {α β : Type} {x : Except TreeError α} {g : α → Except TreeError β} {b : β}
    (h : x >>= g = .ok b) : ∃ a, x = .ok a ∧ g a = .ok b := by
  cases x with
  | error e => cases h
  | ok a => exact ⟨a, rfl, h⟩

theorem exists_of_map {α β : Type} {x : Except TreeError α} {g : α → β} {b : β}
    (h : g <$> x = .ok b) : ∃ a, x = .ok a ∧ g a = b := by
  cases x with
  | error e => cases h
  | ok a => exact ⟨a, rfl, Except.ok.inj h⟩

variable {t t' : Tree} {owner id : NodeId} {f : Field} {b : Bool}

theorem of_checkWritable {α : Type} {r : Except TreeError α} {a : α}
    (h : (do t.checkWritable id; r) = .ok a) : ¬ t.isFrozen id ∧ r = .ok a := by
  unfold checkWritable at h
  split at h
  · cases h
  · exact ⟨‹_›, h⟩

theorem becomes_assign {same : Prop} [Decidable same] {slot : Slot NodeId} (hf : ¬ t.isFrozen owner)
    (h : (if same then (false, t) else (true, t.setSlot owner f slot)) = (b, t')) :
    t.Becomes t' := by
  split at h
  · cases h
    exact .refl t
  · cases h
    exact .setNode hf _

theorem writeField_becomes {new : Option NodeId} (hf : ¬ t.isFrozen owner)
    (h : t.writeField owner f new = .ok (b, t')) : t.Becomes t' := by
  unfold writeField at h
  split at h
  · cases h
  · cases h
  · exact becomes_assign hf (Except.ok.inj h)
  · exact becomes_assign hf (Except.ok.inj h)
  · cases h
  · cases h

theorem writeItem_becomes {index : Nat} {new : Option NodeId} (hf : ¬ t.isFrozen owner)
    (h : t.writeItem owner f index new = .ok (b, t')) : t.Becomes t' := by
  unfold writeItem at h
  split at h
  · cases h
  · split at h
    · cases h
    · split at h
      · cases h
      · cases h
        exact .setNode hf _
      · exact becomes_assign hf (Except.ok.inj h)

theorem write_becomes {parent : Ref} {key : Key} {new : Option NodeId}
    (h : t.write parent key new = .ok (b, t')) : t.Becomes t' := by
  unfold write at h
  split at h
  · obtain ⟨hf, h⟩ := of_checkWritable h
    exact writeField_becomes hf h
  · obtain ⟨hf, h⟩ := of_checkWritable h
    exact writeItem_becomes hf h
  all_goals cases h

theorem splice_becomes {list : Ref} {start stop : Nat} {new : List NodeId}
    (h : t.splice list start stop new = .ok t') : t.Becomes t' := by
  unfold splice at h
  split at h
  · obtain ⟨hf, h⟩ := of_checkWritable h
    split at h
    · cases h
    · split at h
      · cases h
      · split at h
        · cases h
        · split at h
          · cases h
            exact .refl t
          · cases h
            exact .setNode hf _
  · cases h

theorem truncate_becomes {list : Ref} {length : Nat}
    (h : t.truncate list length = .ok (b, t')) : t.Becomes t' := by
  unfold truncate at h
  split at h
  · cases h
  · split at h
    · cases h
      exact .refl t
    · obtain ⟨t₁, hs, heq⟩ := exists_of_map h
      cases heq
      exact splice_becomes hs

theorem modifyNode_becomes {change : Node NodeId → Node NodeId}
    (h : t.modifyNode id change = .ok t') : t.Becomes t' := by
  obtain ⟨hf, h⟩ := of_checkWritable h
  cases h
  exact .setNode hf _

theorem replace_becomes {p q : Path} (h : t.replace p id = .ok (q, t')) : t.Becomes t' := by
  unfold replace at h
  split at h
  · cases h
  · obtain ⟨⟨changed, t₁⟩, hw, heq⟩ := exists_of_bind h
    cases heq
    exact write_becomes hw

theorem remove_becomes {p : Path} (h : t.remove p = .ok t') : t.Becomes t' := by
  unfold remove at h
  split at h
  · cases h
  · obtain ⟨⟨changed, t₁⟩, hw, heq⟩ := exists_of_bind h
    cases heq
    exact write_becomes hw

end Edits

variable {t t' : Tree}

theorem apply_becomes {op : Operation} (h : op.apply t = .ok t') : t.Becomes t' := by
  cases op with
  | alloc node flags =>
    cases h
    exact .of_grows (.alloc t node flags)
  | setRoot root =>
    cases h
    exact .setRoot t root
  | splice => exact splice_becomes h
  | modifyNode => exact modifyNode_becomes h
  | remove => exact remove_becomes h
  | write =>
    obtain ⟨⟨b, t₁⟩, hw, rfl⟩ := exists_of_map h
    exact write_becomes hw
  | truncate =>
    obtain ⟨⟨b, t₁⟩, ht, rfl⟩ := exists_of_map h
    exact truncate_becomes ht
  | replace =>
    obtain ⟨⟨q, t₁⟩, hr, rfl⟩ := exists_of_map h
    exact replace_becomes hr

theorem eq_of_refused {op : Operation} {e : TreeError} (h : op.run t = .error e t') : t' = t := by
  rw [op.run_eq] at h
  cases happly : op.apply t with
  | ok t₁ =>
    rw [happly] at h
    cases h
  | error e =>
    rw [happly] at h
    cases h
    rfl

theorem perform_becomes (t : Tree) (op : Operation) : t.Becomes (t.perform op) := by
  rw [perform, op.run_eq]
  cases happly : op.apply t with
  | ok t' => exact apply_becomes happly
  | error e => exact .refl t

theorem performAll_becomes (t : Tree) (ops : List Operation) : t.Becomes (t.performAll ops) := by
  induction ops generalizing t with
  | nil => exact .refl t
  | cons op ops ih => exact (perform_becomes t op).trans (ih (t.perform op))

/-- Between any two moments of a history of operations, successful or refused: the tree does not
shrink, flags stay, frozen nodes stay, a refused operation changes nothing, and the revision grows
unless the root and all nodes of the earlier moment are the same at the later one. -/
theorem history_keeps (t : Tree) (earlier between : List Operation) :
    let now := t.performAll earlier
    let later := t.performAll (earlier ++ between)
    now.size ≤ later.size ∧
      (∀ id < now.size, later.flags id = now.flags id) ∧
      (∀ id, now.isFrozen id → later.node id = now.node id) ∧
      (∀ (op : Operation) e t', op.run now = .error e t' → t' = now) ∧
      now.revision ≤ later.revision ∧
      (later.revision = now.revision →
        later.root = now.root ∧ ∀ id < now.size, later.node id = now.node id) := by
  intro now later
  have h : now.Becomes later := by
    have hlater : later = now.performAll between := performAll_append t earlier between
    rw [hlater]
    exact performAll_becomes now between
  refine ⟨h.size, fun id hid => h.flags hid, fun id hf => h.frozen hf,
    fun op e t' hrun => eq_of_refused hrun, h.revision, fun heq => ?_⟩
  have hgrows := h.unedited heq
  exact ⟨hgrows.root, fun id hid => hgrows.node hid⟩

/-- A frozen literal is made; then it is put into the program, and asked in vain to change. -/
theorem history_keeps_frozen :
    let now := empty.performAll [.alloc (.literal .null) { frozen := true }]
    let later := empty.performAll [.alloc (.literal .null) { frozen := true },
      .splice (.list 0 .body) 0 0 [1], .modifyNode 1 fun _ => .emptyStatement]
    now.isFrozen 1 ∧ later.node 1 = .literal .null ∧ now.revision < later.revision := by
  intro now later
  have hfrozen : now.isFrozen 1 := by decide
  obtain ⟨-, -, hnode, -, hle, heq⟩ := history_keeps empty [.alloc (.literal .null) { frozen := true }]
    [.splice (.list 0 .body) 0 0 [1], .modifyNode 1 fun _ => .emptyStatement]
  refine ⟨hfrozen, hnode 1 hfrozen, Nat.lt_of_le_of_ne hle fun hrevision => ?_⟩
  -- the program is another now, so that the revision cannot be the same
  have hprogram : later.node 0 = now.node 0 := (heq hrevision.symm).2 0 (by decide)
  exact absurd hprogram (by decide)

end Tree

end ScriptFold

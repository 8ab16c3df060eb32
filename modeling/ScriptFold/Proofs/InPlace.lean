import ScriptFold.Proofs.Graph
import ScriptFold.Tree.InPlace

/-!
Edits in place do what the edits of `Tree` say, which make another tree or none. So an edit that fails
has not changed anything by then, and one that only writes what is there already changes nothing and is
not counted.
-/

namespace ScriptFold

/-- What an edit comes to in place: where it makes no tree, all is as it was. -/
def Tree.outcome {α : Type} (t : Tree) : Except TreeError (α × Tree) → EStateM.Result TreeError Tree α
  | .ok (a, t') => .ok a t'
  | .error e => .error e t

namespace EditM

variable {α β : Type} {m : EditM α} {f : α → EditM β} {t t' : Tree} {a : α} {e : TreeError}
  {owner : NodeId} {field : Field} {slot : Slot NodeId}

theorem bind_ok (h : m t = .ok a t') : (m >>= f) t = f a t' := by
  change EStateM.bind m f t = _
  rw [EStateM.bind, h]

theorem bind_error (h : m t = .error e t') : (m >>= f) t = .error e t' := by
  change EStateM.bind m f t = _
  rw [EStateM.bind, h]

theorem writable_frozen (h : t.isFrozen owner) : writable owner t = .error (.frozen owner) t := by
  unfold writable
  rw [bind_ok (m := get) rfl, if_pos h]
  rfl

theorem writable_ok (h : ¬ t.isFrozen owner) : writable owner t = .ok (t.node owner) t := by
  unfold writable
  rw [bind_ok (m := get) rfl, if_neg h]
  rfl

theorem writable_bind {f : Node NodeId → EditM α} {r : Except TreeError (α × Tree)}
    (h : ¬ t.isFrozen owner → f (t.node owner) t = t.outcome r) :
    (writable owner >>= f) t = t.outcome (do t.checkWritable owner; r) := by
  unfold Tree.checkWritable
  by_cases hf : t.isFrozen owner
  · rw [bind_error (writable_frozen hf), if_pos hf]
    rfl
  · rw [bind_ok (writable_ok hf), h hf, if_neg hf]
    rfl

theorem counted_bind {m : EditM α} {f : α → EditM Bool} :
    counted (m >>= f) = m >>= fun a => counted (f a) :=
  bind_assoc m f _

theorem mutate_run (t : Tree) (id : NodeId) (change : Node NodeId → Node NodeId) :
    mutate id change t = .ok () { t with
      cells := t.cells.modify id fun cell => { cell with node := change (t.node id) } } := by
  have hcells : (t.cells.modify id fun cell => { cell with node := change cell.node }) =
      t.cells.modify id fun cell => { cell with node := change (t.node id) } := by
    refine Array.ext_getElem? fun i => ?_
    simp only [Array.getElem?_modify]
    split
    · subst i
      cases hcell : t.cells[id]? <;> simp [Tree.node, hcell]
    · rfl
  change EStateM.Result.ok () { t with cells := _ } = _
  rw [hcells]

theorem assign_self (h : t.slot? owner field = some slot) : assign owner field slot t = .ok () t := by
  have hcells : (t.cells.modify owner fun cell => { cell with node := t.node owner }) = t.cells := by
    refine Array.ext_getElem? fun i => ?_
    simp only [Array.getElem?_modify]
    split
    · subst i
      cases hcell : t.cells[owner]? <;> simp [Tree.node, hcell]
    · rfl
  unfold assign
  rw [mutate_run, Node.setSlot_self h, hcells]

/-- An assignment is counted unless the slot holds that already. -/
theorem counted_assign {same : Prop} [Decidable same] {old : Slot NodeId}
    (hs : t.slot? owner field = some old) (hsame : same → old = slot) :
    counted (do assign owner field slot; return decide (¬ same)) t =
      t.outcome (.ok (if same then (false, t) else (true, t.setSlot owner field slot))) := by
  rw [counted_bind]
  by_cases h : same
  · rw [bind_ok (assign_self (hsame h ▸ hs)), decide_eq_false (not_not.mpr h), if_pos h]
    rfl
  · unfold assign
    rw [bind_ok (mutate_run ..), decide_eq_true h, if_neg h]
    rfl

theorem writeField_run {new : Option NodeId} : counted (writeField owner field new) t =
    t.outcome (do t.checkWritable owner; t.writeField owner field new) := by
  unfold writeField
  rw [counted_bind]
  refine writable_bind fun _ => ?_
  unfold Tree.writeField Tree.slot?
  cases hs : (t.node owner).slot? field with
  | none => rfl
  | some slot =>
    cases slot with
    | required old =>
      cases new with
      | none => rfl
      | some id => exact counted_assign hs fun h => by rw [h]
    | optional old => exact counted_assign hs fun h => by rw [h]
    | list items | holey items => rfl

theorem setItems_map_some (items items' : List NodeId) :
    (Slot.list items).setItems (items'.map some) = .list items' := by
  simp [Slot.setItems]

theorem set_eq_self {β : Type} {items : List β} {i : Nat} {b : β} (h : items[i]? = some b) :
    items.set i b = items := by
  obtain ⟨hi, rfl⟩ := List.getElem?_eq_some_iff.mp h
  exact List.set_getElem_self hi

theorem writeItem_run {index : Nat} {new : Option NodeId} :
    counted (writeItem owner field index new) t =
      t.outcome (do t.checkWritable owner; t.writeItem owner field index new) := by
  unfold writeItem
  rw [counted_bind]
  refine writable_bind fun _ => ?_
  unfold Tree.writeItem Tree.slot?
  cases hs : (t.node owner).slot? field with
  | none => rfl
  | some slot =>
    cases slot with
    | required | optional => rfl
    | list items =>
      simp only [Slot.items?, List.getElem?_map]
      cases hitem : items[index]? with
      | none =>
        simp only [Option.map_none, List.length_map]
        rfl
      | some old =>
        cases new with
        | none =>
          simp only [Option.map_some, List.eraseIdx_map, setItems_map_some]
          rw [counted_bind]
          unfold assign
          rw [bind_ok (mutate_run ..)]
          rfl
        | some id =>
          simp only [Option.map_some, ← List.map_set, setItems_map_some, Option.some.injEq]
          exact counted_assign hs fun h => by rw [← h, set_eq_self hitem]
    | holey items =>
      simp only [Slot.items?]
      cases hitem : items[index]? with
      | none => rfl
      | some old =>
        cases new with
        | none =>
          rw [counted_bind]
          unfold assign
          rw [bind_ok (mutate_run ..)]
          rfl
        | some id =>
          exact counted_assign hs fun h => by rw [← h, set_eq_self hitem]

theorem write_run (t : Tree) (parent : Ref) (key : Key) (new : Option NodeId) :
    write parent key new t = t.outcome (t.write parent key new) := by
  cases parent <;> cases key
  case node.field => exact writeField_run
  case list.index => exact writeItem_run
  all_goals rfl

theorem replace_run (t : Tree) (p : Path) (id : NodeId) :
    replace p id t = t.outcome (t.replace p id) := by
  cases p with
  | root => rfl
  | child parent key value =>
    have hwrite := write_run t parent.value key (some id)
    rw [Tree.replace]
    cases hw : t.write parent.value key (some id) with
    | error e =>
      rw [hw] at hwrite
      exact bind_error hwrite
    | ok r =>
      rw [hw] at hwrite
      exact bind_ok hwrite

theorem remove_run (t : Tree) (p : Path) :
    remove p t = t.outcome ((t.remove p).map fun t' => ((), t')) := by
  cases p with
  | root => rfl
  | child parent key value =>
    have hwrite := write_run t parent.value key none
    rw [Tree.remove]
    cases hw : t.write parent.value key none with
    | error e =>
      rw [hw] at hwrite
      exact bind_error hwrite
    | ok r =>
      rw [hw] at hwrite
      exact bind_ok hwrite

theorem modifyNode_run (t : Tree) (id : NodeId) (change : Node NodeId → Node NodeId) :
    modifyNode id change t = t.outcome ((t.modifyNode id change).map fun t' => ((), t')) := by
  unfold modifyNode Tree.modifyNode Tree.checkWritable
  by_cases hf : t.isFrozen id
  · rw [bind_error (writable_frozen hf), if_pos hf]
    rfl
  · rw [bind_ok (writable_ok hf), if_neg hf, bind_ok (m := bump) rfl, mutate_run]
    rfl

theorem map_checkWritable {β : Type} {r : Except TreeError α} {g : α → β} :
    ((do t.checkWritable owner; r) : Except TreeError α).map g =
      (do t.checkWritable owner; r.map g) := by
  unfold Tree.checkWritable
  split <;> rfl

/-- A splice is counted unless it leaves a list as it is. -/
theorem assign_spliced (start stop : Nat) (new : List NodeId) {items : List (Option NodeId)}
    (hs : t.slot? owner field = some slot) (hi : slot.items? = some items)
    (hrange : ¬ (start > stop || stop > items.length) = true) :
    (do
      assign owner field (slot.setItems (items.take start ++ new.map some ++ items.drop stop))
      if start < stop || !new.isEmpty then bump : EditM Unit) t =
    t.outcome (Except.map (fun t' => ((), t')) (if start = stop && new.isEmpty then .ok t
      else .ok (t.setSlot owner field
        (slot.setItems (items.take start ++ new.map some ++ items.drop stop))))) := by
  by_cases hsame : (start = stop && new.isEmpty) = true
  · rw [if_pos hsame]
    simp only [Bool.and_eq_true, decide_eq_true_eq, List.isEmpty_iff] at hsame
    obtain ⟨rfl, rfl⟩ := hsame
    rw [List.map_nil, List.append_nil, List.take_append_drop, Slot.setItems_self hi,
      bind_ok (assign_self hs)]
    simp
    rfl
  · rw [if_neg hsame]
    unfold assign
    rw [bind_ok (mutate_run ..), if_pos]
    · rfl
    · simp only [Bool.or_eq_true, decide_eq_true_eq, Bool.and_eq_true] at hrange hsame ⊢
      cases new with
      | nil => simp at hsame ⊢; omega
      | cons => simp

theorem splice_run (t : Tree) (list : Ref) (start stop : Nat) (new : List NodeId) :
    splice list start stop new t =
      t.outcome ((t.splice list start stop new).map fun t' => ((), t')) := by
  cases list with
  | null | node => rfl
  | list owner field =>
    change (spliceItems owner field start stop new >>= fun _ => _) t = _
    unfold spliceItems Tree.splice
    rw [bind_assoc, map_checkWritable]
    refine writable_bind fun _ => ?_
    unfold Tree.slot?
    cases hs : (t.node owner).slot? field with
    | none => rfl
    | some slot =>
      cases slot with
      | required | optional => rfl
      | list items =>
        have hassign := assign_spliced start stop new hs rfl
        simp only [Slot.items?, List.length_map, ← List.map_take, ← List.map_drop,
          ← List.map_append, setItems_map_some] at hassign ⊢
        by_cases hrange : (start > stop || stop > items.length) = true
        · simp only [if_pos hrange]
          rfl
        · simp only [if_neg hrange]
          exact hassign hrange
      | holey items =>
        by_cases hrange : (start > stop || stop > items.length) = true
        · simp only [Slot.items?, if_pos hrange]
          rfl
        · simp only [Slot.items?, if_neg hrange]
          exact assign_spliced start stop new hs rfl hrange

theorem truncate_run (t : Tree) (list : Ref) (length : Nat) :
    truncate list length t = t.outcome (t.truncate list length) := by
  unfold truncate Tree.truncate
  rw [bind_ok (m := get) rfl]
  cases hlength : t.listLength? list with
  | none => rfl
  | some current =>
    by_cases hle : length ≥ current
    · simp only [if_pos hle]
      rfl
    · simp only [if_neg hle]
      have hsplice := splice_run t list length current []
      cases hs : t.splice list length current [] with
      | error e =>
        rw [hs] at hsplice
        exact bind_error hsplice
      | ok t' =>
        rw [hs] at hsplice
        exact bind_ok hsplice

theorem setRoot_run (t : Tree) (root : NodeId) : setRoot root t = .ok () (t.setRoot root) := by
  unfold setRoot Tree.setRoot
  rw [bind_ok (m := get) rfl]
  by_cases h : t.root = root
  · rw [if_neg (not_not.mpr h), if_pos h]
    rfl
  · rw [if_pos h, if_neg h]
    rfl

end EditM

end ScriptFold

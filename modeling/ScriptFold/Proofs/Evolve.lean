import ScriptFold.Proofs.Tidying

/-!
What a walk may count on while rules fire below a node: nothing above it changes, no kind changes,
and no node gets heavier. A rule that fires takes weight from the slot of its path.
-/

namespace ScriptFold

theorem Node.items?_of_kind {α : Type} {n m : Node α} (hk : n.kind = m.kind) {f : Field}
    {slot : Slot α} (h : n.slot? f = some slot) :
    ∃ slot', m.slot? f = some slot' ∧ (slot'.items?.isSome = slot.items?.isSome) := by
  have hshape := shape_of_kind hk
  unfold slot? at h ⊢
  generalize n.slots = ns, m.slots = ms at hshape h ⊢
  induction ns generalizing ms with
  | nil => cases h
  | cons e es ih =>
    cases ms with
    | nil => cases hshape
    | cons e' es' =>
      rw [List.map_cons, List.map_cons, List.cons.injEq, Prod.mk.injEq] at hshape
      obtain ⟨⟨hfield, hitems⟩, hrest⟩ := hshape
      rw [List.lookup_cons] at h ⊢
      rw [← hfield]
      split at h
      · obtain rfl := Option.some.inj h
        exact ⟨e'.2, rfl, hitems.symm⟩
      · exact ih es' hrest h

theorem listLoad_mono {w w' : NodeId → Nat} {items : List (Option NodeId)}
    (h : ∀ c, some c ∈ items → w' c ≤ w c) : listLoad w' items ≤ listLoad w items := by
  refine List.sum_le_sum fun e he => ?_
  cases e with
  | none => exact Nat.le_refl _
  | some c => exact Nat.add_le_add_left (h c he) 2

/-- The node that is meant, or that owns the list that is meant. -/
def Ref.owner? : Ref → Option NodeId
  | .null => none
  | .node id => some id
  | .list owner _ => some owner

namespace Tree

theorem read_congr {t t' : Tree} {r : Ref} {id : NodeId} (hr : r.owner? = some id)
    (hn : t'.node id = t.node id) (key : Key) : t'.read r key = t.read r key := by
  have hslot : ∀ f, t'.slot? id f = t.slot? id f := fun f => congrArg (Node.slot? · f) hn
  cases r with
  | null => cases hr
  | node owner | list owner f =>
    obtain rfl : owner = id := Option.some.inj hr
    cases key <;> simp only [read, listItems?, hslot]

theorem lt_size_of_slot? {t : Tree} {id : NodeId} {f : Field} {slot : Slot NodeId}
    (h : t.slot? id f = some slot) : id < t.size := by
  by_contra hid
  unfold slot? at h
  rw [node_of_size_le (Nat.le_of_not_lt hid)] at h
  cases h

/-- What there is to walk in a slot: its node or list, or a list from a position on. -/
def loadAt (t : Tree) (w : NodeId → Nat) : Ref → Key → Nat
  | .node owner, .field f => ((t.slot? owner f).map fun slot => (slot.map w).total 2 0).getD 0
  | .list owner f, .index i => listLoad w (((t.listItems? (.list owner f)).getD []).drop i)
  | _, _ => 0

end Tree

theorem Store.Sound.lt_size_of_owner {s : Store} (h : s.Sound) {p : Path} {id : NodeId}
    (hp : p.Live s.tree) (hid : p.value.owner? = some id) : id < s.tree.size := by
  cases hv : p.value with
  | null =>
    rw [hv] at hid
    cases hid
  | node x =>
    rw [hv] at hid
    obtain rfl : x = id := Option.some.inj hid
    exact h.lt_size_of_live hp (by rw [Path.node?, hv]; rfl)
  | list x f =>
    rw [hv] at hid
    obtain rfl : x = id := Option.some.inj hid
    cases p with
    | root value =>
      obtain rfl : value = .node s.tree.root := hp
      cases hv
    | child parent key value =>
      obtain rfl : value = .list x f := hv
      obtain ⟨hparent, hread⟩ := hp
      obtain ⟨hv, -⟩ := Path.list_of_read hread.symm
      exact h.lt_size_of_live hparent (by rw [Path.node?, hv]; rfl)

namespace Store

/-- What happens below a node, seen from outside. -/
structure Evolves (owner : NodeId) (s s' : Store) : Prop where
  sound : s'.Sound
  size : s.tree.size ≤ s'.tree.size
  root : s'.tree.root = s.tree.root
  flags : ∀ {id}, id < s.tree.size → s'.tree.flags id = s.tree.flags id
  kind : ∀ {id}, id < s.tree.size → (s'.tree.node id).kind = (s.tree.node id).kind
  above : ∀ {id}, s.tree.Below owner id → s'.tree.node id = s.tree.node id
  weight : ∀ {id}, id < s.tree.size → s'.tree.weight id ≤ s.tree.weight id

namespace Evolves

variable {s s' s'' : Store} {owner id : NodeId}

theorem refl (h : s.Sound) : s.Evolves owner s :=
  ⟨h, le_rfl, rfl, fun _ => rfl, fun _ => rfl, fun _ => rfl, fun _ => le_rfl⟩

theorem grows (h : s.Sound) (h' : s'.Sound) (hg : s.Grows s') : s.Evolves owner s' where
  sound := h'
  size := hg.tree.size
  root := hg.tree.root
  flags := hg.tree.flags
  kind hid := congrArg Node.kind (hg.tree.node hid)
  above hb := hg.tree.node (Tree.lt_size_of_above hb)
  weight hid := (Tree.weight_grows h.wellFormed h'.wellFormed hg.tree hid).le

theorem below (h : s.Evolves owner s') (hb : s.tree.Below owner id) : s'.tree.Below owner id := by
  induction hb with
  | single hc =>
    refine .single ?_
    unfold Tree.Child at hc ⊢
    rwa [h.above (.single hc)]
  | tail hb hc ih =>
    refine ih.tail ?_
    unfold Tree.Child at hc ⊢
    rwa [h.above (hb.tail hc)]

theorem trans (h : s.Evolves owner s') (h' : s'.Evolves owner s'') : s.Evolves owner s'' where
  sound := h'.sound
  size := h.size.trans h'.size
  root := h'.root.trans h.root
  flags hid := (h'.flags (hid.trans_le h.size)).trans (h.flags hid)
  kind hid := (h'.kind (hid.trans_le h.size)).trans (h.kind hid)
  above hb := (h'.above (h.below hb)).trans (h.above hb)
  weight hid := (h'.weight (hid.trans_le h.size)).trans (h.weight hid)

/-- What happens below a node happens below its parent. -/
theorem lift {parent : NodeId} (h : s.Evolves owner s') (hc : s.tree.Child owner parent) :
    s.Evolves parent s' :=
  { h with above := fun hb => h.above (.head hc hb) }

theorem isFrozen (h : s.Evolves owner s') (hid : id < s.tree.size) :
    s'.tree.isFrozen id = s.tree.isFrozen id := by
  unfold Tree.isFrozen
  rw [h.flags hid]

theorem read_list (h : s.Evolves owner s') {f : Field}
    (hread : s.tree.read (.node id) (.field f) = .list id f) :
    s'.tree.read (.node id) (.field f) = .list id f := by
  unfold Tree.read at hread ⊢
  dsimp only at hread ⊢
  cases hs : s.tree.slot? id f with
  | none =>
    rw [hs] at hread
    cases hread
  | some slot =>
    have hk := h.kind (Tree.lt_size_of_slot? hs)
    obtain ⟨slot', hs', hitems⟩ := Node.items?_of_kind hk.symm hs
    rw [hs] at hread
    change s'.tree.slot? id f = some slot' at hs'
    rw [hs']
    cases slot with
    | required c => cases hread
    | optional c => cases c <;> cases hread
    | list cs | holey cs => cases slot' <;> first | rfl | cases hitems

/-- A path that ends at the node, or anywhere above it, is still true. -/
theorem live (h : s.Evolves owner s') {p : Path} (hp : p.Live s.tree)
    (hid : p.value.owner? = some id) (hw : s.tree.Within owner id) : p.Live s'.tree := by
  induction p generalizing id with
  | root value =>
    have hv : value = .node s.tree.root := hp
    change value = .node s'.tree.root
    rw [h.root]
    exact hv
  | child parent key value ih =>
    obtain ⟨hparent, hread⟩ := hp
    cases value with
    | null => cases hid
    | node x =>
      obtain rfl : x = id := Option.some.inj hid
      obtain ⟨y, hleads⟩ := Path.leads_of_read hread.symm
      have hb : s.tree.Below owner y := Relation.TransGen.tail' hw hleads.child
      have howner : parent.value.owner? = some y := by
        cases hleads with
        | required hv | optional hv | item hv =>
          rw [hv]
          rfl
      refine ⟨ih hparent howner hb.to_reflTransGen, ?_⟩
      rw [Tree.read_congr howner (h.above hb)]
      exact hread
    | list x f =>
      obtain rfl : x = id := Option.some.inj hid
      obtain ⟨hv, rfl⟩ := Path.list_of_read hread.symm
      have howner : parent.value.owner? = some x := by
        rw [hv]
        rfl
      refine ⟨ih hparent howner hw, ?_⟩
      rw [hv] at hread ⊢
      exact (h.read_list hread.symm).symm

theorem loadAt_le (h : s.Evolves owner s') (wf : s.tree.WellFormed) {r : Ref}
    (hr : r.owner? = some id) (hn : s'.tree.node id = s.tree.node id) (key : Key) :
    s'.tree.loadAt s'.tree.weight r key ≤ s.tree.loadAt s.tree.weight r key := by
  have hslot : ∀ f, s'.tree.slot? id f = s.tree.slot? id f := fun f => congrArg (Node.slot? · f) hn
  have weight : ∀ {f slot}, s.tree.slot? id f = some slot → ∀ c ∈ slot.children,
      s'.tree.weight c ≤ s.tree.weight c := fun hs c hc =>
    h.weight (wf.closed (Node.mem_children_of_slot? hs hc))
  cases r with
  | null => cases hr
  | node owner =>
    obtain rfl : owner = id := Option.some.inj hr
    cases key with
    | index i => exact Nat.zero_le _
    | field f =>
      simp only [Tree.loadAt, hslot]
      cases hs : s.tree.slot? owner f with
      | none => exact Nat.zero_le _
      | some slot => exact Slot.total_mono (weight hs)
  | list owner f =>
    obtain rfl : owner = id := Option.some.inj hr
    cases key with
    | field f => exact Nat.zero_le _
    | index i =>
      simp only [Tree.loadAt, Tree.listItems?, hslot]
      cases hs : s.tree.slot? owner f with
      | none => simp [listLoad]
      | some slot =>
        refine listLoad_mono fun c hc => ?_
        rw [Option.bind_some] at hc
        cases hi : slot.items? with
        | none =>
          rw [hi] at hc
          simp at hc
        | some items =>
          rw [hi] at hc
          refine weight hs c ((Slot.mem_children_of_items? hi).mpr ?_)
          exact List.mem_of_mem_drop hc

end Evolves

variable {s : Store} {observed : Bool} {rule : Rule} {p : Path} {owner id x : NodeId}
  {n : Node NodeId}

theorem Edit.evolves (h : s.Sound) (he : s.Edit observed rule p x n) : s.Evolves x (s.put x n) := by
  obtain ⟨hsize, hf, hkind, -, -⟩ := he.admissible h
  have hs' := he.sound h
  refine ⟨hs', ?_, rfl, fun {id} _ => s.tree.flags_setNode x n id, fun {id} _ => ?_, fun {id} hb => ?_,
    fun {id} _ => ?_⟩
  · exact (s.tree.size_setNode x n).ge
  · refine (congrArg Node.kind (Tree.node_setNode hsize n id)).trans ?_
    split
    · subst id
      exact hkind
    · rfl
  · refine (Tree.node_setNode hsize n id).trans (if_neg ?_)
    rintro rfl
    exact h.wellFormed.not_below_self hb
  · exact Tree.weight_setNode_le h.wellFormed hs'.wellFormed hsize hf
      (fun hid => h.not_within_frozen hid hf) hkind (he.load_lt h) id

theorem Edit.weight_lt (h : s.Sound) (he : s.Edit observed rule p x n) :
    (s.put x n).tree.weight x < s.tree.weight x := by
  obtain ⟨hsize, hf, hkind, -, -⟩ := he.admissible h
  exact Tree.weight_setNode_lt h.wellFormed (he.sound h).wellFormed hsize hf
    (fun hid => h.not_within_frozen hid hf) hkind (he.load_lt h)

end Store

namespace Path

variable {t : Tree} {p : Path} {owner id a : NodeId}

theorem Fills.leads {parent : Path} {key : Key} {v : Ref} {n : Node NodeId} {b : NodeId}
    (h : (Path.child parent key v).Fills t owner a b n) :
    (Path.child parent key (.node a)).Leads t owner a := by
  cases h with
  | required hv hs => exact .required hv hs
  | optional hv hs => exact .optional hv hs
  | item h =>
    cases h with
    | intro hv hs hi => exact .item hv hs hi (by simp)

def load (t : Tree) : Path → Nat
  | .root _ => 0
  | .child parent key _ => t.loadAt t.weight parent.value key

theorem Leads.owner? {parent : Path} {key : Key} {v : Ref}
    (h : (Path.child parent key v).Leads t owner id) : parent.value.owner? = some owner := by
  cases h with
  | required hv | optional hv | item hv =>
    rw [hv]
    rfl

theorem Leads.load_lt {t' : Tree} (h : p.Leads t owner a) (hn : t'.node owner = t.node owner)
    (hle : ∀ c, t.Child c owner → t'.weight c ≤ t.weight c) (hlt : t'.weight a < t.weight a) :
    p.load t' < p.load t := by
  have hslot : ∀ f, t'.slot? owner f = t.slot? owner f := fun f => congrArg (Node.slot? · f) hn
  cases h with
  | required hv hs | optional hv hs =>
    simp only [load, hv, Tree.loadAt, hslot, hs, Option.map_some, Option.getD_some, Slot.map,
      Slot.total]
    exact hlt
  | @item parent f _ _ i slot items hv hs hi hget =>
    obtain ⟨l, r, rfl, rfl⟩ := split_of_getElem? hget
    have hr : listLoad t'.weight r ≤ listLoad t.weight r := listLoad_mono fun c hc => hle c
      (Node.mem_children_of_slot? hs ((Slot.mem_children_of_items? hi).mpr (by simp [hc])))
    simp only [load, hv, Tree.loadAt, Tree.listItems?, hslot, hs, Option.bind_some, hi,
      Option.getD_some, List.drop_left, listLoad_cons, Option.map_some]
    omega

end Path

namespace Store

variable {s s' : Store} {observed : Bool} {rule : Rule} {p : Path} {owner id x a b : NodeId}
  {n : Node NodeId}

/-- A list in the slot of a path weighs less after a splice, whatever happens to the weights. -/
theorem load_of_splices {old : List (Option NodeId)} {new : List NodeId} {t : Tree}
    (hsplice : p.Splices s.tree owner old new n) (hn : t.node owner = n)
    (hweight : ∀ c ∈ n.children, t.weight c ≤ s.tree.weight c)
    (hlt : listLoad s.tree.weight (new.map some) < listLoad s.tree.weight old) :
    p.load t < p.load s.tree := by
  cases hsplice with
  | @intro parent f _ slot l _ r _ value hv hs hi =>
    obtain ⟨slot', hs', hi'⟩ := Tree.items?_of_splice hs hi hn
    have hle : listLoad t.weight (new.map some ++ r) ≤ listLoad s.tree.weight (new.map some ++ r) := by
      refine listLoad_mono fun c hc => hweight c ?_
      rw [← hn]
      refine Node.mem_children_of_slot? hs' ((Slot.mem_children_of_items? hi').mpr ?_)
      rw [List.append_assoc]
      exact List.mem_append_right l hc
    simp only [Path.load, hv, Tree.loadAt, Tree.listItems?, hs', hs, Option.bind_some, hi', hi,
      Option.getD_some]
    simp only [List.append_assoc, List.drop_left, listLoad_append] at hle ⊢
    omega

/-- A change takes weight from the slot of its path. -/
theorem Edit.pathLoad_lt (h : s.Sound) (he : s.Edit observed rule p x n) :
    p.load (s.put x n).tree < p.load s.tree := by
  have hevolves := he.evolves h
  have hsize := (he.admissible h).1
  have hnode : (s.put x n).tree.node x = n := (Tree.node_setNode hsize n x).trans (if_pos rfl)
  have hweight : ∀ c ∈ n.children, (s.put x n).tree.weight c ≤ s.tree.weight c := fun c hc =>
    hevolves.weight ((he.admissible h).2.2.2.2 c hc).1
  have hlt := he.weight_lt h
  cases he with
  | @splice _ a old new _ hp howner hsplice hnew =>
    exact load_of_splices hsplice hnode hweight (hnew.load_lt h)
  | @fill _ a b _ hp howner hfill hab =>
    have hba := hab.weight_lt h
    cases hfill with
    | item hsplice =>
      refine load_of_splices hsplice hnode hweight ?_
      simp only [List.map_cons, List.map_nil, listLoad_cons, Option.map_some, Option.getD_some]
      omega
    | @required parent f _ _ _ value hv hs =>
      have hnew := Node.slot?_setSlot hs (.required b) rfl
      have hb := hweight b (Node.mem_children_of_slot? hnew (by simp [Slot.children]))
      rw [← hnode] at hnew
      change (s.put x _).tree.slot? x f = _ at hnew
      simp only [Path.load, hv, Tree.loadAt, hnew, hs, Option.map_some, Option.getD_some, Slot.map,
        Slot.total]
      exact hb.trans_lt hba
    | @optional parent f _ _ _ value hv hs =>
      have hnew := Node.slot?_setSlot hs (.optional (some b)) rfl
      have hb := hweight b (Node.mem_children_of_slot? hnew (by simp [Slot.children]))
      rw [← hnode] at hnew
      change (s.put x _).tree.slot? x f = _ at hnew
      simp only [Path.load, hv, Tree.loadAt, hnew, hs, Option.map_some, Option.getD_some, Slot.map,
        Slot.total]
      exact hb.trans_lt hba
  | @rewrite owner _ _ hp hf hr =>
    have hne : owner ≠ x := by
      rintro rfl
      exact h.wellFormed.not_below_self (.single hp.child)
    have howner : (s.put x n).tree.node owner = s.tree.node owner :=
      (Tree.node_setNode hsize n owner).trans (if_neg hne)
    refine hp.load_lt howner (fun c hc => hevolves.weight (h.wellFormed.closed hc)) hlt

theorem Evolves.load_le (h : s.Evolves id s') (wf : s.tree.WellFormed) (hp : p.Leads s.tree owner a)
    (hn : s'.tree.node owner = s.tree.node owner) : p.load s'.tree ≤ p.load s.tree := by
  cases p with
  | root value => exact le_rfl
  | child parent key value => exact h.loadAt_le wf hp.owner? hn key

/-- Where a path leads to a slot, firing happens at the owner of that slot or below it. -/
theorem Step.evolves (h : s.Sound) (hp : p.Leads s.tree owner a)
    (hstep : Step observed rule p s s') :
    s.Evolves owner s' ∧ p.load s'.tree < p.load s.tree := by
  obtain ⟨s₁, x, n, hg, hs₁, he, rfl⟩ := hstep
  have hevolves := he.evolves hs₁
  have hgrows : s.Evolves owner s₁ := .grows h hs₁ hg
  have hp₁ := hp.congr (hg.tree.node (Tree.lt_size_of_child hp.child))
  have hload := hgrows.load_le h.wellFormed hp (hg.tree.node (Tree.lt_size_of_child hp.child))
  refine ⟨?_, (he.pathLoad_lt hs₁).trans_le hload⟩
  cases he with
  | fill hp' howner hfill hab =>
    obtain ⟨rfl, -⟩ := hp.unique hp'
    exact hgrows.trans hevolves
  | splice hp' howner hsplice hnew =>
    obtain ⟨rfl, -⟩ := hp.unique hp'
    exact hgrows.trans hevolves
  | rewrite hp' hf hr =>
    obtain ⟨rfl, -⟩ := hp.unique hp'
    exact hgrows.trans (hevolves.lift hp'.child)

theorem Edit.leads (he : s.Edit observed rule p x n) : ∃ owner a, p.Leads s.tree owner a := by
  cases he with
  | fill hp | splice hp | rewrite hp => exact ⟨_, _, hp⟩

/-- A rule that fires once more still finds what it found first. -/
theorem Step.leads {t : Tree} (hp : p.Leads t owner a) (howner : owner < s.tree.size)
    (hstep : Step observed rule p s s') : p.Leads s.tree owner a := by
  obtain ⟨s₁, x, n, hg, hs₁, he, rfl⟩ := hstep
  obtain ⟨owner', a', hp'⟩ := he.leads
  obtain ⟨rfl, rfl⟩ := hp.unique hp'
  exact hp'.congr (hg.tree.node howner).symm

theorem Fires.evolves (h : s.Sound) (hp : p.Leads s.tree owner a)
    (hfires : Fires observed rule p s s') :
    s.Evolves owner s' ∧ p.load s'.tree < p.load s.tree := by
  induction hfires with
  | single hstep => exact hstep.evolves h hp
  | tail _ hstep ih =>
    obtain ⟨hevolves, hlt⟩ := ih
    have howner := (Tree.lt_size_of_child hp.child).trans_le hevolves.size
    obtain ⟨hevolves', hlt'⟩ := hstep.evolves hevolves.sound (hstep.leads hp howner)
    exact ⟨hevolves.trans hevolves', hlt'.trans hlt⟩

end Store

end ScriptFold

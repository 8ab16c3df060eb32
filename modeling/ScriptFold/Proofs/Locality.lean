import ScriptFold.Proofs.Permute
import ScriptFold.Proofs.Region
import ScriptFold.Proofs.RoundTrip

/-!
What a rule changes is in one place. A rule that fires at a path edits the slot of that path, what is below
it and, where the slot is an entry of a list, what comes later in the list. All other slots hold what they
held, though one node may be in many of them; those that the path does not lead through are the same all the
way down.
-/

namespace ScriptFold

namespace Path

variable {p q r : Path}

/-- A path neither goes through the slot of another, or a later one of its list, nor leads to it. -/
structure Beside (p q : Path) : Prop where
  outside : ¬ p.Region q
  not_above : ¬ q.Above p

theorem Beside.below (h : p.Beside q) (hr : q.Above r) : p.Beside r where
  outside hregion := by
    cases p with
    | root value => exact h.outside trivial
    | child parent key value =>
      obtain ⟨key', value', hkey, hslot⟩ := hregion
      rcases hr.total hslot with hq | hq
      · cases hq with
        | refl => exact h.outside ⟨key', value', hkey, .refl⟩
        | child hq => exact h.not_above (.child hq)
      · exact h.outside ⟨key', value', hkey, hq⟩
  not_above hp := h.not_above (hr.trans hp)

end Path

variable {t t' : Tree} {p q : Path}

namespace Tree

variable {parent : Path} {key : Key} {value : Ref} {id : NodeId}

theorem slot?_of_assigned {r : Ref} (h : (t.node id).Assigned r key (t'.node id))
    (hr : r.owner? = some id) (g : Field) :
    t'.slot? id g = t.slot? id g ∨ r = .node id ∧ key = .field g ∨ r = .list id g := by
  generalize hn : t'.node id = n at h
  have other : ∀ {f slot}, n = (t.node id).setSlot f slot → g ≠ f →
      t'.slot? id g = t.slot? id g := fun hset hg =>
    (congrArg (Node.slot? · g) (hn.trans hset)).trans (Node.slot?_setSlot_of_ne hg _)
  cases h with
  | @field owner f slot =>
    obtain rfl : owner = id := Option.some.inj hr
    by_cases hg : g = f
    · exact .inr (.inl ⟨rfl, by rw [hg]⟩)
    · exact .inl (other rfl hg)
  | @item owner f i slot slot' =>
    obtain rfl : owner = id := Option.some.inj hr
    by_cases hg : g = f
    · exact .inr (.inr (by rw [hg]))
    · exact .inl (other rfl hg)

/-- Lists outside of the slot, but for the one around it, have the same entries. -/
theorem ConfinedTo.listItems?_eq (h : ConfinedTo parent key t t') (hb : t.Becomes t')
    (ht : t.Shaped) (hparent : parent.Live t) (hq : q.Live t) (hout : ¬ parent.Through key q)
    (hne : q ≠ parent) : t'.listItems? q.value = t.listItems? q.value := by
  cases hv : q.value with
  | null | node => rfl
  | list id g =>
    obtain ⟨o, rfl, ho, hnode⟩ := hq.exists_owner_of_list hv
    have houto : ¬ parent.Through key o := fun ho => hout (ho.trans (.child .refl))
    suffices hslot : t'.slot? id g = t.slot? id g by rw [listItems?, listItems?, hslot]
    rcases h.node_cases hb ht hparent ho hnode houto with hn | ⟨hf, -, howner, hassigned⟩
    · exact congrArg (Node.slot? · g) hn
    · rcases slot?_of_assigned hassigned howner g with hslot | ⟨hpv, rfl⟩ | hpv
      · exact hslot
      · -- the list is what the slot holds
        have hparentid : parent.node? = some id := by
          rw [Path.node?, hpv]
          rfl
        obtain rfl := ht.unshared ho hparent hnode hparentid hf
        exact absurd ⟨.field g, _, .self _, .refl⟩ hout
      · -- the slot is an entry of the list
        exact absurd (ht.eq_of_value hf hq hparent rfl hpv.symm) hne

end Tree

section Confined

variable {parent : Path} {key : Key} {value : Ref} {owner a b : NodeId} {n : Node NodeId}

theorem Path.Splices.confined {old : List (Option NodeId)} {new : List NodeId}
    (h : (Path.child parent key value).Splices t owner old new n) :
    Tree.ConfinedTo parent key t (t.setNode owner n) := by
  cases h with
  | @intro _ f _ slot l _ r _ _ hv hs hi =>
    exact .setItems hv hs hi (fun e he => Slot.mem_splice he) (by simp)

theorem Path.Fills.confined (h : (Path.child parent key value).Fills t owner a b n) :
    Tree.ConfinedTo parent key t (t.setNode owner n) := by
  cases h with
  | required hv hs => exact .setSlot (by rw [hv]; rfl) (hv ▸ .field _)
  | optional hv hs => exact .setSlot (by rw [hv]; rfl) (hv ▸ .field _)
  | item hsplice => exact hsplice.confined

end Confined

/-- One tree becomes another by changes at a path. -/
structure Tree.ChangesAt (p : Path) (t t' : Tree) : Prop where
  shaped : t'.Shaped
  live : ∀ {q}, ¬ p.Region q → (q.Live t' ↔ q.Live t)
  items : ∀ {q}, p.Beside q → q.Live t → t'.listItems? q.value = t.listItems? q.value
  node : ∀ {q id}, p.Beside q → q.Live t → q.node? = some id → t'.node id = t.node id

namespace Tree.ChangesAt

theorem trans {t'' : Tree} (h : ChangesAt p t t') (h' : ChangesAt p t' t'') : ChangesAt p t t'' where
  shaped := h'.shaped
  live hq := (h'.live hq).trans (h.live hq)
  items hq hlive := (h'.items hq ((h.live hq.outside).mpr hlive)).trans (h.items hq hlive)
  node hq hlive hid := (h'.node hq ((h.live hq.outside).mpr hlive) hid).trans (h.node hq hlive hid)

theorem of_grows (h : t.Grows t') (ht : t.Shaped) (ht' : t'.Shaped) : ChangesAt p t t' where
  shaped := ht'
  live _ := h.live_iff ht
  items {q} _ hq := by
    cases hv : q.value with
    | null | node => rfl
    | list id f =>
      have hid : id < t.size := ht.lt_size hq (by rw [hv]; rfl)
      rw [listItems?, listItems?, slot?, slot?, h.node hid]
  node _ hq hid := h.node (ht.closed hq hid)

theorem of_confined {parent : Path} {key : Key} {value : Ref} (h : ConfinedTo parent key t t')
    (hb : t.Becomes t') (ht : t.Shaped) (ht' : t'.Shaped) (hparent : parent.Live t) :
    ChangesAt (.child parent key value) t t' where
  shaped := ht'
  live := h.live_iff hb ht hparent
  items {q} hq hlive := by
    refine h.listItems?_eq hb ht hparent hlive hq.outside ?_
    rintro rfl
    exact hq.not_above (.child .refl)
  node hq hlive hid := by
    rcases h.node_cases hb ht hparent hlive hid hq.outside with hn | ⟨-, habove, -⟩
    · exact hn
    · exact absurd (.child habove) hq.not_above

end Tree.ChangesAt

namespace Store

variable {s s' : Store} {observed : Bool} {rule : Rule} {owner x a : NodeId} {n : Node NodeId}

theorem Edit.confined {parent : Path} {key : Key} {value : Ref}
    (he : s.Edit observed rule (.child parent key value) x n)
    (hp : (Path.child parent key value).Live s.tree) :
    Tree.ConfinedTo parent key s.tree (s.put x n).tree := by
  cases he with
  | fill _ _ hfill _ => exact hfill.confined
  | splice _ _ hsplice _ => exact hsplice.confined
  | rewrite hleads _ _ =>
    refine ⟨rfl, fun {q y} _ _ hne => .inl ⟨.child parent key value, ?_, hp, ?_⟩⟩
    · exact ⟨key, value, .self key, .refl⟩
    · obtain rfl : y = x := of_not_not fun hy => hne (Tree.node_setNode_of_ne hy _)
      cases hleads <;> rfl

theorem Edit.changesAt (h : s.Sound) (hu : s.tree.Unshared) (hp : p.Live s.tree)
    (he : s.Edit observed rule p x n) : s.tree.ChangesAt p (s.put x n).tree := by
  have ht := (h.orderly hu).shaped
  have ht' := ((he.sound h).orderly (he.unshared h hp hu)).shaped
  obtain ⟨_, _, hleads⟩ := he.leads
  cases p with
  | root => cases hleads
  | child parent key value =>
    exact .of_confined (he.confined hp) (.setNode (he.admissible h).2.1 n) ht ht' hp.1

theorem Fires.changesAt (h : s.Sound) (hu : s.tree.Unshared) (hp : p.Live s.tree)
    (hleads : p.Leads s.tree owner a) (hfires : Fires observed rule p s s') :
    s.tree.ChangesAt p s'.tree := by
  refine (Fires.lift (R := fun s s' => s.tree.Unshared → s'.tree.Unshared ∧
    s.tree.ChangesAt p s'.tree) ?_ ?_ h hp hleads hfires hu).2
  · intro s s₁ s₂ h h' hu
    obtain ⟨hu₁, hchanges⟩ := h hu
    obtain ⟨hu₂, hchanges'⟩ := h' hu₁
    exact ⟨hu₂, hchanges.trans hchanges'⟩
  · intro s s₁ x n hs hs₁ hg hp₁ he hu
    have hu₁ := hg.unshared hs hs₁ hu
    have hgrown : s.tree.ChangesAt p s₁.tree :=
      .of_grows hg.tree (hs.orderly hu).shaped (hs₁.orderly hu₁).shaped
    exact ⟨he.unshared hs₁ hp₁ hu₁, hgrown.trans (he.changesAt hs₁ hu₁ hp₁)⟩

theorem Sound.exists_value_of_child {c id : NodeId} (h : s.Sound) (hid : s.tree.isFrozen id)
    (hc : s.tree.Child c id) : ∃ v, s.pool.values[c]? = some v := by
  rcases h.frozen (h.isFrozen_child hid hc) with hv | hempty
  · exact hv
  · rcases h.frozen hid with ⟨v, hv⟩ | hid
    · obtain ⟨w, hw⟩ := (h.spells hv).exists_child hc
      have hkind := hw.kind
      rw [(h.emptyStatement hempty).2] at hkind
      simp [Node.kind] at hkind
    · unfold Tree.Child at hc
      simp [(h.emptyStatement hid).2, Node.children, Node.slots] at hc

end Store

namespace FoldM

variable {s : FoldState} {owner id : NodeId}

theorem replace_ends_of_frozen (hleads : p.Leads s.tree owner id) (hf : s.tree.isFrozen owner)
    (new : NodeId) : Ends (replace p new) s (fun _ _ => False) fun _ => True := by
  have hcheck : s.tree.checkWritable owner = .error (.frozen owner) := if_pos hf
  have hrefused : s.tree.replace p new = .error (.frozen owner) := by
    cases hleads with
    | required hv | optional hv | item hv =>
      simp only [Tree.replace, Tree.write, hv, hcheck]
      rfl
  unfold Ends replace edit
  dsimp only
  rw [hrefused]
  trivial

theorem minifyBoolean_ends_of_frozen (hleads : p.Leads s.tree owner id)
    (hf : s.tree.isFrozen owner) :
    Ends (minifyBoolean p) s (fun retry _ => retry = none) fun _ => True := by
  unfold minifyBoolean
  split
  · refine .read (getTree_run s) ?_
    split
    · exact .pure rfl
    · refine .read (constant?_run s _) ?_
      split
      · rename_i b _
        have hg : s.toStore.Gains (s.toStore.minifiedBool b).2 := .minifiedBool _ b
        refine Ends.bind (m := store fun s => s.minifiedBool b)
          (Q := fun _ s' => s.toStore.Gains s'.toStore) hg fun new s₁ hg => ?_
        have howner := Tree.lt_size_of_isFrozen hf
        have hleads₁ : p.Leads s₁.tree owner id := hleads.congr (hg.tree.node howner)
        have hf₁ : s₁.tree.isFrozen owner := (hg.tree.isFrozen howner).trans hf
        exact (replace_ends_of_frozen hleads₁ hf₁ new).bind fun _ _ hfalse => hfalse.elim
      · exact .pure rfl
  · exact .pure rfl

end FoldM

namespace Rule

variable {rule : Rule} {s s' : FoldState} {owner id : NodeId} {retry : Path}

theorem ends_of_frozen (h : s.Sound) (hid : p.node? = some id) (hleads : p.Leads s.tree owner id)
    (hf : s.tree.isFrozen owner) (rule : Rule) :
    Ends (rule.apply p) s (fun answer _ => answer = none) fun _ => True := by
  obtain ⟨v, hv⟩ := h.exists_value_of_child hf hleads.child
  by_cases hrule : rule = .booleanLiterals
  · subst hrule
    exact FoldM.minifyBoolean_ends_of_frozen hleads hf
  · rw [Ends, apply_of_value? h hid (h.value?_of_values hv) hrule]

theorem open_of_fires (h : s.Sound) (hp : p.Live s.tree)
    (hrun : rule.apply p s = .ok (some retry) s') : ∃ owner id, s.Open p owner id := by
  cases hid : p.node? with
  | none =>
    cases ((rule.apply_plain hid s).of_ok hrun).1
  | some id =>
    rcases hp.cases hid with ⟨rfl, -⟩ | ⟨owner, hleads⟩
    · cases ((rule.apply_root h).of_ok hrun).1
    · refine ⟨owner, id, h, hleads, fun hf => ?_⟩
      cases (ends_of_frozen h hid hleads hf rule).of_ok hrun

end Rule

/-- A program is as it was but for what is at a path, below it and later in its list. A slot is told by the
way to it: a shared node is in several. -/
structure Tree.LocalTo (p : Path) (t t' : Tree) : Prop where
  /-- Slots elsewhere hold what they held. -/
  slot : ∀ {q}, ¬ p.Region q → (q.Live t' ↔ q.Live t)
  /-- Lists elsewhere, but for the one around the path and those further up, have the same entries. -/
  items : ∀ {q}, p.Beside q → q.Live t → t'.listItems? q.value = t.listItems? q.value
  /-- So it is with the terms below slots. -/
  term : ∀ {q id}, p.Beside q → q.Live t → q.node? = some id →
    ∃ term, t.termAt? id = some term ∧ t'.termAt? id = some term
  /-- No shared node elsewhere is changed; none of them is above the path. -/
  frozen : ∀ {q id}, ¬ p.Region q → q.Live t → q.node? = some id → t.isFrozen id →
    p.Beside q ∧ t'.isFrozen id ∧ t'.node id = t.node id

namespace Store

variable {s s' : Store} {owner a : NodeId}

/-- Nothing frozen is above a slot that may be edited. -/
theorem Open.beside (hopen : s.Open p owner a) (hp : p.Live s.tree) (hq : ¬ p.Region q) {id : NodeId}
    (hid : q.node? = some id) (hf : s.tree.isFrozen id) : p.Beside q where
  outside := hq
  not_above habove := by
    have howner : q.value.owner? = some id := by
      rw [Path.value_eq_node hid]
      rfl
    cases habove with
    | refl =>
      cases p with
      | root value => exact hq trivial
      | child parent key value => exact hq ⟨key, value, .self key, .refl⟩
    | child habove =>
      have hwithin := habove.within hp.1 howner hopen.leads.owner?
      exact hopen.writable (hopen.sound.isFrozen_within hf hwithin)

theorem term_of_changesAt (h : s.Sound) (h' : s'.Sound) (hsize : s.tree.size ≤ s'.tree.size)
    (hchanges : s.tree.ChangesAt p s'.tree) (hq : p.Beside q) (hlive : q.Live s.tree) {id : NodeId}
    (hid : q.node? = some id) :
    ∃ term, s.tree.termAt? id = some term ∧ s'.tree.termAt? id = some term := by
  have hlt := h.lt_size_of_live hlive hid
  refine ⟨s.tree.termOf id, h.termAt?_eq hlt, ?_⟩
  rw [h'.termAt?_eq (hlt.trans_le hsize)]
  refine congrArg some (h.termOf_congr h' hsize hlt fun x hx => ?_)
  obtain ⟨r, hr, hrlive, hrx⟩ := hlive.exists_within (Path.value_eq_node hid) hx
  refine hchanges.node (hq.below hr) hrlive ?_
  rw [Path.node?, hrx]
  rfl

end Store

theorem Rule.localTo {rule : Rule} {s s' : FoldState} {retry : Path} (h : s.Sound)
    (hu : s.tree.Unshared) (hp : p.Live s.tree) (hrun : rule.apply p s = .ok (some retry) s') :
    s.tree.LocalTo p s'.tree := by
  obtain ⟨owner, a, hopen⟩ := open_of_fires h hp hrun
  obtain ⟨h', hfires, -⟩ := (rule.apply_ensures hopen).of_ok hrun
  have hchanges := hfires.changesAt h hu hp hopen.leads
  obtain ⟨hevolves, -⟩ := Store.Fires.evolves h hopen.leads hfires
  refine ⟨hchanges.live, hchanges.items, fun hq hlive hid => ?_, fun {q id} hq hlive hid hf => ?_⟩
  · exact Store.term_of_changesAt h h' hevolves.size hchanges hq hlive hid
  · have hbeside := hopen.beside hp hq hid hf
    have hlt := h.lt_size_of_live hlive hid
    exact ⟨hbeside, (hevolves.isFrozen hlt).trans hf, hchanges.node hbeside hlive hid⟩

/-- In every state of a run over a program that was read, what a rule changes where it fires is at the path:
the slot, what is below it, and what comes later in its list. All other slots hold the same nodes, the terms
below them are the same but for those above the path, and shared nodes stay what they are. -/
theorem Tree.local_ofJson {json : Json} {t : Tree} (hj : json.Finite) (ht : ofJson json = .ok t) :
    (∀ rules s, FoldState.Folds rules { tree := t } s → ∀ (rule : Rule) (p retry : Path) s',
      p.Live s.tree → rule.apply p s = .ok (some retry) s' → s.tree.LocalTo p s'.tree) ∧
    ∀ options : Options, ∀ limit, ∃ s, options.rounds limit { tree := t } = .ok () s ∧
      FoldState.Folds options.rules { tree := t } s := by
  have hs : Store.Sound { tree := t } := (fresh_ofJson hj ht).sound
  have hu : t.Unshared := nodup_members hs.wellFormed (laid_ofJson hj ht).held t.root
  refine ⟨fun rules s hr rule p retry s' hp hrun => ?_, fun options limit => ?_⟩
  · exact rule.localTo (hr.sound hs) (hr.unshared hs hu) hp hrun
  · obtain ⟨_, s, hrun, hfolds⟩ := options.rounds_ensures limit (s := { tree := t }) hs
    exact ⟨s, hrun, hfolds⟩

/-- The program `a; ;`. -/
def Json.programNameNothing : Json :=
  .obj [("type", .str "Program"), ("body", .arr [.obj [("type", .str "ExpressionStatement"),
    ("expression", .obj [("type", .str "Identifier"), ("name", .str "a")])],
    .obj [("type", .str "EmptyStatement")]])]

theorem Json.finite_programNameNothing : programNameNothing.Finite := by
  simp [programNameNothing, Json.Finite, Json.FiniteMembers, Json.FiniteItems]

theorem Tree.local_ofJson_programNameNothing : ∃ t, ∃ retry, ∃ s : FoldState,
    ofJson .programNameNothing = .ok t ∧ t.node 4 = .program [2, 3] ∧
    Rule.emptyStatements.apply ((Path.ofNode 4).get t [.field .body, .index 1]) { tree := t } =
      .ok (some retry) s ∧ ∃ term, t.termAt? 2 = some term ∧ s.tree.termAt? 2 = some term := by
  let list := (Path.ofNode 4).child (.field .body) (.list 4 .body)
  let name := list.child (.index 0) (.node 2)
  let slot := list.child (.index 1) (.node 3)
  obtain ⟨t, ht, hprogram, hname, hslot, hget, retry, s, hrun⟩ :
      ∃ t, ofJson .programNameNothing = .ok t ∧ t.node 4 = .program [2, 3] ∧ name.Live t ∧
        slot.Live t ∧ (Path.ofNode 4).get t [.field .body, .index 1] = slot ∧
        ∃ retry s, Rule.emptyStatements.apply slot { tree := t } = .ok (some retry) s :=
    ⟨_, rfl, rfl, ⟨⟨rfl, rfl⟩, rfl⟩, ⟨⟨rfl, rfl⟩, rfl⟩, rfl, _, _, rfl⟩
  have hlocal := (local_ofJson Json.finite_programNameNothing ht).1 [] _ .refl .emptyStatements
    slot retry s hslot hrun
  have hbeside : slot.Beside name := by
    constructor
    · rintro ⟨key, value, hkey, habove⟩
      obtain ⟨j, rfl, hj⟩ := hkey.exists_index
      cases Path.key_eq_of_above habove (.refl (p := name))
      omega
    · intro habove
      cases Path.key_eq_of_above habove (.refl (p := slot))
  exact ⟨t, retry, s, ht, hprogram, by rw [hget, hrun], hlocal.term hbeside hname rfl⟩

end ScriptFold

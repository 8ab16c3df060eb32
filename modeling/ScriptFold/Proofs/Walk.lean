import ScriptFold.Proofs.Firing

/-!
A walk of rules ends. The fuel of a walk pays for the weight of what is to be walked: going down to
a child costs less than the weight of its parent, and a slot is walked again only after it has lost
weight. A walk that comes back to where it began has asked at every slot, and was never answered by
a change.
-/

namespace ScriptFold

open Store

/-- Some of the rules fire, below a node. -/
structure Advances (rules : List Rule) (owner : NodeId) (s s' : FoldState) : Prop
    extends Evolves owner s.toStore s'.toStore where
  reaches : s.Reaches rules s'

namespace Advances

variable {rules : List Rule} {owner : NodeId} {s s' s'' : FoldState}

theorem refl (h : s.Sound) : Advances rules owner s s :=
  ⟨.refl h, .refl⟩

theorem trans (h : Advances rules owner s s') (h' : Advances rules owner s' s'') :
    Advances rules owner s s'' :=
  ⟨h.toEvolves.trans h'.toEvolves, h.reaches.trans h'.reaches⟩

theorem lift {parent : NodeId} (h : Advances rules owner s s') (hc : s.tree.Child owner parent) :
    Advances rules parent s s' :=
  ⟨h.toEvolves.lift hc, h.reaches⟩

theorem eq_of_back (h : Advances rules owner s s') (h' : s'.Reaches rules s'') (hs : s.Sound)
    (hback : s'' = s) : s' = s :=
  h.reaches.eq_of_trans hs (hback ▸ h')

end Advances

/-- What a walker may expect of the stage behind it. -/
structure Tame (rules : List Rule) (next : Next FoldError FoldState) : Prop where
  plain : ∀ {s : FoldState} {p}, p.node? = none →
    Ensures (next p) s fun c s' => c.isRetry = false ∧ s' = s
  root : ∀ {s : FoldState}, s.Sound →
    Ensures (next (.root (.node s.tree.root))) s fun _ s' => s' = s
  frozen : ∀ {s : FoldState} {p owner id}, s.Sound → p.Live s.tree → p.Leads s.tree owner id →
    s.tree.isFrozen owner → Ensures (next p) s fun c s' => c.isRetry = false ∧ s' = s
  slot : ∀ {s : FoldState} {p owner id}, p.Live s.tree → s.Open p owner id →
    Ensures (next p) s fun c s' => Advances rules owner s s' ∧
      if c.isRetry then p.load s'.tree < p.load s.tree else s' = s

section Equations

variable {ε σ : Type} [HasTree σ] {next : Next ε σ} {fuel : Nat} {p : Path}

theorem descend_null (h : p.value = .null) : descend next (fuel + 1) p = pure .proceed := by
  rw [descend, h]

theorem descend_list {owner : NodeId} {f : Field} (h : p.value = .list owner f) :
    descend next (fuel + 1) p = (do settleItems next fuel p 0; next p) := by
  rw [descend, h]

/-- Walks all slots of a node. -/
def walkFields (next : Next ε σ) (fuel : Nat) (p : Path) (id : NodeId) : WalkM ε σ Unit := do
  ((← getTree).node id).fields.forM fun field => settle next fuel p (.field field)

theorem descend_node {id : NodeId} (h : p.value = .node id) :
    descend next (fuel + 1) p = (do walkFields next fuel p id; next p) := by
  rw [descend, h]
  simp only [walkFields, bind_assoc]

end Equations

/-- A step gives the answers of another, and perhaps more. -/
def Extends {ε σ α : Type} (m m' : EStateM ε σ α) : Prop :=
  ∀ s a s', m s = .ok a s' → m' s = .ok a s'

namespace Extends

variable {ε σ α β : Type} {m m' : EStateM ε σ α}

theorem refl (m : EStateM ε σ α) : Extends m m := fun _ _ _ => id

theorem bind {f f' : α → EStateM ε σ β} (hm : Extends m m') (hf : ∀ a, Extends (f a) (f' a)) :
    Extends (m >>= f) (m' >>= f') := by
  intro s b s' h
  change EStateM.bind m f s = _ at h
  change EStateM.bind m' f' s = _
  unfold EStateM.bind at h ⊢
  split at h
  · rw [hm _ _ _ ‹_›]
    exact hf _ _ _ _ h
  · cases h

theorem forM {ι : Type} {f f' : ι → EStateM ε σ Unit} (hf : ∀ i, Extends (f i) (f' i))
    (is : List ι) : Extends (is.forM f) (is.forM f') := by
  induction is with
  | nil => exact refl _
  | cons i is ih => exact (hf i).bind fun _ => ih

end Extends

section

variable {ε σ : Type} [HasTree σ]

/-- Neither more fuel nor a stage that answers more changes an answer. -/
theorem descend_extends {next next' : Next ε σ} (h : ∀ p, Extends (next p) (next' p))
    (fuel more : Nat) :
    (∀ p, Extends (descend next fuel p) (descend next' (fuel + more) p)) ∧
      (∀ p key, Extends (settle next fuel p key) (settle next' (fuel + more) p key)) ∧
      ∀ p i, Extends (settleItems next fuel p i) (settleItems next' (fuel + more) p i) := by
  induction fuel with
  | zero =>
    refine ⟨fun p s a s' h => ?_, fun p key s a s' h => ?_, fun p i s a s' h => ?_⟩
    · rw [descend] at h
      cases h
    · rw [settle] at h
      cases h
    · rw [settleItems] at h
      cases h
  | succ fuel ih =>
    obtain ⟨hdescend, hsettle, hitems⟩ := ih
    rw [Nat.succ_add]
    refine ⟨fun p => ?_, fun p key => ?_, fun p i => ?_⟩
    · rw [descend, descend]
      cases p.value with
      | null => exact .refl _
      | list owner f => exact (hitems p 0).bind fun _ => h p
      | node id =>
        refine Extends.bind (.refl _) fun t => ?_
        exact (Extends.forM (fun f => hsettle p (.field f)) _).bind fun _ => h p
    · rw [settle, settle]
      refine Extends.bind (.refl _) fun t => (hdescend _).bind fun answer => ?_
      cases answer.isRetry with
      | true => exact hsettle p key
      | false => exact .refl _
    · rw [settleItems, settleItems]
      refine Extends.bind (.refl _) fun t => ?_
      split
      · exact (hsettle p _).bind fun _ => hitems p _
      · exact .refl _

theorem descend_of_le {next : Next ε σ} {fuel more : Nat} (h : fuel ≤ more) (p : Path) :
    Extends (descend next fuel p) (descend next more p) := by
  obtain ⟨k, rfl⟩ := Nat.exists_eq_add_of_le h
  exact (descend_extends (fun p => .refl _) fuel k).1 p

end

variable {rules : List Rule} {next : Next FoldError FoldState}

def Key.entry : Key → Nat
  | .field _ => 0
  | .index _ => 2

namespace Tree

variable {t : Tree} {w : NodeId → Nat} {owner c : NodeId} {f : Field} {i : Nat} {r : Ref} {key : Key}

theorem loadAt_field : t.loadAt w (.node owner) (.field f) =
    ((t.slot? owner f).map fun slot => (slot.map w).total 2 0).getD 0 := rfl

theorem loadAt_index : t.loadAt w (.list owner f) (.index i) =
    listLoad w (((t.listItems? (.list owner f)).getD []).drop i) := rfl

theorem loadAt_field_le (t : Tree) (w : NodeId → Nat) (owner : NodeId) (f : Field) :
    t.loadAt w (.node owner) (.field f) ≤ ((t.node owner).map w).load := by
  rw [loadAt_field]
  cases hs : t.slot? owner f with
  | none => exact Nat.zero_le _
  | some slot =>
    obtain ⟨l, r, hsplit, -⟩ := Node.slots_split hs
    unfold Node.load
    rw [Node.slots_map, hsplit]
    simp only [Option.map_some, Option.getD_some, List.map_append, List.map_cons, List.sum_append,
      List.sum_cons]
    omega

theorem entry_add_le_loadAt (h : t.read r key = .node c) : key.entry + w c ≤ t.loadAt w r key := by
  obtain ⟨owner, hp⟩ := Path.leads_of_read (p := .root r) h
  cases hp with
  | required hv hs | optional hv hs =>
    obtain rfl : r = .node owner := hv
    rw [loadAt, hs]
    exact (Nat.zero_add _).le
  | @item _ f _ _ i slot items hv hs hi hget =>
    obtain rfl : r = .list owner f := hv
    obtain ⟨l, r, rfl, rfl⟩ := Path.split_of_getElem? hget
    rw [loadAt, listItems?, hs, Option.bind_some, hi, Option.getD_some, List.drop_left, listLoad_cons]
    exact Nat.le_add_right _ _

theorem loadAt_list (h : t.read (.node owner) (.field f) = .list owner f) :
    t.loadAt w (.list owner f) (.index 0) = t.loadAt w (.node owner) (.field f) := by
  unfold read at h
  dsimp only at h
  rw [loadAt_index, loadAt_field, listItems?]
  cases hs : t.slot? owner f with
  | none =>
    rw [hs] at h
    cases h
  | some slot =>
    rw [hs] at h
    rw [Option.bind_some, Option.map_some, Option.getD_some, List.drop_zero]
    cases slot with
    | required c => cases h
    | optional c => cases c <;> cases h
    | list cs | holey cs => exact (total_map_of_items? rfl).symm

theorem loadAt_succ (h : i < (t.listLength? (.list owner f)).getD 0) :
    t.loadAt w (.list owner f) (.index (i + 1)) + 2 ≤ t.loadAt w (.list owner f) (.index i) := by
  unfold listLength? at h
  rw [loadAt_index, loadAt_index]
  cases hi : t.listItems? (.list owner f) with
  | none =>
    rw [hi] at h
    cases h
  | some items =>
    rw [hi, Option.map_some, Option.getD_some] at h
    rw [Option.getD_some, List.drop_eq_getElem_cons h, listLoad_cons]
    omega

theorem loadAt_of_le (h : ¬ i < (t.listLength? (.list owner f)).getD 0) :
    t.loadAt w (.list owner f) (.index i) = 0 := by
  unfold listLength? at h
  rw [loadAt_index]
  cases hi : t.listItems? (.list owner f) with
  | none =>
    rw [Option.getD_none, List.drop_nil]
    rfl
  | some items =>
    rw [hi, Option.map_some, Option.getD_some] at h
    rw [Option.getD_some, List.drop_eq_nil_of_le (by omega)]
    rfl

end Tree

/-- What a slot costs besides what is in it. -/
def Key.slack : Key → Nat
  | .field _ => 5
  | .index _ => 2

theorem Key.two_le_slack (key : Key) : 2 ≤ key.slack := by
  cases key <;> simp [slack]

/-- With a given fuel, what is below frozen nodes is walked, and left as it is. -/
structure WalksFrozen (next : Next FoldError FoldState) (s : FoldState) (fuel : Nat) : Prop where
  descend : ∀ {p owner id}, p.Live s.tree → p.Leads s.tree owner id → s.tree.isFrozen owner →
    6 * s.tree.extent id ≤ fuel →
    Ensures (descend next fuel p) s fun c s' => c.isRetry = false ∧ s' = s
  settle : ∀ {p id k}, p.Live s.tree → p.value.owner? = some id → s.tree.isFrozen id →
    6 * s.tree.loadAt s.tree.extent p.value k + k.slack ≤ fuel →
    Ensures (settle next fuel p k) s fun _ s' => s' = s
  items : ∀ {p id f i}, p.Live s.tree → p.value = .list id f → s.tree.isFrozen id →
    6 * s.tree.loadAt s.tree.extent p.value (.index i) + 3 ≤ fuel →
    Ensures (settleItems next fuel p i) s fun _ s' => s' = s

theorem WalksFrozen.fields {s : FoldState} {fuel : Nat} {p : Path} {id : NodeId}
    (h : WalksFrozen next s fuel) (hs : s.Sound) (hp : p.Live s.tree) (hv : p.value = .node id)
    (hf : s.tree.isFrozen id) (hfuel : 6 * s.tree.extent id ≤ fuel + 1) :
    Ensures (walkFields next fuel p id) s fun _ s' => s' = s := by
  refine .read (FoldM.getTree_run s) (.forM rfl fun f _ s' hs' => ?_)
  subst hs'
  refine h.settle hp (by rw [hv]; rfl) hf ?_
  have hload := s'.tree.loadAt_field_le s'.tree.extent id f
  rw [Tree.extent_of_node hs.wellFormed rfl] at hfuel
  rw [hv, Key.slack]
  omega

theorem WalksFrozen.once (h : Tame rules next) {s : FoldState} {fuel : Nat}
    (ih : ∀ m < fuel + 2, WalksFrozen next s m) {p : Path} {id : NodeId} {key : Key}
    (hp : p.Live s.tree) (hid : p.value.owner? = some id) (hf : s.tree.isFrozen id)
    (hfuel : 6 * s.tree.loadAt s.tree.extent p.value key + key.slack ≤ fuel + 2) :
    Ensures (ScriptFold.descend next (fuel + 1) (p.step s.tree key)) s fun c s' =>
      c.isRetry = false ∧ s' = s := by
  have hq : (p.step s.tree key).Live s.tree := ⟨hp, rfl⟩
  cases hread : s.tree.read p.value key with
  | null =>
    rw [descend_null (p := p.step s.tree key) hread]
    exact .pure ⟨rfl, rfl⟩
  | node c =>
    obtain ⟨owner, hleads⟩ := Path.leads_of_read (p := p) hread
    obtain rfl : owner = id := Option.some.inj (hleads.owner?.symm.trans hid)
    have hcost := Tree.entry_add_le_loadAt (w := s.tree.extent) hread
    have hstep : p.step s.tree key = .child p key (.node c) := congrArg (Path.child p key) hread
    have hslack := key.two_le_slack
    refine (ih (fuel + 1) (by omega)).descend hq (hstep ▸ hleads) hf ?_
    omega
  | list o f =>
    obtain ⟨hv, rfl⟩ := Path.list_of_read hread
    obtain rfl : o = id := by
      rw [hv] at hid
      exact Option.some.inj hid
    rw [descend_list (p := p.step s.tree (.field f)) hread]
    rw [hv, Key.slack, ← Tree.loadAt_list (hv ▸ hread)] at hfuel
    refine ((ih fuel (by omega)).items hq hread hf ?_).bind fun _ s' hs' => ?_
    · change 6 * s.tree.loadAt s.tree.extent (s.tree.read p.value (.field f)) (.index 0) + 3 ≤ fuel
      rw [hread]
      omega
    subst hs'
    refine h.plain ?_
    change (s'.tree.read p.value (.field f)).node? = none
    rw [hread]
    rfl

theorem Tame.walksFrozen (h : Tame rules next) {s : FoldState} (hs : s.Sound) (fuel : Nat) :
    WalksFrozen next s fuel := by
  have wf := hs.wellFormed
  induction fuel using Nat.strong_induction_on with
  | _ fuel ih =>
    refine ⟨fun {p owner id} hp hleads hf hfuel => ?_, fun {p id key} hp hid hf hfuel => ?_,
      fun {p id f i} hp hv hf hfuel => ?_⟩
    · have hv : p.value = .node id := by cases hleads <;> rfl
      have hpos := Tree.extent_of_node wf (show s.tree.node id = _ from rfl)
      obtain ⟨fuel, rfl⟩ : ∃ k, fuel = k + 1 := ⟨fuel - 1, by omega⟩
      rw [descend_node hv]
      refine ((ih fuel (Nat.lt_succ_self _)).fields hs hp hv (hs.isFrozen_child hf hleads.child)
        hfuel).bind fun _ s' hs' => ?_
      subst hs'
      exact h.frozen hs hp hleads hf
    · have hslack := key.two_le_slack
      obtain ⟨fuel, rfl⟩ : ∃ k, fuel = k + 2 := ⟨fuel - 2, by omega⟩
      rw [ScriptFold.settle]
      refine .read (FoldM.getTree_run s) ?_
      refine (WalksFrozen.once h ih hp hid hf hfuel).bind fun c s' ⟨hc, hs'⟩ => ?_
      rw [hc]
      exact .pure hs'
    · obtain ⟨fuel, rfl⟩ : ∃ k, fuel = k + 1 := ⟨fuel - 1, by omega⟩
      rw [settleItems]
      refine .read (FoldM.getTree_run s) ?_
      split
      · rename_i hi
        rw [hv] at hi hfuel
        have hnext := Tree.loadAt_succ (w := s.tree.extent) hi
        refine ((ih fuel (Nat.lt_succ_self _)).settle hp (k := .index i) (by rw [hv]; rfl) hf ?_).bind
          fun _ s' hs' => ?_
        · rw [hv, Key.slack]
          omega
        subst hs'
        refine (ih fuel (Nat.lt_succ_self _)).items hp hv hf ?_
        rw [hv]
        omega
      · exact .pure rfl

theorem Tree.slot?_of_not_mem {t : Tree} {id : NodeId} {f : Field} (h : f ∉ (t.node id).fields) :
    t.slot? id f = none := by
  refine List.lookup_eq_none_iff.mpr fun e he => ?_
  rw [bne_iff_ne]
  rintro rfl
  exact h (List.mem_map_of_mem he)

theorem Tree.read_of_length_le {t : Tree} {r : Ref} {i : Nat}
    (h : (t.listLength? r).getD 0 ≤ i) : t.read r (.index i) = .null := by
  cases r with
  | null | node id => rfl
  | list owner f =>
    unfold listLength? at h
    unfold read
    dsimp only
    cases hi : t.listItems? (.list owner f) with
    | none => rfl
    | some items =>
      rw [hi, Option.map_some, Option.getD_some] at h
      rw [Option.bind_some, List.getElem?_eq_none h]

/-- At every slot from a path on that may be edited, the stage answers and changes nothing. -/
def Quiet (next : Next FoldError FoldState) (s : FoldState) (p : Path) : Prop :=
  ∀ q owner id, p.Above q → q.Live s.tree → s.Open q owner id → ∃ c, next q s = .ok c s

namespace Quiet

variable {s : FoldState} {p : Path}

theorem of_null (h : p.value = .null) : Quiet next s p := by
  intro q owner id hq hlive hopen
  have hnull := hq.value_eq_null hlive h
  rw [hopen.value] at hnull
  cases hnull

theorem of_steps (hp : ∀ {owner id}, s.Open p owner id → ∃ c, next p s = .ok c s)
    (h : ∀ key, Quiet next s (p.step s.tree key)) : Quiet next s p := by
  intro q owner id hq hlive hopen
  rcases hq.eq_or_step hlive with rfl | ⟨key, hq⟩
  · exact hp hopen
  · exact h key q owner id hq hlive hopen

theorem of_fields {id : NodeId} (hv : p.value = .node id)
    (hp : ∀ {owner id}, s.Open p owner id → ∃ c, next p s = .ok c s)
    (h : ∀ f ∈ (s.tree.node id).fields, Quiet next s (p.step s.tree (.field f))) :
    Quiet next s p := by
  refine of_steps hp fun key => ?_
  cases key with
  | index i =>
    refine of_null ?_
    change s.tree.read p.value (.index i) = .null
    rw [hv]
    rfl
  | field f =>
    by_cases hf : f ∈ (s.tree.node id).fields
    · exact h f hf
    · refine of_null ?_
      change s.tree.read p.value (.field f) = .null
      rw [hv]
      simp only [Tree.read, Tree.slot?_of_not_mem hf]

theorem of_items {id : NodeId} {f : Field} (hv : p.value = .list id f)
    (h : ∀ i, Quiet next s (p.step s.tree (.index i))) : Quiet next s p := by
  refine of_steps (fun hopen => ?_) fun key => ?_
  · rw [hopen.value] at hv
    cases hv
  · cases key with
    | index i => exact h i
    | field g =>
      refine of_null ?_
      change s.tree.read p.value (.field g) = .null
      rw [hv]
      rfl

theorem of_frozen {x : NodeId} (hs : s.Sound) (hx : p.value.owner? = some x)
    (hf : s.tree.isFrozen x) (key : Key) : Quiet next s (p.step s.tree key) := by
  intro q owner id hq hlive hopen
  refine absurd ?_ hopen.writable
  cases q with
  | root value => cases hopen.leads
  | child q key' v =>
    exact hs.isFrozen_within hf (hq.parent.within hlive.1 hx hopen.leads.owner?)

end Quiet

/-- With a given fuel, what weighs no more than that is walked, and no rule fires above it. -/
structure Walks (rules : List Rule) (next : Next FoldError FoldState) (fuel : Nat) : Prop where
  descend : ∀ {s : FoldState} {p owner id}, p.Live s.tree → s.Open p owner id →
    30 * s.tree.weight id ≤ fuel →
    Ensures (descend next fuel p) s fun c s' => Advances rules owner s s' ∧
      (s' = s → Quiet next s p) ∧
      if c.isRetry then p.load s'.tree < p.load s.tree else p.load s'.tree ≤ p.load s.tree
  settle : ∀ {s : FoldState} {p id k}, s.Sound → p.Live s.tree → p.value.owner? = some id →
    ¬ s.tree.isFrozen id → 30 * s.tree.loadAt s.tree.weight p.value k + k.slack ≤ fuel →
    Ensures (settle next fuel p k) s fun _ s' => Advances rules id s s' ∧
      (s' = s → Quiet next s (p.step s.tree k)) ∧
      (p.isList → s'.tree.loadAt s'.tree.weight p.value k ≤ s.tree.loadAt s.tree.weight p.value k)
  items : ∀ {s : FoldState} {p id f i}, s.Sound → p.Live s.tree → p.value = .list id f →
    ¬ s.tree.isFrozen id → 30 * s.tree.loadAt s.tree.weight p.value (.index i) + 3 ≤ fuel →
    Ensures (settleItems next fuel p i) s fun _ s' => Advances rules id s s' ∧
      (s' = s → ∀ j, i ≤ j → Quiet next s (p.step s.tree (.index j)))

theorem Walks.fields (h : Tame rules next) {fuel : Nat} (hw : Walks rules next fuel) {s : FoldState}
    {p : Path} {id : NodeId} (hs : s.Sound) (hp : p.Live s.tree) (hv : p.value = .node id)
    (hfuel : 30 * s.tree.weight id ≤ fuel + 1) :
    Ensures (walkFields next fuel p id) s fun _ s' => Advances rules id s s' ∧
      (s' = s → ∀ f ∈ (s.tree.node id).fields, Quiet next s (p.step s.tree (.field f))) := by
  have hid : p.value.owner? = some id := by
    rw [hv]
    rfl
  by_cases hf : s.tree.isFrozen id
  · have hextent := hs.extent_le hf
    have hbulk := hs.bulk_le_weight hf
    refine ((h.walksFrozen hs fuel).fields hs hp hv hf (by omega)).mono fun _ s' hs' => ?_
    subst hs'
    exact ⟨.refl hs, fun _ f _ => .of_frozen hs hid hf _⟩
  · refine .read (FoldM.getTree_run s) ?_
    generalize (s.tree.node id).fields = fields
    have hsize : id < s.tree.size := hs.lt_size_of_live hp (by rw [Path.node?, hv]; rfl)
    induction fields generalizing s with
    | nil => exact .pure ⟨.refl hs, fun _ f hf => by cases hf⟩
    | cons f fields ih =>
      have hload := s.tree.loadAt_field_le s.tree.weight id f
      have hweight := Tree.weight_eq hs.wellFormed hf
      have hburden := (s.tree.node id).burden_pos
      refine (hw.settle hs hp hid hf ?_).bind fun _ s₁ hsettled => ?_
      · rw [hv, Key.slack]
        omega
      obtain ⟨hs₁, hquiet, -⟩ := hsettled
      have hle := hs₁.weight hsize
      have hf₁ : ¬ s₁.tree.isFrozen id := by rwa [hs₁.isFrozen hsize]
      refine (ih hs₁.sound (hs₁.live hp hid .refl) (by omega) hf₁ (hsize.trans_le hs₁.size)).mono
        fun _ s₂ hrest => ?_
      obtain ⟨hs₂, hquiet₂⟩ := hrest
      refine ⟨hs₁.trans hs₂, fun hback => ?_⟩
      obtain rfl := hs₁.eq_of_back hs₂.reaches hs hback
      exact List.forall_mem_cons.mpr ⟨hquiet rfl, hquiet₂ hback⟩

theorem Walks.once (h : Tame rules next) {fuel : Nat} (ih : ∀ m < fuel + 2, Walks rules next m)
    {s : FoldState} {p : Path} {id : NodeId} {key : Key} (hs : s.Sound) (hp : p.Live s.tree)
    (hid : p.value.owner? = some id) (hf : ¬ s.tree.isFrozen id)
    (hfuel : 30 * s.tree.loadAt s.tree.weight p.value key + key.slack ≤ fuel + 2) :
    Ensures (ScriptFold.descend next (fuel + 1) (p.step s.tree key)) s fun c s' =>
      Advances rules id s s' ∧ (s' = s → Quiet next s (p.step s.tree key)) ∧
        if c.isRetry then
          s'.tree.loadAt s'.tree.weight p.value key < s.tree.loadAt s.tree.weight p.value key
        else p.isList →
          s'.tree.loadAt s'.tree.weight p.value key ≤ s.tree.loadAt s.tree.weight p.value key := by
  have hq : (p.step s.tree key).Live s.tree := ⟨hp, rfl⟩
  cases hread : s.tree.read p.value key with
  | null =>
    rw [descend_null (p := p.step s.tree key) hread]
    exact .pure ⟨.refl hs, fun _ => .of_null hread, fun _ => le_rfl⟩
  | node c =>
    obtain ⟨owner, hleads⟩ := Path.leads_of_read (p := p) hread
    obtain rfl : owner = id := Option.some.inj (hleads.owner?.symm.trans hid)
    have hcost := Tree.entry_add_le_loadAt (w := s.tree.weight) hread
    have hstep : p.step s.tree key = .child p key (.node c) := congrArg (Path.child p key) hread
    have hslack := key.two_le_slack
    rw [hstep] at hq ⊢
    refine ((ih (fuel + 1) (by omega)).descend hq ⟨hs, hleads, hf⟩ (by omega)).mono
      fun c s' hbelow => ?_
    obtain ⟨hs', hquiet, hc⟩ := hbelow
    refine ⟨hs', hquiet, ?_⟩
    split
    · rw [if_pos ‹_›] at hc
      exact hc
    · rw [if_neg ‹_›] at hc
      exact fun _ => hc
  | list o f =>
    -- a list is walked from its start, and then handed on, which changes nothing
    obtain ⟨hv, rfl⟩ := Path.list_of_read hread
    obtain rfl : o = id := by
      rw [hv] at hid
      exact Option.some.inj hid
    rw [descend_list (p := p.step s.tree (.field f)) hread]
    rw [hv, Key.slack, ← Tree.loadAt_list (hv ▸ hread)] at hfuel
    refine ((ih fuel (by omega)).items hs hq hread hf ?_).bind fun _ s' hitems => ?_
    · change 30 * s.tree.loadAt s.tree.weight (s.tree.read p.value (.field f)) (.index 0) + 3 ≤ fuel
      rw [hread]
      omega
    obtain ⟨hs', hquiet⟩ := hitems
    have hplain : (p.step s.tree (.field f)).node? = none := by
      change (s.tree.read p.value (.field f)).node? = none
      rw [hread]
      rfl
    refine (h.plain hplain).mono fun c s'' hanswer => ?_
    obtain ⟨hc, rfl⟩ := hanswer
    rw [hc, Path.isList, hv]
    exact ⟨hs', fun hback => .of_items hread fun i => hquiet hback i (Nat.zero_le i),
      fun hlist => by cases hlist⟩

theorem Walks.descend_succ (h : Tame rules next) {fuel : Nat} (hw : Walks rules next fuel)
    {s : FoldState} {p : Path} {owner id : NodeId} (hp : p.Live s.tree) (hopen : s.Open p owner id)
    (hfuel : 30 * s.tree.weight id ≤ fuel + 1) :
    Ensures (ScriptFold.descend next (fuel + 1) p) s fun c s' => Advances rules owner s s' ∧
      (s' = s → Quiet next s p) ∧
      if c.isRetry then p.load s'.tree < p.load s.tree else p.load s'.tree ≤ p.load s.tree := by
  rw [descend_node hopen.value]
  refine (hw.fields h hopen.sound hp hopen.value hfuel).bind fun _ s₁ hfields => ?_
  obtain ⟨hs₁, hquiet⟩ := hfields
  have hchild := hopen.leads.child
  have howner := hs₁.above (.single hchild)
  have hopen₁ : s₁.Open p owner id := by
    refine ⟨hs₁.sound, hopen.leads.congr howner, ?_⟩
    rw [hs₁.isFrozen (Tree.lt_size_of_child hchild)]
    exact hopen.writable
  have hp₁ := hs₁.live hp (by rw [hopen.value]; rfl) .refl
  have hload : p.load s₁.tree ≤ p.load s.tree :=
    hs₁.load_le hopen.sound.wellFormed hopen.leads howner
  obtain ⟨c, s₂, hnext, hs₂, hc⟩ := h.slot hp₁ hopen₁
  refine ⟨c, s₂, hnext, (hs₁.lift hchild).trans hs₂, fun hback => ?_, ?_⟩
  · obtain rfl := hs₁.eq_of_back hs₂.reaches hopen.sound hback
    exact .of_fields hopen.value (fun _ => ⟨c, hback ▸ hnext⟩) (hquiet rfl)
  · split
    · rw [if_pos ‹_›] at hc
      exact hc.trans_le hload
    · rw [if_neg ‹_›] at hc
      rwa [hc]

theorem Walks.settle_succ (h : Tame rules next) {fuel : Nat}
    (ih : ∀ m < fuel + 2, Walks rules next m) {s : FoldState} {p : Path} {id : NodeId} {key : Key}
    (hs : s.Sound) (hp : p.Live s.tree) (hid : p.value.owner? = some id)
    (hf : ¬ s.tree.isFrozen id)
    (hfuel : 30 * s.tree.loadAt s.tree.weight p.value key + key.slack ≤ fuel + 2) :
    Ensures (ScriptFold.settle next (fuel + 2) p key) s fun _ s' => Advances rules id s s' ∧
      (s' = s → Quiet next s (p.step s.tree key)) ∧
      (p.isList →
        s'.tree.loadAt s'.tree.weight p.value key ≤ s.tree.loadAt s.tree.weight p.value key) := by
  rw [ScriptFold.settle]
  refine .read (FoldM.getTree_run s) ?_
  refine (Walks.once h ih hs hp hid hf hfuel).bind fun c s' honce => ?_
  obtain ⟨hs', hquiet, hc⟩ := honce
  split
  · rw [if_pos ‹_›] at hc
    have hf' : ¬ s'.tree.isFrozen id := by rwa [hs'.isFrozen (hs.lt_size_of_owner hp hid)]
    refine ((ih (fuel + 1) (by omega)).settle hs'.sound (hs'.live hp hid .refl) hid hf' ?_).mono
      fun _ s'' hagain => ?_
    · omega
    · obtain ⟨hs'', -, hload⟩ := hagain
      refine ⟨hs'.trans hs'', fun hback => ?_, fun hl => (hload hl).trans hc.le⟩
      -- the slot has lost weight, so this walk cannot have come back
      obtain rfl := hs'.eq_of_back hs''.reaches hs hback
      exact absurd hc (lt_irrefl _)
  · rw [if_neg ‹_›] at hc
    exact .pure ⟨hs', hquiet, hc⟩

theorem Walks.items_succ {fuel : Nat} (hw : Walks rules next fuel) {s : FoldState} {p : Path}
    {id : NodeId} {f : Field} {i : Nat} (hs : s.Sound) (hp : p.Live s.tree)
    (hv : p.value = .list id f) (hf : ¬ s.tree.isFrozen id)
    (hfuel : 30 * s.tree.loadAt s.tree.weight p.value (.index i) + 3 ≤ fuel + 1) :
    Ensures (settleItems next (fuel + 1) p i) s fun _ s' => Advances rules id s s' ∧
      (s' = s → ∀ j, i ≤ j → Quiet next s (p.step s.tree (.index j))) := by
  have hid : p.value.owner? = some id := by
    rw [hv]
    rfl
  rw [settleItems]
  refine .read (FoldM.getTree_run s) ?_
  split
  · rename_i hi
    rw [hv] at hi
    have hhere := Tree.loadAt_succ (w := s.tree.weight) hi
    refine (hw.settle hs hp (k := .index i) hid hf ?_).bind fun _ s' hfirst => ?_
    · rw [Key.slack]
      omega
    obtain ⟨hs', hquiet, hload⟩ := hfirst
    have hload := hload (by rw [Path.isList, hv]; rfl)
    have hf' : ¬ s'.tree.isFrozen id := by rwa [hs'.isFrozen (hs.lt_size_of_owner hp hid)]
    refine (hw.items hs'.sound (hs'.live hp hid .refl) hv hf' ?_).mono fun _ s'' hrest => ?_
    · rw [hv] at hfuel hload ⊢
      by_cases hi' : i < (s'.tree.listLength? (.list id f)).getD 0
      · have hnext := Tree.loadAt_succ (w := s'.tree.weight) hi'
        omega
      · -- the list has become shorter and ends before the next position
        have hnext : s'.tree.loadAt s'.tree.weight (.list id f) (.index (i + 1)) = 0 :=
          Tree.loadAt_of_le (by omega)
        omega
    · obtain ⟨hs'', hquiet'⟩ := hrest
      refine ⟨hs'.trans hs'', fun hback j hj => ?_⟩
      obtain rfl := hs'.eq_of_back hs''.reaches hs hback
      rcases hj.eq_or_lt with rfl | hj
      · exact hquiet rfl
      · exact hquiet' hback j hj
  · rename_i hi
    refine .pure ⟨.refl hs, fun _ j hj => .of_null ?_⟩
    exact Tree.read_of_length_le (by omega)

/-- Whatever the fuel, what it is enough for is walked. -/
theorem Tame.walks (h : Tame rules next) (fuel : Nat) : Walks rules next fuel := by
  induction fuel using Nat.strong_induction_on with
  | _ fuel ih =>
    refine ⟨fun {s p owner id} hp hopen hfuel => ?_, fun {s p id key} hs hp hid hf hfuel => ?_,
      fun hs hp hv hf hfuel => ?_⟩
    · have hpos := Tree.weight_pos hopen.sound.wellFormed id
      obtain ⟨fuel, rfl⟩ : ∃ k, fuel = k + 1 := ⟨fuel - 1, by omega⟩
      exact (ih fuel (Nat.lt_succ_self _)).descend_succ h hp hopen hfuel
    · have hslack := key.two_le_slack
      obtain ⟨fuel, rfl⟩ : ∃ k, fuel = k + 2 := ⟨fuel - 2, by omega⟩
      exact Walks.settle_succ h ih hs hp hid hf hfuel
    · obtain ⟨fuel, rfl⟩ : ∃ k, fuel = k + 1 := ⟨fuel - 1, by omega⟩
      exact (ih fuel (Nat.lt_succ_self _)).items_succ hs hp hv hf hfuel

end ScriptFold

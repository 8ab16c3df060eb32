import ScriptFold.Proofs.Decrease

/-!
Total correctness of steps of folding. `Ensures m s Q` says that the step `m` succeeds from `s`, and
that `Q` holds of what it gives. The operations that rules are made of are met here once.
-/

namespace ScriptFold

theorem exists_run_of_bind {ε σ α β : Type} {m : EStateM ε σ α} {f : α → EStateM ε σ β} {s s' : σ}
    {b : β} (h : (m >>= f) s = .ok b s') : ∃ a s₁, m s = .ok a s₁ ∧ f a s₁ = .ok b s' := by
  change EStateM.bind m f s = _ at h
  unfold EStateM.bind at h
  split at h
  · exact ⟨_, _, ‹_›, h⟩
  · cases h

/-- A step succeeds from a state, with an outcome of which a property holds. -/
def Ensures {ε σ α : Type} (m : EStateM ε σ α) (s : σ) (Q : α → σ → Prop) : Prop :=
  ∃ a s', m s = .ok a s' ∧ Q a s'

namespace Ensures

variable {ε σ α β : Type} {m : EStateM ε σ α} {f : α → EStateM ε σ β} {s : σ} {a : α}
  {Q : α → σ → Prop} {R : β → σ → Prop}

theorem pure (h : Q a s) : Ensures (Pure.pure a : EStateM ε σ α) s Q :=
  ⟨a, s, rfl, h⟩

theorem mono (h : Ensures m s Q) {Q' : α → σ → Prop} (hQ : ∀ a s', Q a s' → Q' a s') :
    Ensures m s Q' := by
  obtain ⟨a, s', hm, ha⟩ := h
  exact ⟨a, s', hm, hQ a s' ha⟩

theorem bind (h : Ensures m s Q) (hf : ∀ a s', Q a s' → Ensures (f a) s' R) :
    Ensures (m >>= f) s R := by
  obtain ⟨a, s', hm, ha⟩ := h
  obtain ⟨b, s'', hb, hR⟩ := hf a s' ha
  refine ⟨b, s'', ?_, hR⟩
  change EStateM.bind m f s = _
  rw [EStateM.bind, hm]
  exact hb

theorem congr {m' : EStateM ε σ α} (h : Ensures m s Q) (heq : m' s = m s) : Ensures m' s Q := by
  obtain ⟨a, s', hm, ha⟩ := h
  exact ⟨a, s', heq.trans hm, ha⟩

theorem run_eq {a : α} {s' : σ} (h : Ensures m s fun b s₁ => b = a ∧ s₁ = s') : m s = .ok a s' := by
  obtain ⟨b, s₁, hm, rfl, rfl⟩ := h
  exact hm

theorem of_ok (h : Ensures m s Q) {s' : σ} (hm : m s = .ok a s') : Q a s' := by
  obtain ⟨_, _, hm', ha⟩ := h
  cases hm.symm.trans hm'
  exact ha

theorem read (hm : m s = .ok a s) (h : Ensures (f a) s R) : Ensures (m >>= f) s R :=
  bind ⟨a, s, hm, ⟨rfl, rfl⟩⟩ (Q := fun b s' => b = a ∧ s' = s) fun b s' hb => by
    obtain ⟨rfl, rfl⟩ := hb
    exact h

theorem forM {ι : Type} {xs : List ι} {f : ι → EStateM ε σ Unit} {P : σ → Prop} (h : P s)
    (hf : ∀ x ∈ xs, ∀ s, P s → Ensures (f x) s fun _ s' => P s') :
    Ensures (xs.forM f) s fun _ s' => P s' := by
  induction xs generalizing s with
  | nil => exact pure h
  | cons x xs ih =>
    refine (hf x (by simp) s h).bind fun _ s' hs' => ?_
    exact ih hs' fun y hy => hf y (by simp [hy])

end Ensures

theorem Path.Leads.congr {t t' : Tree} {p : Path} {owner id : NodeId} (h : p.Leads t owner id)
    (hn : t'.node owner = t.node owner) : p.Leads t' owner id := by
  have hslot : ∀ f, t'.slot? owner f = t.slot? owner f := fun f => by
    unfold Tree.slot?
    rw [hn]
  cases h with
  | required hv hs => exact .required hv ((hslot _).trans hs)
  | optional hv hs => exact .optional hv ((hslot _).trans hs)
  | item hv hs hi hget => exact .item hv ((hslot _).trans hs) hi hget

theorem Store.Sound.lt_size_of_live {s : Store} (h : s.Sound) {p : Path} {id : NodeId}
    (hp : p.Live s.tree) (hid : p.node? = some id) : id < s.tree.size := by
  rcases hp.cases hid with ⟨-, rfl⟩ | ⟨owner, hleads⟩
  · exact h.lt_size_of_root
  · exact h.wellFormed.closed hleads.child

/-- A path leads to a slot that may be edited. -/
structure Store.Open (s : Store) (p : Path) (owner id : NodeId) : Prop where
  sound : s.Sound
  leads : p.Leads s.tree owner id
  writable : ¬ s.tree.isFrozen owner

/-- The node at a path may be rewritten, and is a given one. -/
structure Store.Owns (s : Store) (p : Path) (owner id : NodeId) (n : Node NodeId) : Prop
    extends s.Open p owner id where
  editable : ¬ s.tree.isFrozen id
  node : s.tree.node id = n

namespace Store.Open

variable {s s' : Store} {p : Path} {owner id : NodeId}

theorem grows (h : s.Open p owner id) (hs' : s'.Sound) (hg : s.Grows s') : s'.Open p owner id where
  sound := hs'
  leads := h.leads.congr (hg.tree.node (Tree.lt_size_of_child h.leads.child))
  writable := by
    rw [hg.tree.isFrozen (Tree.lt_size_of_child h.leads.child)]
    exact h.writable

theorem value (h : s.Open p owner id) : p.value = .node id := by
  cases h.leads <;> rfl

theorem node? (h : s.Open p owner id) : p.node? = some id := by
  cases h.leads <;> rfl

theorem nodeAt? (h : s.Open p owner id) : s.tree.nodeAt? p = some (s.tree.node id) := by
  unfold Tree.nodeAt?
  rw [h.node?]
  rfl

theorem lt_size (h : s.Open p owner id) : id < s.tree.size :=
  h.sound.wellFormed.closed h.leads.child

theorem node_of_grows (h : s.Open p owner id) (hg : s.Grows s') {n : Node NodeId}
    (hn : s.tree.node id = n) : s'.tree.node id = n :=
  (hg.tree.node h.lt_size).trans hn

theorem not_frozen_of_grows (h : s.Open p owner id) (hg : s.Grows s') (hf : ¬ s.tree.isFrozen id) :
    ¬ s'.tree.isFrozen id := by
  rwa [hg.tree.isFrozen h.lt_size]

theorem owns (h : s.Open p owner id) {n : Node NodeId} (hn : s.tree.node id = n)
    (hk : n.kind ∉ [Kind.literal, .unaryExpression, .binaryExpression, .arrayExpression,
      .emptyStatement]) : s.Owns p owner id n :=
  ⟨h, h.sound.not_frozen_of_kind (hn ▸ hk), hn⟩

end Store.Open

namespace Store.Owns

variable {s s' : Store} {p : Path} {owner id : NodeId} {n n' : Node NodeId} {observed : Bool}
  {rule : Rule}

theorem grows (h : s.Owns p owner id n) (hs' : s'.Sound) (hg : s.Grows s') : s'.Owns p owner id n where
  toOpen := h.toOpen.grows hs' hg
  editable := h.toOpen.not_frozen_of_grows hg h.editable
  node := h.toOpen.node_of_grows hg h.node

theorem edit (h : s.Owns p owner id n) (hr : s.Rewrite rule n n') :
    s.Edit observed rule p id n' :=
  .rewrite h.leads h.editable (h.node ▸ hr)

theorem put (h : s.Owns p owner id n) (hr : s.Rewrite rule n n') :
    (s.put id n').Owns p owner id n' := by
  have hsize := h.lt_size
  have hne : owner ≠ id := by
    rintro rfl
    exact h.sound.wellFormed.not_below_self (.single h.leads.child)
  have he : s.Edit true rule p id n' := h.edit hr
  refine ⟨⟨he.sound h.sound, h.leads.congr ?_, ?_⟩, ?_, ?_⟩
  · exact (Tree.node_setNode hsize n' owner).trans (if_neg hne)
  · exact (s.tree.isFrozen_setNode id n' owner) ▸ h.writable
  · exact (s.tree.isFrozen_setNode id n' id) ▸ h.editable
  · exact (Tree.node_setNode hsize n' id).trans (if_pos rfl)

theorem value?_put (h : s.Owns p owner id n) (hr : s.Rewrite rule n n') {c : NodeId}
    (hc : s.tree.Child c id) : (s.put id n').value? c = s.value? c := by
  have hsize := h.lt_size
  refine h.sound.value?_congr (h.put hr).sound (fun x hx => ?_) fun _ _ => rfl
  refine (Tree.node_setNode hsize n' x).trans (if_neg ?_)
  rintro rfl
  exact h.sound.wellFormed.not_within_child hc hx

end Store.Owns

/-- What a rule does: where it applies it fires and gives the path of its slot as the tree is then,
and elsewhere it leaves everything as it is. -/
def Rule.Outcome (rule : Rule) (p : Path) (s : FoldState) (retry : Option Path) (s' : FoldState) :
    Prop :=
  s'.Sound ∧ match retry with
    | none => s' = s
    | some q => Store.Fires (s.tree.isCompletion p) rule p s.toStore s'.toStore ∧
        q = p.refresh s'.tree

/-- The same of a rule that makes one change only, which knows the position as it is then. -/
def Rule.Once (rule : Rule) (p : Path) (s : FoldState) (retry : Option Path) (s' : FoldState) :
    Prop :=
  s'.Sound ∧ match retry with
    | none => s' = s
    | some q => Store.Step (s.tree.isCompletion p) rule p s.toStore s'.toStore ∧
        q = p.refresh s'.tree

theorem Rule.Once.outcome {rule : Rule} {p : Path} {s s' : FoldState} {retry : Option Path}
    (h : rule.Once p s retry s') : rule.Outcome p s retry s' := by
  cases retry with
  | none => exact h
  | some q => exact ⟨h.1, .single h.2.1, h.2.2⟩

namespace FoldM

open Store

variable {s s₁ : FoldState} {p : Path} {owner id a b : NodeId} {rule : Rule} {observed : Bool}

theorem isConstant_run (s : FoldState) (id : NodeId) :
    isConstant id s = .ok (s.value? id).isSome s := by
  rw [← s.isConstant_eq]
  rfl

theorem constant?_run (s : FoldState) (id : NodeId) : constant? id s = .ok (s.value? id) s := by
  unfold constant?
  change EStateM.bind get _ s = _
  simp only [EStateM.bind, get, getThe, MonadStateOf.get, EStateM.get, s.isConstant_eq]
  cases hv : s.value? id with
  | none => rfl
  | some v =>
    rw [valueOf_eq hv]
    rfl

theorem getTree_run (s : FoldState) : (getTree : FoldM Tree) s = .ok s.tree s :=
  rfl

theorem alloc_ensures (h : s.Sound) {n : Node NodeId} (hfinite : n.HasFiniteLiteral)
    (hnode : ∀ c ∈ n.children, c < s.tree.size) : Ensures (alloc n) s fun id s' =>
      id = s.tree.size ∧ s'.Sound ∧ s.Grows s'.toStore ∧ s'.tree.node id = n ∧
        s'.tree.Unused id := by
  have hg := s.grows_alloc n {}
  refine ⟨_, _, rfl, rfl, h.alloc hfinite hnode, hg, (Tree.node_alloc ..).trans (if_pos rfl), ?_⟩
  exact (Tree.unused_of_size_le le_rfl h.wellFormed h.lt_size_of_root).grows hg.tree h.wellFormed
    h.lt_size_of_root

theorem toConst_ensures (h : s.Sound) {v : Value} (hv : v.Representable) :
    Ensures (toConst v) s fun id s' => s'.Sound ∧ s.Grows s'.toStore ∧ s'.Holds v id := by
  obtain ⟨id, s', hrun, hi⟩ := Value.toNode_ok h hv
  refine ⟨id, { s with toStore := s' }, ?_, hi.sound, hi.grows, hi.value⟩
  simp only [toConst, tryStore, hrun]

theorem null_ensures (h : s.Sound) :
    Ensures (store Store.null) s fun id s' => s'.Sound ∧ s.Grows s'.toStore ∧ s'.Holds .null id := by
  have hi : s.Interns .null s.null := h.interns_intern (c := .null) fun _ hx => by cases hx
  exact ⟨_, _, rfl, hi.sound, hi.grows, hi.value⟩

theorem minifiedBool_ensures (h : s.Sound) (b : Bool) :
    Ensures (store fun s => s.minifiedBool b) s fun id s' =>
      s'.Sound ∧ s.Grows s'.toStore ∧ s'.Holds (.bool b) id ∧ (s'.tree.flags id).minified := by
  obtain ⟨hi, hm⟩ := h.interns_minifiedBool b
  exact ⟨_, _, rfl, hi.sound, hi.grows, hi.value, hm⟩

theorem emptyStatement_ensures (h : s.Sound) : Ensures emptyStatement s fun id s' =>
    s'.Sound ∧ s.Grows s'.toStore ∧ s'.pool.emptyStatement = some id := by
  obtain ⟨hs, hg, -, -⟩ := h.frozen_emptyStatement
  refine ⟨_, _, rfl, hs, hg, ?_⟩
  change s.emptyStatement.2.pool.emptyStatement = some s.emptyStatement.1
  unfold Store.emptyStatement
  split
  · assumption
  · rfl

theorem edit_ensures {α : Type} {f : Tree → Except TreeError (α × Tree)} {r : α} {t : Tree}
    (h : f s.tree = .ok (r, t)) :
    Ensures (edit f) s fun r' s' => r' = r ∧ s'.toStore = { s.toStore with tree := t } := by
  refine ⟨r, { s with tree := t }, ?_, rfl, rfl⟩
  unfold edit
  rw [h]

theorem replace_run {m : FoldM NodeId} {t : Tree} {q : Path} (hm : m s = .ok a s₁)
    (hreplace : s₁.tree.replace p a = .ok (q, t)) :
    (do return some (← replace p (← m)) : FoldM (Option Path)) s =
      .ok (some q) { s₁ with tree := t } := by
  change EStateM.bind m _ s = _
  rw [EStateM.bind, hm]
  change EStateM.bind (edit fun tree => tree.replace p a) _ s₁ = _
  rw [EStateM.bind, edit, hreplace]
  rfl

theorem replace_ensures (h : s.Open p owner a) (hab : s.Swap observed rule a b) :
    Ensures (replace p b) s fun q s' => q = p.refresh s'.tree ∧
      ∃ n, s.Edit observed rule p owner n ∧ s'.toStore = s.put owner n := by
  obtain ⟨n, hfill, hrun⟩ := h.leads.replace h.writable (hab.ne h.sound)
  refine (edit_ensures hrun).mono fun q s' ⟨hq, hs'⟩ => ⟨?_, n, ?_, hs'⟩
  · have hn : s'.tree.node owner = n := by
      rw [hs']
      exact (Tree.node_setNode (Tree.lt_size_of_child h.leads.child) n owner).trans (if_pos rfl)
    rw [hq]
    exact hfill.refresh_eq h.leads hn
  · exact .fill h.leads h.writable hfill hab

theorem removeFromList_ensures (h : s.Open p owner a) (hp : p.listSlot?.isSome)
    (ha : s.Splice observed owner rule [some a] []) :
    Ensures (removeFromList p) s fun q s' => q = p.refresh s'.tree ∧
      ∃ n, s.Edit observed rule p owner n ∧ s'.toStore = s.put owner n := by
  obtain ⟨n, hsplice, hrun⟩ := h.leads.remove h.writable hp
  have hremove : Ensures (remove p) s fun _ s' => s'.toStore = s.put owner n := by
    refine (edit_ensures (f := fun tree => (tree.remove p).map fun tree => ((), tree)) (r := ()) ?_).mono
      fun _ s' hs' => hs'.2
    rw [hrun]
    rfl
  refine hremove.bind fun _ s' hs' => .read (getTree_run s') (.pure ⟨rfl, n, ?_, hs'⟩)
  exact .splice h.leads h.writable hsplice ha

end FoldM

namespace Rule

open Store

variable {s s₁ s₂ : FoldState} {p q : Path} {owner id a b : NodeId} {rule : Rule}

theorem Once.unchanged (h : s.Sound) : rule.Once p s none s :=
  ⟨h, rfl⟩

theorem Once.edited {n : Node NodeId} (h : s₁.Sound) (hg : s.Grows s₁.toStore)
    (he : s₁.Edit (s.tree.isCompletion p) rule p owner n) (hs₂ : s₂.toStore = s₁.put owner n)
    (hq : q = p.refresh s₂.tree) : rule.Once p s (some q) s₂ :=
  ⟨hs₂ ▸ he.sound h, ⟨s₁.toStore, owner, n, hg, h, he, hs₂⟩, hq⟩

theorem Outcome.unchanged (h : s.Sound) : rule.Outcome p s none s :=
  ⟨h, rfl⟩

theorem Outcome.edited {n : Node NodeId} (h : s₁.Sound) (hg : s.Grows s₁.toStore)
    (he : s₁.Edit (s.tree.isCompletion p) rule p owner n) (hs₂ : s₂.toStore = s₁.put owner n)
    (hq : q = p.refresh s₂.tree) : rule.Outcome p s (some q) s₂ :=
  (Once.edited h hg he hs₂ hq).outcome

end Rule

namespace FoldM

open Store

variable {s s₁ : FoldState} {p : Path} {owner id a b : NodeId} {rule : Rule}

/-- The end of most rules: a node is put into the slot. -/
theorem swap_fires (h : s.Open p owner a) (hs₁ : s₁.Sound) (hg : s.Grows s₁.toStore)
    (hab : s₁.Swap (s.tree.isCompletion p) rule a b) :
    Ensures (do return some (← replace p b)) s₁ fun retry s' =>
      retry.isSome ∧ rule.Once p s retry s' := by
  refine (replace_ensures (h.grows hs₁ hg) hab).bind fun q s₂ ⟨hq, n, he, hs₂⟩ => .pure ⟨rfl, ?_⟩
  exact .edited hs₁ hg he hs₂ hq

theorem swap_ensures (h : s.Open p owner a) (hs₁ : s₁.Sound) (hg : s.Grows s₁.toStore)
    (hab : s₁.Swap (s.tree.isCompletion p) rule a b) :
    Ensures (do return some (← replace p b)) s₁ (rule.Outcome p s) :=
  (swap_fires h hs₁ hg hab).mono fun _ _ hs' => hs'.2.outcome

theorem modifyNode_ensures {n : Node NodeId} (h : s.Owns p owner id n) (n' : Node NodeId) :
    Ensures (modifyNode id fun _ => n') s fun _ s' => s'.toStore = s.put id n' := by
  refine (edit_ensures (r := ()) (t := s.tree.setNode id n') ?_).mono fun _ s' hs' => hs'.2
  unfold Tree.modifyNode
  rw [Path.checkWritable_ok h.editable]
  rfl

/-- The end of rules that rewrite the node at the path. -/
theorem rewrite_ensures {n n' : Node NodeId} (h : s.Owns p owner id n) (hs₁ : s₁.Sound)
    (hg : s.Grows s₁.toStore) (hr : s₁.Rewrite rule n n') :
    Ensures (do modifyNode id fun _ => n'; return some p) s₁ (rule.Outcome p s) := by
  have h₁ := h.grows hs₁ hg
  refine (modifyNode_ensures h₁ n').bind fun _ s₂ hs₂ => .pure (.edited hs₁ hg (h₁.edit hr) hs₂ ?_)
  rw [hs₂]
  exact (h₁.put hr).leads.refresh_eq.symm

theorem swapConst_ensures (h : s.Open p owner a) {v : Value} (hv : v.Representable)
    (hab : ∀ (s' : Store) b, s.Grows s' → s'.Sound → s'.Holds v b →
      s'.Swap (s.tree.isCompletion p) rule a b) :
    Ensures (do return some (← replace p (← toConst v))) s (rule.Outcome p s) := by
  refine (toConst_ensures h.sound hv).bind fun b s₁ ⟨hs₁, hg, hb⟩ => ?_
  exact swap_ensures h hs₁ hg (hab s₁.toStore b hg hs₁ hb)

end FoldM

/-- What a rule does to the node at a path itself: nothing, or it fires. -/
structure Rule.Tidies (rule : Rule) (observed : Bool) (p : Path) (s : FoldState) (changed : Bool)
    (s' : FoldState) : Prop where
  sound : s'.Sound
  same : changed = false → s' = s
  fires : changed → Store.Fires observed rule p s.toStore s'.toStore
  leads : ∀ {owner id}, p.Leads s.tree owner id → p.Leads s'.tree owner id

namespace Rule.Tidies

variable {s s₁ s₂ : FoldState} {p : Path} {rule : Rule} {observed a b : Bool}

theorem refl (h : s.Sound) : rule.Tidies observed p s false s :=
  ⟨h, fun _ => rfl, nofun, id⟩

theorem trans (h : rule.Tidies observed p s a s₁) (h' : rule.Tidies observed p s₁ b s₂) :
    rule.Tidies observed p s (a || b) s₂ where
  sound := h'.sound
  same hab := by
    rw [Bool.or_eq_false_iff] at hab
    exact (h'.same hab.2).trans (h.same hab.1)
  fires hab := by
    cases a with
    | false =>
      obtain rfl := h.same rfl
      exact h'.fires hab
    | true =>
      cases b with
      | false =>
        obtain rfl := h'.same rfl
        exact h.fires rfl
      | true => exact (h.fires rfl).trans (h'.fires rfl)
  leads hp := h'.leads (h.leads hp)

theorem outcome {owner id : NodeId} (h : rule.Tidies (s.tree.isCompletion p) p s a s₁)
    (hp : p.Leads s.tree owner id) : rule.Outcome p s (if a then some p else none) s₁ := by
  cases a with
  | false =>
    obtain rfl := h.same rfl
    exact .unchanged h.sound
  | true => exact ⟨h.sound, h.fires rfl, (h.leads hp).refresh_eq.symm⟩

end Rule.Tidies

namespace FoldM

open Store

variable {s s₁ : FoldState} {p : Path} {owner id b old : NodeId} {rule : Rule} {n n' : Node NodeId}
  {f : Field}

theorem write_ensures (observed : Bool) (h : s.Owns p owner id n) (hs₁ : s₁.Sound) (hg : s.Grows s₁.toStore)
    (hr : s₁.Rewrite rule n n') {new : Option NodeId}
    (hrun : s₁.tree.writeField id f new = .ok (true, s₁.tree.setNode id n')) :
    Ensures (write p.value (.field f) new) s₁ fun changed s' => changed = true ∧
      rule.Tidies observed p s changed s' ∧ s'.Owns p owner id n' ∧
        ∀ c ∈ n.children, s'.value? c = s.value? c := by
  have h₁ := h.grows hs₁ hg
  refine (edit_ensures (r := true) (t := s₁.tree.setNode id n') ?_).mono fun changed s' hs' => ?_
  · rw [h.value]
    simp only [Tree.write, Path.checkWritable_ok h₁.editable]
    exact hrun
  · obtain ⟨rfl, hs'⟩ := hs'
    have he : s₁.Edit observed rule p id n' := h₁.edit hr
    have howns : s'.Owns p owner id n' := hs' ▸ h₁.put hr
    refine ⟨rfl, ⟨howns.sound, fun hsame => (by cases hsame),
      fun _ => .single ⟨s₁.toStore, id, n', hg, hs₁, he, hs'⟩, fun hp => ?_⟩, howns, fun c hc => ?_⟩
    · obtain ⟨rfl, rfl⟩ := h.leads.unique hp
      exact howns.leads
    · have hvalue := h₁.value?_put hr (Tree.child_of_node h₁.node hc)
      rw [hs']
      refine hvalue.trans (h.sound.value?_grows hs₁ hg ?_)
      exact h.sound.wellFormed.closed (Tree.child_of_node h.node hc)

theorem writeRequired_ensures (observed : Bool) (h : s.Owns p owner id n) (hs₁ : s₁.Sound)
    (hg : s.Grows s₁.toStore) (hslot : n.slot? f = some (.required old)) (hne : old ≠ b)
    (hr : s₁.Rewrite rule n (n.setSlot f (.required b))) :
    Ensures (write p.value (.field f) (some b)) s₁ fun changed s' => changed = true ∧
      rule.Tidies observed p s changed s' ∧ s'.Owns p owner id (n.setSlot f (.required b)) ∧
        ∀ c ∈ n.children, s'.value? c = s.value? c := by
  refine write_ensures observed h hs₁ hg hr ?_
  simp only [Tree.writeField, Tree.slot?, (h.grows hs₁ hg).node, hslot, if_neg hne, Tree.setSlot]

theorem writeOptional_ensures (observed : Bool) (h : s.Owns p owner id n) (hs₁ : s₁.Sound)
    (hg : s.Grows s₁.toStore) {old : Option NodeId} (new : Option NodeId)
    (hslot : n.slot? f = some (.optional old)) (hne : old ≠ new)
    (hr : s₁.Rewrite rule n (n.setSlot f (.optional new))) :
    Ensures (write p.value (.field f) new) s₁ fun changed s' => changed = true ∧
      rule.Tidies observed p s changed s' ∧ s'.Owns p owner id (n.setSlot f (.optional new)) ∧
        ∀ c ∈ n.children, s'.value? c = s.value? c := by
  refine write_ensures observed h hs₁ hg hr ?_
  simp only [Tree.writeField, Tree.slot?, (h.grows hs₁ hg).node, hslot, if_neg hne, Tree.setSlot]

end FoldM

end ScriptFold

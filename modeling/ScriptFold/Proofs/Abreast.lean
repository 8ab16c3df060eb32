import ScriptFold.Proofs.Coupling
import ScriptFold.Proofs.Reference

/-!
Steps that two coupled runs take together. `Both` says of a step of each run what holds where both
end; `Abreast` that two paths take the same way through coupled nodes. What the position of a path
tells is the same for paths that are abreast, and edits there keep the runs coupled.
-/

namespace ScriptFold

namespace Coupling

variable {X Y : Coupling} {c c' : NodeId}

/-- Where both steps end, the runs are at a later moment of which `Q` holds. -/
def Both {α β : Type} (X : Coupling) (m : FoldM α) (m' : FoldM β) (Q : α → β → Coupling → Prop) :
    Prop :=
  ∀ a s b s', m X.plain = .ok a s → m' X.short = .ok b s' →
    ∃ pairs, X.Keeps ⟨s, s', pairs⟩ ∧ Q a b ⟨s, s', pairs⟩

namespace Both

variable {α β γ δ : Type} {m : FoldM α} {m' : FoldM β} {f : α → FoldM γ} {f' : β → FoldM δ}
  {Q : α → β → Coupling → Prop} {R : γ → δ → Coupling → Prop} {a : α} {b : β}

theorem pure (h : Q a b X) : X.Both (Pure.pure a) (Pure.pure b) Q := by
  intro _ _ _ _ hrun hrun'
  cases hrun
  cases hrun'
  exact ⟨X.pairs, .refl X, h⟩

theorem mono (h : X.Both m m' Q) {Q' : α → β → Coupling → Prop}
    (hQ : ∀ a b Y, X.Keeps Y → Q a b Y → Q' a b Y) : X.Both m m' Q' := by
  intro a s b s' hrun hrun'
  obtain ⟨pairs, hkeeps, hq⟩ := h a s b s' hrun hrun'
  exact ⟨pairs, hkeeps, hQ _ _ _ hkeeps hq⟩

theorem bind (h : X.Both m m' Q)
    (hf : ∀ a b Y, X.Keeps Y → Q a b Y → Y.Both (f a) (f' b) R) :
    X.Both (m >>= f) (m' >>= f') R := by
  intro c s₂ d s₂' hrun hrun'
  obtain ⟨a, s, hm, hrun⟩ := exists_run_of_bind hrun
  obtain ⟨b, s', hm', hrun'⟩ := exists_run_of_bind hrun'
  obtain ⟨pairs, hkeeps, hq⟩ := h a s b s' hm hm'
  obtain ⟨pairs', hkeeps', hr⟩ := hf a b _ hkeeps hq c s₂ d s₂' hrun hrun'
  exact ⟨pairs', hkeeps.trans hkeeps', hr⟩

theorem read (hm : m X.plain = .ok a X.plain) (hm' : m' X.short = .ok b X.short)
    (h : X.Both (f a) (f' b) R) : X.Both (m >>= f) (m' >>= f') R := by
  intro c s₂ d s₂' hrun hrun'
  refine h c s₂ d s₂' ?_ ?_
  · rw [← hrun]
    change f a X.plain = EStateM.bind m f X.plain
    rw [EStateM.bind, hm]
  · rw [← hrun']
    change f' b X.short = EStateM.bind m' f' X.short
    rw [EStateM.bind, hm']

theorem and_runs (h : X.Both m m' Q) {P : α → FoldState → Prop} {P' : β → FoldState → Prop}
    (hm : ∀ a s, m X.plain = .ok a s → P a s) (hm' : ∀ b s, m' X.short = .ok b s → P' b s) :
    X.Both m m' fun a b Y => Q a b Y ∧ P a Y.plain ∧ P' b Y.short := by
  intro a s b s' hrun hrun'
  obtain ⟨pairs, hkeeps, hq⟩ := h a s b s' hrun hrun'
  exact ⟨pairs, hkeeps, hq, hm a s hrun, hm' b s' hrun'⟩

theorem and_ensures (h : X.Both m m' Q) {P : α → FoldState → Prop} {P' : β → FoldState → Prop}
    (hm : Ensures m X.plain P) (hm' : Ensures m' X.short P') :
    X.Both m m' fun a b Y => Q a b Y ∧ P a Y.plain ∧ P' b Y.short :=
  h.and_runs (fun _ _ => hm.of_ok) fun _ _ => hm'.of_ok

theorem constant? (h : X.Sound) (hc : X.Twin c c') {f : Option Value → FoldM γ}
    {f' : Option Value → FoldM δ} (hf : X.Both (f (X.plain.value? c)) (f' (X.plain.value? c)) R) :
    X.Both (FoldM.constant? c >>= f) (FoldM.constant? c' >>= f') R := by
  refine .read (FoldM.constant?_run _ c) (FoldM.constant?_run _ c') ?_
  rwa [h.value?_eq hc]

theorem isConstant (h : X.Sound) (hc : X.Twin c c') {f : Bool → FoldM γ} {f' : Bool → FoldM δ}
    (hf : X.Both (f (X.plain.value? c).isSome) (f' (X.plain.value? c).isSome) R) :
    X.Both (FoldM.isConstant c >>= f) (FoldM.isConstant c' >>= f') R := by
  refine .read (FoldM.isConstant_run _ c) (FoldM.isConstant_run _ c') ?_
  rwa [h.value?_eq hc]

section Store

/-- Both trees get new nodes, and all others stay as they are. -/
structure Grown (X Y : Coupling) : Prop where
  sound : Y.Sound
  plain : X.plain.Grows Y.plain.toStore
  short : X.short.Grows Y.short.toStore

theorem Grown.refl (h : X.Sound) : Grown X X :=
  ⟨h, .refl _, .refl _⟩

theorem grow (h : X.Sound) {P : α → FoldState → Prop} {P' : β → FoldState → Prop}
    (hm : Ensures m X.plain fun a s => s.Sound ∧ X.plain.Grows s.toStore ∧ P a s)
    (hm' : Ensures m' X.short fun b s => s.Sound ∧ X.short.Grows s.toStore ∧ P' b s)
    (hc : ∀ a s, m X.plain = .ok a s → s.Canonical)
    (hc' : ∀ b s, m' X.short = .ok b s → s.Canonical) :
    X.Both m m' fun a b Y => Grown X Y ∧ P a Y.plain ∧ P' b Y.short := by
  intro a s b s' hrun hrun'
  obtain ⟨a₁, s₁, hrun₁, hs, hg, hp⟩ := hm
  obtain ⟨b₁, s₁', hrun₁', hs', hg', hp'⟩ := hm'
  cases hrun.symm.trans hrun₁
  cases hrun'.symm.trans hrun₁'
  obtain ⟨hkeeps, hsound⟩ := h.grow hs hs' hg hg' (hc a s hrun) (hc' b s' hrun')
  exact ⟨X.pairs, hkeeps, ⟨hsound, hg, hg'⟩, hp, hp'⟩

theorem tryStore_ok {f : EStateM FoldError Store α} {s s' : FoldState}
    (h : FoldM.tryStore f s = .ok a s') : f s.toStore = .ok a s'.toStore := by
  unfold FoldM.tryStore at h
  cases hf : f s.toStore <;> rw [hf] at h <;> cases h
  rfl

theorem toConst (h : X.Sound) {v : Value} (hv : v.Representable) :
    X.Both (FoldM.toConst v) (FoldM.toConst v) fun b b' Y =>
      Grown X Y ∧ Y.plain.Holds v b ∧ Y.short.Holds v b' :=
  grow h (FoldM.toConst_ensures h.plain hv) (FoldM.toConst_ensures h.short hv)
    (fun _ _ hrun => Value.canonical_toNode h.plain_canonical (tryStore_ok hrun))
    fun _ _ hrun => Value.canonical_toNode h.short_canonical (tryStore_ok hrun)

theorem null (h : X.Sound) :
    X.Both (FoldM.store Store.null) (FoldM.store Store.null) fun b b' Y =>
      Grown X Y ∧ Y.plain.Holds .null b ∧ Y.short.Holds .null b' := by
  refine grow h (FoldM.null_ensures h.plain) (FoldM.null_ensures h.short)
    (fun _ _ hrun => ?_) fun _ _ hrun => ?_
  · cases hrun
    exact h.plain_canonical.intern (c := .null) trivial
  · cases hrun
    exact h.short_canonical.intern (c := .null) trivial

theorem emptyStatement (h : X.Sound) :
    X.Both FoldM.emptyStatement FoldM.emptyStatement fun b b' Y =>
      Grown X Y ∧ Y.plain.pool.emptyStatement = some b ∧
        Y.short.pool.emptyStatement = some b' := by
  refine grow h (FoldM.emptyStatement_ensures h.plain) (FoldM.emptyStatement_ensures h.short)
    (fun _ _ hrun => ?_) fun _ _ hrun => ?_
  · cases hrun
    exact h.plain_canonical.emptyStatement
  · cases hrun
    exact h.short_canonical.emptyStatement

theorem alloc (h : X.Sound) {m : Node (NodeId × NodeId)} (hl : ∀ l, m ≠ .literal l)
    (hm : ∀ e ∈ m.children, X.Twin e.1 e.2) :
    X.Both (FoldM.alloc (m.map Prod.fst)) (FoldM.alloc (m.map Prod.snd)) fun b b' Y =>
      Grown X Y ∧ Y.pairs b b' := by
  intro a s b s' hrun hrun'
  cases hrun
  cases hrun'
  obtain ⟨hkeeps, hsound⟩ := h.addNode hl hm
  refine ⟨_, hkeeps, ⟨hsound, ?_, ?_⟩, .inr ⟨rfl, rfl⟩⟩
  · exact Store.grows_alloc X.plain.toStore _ {}
  · exact Store.grows_alloc X.short.toStore _ {}

theorem expressionStatement (h : X.Sound) (hc : X.Twin c c') :
    X.Both (FoldM.expressionStatement c) (FoldM.expressionStatement c') fun b b' Y =>
      Grown X Y ∧ Y.pairs b b' := by
  refine alloc h (m := .expressionStatement (c, c') none) (fun l hl => by cases hl) fun e he => ?_
  obtain rfl : e = (c, c') := by simpa [Node.children, Node.slots, Slot.children] using he
  exact hc

end Store

end Both

theorem Sound.twin_empty (h : X.Sound) (hc : X.plain.pool.emptyStatement = some c)
    (hc' : X.short.pool.emptyStatement = some c') : X.Twin c c' := by
  obtain ⟨hf, hn⟩ := h.plain.emptyStatement hc
  obtain ⟨hf', hn'⟩ := h.short.emptyStatement hc'
  exact .empty hf hn hf' hn'

/-- What holds children, in the same place of both trees. -/
inductive Owners (X : Coupling) : Ref → Ref → Prop
  | node {c c' : NodeId} : X.pairs c c' → Owners X (.node c) (.node c')
  | list {c c' : NodeId} {f} : X.pairs c c' → Owners X (.list c f) (.list c' f)

/-- What is found in the same slot of both trees. -/
inductive Sights (X : Coupling) : Ref → Ref → Prop
  | null : Sights X .null .null
  | node {c c' : NodeId} : X.Twin c c' → Sights X (.node c) (.node c')
  | list {c c' : NodeId} {f} : X.pairs c c' → Sights X (.list c f) (.list c' f)

/-- Paths that take the same steps, through coupled nodes. -/
inductive Abreast (X : Coupling) : Path → Path → Prop
  | root {c c' : NodeId} : X.pairs c c' → Abreast X (.root (.node c)) (.root (.node c'))
  | child {p p' key v v'} : Abreast X p p' → X.Owners p.value p'.value → X.Sights v v' →
    Abreast X (.child p key v) (.child p' key v')

theorem Owners.mono {r r' : Ref} (h : X.Owners r r') (hk : X.Keeps Y) : Y.Owners r r' := by
  cases h with
  | node h => exact .node (hk.pairs h)
  | list h => exact .list (hk.pairs h)

theorem Sights.mono {r r' : Ref} (h : X.Sights r r') (hk : X.Keeps Y) : Y.Sights r r' := by
  cases h with
  | null => exact .null
  | node h => exact .node (h.mono hk)
  | list h => exact .list (hk.pairs h)

theorem Abreast.mono {p p' : Path} (h : X.Abreast p p') (hk : X.Keeps Y) : Y.Abreast p p' := by
  induction h with
  | root h => exact .root (hk.pairs h)
  | child _ hr hv ih => exact .child ih (hr.mono hk) (hv.mono hk)

variable {p p' : Path} {r r' : Ref}

theorem Abreast.sights (h : X.Abreast p p') : X.Sights p.value p'.value := by
  cases h with
  | root h => exact .node (.pair h)
  | child _ _ hv => exact hv

theorem Owners.isList_eq (h : X.Owners r r') : r'.isList = r.isList := by
  cases h <;> rfl

theorem Linked.read (h : X.Linked) (hr : X.Owners r r') (key : Key) :
    X.Sights (X.plain.tree.read r key) (X.short.tree.read r' key) := by
  cases hr with
  | node hc =>
    cases key with
    | index i => exact .null
    | field f =>
      obtain ⟨slot, hs, hs', hm⟩ := (h.nodes hc).slot?_eq f
      simp only [Tree.read, Tree.slot?, hs, hs']
      cases slot with
      | none => exact .null
      | some slot =>
        cases slot with
        | required e => exact .node (hm _ rfl e (by simp [Slot.children]))
        | optional e =>
          cases e with
          | none => exact .null
          | some e => exact .node (hm _ rfl e (by simp [Slot.children]))
        | list _ | holey _ => exact .list hc
  | @list c c' f hc =>
    cases key with
    | field g => exact .null
    | index i =>
      obtain ⟨items, hs, hs', hm⟩ := (h.nodes hc).items?_eq f
      simp only [Tree.read, Tree.listItems?, Tree.slot?, hs, hs']
      cases items with
      | none => exact .null
      | some items =>
        simp only [Option.map_some, Option.bind_some, List.getElem?_map]
        cases hi : items[i]? with
        | none => exact .null
        | some e =>
          cases e with
          | none => exact .null
          | some e => exact .node (hm _ rfl e (List.mem_of_getElem? hi))

/-- The entries of two lists are images of one list. -/
theorem Linked.listItems?_eq (h : X.Linked) (hr : X.Owners r r') :
    ∃ items : Option (List (Option (NodeId × NodeId))),
      X.plain.tree.listItems? r = items.map (List.map (Option.map Prod.fst)) ∧
        X.short.tree.listItems? r' = items.map (List.map (Option.map Prod.snd)) ∧
        ∀ is ∈ items, ∀ e, some e ∈ is → X.Twin e.1 e.2 := by
  cases hr with
  | node hc => exact ⟨none, rfl, rfl, fun is his => by cases his⟩
  | list hc => exact (h.nodes hc).items?_eq _

theorem Linked.listLength?_eq (h : X.Linked) (hr : X.Owners r r') :
    X.short.tree.listLength? r' = X.plain.tree.listLength? r := by
  obtain ⟨items, hs, hs', -⟩ := h.listItems?_eq hr
  rw [Tree.listLength?, Tree.listLength?, hs, hs']
  cases items <;> simp

section Edits

theorem edit_ok {α : Type} {f : Tree → Except TreeError (α × Tree)} {s s' : FoldState} {a : α}
    (h : FoldM.edit f s = .ok a s') : ∃ t, f s.tree = .ok (a, t) ∧ s' = { s with tree := t } := by
  unfold FoldM.edit at h
  cases hf : f s.tree <;> rw [hf] at h <;> cases h
  exact ⟨_, rfl, rfl⟩

theorem edit_map_ok {f : Tree → Except TreeError Tree} {s s' : FoldState}
    (h : FoldM.edit (fun t => (f t).map fun t => ((), t)) s = .ok () s') :
    ∃ t, f s.tree = .ok t ∧ s' = { s with tree := t } := by
  obtain ⟨t, ht, rfl⟩ := edit_ok h
  obtain ⟨t', ht, hpair⟩ := Tree.exists_of_map ht
  cases hpair
  exact ⟨t, ht, rfl⟩

/-- The same assignment at coupled nodes. -/
theorem Linked.write (h : X.Linked) (hr : X.Owners r r') {key : Key}
    (new : Option (NodeId × NodeId)) (hnew : ∀ e ∈ new, X.Twin e.1 e.2) {b b' : Bool} {t t' : Tree}
    (ht : X.plain.tree.write r key (new.map Prod.fst) = .ok (b, t))
    (ht' : X.short.tree.write r' key (new.map Prod.snd) = .ok (b', t')) :
    X.Keeps (X.withTrees t t') ∧ (X.withTrees t t').Linked := by
  have hchildren : ∀ e ∈ new.toList, X.Twin e.1 e.2 := fun e he =>
    hnew e (by simpa using he)
  rcases Tree.write_changes ht with ⟨o, f, rfl, rfl, hchange⟩ | ⟨o, f, i, rfl, rfl, hchange⟩
  · cases hr with
    | node hc =>
      rcases Tree.write_changes ht' with ⟨o', f', ho, hf, hchange'⟩ | ⟨_, _, _, ho, -⟩
      · cases ho
        cases hf
        exact h.change hc (.child new) hchildren hchange hchange'
      · cases ho
  · cases hr with
    | list hc =>
      rcases Tree.write_changes ht' with ⟨_, _, ho, -⟩ | ⟨o', f', i', ho, hi, hchange'⟩
      · cases ho
      · cases ho
        cases hi
        exact h.change hc (.item i new) hchildren hchange hchange'

namespace Both

theorem write (h : X.Linked) (hr : X.Owners r r') {key : Key} (new : Option (NodeId × NodeId))
    (hnew : ∀ e ∈ new, X.Twin e.1 e.2) :
    X.Both (FoldM.write r key (new.map Prod.fst)) (FoldM.write r' key (new.map Prod.snd))
      fun _ _ Y => Y.Linked := by
  intro a s b s' hrun hrun'
  obtain ⟨t, ht, rfl⟩ := edit_ok hrun
  obtain ⟨t', ht', rfl⟩ := edit_ok hrun'
  exact ⟨X.pairs, h.write hr new hnew ht ht'⟩

theorem splice (h : X.Linked) (hr : X.Owners r r') {start stop : Nat}
    (new : List (NodeId × NodeId)) (hnew : ∀ e ∈ new, X.Twin e.1 e.2) :
    X.Both (FoldM.splice r start stop (new.map Prod.fst))
      (FoldM.splice r' start stop (new.map Prod.snd)) fun _ _ Y => Y.Linked := by
  intro a s b s' hrun hrun'
  obtain ⟨t, ht, rfl⟩ := edit_map_ok hrun
  obtain ⟨t', ht', rfl⟩ := edit_map_ok hrun'
  obtain ⟨o, f, rfl, hchange⟩ := Tree.splice_changes ht
  obtain ⟨o', f', rfl, hchange'⟩ := Tree.splice_changes ht'
  cases hr with
  | list hc => exact ⟨X.pairs, h.change hc (.stretch start stop new) hnew hchange hchange'⟩

theorem modifyNode_ok {s s' : FoldState} {id : NodeId} {change : Node NodeId → Node NodeId}
    (h : FoldM.modifyNode id change s = .ok () s') : ¬ s.tree.isFrozen id ∧
      s' = { s with tree := s.tree.setNode id (change (s.tree.node id)) } := by
  obtain ⟨t, ht, rfl⟩ := edit_map_ok h
  obtain ⟨hf, ht⟩ := Tree.of_checkWritable ht
  cases ht
  exact ⟨hf, rfl⟩

theorem modifyNode (h : X.Linked) (hc : X.pairs c c') {n n' : Node NodeId}
    (hn : n.Matches X.Twin n') (hl : ∀ l, X.plain.tree.node c ≠ .literal l) :
    X.Both (FoldM.modifyNode c fun _ => n) (FoldM.modifyNode c' fun _ => n')
      fun _ _ Y => Y.Linked := by
  intro a s b s' hrun hrun'
  obtain ⟨hf, rfl⟩ := modifyNode_ok hrun
  obtain ⟨hf', rfl⟩ := modifyNode_ok hrun'
  exact ⟨X.pairs, h.put hc (Tree.sets_setNode hf (h.plain_open hc).1)
    (Tree.sets_setNode hf' (h.short_open hc).1) hn hl⟩

theorem replace (h : X.Linked) (hp : X.Abreast p p') (hc : X.Twin c c') :
    X.Both (FoldM.replace p c) (FoldM.replace p' c') fun _ _ Y => Y.Linked := by
  intro a s b s' hrun hrun'
  obtain ⟨t, ht, rfl⟩ := edit_ok hrun
  obtain ⟨t', ht', rfl⟩ := edit_ok hrun'
  cases hp with
  | root _ => cases ht
  | child _ hr _ =>
    obtain ⟨⟨b, t₁⟩, hwrite, hpair⟩ := Tree.exists_of_bind ht
    obtain ⟨⟨b', t₁'⟩, hwrite', hpair'⟩ := Tree.exists_of_bind ht'
    cases hpair
    cases hpair'
    exact ⟨X.pairs, h.write hr (some (c, c')) (fun e he => by cases he; exact hc)
      hwrite hwrite'⟩

theorem remove (h : X.Linked) (hp : X.Abreast p p') :
    X.Both (FoldM.remove p) (FoldM.remove p') fun _ _ Y => Y.Linked := by
  intro a s b s' hrun hrun'
  obtain ⟨t, ht, rfl⟩ := edit_map_ok hrun
  obtain ⟨t', ht', rfl⟩ := edit_map_ok hrun'
  cases hp with
  | root _ => cases ht
  | child _ hr _ =>
    obtain ⟨⟨b, t₂⟩, hwrite, hpair⟩ := Tree.exists_of_bind ht
    obtain ⟨⟨b', t₂'⟩, hwrite', hpair'⟩ := Tree.exists_of_bind ht'
    cases hpair
    cases hpair'
    exact ⟨X.pairs, h.write hr none (fun e he => by cases he) hwrite hwrite'⟩

theorem removeFromList (h : X.Linked) (hp : X.Abreast p p') :
    X.Both (FoldM.removeFromList p) (FoldM.removeFromList p') fun _ _ Y => Y.Linked :=
  (remove h hp).bind fun _ _ _ _ hY => .read rfl rfl (.pure hY)

end Both

end Edits

section Position

theorem Linked.nodeAt?_cases (h : X.Linked) (hr : X.Owners p.value p'.value) :
    X.plain.tree.nodeAt? p = none ∧ X.short.tree.nodeAt? p' = none ∨
      ∃ m : Node (NodeId × NodeId), X.plain.tree.nodeAt? p = some (m.map Prod.fst) ∧
        X.short.tree.nodeAt? p' = some (m.map Prod.snd) := by
  unfold Tree.nodeAt? Path.node?
  generalize p.value = r, p'.value = r' at hr
  cases hr with
  | node hc =>
    obtain ⟨m, hn, hn', -⟩ := h.nodes hc
    exact .inr ⟨m, congrArg some hn.symm, congrArg some hn'.symm⟩
  | list _ => exact .inl ⟨rfl, rfl⟩

/-- What is told of the node at the end of a path is the same for both paths. -/
theorem Linked.view_owner (h : X.Linked) (hr : X.Owners p.value p'.value) {β : Type}
    (f : Option (Node NodeId) → β)
    (hf : ∀ m : Node (NodeId × NodeId), f (some (m.map Prod.fst)) = f (some (m.map Prod.snd))) :
    f (X.short.tree.nodeAt? p') = f (X.plain.tree.nodeAt? p) := by
  rcases h.nodeAt?_cases hr with ⟨hn, hn'⟩ | ⟨m, hn, hn'⟩
  · rw [hn, hn']
  · rw [hn, hn', hf]

theorem Linked.isLastStep_eq (h : X.Linked) (hr : X.Owners p.value p'.value) (key : Key) :
    X.short.tree.isLastStep p' key = X.plain.tree.isLastStep p key := by
  unfold Tree.isLastStep Tree.lastIndex? Path.isList
  rw [hr.isList_eq, h.listLength?_eq hr]

theorem Sound.isEmptyStatement_eq (h : X.Sound) (hc : X.Twin c c') :
    (X.short.tree.node c').isEmptyStatement = (X.plain.tree.node c).isEmptyStatement :=
  h.view hc Node.isEmptyStatement false
    (fun m => by
      cases m <;> try rfl
      case blockStatement body => cases body <;> rfl)
    fun n hn => by cases n <;> simp [Node.kind] at hn <;> rfl

/-- What is above an expression is told by the way to it. -/
theorem reachesProgram_of_constant {t : Tree} (h : (t.node c).kind ∈ constantKinds) (p : Path)
    (key : Key) : t.reachesProgram (.child p key (.node c)) =
      (t.isLastStep p key && t.reachesProgram p) := by
  rw [Tree.reachesProgram]
  cases hn : t.node c <;> rw [hn] at h <;> simp [Node.kind, Node.isFunction] at h ⊢

theorem Sound.reachesProgram_eq (h : X.Sound) (hp : X.Abreast p p') :
    X.short.tree.reachesProgram p' = X.plain.tree.reachesProgram p := by
  induction hp with
  | @root c c' hc =>
    have hkind := h.view (.pair hc) (fun n => decide (n.kind = .program)) false
      (fun m => by simp only [Node.kind_map]) fun n hn => by
        cases n <;> simp [Node.kind] at hn ⊢
    simpa [Tree.reachesProgram, Ref.node?] using hkind
  | @child p p' key v v' _ hr hv ih =>
    have hlast := h.isLastStep_eq hr key
    cases hv with
    | null => simp only [Tree.reachesProgram, ih, hlast]
    | list _ => exact ih
    | node hc =>
      rcases h.matches_or_value hc with ⟨m, hn, hn', -⟩ | ⟨v, hv, hv'⟩
      · simp only [Tree.reachesProgram, ih, hlast, ← hn, ← hn']
        cases m <;> rfl
      · rw [reachesProgram_of_constant (h.plain.kind_of_value? hv),
          reachesProgram_of_constant (h.short.kind_of_value? hv'), ih, hlast]

theorem Sound.isCompletion_eq (h : X.Sound) (hp : X.Abreast p p') :
    X.short.tree.isCompletion p' = X.plain.tree.isCompletion p := by
  cases hp with
  | root _ => rfl
  | child hp hr _ => simp only [Tree.isCompletion, h.isLastStep_eq hr, h.reachesProgram_eq hp]

theorem string?_iff {s : Store} (h : s.Sound) {text : String} :
    (s.tree.node c).string? = some text ↔ s.value? c = some (.string text) := by
  constructor
  · intro hs
    rw [h.value?_literal (FoldM.string?_eq hs)]
    rfl
  · intro hv
    rcases h.value?_cases hv with hp | ⟨-, ⟨l, hn, hl⟩ | ⟨_, _, -, -, hx⟩ | ⟨_, _, -, hx, -⟩⟩
    · have hs := h.spells hp
      rw [Tree.Spells] at hs
      rw [hs.2]
      rfl
    · cases l <;> cases hl
      rw [hn]
      rfl
    · cases hx
    · cases hx

theorem Sound.string?_eq (h : X.Sound) (hc : X.Twin c c') :
    (X.short.tree.node c').string? = (X.plain.tree.node c).string? :=
  Option.ext fun text => by rw [string?_iff h.short, string?_iff h.plain, h.value?_eq hc]

theorem isStringStatement_of_constant {t : Tree} (h : (t.node c).kind ∈ constantKinds) :
    t.isStringStatement c = false := by
  unfold Tree.isStringStatement
  cases hn : t.node c <;> simp [hn, Node.kind] at h ⊢

theorem isMarkedDirective_of_constant {t : Tree} (h : (t.node c).kind ∈ constantKinds) :
    t.isMarkedDirective c = false := by
  unfold Tree.isMarkedDirective
  cases hn : t.node c <;> simp [hn, Node.kind] at h ⊢

theorem Sound.isStringStatement_eq (h : X.Sound) (hc : X.Twin c c') :
    X.short.tree.isStringStatement c' = X.plain.tree.isStringStatement c := by
  rcases h.matches_or_value hc with ⟨m, hn, hn', hm⟩ | ⟨v, hv, hv'⟩
  · unfold Tree.isStringStatement
    rw [← hn, ← hn']
    cases m <;> try rfl
    case expressionStatement e directive =>
      exact congrArg Option.isSome
        (h.string?_eq (hm e (by simp [Node.children, Node.slots, Slot.children])))
  · rw [isStringStatement_of_constant (h.plain.kind_of_value? hv),
      isStringStatement_of_constant (h.short.kind_of_value? hv')]

theorem Sound.isMarkedDirective_eq (h : X.Sound) (hc : X.Twin c c') :
    X.short.tree.isMarkedDirective c' = X.plain.tree.isMarkedDirective c := by
  rcases h.matches_or_value hc with ⟨m, hn, hn', hm⟩ | ⟨v, hv, hv'⟩
  · unfold Tree.isMarkedDirective
    rw [h.isStringStatement_eq hc, ← hn, ← hn']
    cases m <;> try rfl
    case expressionStatement e directive => cases directive <;> rfl
  · rw [isMarkedDirective_of_constant (h.plain.kind_of_value? hv),
      isMarkedDirective_of_constant (h.short.kind_of_value? hv')]

theorem Sound.prologueList?_eq (h : X.Sound) (hp : X.Abreast p p') :
    X.plain.tree.prologueList? p = none ∧ X.short.tree.prologueList? p' = none ∨
      ∃ list list', X.plain.tree.prologueList? p = some list ∧
        X.short.tree.prologueList? p' = some list' ∧ X.Owners list.value list'.value := by
  cases hp with
  | root _ => exact .inl ⟨rfl, rfl⟩
  | @child list list' _ _ _ hlist hr _ =>
    have hisList : list'.isList = list.isList := hr.isList_eq
    by_cases hl : list.isList
    · cases hlist with
      | root _ => cases hl
      | @child owner owner' k v v' howner hr' _ =>
        simp only [Tree.prologueList?, Path.parent?, Option.bind_eq_bind, Option.bind_some, hl,
          hisList, guard, if_true]
        rcases h.nodeAt?_cases hr' with ⟨hn, hn'⟩ | ⟨m, hn, hn'⟩
        · rw [hn, hn']
          exact .inl ⟨rfl, rfl⟩
        · rw [hn, hn']
          cases m
          case program body => exact .inr ⟨_, _, rfl, rfl, hr⟩
          case blockStatement body =>
            cases howner with
            | root _ => exact .inl ⟨rfl, rfl⟩
            | @child q q' key w w' _ hrq _ =>
              rcases h.nodeAt?_cases hrq with ⟨hq, hq'⟩ | ⟨mq, hq, hq'⟩
              · refine .inl ⟨?_, ?_⟩
                · change (X.plain.tree.nodeAt? q).bind _ = none
                  rw [hq]
                  rfl
                · change (X.short.tree.nodeAt? q').bind _ = none
                  rw [hq']
                  rfl
              · have hfunction : (mq.map Prod.snd).isFunction = (mq.map Prod.fst).isFunction := by
                  cases mq <;> rfl
                change (X.plain.tree.nodeAt? q).bind _ = none ∧
                  (X.short.tree.nodeAt? q').bind _ = none ∨ ∃ list list',
                    (X.plain.tree.nodeAt? q).bind _ = some list ∧
                      (X.short.tree.nodeAt? q').bind _ = some list' ∧ _
                rw [hq, hq']
                simp only [Option.bind_some, hfunction, Path.key?]
                by_cases hbody : key = .field .body ∧ (mq.map Prod.fst).isFunction
                · exact .inr ⟨_, _, by simp [hbody], by simp [hbody], hr⟩
                · exact .inl ⟨by simp [hbody], by simp [hbody]⟩
          all_goals exact .inl ⟨rfl, rfl⟩
    · left
      simp [Tree.prologueList?, Path.parent?, hl, hisList, guard, failure]

theorem Sound.inDirectivePosition_eq (h : X.Sound) (hp : X.Abreast p p') :
    X.short.tree.inDirectivePosition p' = X.plain.tree.inDirectivePosition p := by
  have hindex : p'.index? = p.index? := by cases hp <;> rfl
  unfold Tree.inDirectivePosition
  rw [hindex]
  rcases h.prologueList?_eq hp with ⟨hl, hl'⟩ | ⟨list, list', hl, hl', hr⟩
  · rw [hl, hl']
  · rw [hl, hl']
    cases p.index? with
    | none => rfl
    | some index =>
      obtain ⟨items, hs, hs', hm⟩ := h.listItems?_eq hr
      simp only [hs, hs']
      cases items with
      | none => rfl
      | some items =>
        simp only [Option.map_some, ← List.map_take, List.all_map]
        rw [Bool.eq_iff_iff, List.all_eq_true, List.all_eq_true]
        refine forall₂_congr fun e he => ?_
        cases e with
        | none => exact Iff.rfl
        | some e =>
          have hstring := h.isStringStatement_eq (hm items rfl e (List.mem_of_mem_take he))
          simp only [Function.comp_apply, Option.map_some, Option.any_some, hstring]

theorem Sound.isDirective_eq (h : X.Sound) (hp : X.Abreast p p') :
    X.short.tree.isDirective p' = X.plain.tree.isDirective p := by
  unfold Tree.isDirective Path.node?
  rw [h.inDirectivePosition_eq hp]
  have hv := hp.sights
  generalize p.value = v, p'.value = v' at hv
  cases hv with
  | null => rfl
  | list _ => rfl
  | node hc => simp only [Ref.node?, Option.any_some, h.isMarkedDirective_eq hc]

theorem Linked.isReferenceTarget_eq (h : X.Linked) (hp : X.Abreast p p') :
    X.short.tree.isReferenceTarget p' = X.plain.tree.isReferenceTarget p := by
  cases hp with
  | root _ => rfl
  | @child q q' key v v' _ hr _ =>
    simp only [Tree.isReferenceTarget, Path.parent?, Path.key?, Option.bind_some]
    rcases h.nodeAt?_cases hr with ⟨hn, hn'⟩ | ⟨m, hn, hn'⟩
    · rw [hn, hn']
    · rw [hn, hn']
      cases key with
      | index i => rfl
      | field f =>
        cases f <;> try rfl
        case left => cases m <;> rfl
        case argument =>
          cases m <;> try rfl
          case unaryExpression op e => cases op <;> rfl

theorem Sound.isWholeDirective_eq (h : X.Sound) (hp : X.Abreast p p') :
    X.short.tree.isWholeDirective p' = X.plain.tree.isWholeDirective p := by
  cases hp with
  | root _ => rfl
  | @child q q' key v v' hq hr _ =>
    cases key with
    | index i => rfl
    | field f =>
      have hkind := h.view_owner hr (fun o => o.any fun n => n.kind = .expressionStatement)
        fun m => by simp only [Option.any_some, Node.kind_map]
      unfold Tree.isWholeDirective
      cases f <;> try rfl
      case expression => simp only [hkind, h.inDirectivePosition_eq hq]

theorem Linked.isCallee_eq (h : X.Linked) (hp : X.Abreast p p') :
    X.short.tree.isCallee p' = X.plain.tree.isCallee p := by
  rw [Tree.isCallee_eq, Tree.isCallee_eq]
  cases hp with
  | root _ => rfl
  | child _ hr _ =>
    have hkind := h.view_owner hr (fun o => o.any fun n => decide (n.kind = .callExpression))
      fun m => by simp only [Option.any_some, Node.kind_map]
    change (Option.any _ (X.short.tree.nodeAt? _) && _) = (Option.any _ (X.plain.tree.nodeAt? _) && _)
    rw [hkind]
    rfl

theorem Linked.isDeleted_eq (h : X.Linked) (hp : X.Abreast p p') :
    X.short.tree.isDeleted p' = X.plain.tree.isDeleted p := by
  rw [Tree.isDeleted_eq, Tree.isDeleted_eq]
  cases hp with
  | root _ => rfl
  | child _ hr _ =>
    have hdelete := h.view_owner hr (fun o => o.any Node.isDelete) fun m => by
      cases m <;> try rfl
      case unaryExpression op e => cases op <;> rfl
    change (Option.any _ (X.short.tree.nodeAt? _) && _) = (Option.any _ (X.plain.tree.nodeAt? _) && _)
    rw [hdelete]
    rfl

theorem isReferenceAt_of_constant {t : Tree} (h : (t.node c).kind ∈ constantKinds) (p : Path) :
    t.isReferenceAt p c = false := by
  unfold Tree.isReferenceAt
  cases hn : t.node c <;> simp [hn, Node.kind] at h ⊢

theorem Sound.isReferenceAt_eq (h : X.Sound) (hp : X.Abreast p p') (hc : X.Twin c c') :
    X.short.tree.isReferenceAt p' c' = X.plain.tree.isReferenceAt p c := by
  rcases h.matches_or_value hc with ⟨m, hn, hn', -⟩ | ⟨v, hv, hv'⟩
  · unfold Tree.isReferenceAt
    rw [h.isCallee_eq hp, h.isDeleted_eq hp, ← hn, ← hn']
    cases m <;> rfl
  · rw [isReferenceAt_of_constant (h.plain.kind_of_value? hv),
      isReferenceAt_of_constant (h.short.kind_of_value? hv')]

end Position

end Coupling

end ScriptFold

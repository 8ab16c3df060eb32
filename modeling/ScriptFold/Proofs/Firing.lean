import ScriptFold.Proofs.Evolve

/-!
Runs of rules, one firing after another. What is shown of every change of a tree that a path still
leads into holds of every firing (`Fires.lift`), and so of every run. A firing makes the program
lighter and its revision larger: a run is bounded by the weight of the program, and one that ends at
the same revision has not begun.
-/

namespace ScriptFold

open Relation

namespace Path

variable {t : Tree} {p : Path} {owner id : NodeId}

/-- One path begins another. -/
inductive Above (p : Path) : Path → Prop
  | refl : Above p p
  | child {q key v} : Above p q → Above p (.child q key v)

theorem Above.trans {q r : Path} (h : p.Above q) (h' : q.Above r) : p.Above r := by
  induction h' with
  | refl => exact h
  | child _ ih => exact .child ih

theorem Above.of_child {q : Path} {key : Key} {v : Ref} (h : (Path.child p key v).Above q) :
    p.Above q := by
  induction h with
  | refl => exact .child .refl
  | child _ ih => exact .child ih

theorem Above.parent {q : Path} {key key' : Key} {v v' : Ref}
    (h : (Path.child p key v).Above (.child q key' v')) : p.Above q := by
  cases h with
  | refl => exact .refl
  | child h => exact h.of_child

theorem Above.depth_le {q : Path} (h : p.Above q) : p.depth ≤ q.depth := by
  induction h with
  | refl => exact le_rfl
  | child _ ih => exact Nat.le_succ_of_le ih

theorem Above.eq_or_step {q : Path} (h : p.Above q) (hq : q.Live t) :
    q = p ∨ ∃ key, (p.step t key).Above q := by
  induction h with
  | refl => exact .inl rfl
  | @child q key v h ih =>
    obtain ⟨hlive, rfl⟩ := hq
    rcases ih hlive with rfl | ⟨key, h⟩
    · exact .inr ⟨key, .refl⟩
    · exact .inr ⟨key, .child h⟩

theorem Above.value_eq_null {q : Path} (h : p.Above q) (hq : q.Live t) (hp : p.value = .null) :
    q.value = .null := by
  induction h with
  | refl => exact hp
  | @child q key v _ ih =>
    obtain ⟨hlive, rfl⟩ := hq
    change t.read q.value key = .null
    rw [ih hlive]
    cases key <;> rfl

theorem Above.within {q : Path} {x : NodeId} (h : p.Above q) (hq : q.Live t)
    (hx : p.value.owner? = some x) (hid : q.value.owner? = some id) : t.Within id x := by
  induction h generalizing id with
  | refl =>
    obtain rfl : x = id := Option.some.inj (hx.symm.trans hid)
    exact .refl
  | @child q key v h ih =>
    obtain ⟨hlive, hread⟩ := hq
    cases v with
    | null => cases hid
    | node y =>
      obtain rfl : y = id := Option.some.inj hid
      obtain ⟨owner, hleads⟩ := leads_of_read hread.symm
      exact .head hleads.child (ih hlive hleads.owner?)
    | list y f =>
      obtain rfl : y = id := Option.some.inj hid
      obtain ⟨hv, -⟩ := list_of_read hread.symm
      exact ih hlive (by rw [hv]; rfl)

theorem Live.above_root (hp : p.Live t) : (ofNode t.root).Above p := by
  induction p with
  | root value =>
    obtain rfl : value = .node t.root := hp
    exact .refl
  | child parent key value ih => exact .child (ih hp.1)

theorem Live.within_root (hp : p.Live t) (hid : p.value.owner? = some id) : t.Within id t.root :=
  hp.above_root.within hp rfl hid

theorem Live.exists_child {c y : NodeId} (hp : p.Live t) (hv : p.value = .node y)
    (hc : t.Child c y) : ∃ q : Path, p.Above q ∧ q.Live t ∧ q.value = .node c := by
  obtain ⟨⟨f, slot⟩, he, hce⟩ := Node.mem_children.mp hc
  have hs : t.slot? y f = some slot := Node.slot?_of_mem he
  have step : t.read (.node y) (.field f) = .node c →
      ∃ q : Path, p.Above q ∧ q.Live t ∧ q.value = .node c := fun hread =>
    ⟨.child p (.field f) (.node c), .child .refl, ⟨hp, by rw [hv, hread]⟩, rfl⟩
  have list : ∀ {items}, slot.items? = some items → t.read (.node y) (.field f) = .list y f →
      ∃ q : Path, p.Above q ∧ q.Live t ∧ q.value = .node c := by
    intro items hi hread
    obtain ⟨i, hget⟩ := List.mem_iff_getElem?.mp ((Slot.mem_children_of_items? hi).mp hce)
    refine ⟨.child (.child p (.field f) (.list y f)) (.index i) (.node c), .child (.child .refl),
      ⟨⟨hp, ?_⟩, ?_⟩, rfl⟩
    · rw [hv, hread]
    · rw [value, Tree.read, Tree.listItems?, hs, Option.bind_some, hi, Option.bind_some, hget]
  cases slot with
  | required d =>
    obtain rfl := List.mem_singleton.mp hce
    exact step (by rw [Tree.read, hs])
  | optional d =>
    obtain rfl : d = some c := by simpa [Slot.children] using hce
    exact step (by rw [Tree.read, hs]; rfl)
  | list cs => exact list rfl (by rw [Tree.read, hs])
  | holey cs => exact list rfl (by rw [Tree.read, hs])

theorem Live.exists_within {c y : NodeId} (hp : p.Live t) (hv : p.value = .node y)
    (hw : t.Within c y) : ∃ q : Path, p.Above q ∧ q.Live t ∧ q.value = .node c := by
  induction hw using ReflTransGen.head_induction_on with
  | refl => exact ⟨p, .refl, hp, hv⟩
  | head hc _ ih =>
    obtain ⟨q, hpq, hq, hqv⟩ := ih
    obtain ⟨r, hqr, hr, hrv⟩ := hq.exists_child hqv hc
    exact ⟨r, hpq.trans hqr, hr, hrv⟩

theorem Live.owner_within_root (hp : p.Live t) (h : p.Leads t owner id) :
    t.Within owner t.root := by
  cases p with
  | root value => cases h
  | child parent key value => exact hp.1.within_root h.owner?

end Path

theorem Slot.total_lt {α : Type} {f g : α → Nat} {slot : Slot α} {entry hole : Nat} {c : α}
    (h : ∀ c ∈ slot.children, f c ≤ g c) (hc : c ∈ slot.children) (hlt : f c < g c) :
    (slot.map f).total entry hole < (slot.map g).total entry hole := by
  cases slot with
  | required d =>
    obtain rfl : c = d := List.mem_singleton.mp hc
    exact hlt
  | optional d =>
    obtain rfl : d = some c := by simpa [children] using hc
    exact hlt
  | list cs =>
    simp only [map, total, List.map_map]
    refine List.sum_lt_sum _ _ (fun d hd => Nat.add_le_add_left (h d hd) entry) ⟨c, hc, ?_⟩
    exact Nat.add_lt_add_left hlt entry
  | holey cs =>
    simp only [map, total, List.map_map]
    refine List.sum_lt_sum _ _ (fun d hd => ?_) ⟨some c, mem_children_holey.mp hc, ?_⟩
    · cases d with
      | none => exact le_rfl
      | some d => exact Nat.add_le_add_left (h d (mem_children_holey.mpr hd)) entry
    · exact Nat.add_lt_add_left hlt entry

theorem Node.load_lt {α : Type} {f g : α → Nat} {n : Node α} {c : α}
    (h : ∀ c ∈ n.children, f c ≤ g c) (hc : c ∈ n.children) (hlt : f c < g c) :
    (n.map f).load < (n.map g).load := by
  obtain ⟨e, he, hce⟩ := mem_children.mp hc
  unfold load
  rw [slots_map, slots_map, List.map_map, List.map_map]
  refine List.sum_lt_sum _ _ (fun e he => Slot.total_mono fun c hc => ?_) ⟨e, he, ?_⟩
  · exact h c (mem_children.mpr ⟨e, he, hc⟩)
  · exact Slot.total_lt (fun c hc => h c (mem_children.mpr ⟨e, he, hc⟩)) hce hlt

namespace Store

variable {s s' : Store} {observed : Bool} {rule : Rule} {p : Path} {owner id x a : NodeId}
  {n : Node NodeId}

theorem Evolves.live_of_leads (h : s.Evolves owner s') (hp : p.Live s.tree)
    (hleads : p.Leads s'.tree owner a) : p.Live s'.tree := by
  cases p with
  | root value => cases hleads
  | child parent key value => exact ⟨h.live hp.1 hleads.owner? .refl, hleads.read⟩

/-- A relation that holds of every change at a path holds of every firing there. -/
theorem Fires.lift {R : Store → Store → Prop} (htrans : ∀ {a b c}, R a b → R b c → R a c)
    (hedit : ∀ {s s₁ x n}, s.Sound → s₁.Sound → s.Grows s₁ → p.Live s₁.tree →
      s₁.Edit observed rule p x n → R s (s₁.put x n))
    (h : s.Sound) (hp : p.Live s.tree) (hleads : p.Leads s.tree owner a)
    (hfires : Fires observed rule p s s') : R s s' := by
  have step : ∀ {b c : Store}, s.Evolves owner b → p.Leads b.tree owner a →
      Step observed rule p b c → R b c := by
    rintro b _ hb hleads ⟨b₁, x, n, hg, hb₁, he, rfl⟩
    have hleads₁ := hleads.congr (hg.tree.node (Tree.lt_size_of_child hleads.child))
    have hevolves := hb.trans (.grows hb.sound hb₁ hg)
    exact hedit hb.sound hb₁ hg (hevolves.live_of_leads hp hleads₁) he
  induction hfires with
  | single hstep => exact step (.refl h) hleads hstep
  | @tail b c hb hstep ih =>
    obtain ⟨hevolves, -⟩ := Fires.evolves h hleads hb
    have howner := (Tree.lt_size_of_child hleads.child).trans_le hevolves.size
    exact htrans ih (step hevolves (hstep.leads hleads howner) hstep)

theorem Edit.within_root (hp : p.Live s.tree) (he : s.Edit observed rule p x n) :
    s.tree.Within x s.tree.root := by
  cases he with
  | fill hleads | splice hleads => exact hp.owner_within_root hleads
  | rewrite hleads => exact .head hleads.child (hp.owner_within_root hleads)

theorem Evolves.weight_lt (h : s.Sound) (hevolves : s.Evolves x s') (hf : ¬ s.tree.isFrozen x)
    (hlt : s'.tree.weight x < s.tree.weight x) (hw : s.tree.Within x id) :
    s'.tree.weight id < s.tree.weight id := by
  induction hw with
  | refl => exact hlt
  | @tail c id hw hc ih =>
    have hid := Tree.lt_size_of_child hc
    have hfid : ¬ s.tree.isFrozen id := fun hfid => hf (h.isFrozen_within hfid (hw.tail hc))
    have hfid' : ¬ s'.tree.isFrozen id := by rwa [hevolves.isFrozen hid]
    rw [Tree.weight_eq h.wellFormed hfid, Tree.weight_eq hevolves.sound.wellFormed hfid',
      hevolves.above (TransGen.tail' hw hc)]
    refine Nat.add_lt_add_left (Node.load_lt (fun d hd => ?_) hc ih) _
    exact hevolves.weight (h.wellFormed.closed hd)

/-- A firing makes the program lighter, and its revision larger. -/
theorem Fires.progress (h : s.Sound) (hp : p.Live s.tree) (hleads : p.Leads s.tree owner a)
    (hfires : Fires observed rule p s s') :
    s.tree.revision < s'.tree.revision ∧
      s'.tree.weight s'.tree.root < s.tree.weight s.tree.root := by
  refine Fires.lift (R := fun s s' => s.tree.revision < s'.tree.revision ∧
    s'.tree.weight s'.tree.root < s.tree.weight s.tree.root)
    (fun h h' => ⟨h.1.trans h'.1, h'.2.trans h.2⟩) ?_ h hp hleads hfires
  intro s s₁ x n hs hs₁ hg hp₁ he
  have hroot : (s₁.put x n).tree.root = s₁.tree.root := rfl
  refine ⟨?_, ?_⟩
  · rw [← hg.tree.revision]
    exact Nat.lt_succ_self _
  · rw [hroot, ← Tree.weight_grows hs.wellFormed hs₁.wellFormed hg.tree hs.lt_size_of_root,
      ← hg.tree.root]
    exact (he.evolves hs₁).weight_lt hs₁ (he.admissible hs₁).2.1 (he.weight_lt hs₁)
      (he.within_root hp₁)

end Store

namespace FoldM

variable {α β : Type}

def recount {ε : Type} (stats : Stats) : EStateM.Result ε FoldState α → EStateM.Result ε FoldState α
  | .ok a s => .ok a { s with stats }
  | .error e s => .error e { s with stats }

/-- A step that neither looks at the counts nor changes them. -/
def Uncounted (m : FoldM α) : Prop :=
  ∀ s stats, m { s with stats } = recount stats (m s)

namespace Uncounted

variable {m : FoldM α} {f : α → FoldM β}

theorem stats_eq (h : Uncounted m) {s s' : FoldState} {a : α} (hm : m s = .ok a s') :
    s'.stats = s.stats := by
  have hsame := h s s.stats
  have hm' : m { s with stats := s.stats } = .ok a s' := hm
  rw [hm'] at hsame
  injection hsame with _ hs'
  rw [hs']

theorem pure (a : α) : Uncounted (Pure.pure a) := fun _ _ => rfl

theorem bind (hm : Uncounted m) (hf : ∀ a, Uncounted (f a)) : Uncounted (m >>= f) := by
  intro s stats
  change EStateM.bind m f _ = recount stats (EStateM.bind m f s)
  unfold EStateM.bind
  rw [hm s stats]
  cases m s with
  | ok a s' => exact hf a s' stats
  | error e s' => rfl

theorem get {f : FoldState → FoldM β} (hf : ∀ s, Uncounted (f s))
    (hstats : ∀ s stats, f { s with stats } = f s) : Uncounted (MonadState.get >>= f) := by
  intro s stats
  change f { s with stats } { s with stats } = recount stats (f s s)
  rw [hstats, hf s s stats]

theorem elim {ι : Type} {o : Option ι} {m : FoldM α} {f : ι → FoldM α} (hm : Uncounted m)
    (hf : ∀ i, Uncounted (f i)) : Uncounted (o.elim m f) := by
  cases o with
  | none => exact hm
  | some i => exact hf i

theorem edit (f : Tree → Except TreeError (α × Tree)) : Uncounted (FoldM.edit f) := by
  intro s stats
  unfold FoldM.edit
  dsimp only
  cases f s.tree <;> rfl

theorem store (f : Store → α × Store) : Uncounted (FoldM.store f) := fun _ _ => rfl

theorem tryStore (f : EStateM FoldError Store α) : Uncounted (FoldM.tryStore f) := by
  intro s stats
  unfold FoldM.tryStore
  dsimp only
  cases f s.toStore <;> rfl

theorem getTree : Uncounted (ScriptFold.getTree : FoldM Tree) := fun _ _ => rfl

theorem node (id : NodeId) : Uncounted (FoldM.node id) := fun _ _ => rfl

theorem isConstant (id : NodeId) : Uncounted (FoldM.isConstant id) := fun _ _ => rfl

theorem constant? (id : NodeId) : Uncounted (FoldM.constant? id) := fun s stats => by
  rw [constant?_run, constant?_run]
  rfl

theorem write (parent : Ref) (key : Key) (new : Option NodeId) :
    Uncounted (FoldM.write parent key new) := edit _

theorem nullifyOperand (p : Path) (f : Field) (operand : NodeId) :
    Uncounted (FoldM.nullifyOperand p f operand) :=
  get (fun s => by
    split
    · exact (store _).bind fun _ => write _ _ _
    · exact pure _) fun _ _ => rfl

theorem normalizeBody (p : Path) (body : NodeId) : Uncounted (FoldM.normalizeBody p body) :=
  get (fun s => by
    split
    · exact pure _
    · exact (store _).bind fun _ => write _ _ _) fun _ _ => rfl

theorem normalizeConsequent (p : Path) (consequent : NodeId) :
    Uncounted (FoldM.normalizeConsequent p consequent) :=
  get (fun s => by
    split
    · exact pure _
    · exact (store _).bind fun _ => write _ _ _) fun _ _ => rfl

theorem foldSequence (p : Path) : Uncounted (FoldM.foldSequence p) := by
  refine get (fun s => ?_) fun _ _ => rfl
  simp only [replace, modifyNode, toConst]
  repeat' first
    | exact pure _
    | exact edit _
    | exact tryStore _
    | refine bind ?_ fun _ => ?_
    | split

end Uncounted

/-- Rules leave the counting to the stage that applies them. -/
theorem uncounted_apply (rule : Rule) (p : Path) : Uncounted (rule.apply p) := by
  cases rule
  case sequenceExpr => exact .foldSequence p
  all_goals
    simp only [Rule.apply, dropUnreachable, foldExpressionStatement, mergeRun, foldConditional,
      foldLogical, foldBinary, foldUnary, foldMember, dropEmptyStatement, foldIf, foldLoop, foldFor,
      minifyBoolean, foldOutsidePrologue, memberValue?, removeFromList, replace, remove, splice,
      modifyNode, FoldM.alloc, toConst, emptyStatement, expressionStatement, dropEmptyAlternate,
      headStatement?, clearConstant, normalizeTest]
    repeat' first
      | with_reducible first
        | exact .pure _
        | exact .getTree
        | exact .edit _
        | exact .store _
        | exact .tryStore _
        | exact .node _
        | exact .isConstant _
        | exact .constant? _
        | exact .nullifyOperand _ _ _
        | exact .normalizeBody _ _
        | exact .normalizeConsequent _ _
        | exact .write _ _ _
        | refine .bind ?_ fun _ => ?_
        | refine .elim ?_ fun _ => ?_
      | split

end FoldM

namespace FoldState

/-- One of some rules fires, at a path to a node that may be replaced, and is counted. -/
inductive Firing (rules : List Rule) (s : FoldState) : FoldState → Prop
  | intro {rule p q s'} : rule ∈ rules → p.Live s.tree → p.node?.isSome →
    ¬ Rule.inFrozenNode s.tree p → rule.apply p s = .ok (some q) s' →
    Firing rules s { s' with stats := s'.stats.record rule }

/-- Some of the rules fire, one after another. -/
abbrev Reaches (rules : List Rule) : FoldState → FoldState → Prop :=
  ReflTransGen (Firing rules)

/-- A state in which a round is over. -/
def closeRound (s : FoldState) : FoldState :=
  { s with stats := { s.stats with rounds := s.stats.rounds + 1 } }

/-- What folding does: a rule fires, or a round is over. -/
inductive Folds (rules : List Rule) (s : FoldState) : FoldState → Prop
  | refl : Folds rules s s
  | fire {s₁ s₂} : Folds rules s s₁ → Firing rules s₁ s₂ → Folds rules s s₂
  | round {s₁} : Folds rules s s₁ → Folds rules s s₁.closeRound

/-- None of some rules fires anywhere. -/
def Silent (rules : List Rule) (s : FoldState) : Prop :=
  ∀ rule ∈ rules, ∀ p : Path, p.Live s.tree → p.node?.isSome → ¬ Rule.inFrozenNode s.tree p →
    rule.apply p s = .ok none s

variable {rules : List Rule} {s s' s'' : FoldState}

theorem Firing.of_run {rule : Rule} {p q : Path} (hrule : rule ∈ rules) (hp : p.Live s.tree)
    (hnode : p.node?.isSome) (hfrozen : ¬ Rule.inFrozenNode s.tree p)
    (hrun : rule.apply p s = .ok (some q) { s' with stats := s.stats })
    (hstats : s'.stats = s.stats.record rule) : Firing rules s s' := by
  have hf : Firing rules s { s' with stats := s.stats.record rule } :=
    .intro hrule hp hnode hfrozen hrun
  rw [← hstats] at hf
  exact hf

/-- A path to a node that may be replaced is that of the program, or leads to a slot that may be
edited. -/
theorem open_of_live (h : s.Sound) {p : Path} (hp : p.Live s.tree) (hnode : p.node?.isSome)
    (hf : ¬ Rule.inFrozenNode s.tree p) :
    p = .root (.node s.tree.root) ∨ ∃ owner id, s.Open p owner id := by
  obtain ⟨id, hid⟩ := Option.isSome_iff_exists.mp hnode
  rcases hp.cases hid with ⟨rfl, -⟩ | ⟨owner, hleads⟩
  · exact .inl rfl
  · rw [hleads.inFrozenNode hp] at hf
    exact .inr ⟨owner, id, h, hleads, hf⟩

/-- What there is to know of a firing. -/
theorem Firing.cases (h : s.Sound) (hf : Firing rules s s') :
    ∃ rule ∈ rules, ∃ p owner id, p.Live s.tree ∧ s.Open p owner id ∧
      Store.Fires (s.tree.isCompletion p) rule p s.toStore s'.toStore ∧ s'.Sound ∧
      s'.stats = s.stats.record rule := by
  obtain @⟨rule, p, q, s₁, hrule, hp, hnode, hfrozen, hrun⟩ := hf
  have hstats := (FoldM.uncounted_apply rule p).stats_eq hrun
  rcases open_of_live h hp hnode hfrozen with rfl | ⟨owner, id, hopen⟩
  · cases ((rule.apply_root h).of_ok hrun).1
  · obtain ⟨hs₁, hr⟩ := (rule.apply_ensures hopen).of_ok hrun
    exact ⟨rule, hrule, p, owner, id, hp, hopen, hr.1, hs₁, congrArg (Stats.record · rule) hstats⟩

theorem Reaches.sound (h : s.Sound) (hr : Reaches rules s s') : s'.Sound := by
  induction hr with
  | refl => exact h
  | tail _ hf hs =>
    obtain ⟨_, _, _, _, _, _, _, _, hs', -⟩ := hf.cases hs
    exact hs'

theorem Firing.mono {more : List Rule} (hsub : rules ⊆ more) (hf : Firing rules s s') :
    Firing more s s' := by
  obtain ⟨hrule, hp, hnode, hfrozen, hrun⟩ := hf
  exact .intro (hsub hrule) hp hnode hfrozen hrun

theorem Reaches.mono {more : List Rule} (hsub : rules ⊆ more) (hr : Reaches rules s s') :
    Reaches more s s' :=
  ReflTransGen.mono (fun _ _ => Firing.mono hsub) _ _ hr

theorem Reaches.folds (hr : Reaches rules s s') : Folds rules s s' := by
  induction hr with
  | refl => exact .refl
  | tail _ hf ih => exact .fire ih hf

theorem Folds.trans (h : Folds rules s s') (h' : Folds rules s' s'') : Folds rules s s'' := by
  induction h' with
  | refl => exact h
  | fire _ hf ih => exact .fire ih hf
  | round _ ih => exact .round ih

theorem Firing.revision_lt (h : s.Sound) (hf : Firing rules s s') :
    s.tree.revision < s'.tree.revision := by
  obtain ⟨rule, -, p, owner, id, hp, hopen, hfires, -⟩ := hf.cases h
  exact (hfires.progress h hp hopen.leads).1

theorem Firing.weight_lt (h : s.Sound) (hf : Firing rules s s') :
    s'.tree.weight s'.tree.root < s.tree.weight s.tree.root := by
  obtain ⟨rule, -, p, owner, id, hp, hopen, hfires, -⟩ := hf.cases h
  exact (hfires.progress h hp hopen.leads).2

theorem Reaches.revision_le (h : s.Sound) (hr : Reaches rules s s') :
    s.tree.revision ≤ s'.tree.revision := by
  induction hr with
  | refl => exact le_rfl
  | tail hr hf hle => exact hle.trans (hf.revision_lt (Reaches.sound h hr)).le

theorem Reaches.eq_of_revision (h : s.Sound) (hr : Reaches rules s s')
    (heq : s'.tree.revision = s.tree.revision) : s' = s := by
  rcases ReflTransGen.cases_tail hr with rfl | ⟨s₁, hr, hf⟩
  · rfl
  · have hle := Reaches.revision_le h hr
    have hlt := hf.revision_lt (Reaches.sound h hr)
    omega

theorem Reaches.eq_of_trans (h : s.Sound) (hr : Reaches rules s s') (hr' : Reaches rules s' s) :
    s' = s := by
  refine Reaches.eq_of_revision h hr (Nat.le_antisymm ?_ (Reaches.revision_le h hr))
  exact Reaches.revision_le (Reaches.sound h hr) hr'

theorem Silent.eq_of_reaches (hs : Silent rules s) (hr : Reaches rules s s') : s' = s := by
  rcases ReflTransGen.cases_head hr with heq | ⟨s₁, hf, -⟩
  · exact heq.symm
  · obtain ⟨hrule, hp, hnode, hfrozen, hrun⟩ := hf
    rw [hs _ hrule _ hp hnode hfrozen] at hrun
    cases hrun

theorem Silent.recount (hs : Silent rules s) (stats : Stats) : Silent rules { s with stats } := by
  intro rule hrule p hp hnode hfrozen
  rw [FoldM.uncounted_apply rule p s stats, hs rule hrule p hp hnode hfrozen]
  rfl

theorem Folds.sound (h : s.Sound) (hr : Folds rules s s') : s'.Sound := by
  induction hr with
  | refl => exact h
  | fire _ hf hs =>
    obtain ⟨_, _, _, _, _, _, _, _, hs', -⟩ := hf.cases hs
    exact hs'
  | round _ hs => exact hs

/-- A run in which no rule fired left tree and pool as they were. -/
theorem Folds.changes_lt (h : s.Sound) (hr : Folds rules s s') :
    s'.toStore = s.toStore ∧ s'.stats.changes = s.stats.changes ∨
      s.stats.changes < s'.stats.changes := by
  induction hr with
  | refl => exact .inl ⟨rfl, rfl⟩
  | @fire s₁ s₂ hr hf ih =>
    obtain ⟨rule, -, -, -, -, -, -, -, -, hstats⟩ := hf.cases (hr.sound h)
    have hone : s₂.stats.changes = s₁.stats.changes + 1 := by
      rw [hstats]
      rfl
    omega
  | round _ ih => exact ih

/-- Each firing takes weight from the program. -/
theorem Folds.changes_le (h : s.Sound) (hr : Folds rules s s') :
    s'.stats.changes + s'.tree.weight s'.tree.root ≤
      s.stats.changes + s.tree.weight s.tree.root := by
  induction hr with
  | refl => exact le_rfl
  | @fire s₁ s₂ hr hf hle =>
    have hs := hr.sound h
    obtain ⟨rule, -, -, -, -, -, -, -, -, hstats⟩ := hf.cases hs
    have hlt := hf.weight_lt hs
    have hone : s₂.stats.changes = s₁.stats.changes + 1 := by
      rw [hstats]
      rfl
    omega
  | round _ hle => exact hle

theorem Reaches.weight_le (h : s.Sound) (hr : Reaches rules s s') :
    s'.tree.weight s'.tree.root ≤ s.tree.weight s.tree.root := by
  induction hr with
  | refl => exact le_rfl
  | tail hr hf hle => exact (hf.weight_lt (Reaches.sound h hr)).le.trans hle

theorem Reaches.weight_lt (h : s.Sound) (hr : Reaches rules s s')
    (hne : s'.tree.revision ≠ s.tree.revision) :
    s'.tree.weight s'.tree.root < s.tree.weight s.tree.root := by
  rcases ReflTransGen.cases_tail hr with rfl | ⟨s₁, hr, hf⟩
  · exact absurd rfl hne
  · exact (hf.weight_lt (Reaches.sound h hr)).trans_le (Reaches.weight_le h hr)

end FoldState

end ScriptFold

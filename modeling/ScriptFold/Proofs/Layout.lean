import ScriptFold.Proofs.Convergence
import ScriptFold.Proofs.Unshared

/-!
How a program is laid out when it is read. Every node is put into the tree after those below it, and
is referred to from one slot only, but for the last node, which is the program.
-/

namespace ScriptFold

open Relation

namespace Tree

variable {t : Tree} {y : NodeId}

/-- What the slots of all nodes hold, whether the nodes are in use or not. -/
def held (t : Tree) : List NodeId :=
  (List.range t.size).flatMap fun id => (t.node id).children

theorem held_alloc (t : Tree) (node : Node NodeId) :
    (t.alloc node).2.held = t.held ++ node.children := by
  unfold held
  rw [size_alloc, List.range_succ, List.flatMap_append, List.flatMap_singleton, node_alloc, if_pos rfl]
  congr 1
  refine List.flatMap_congr fun id hid => ?_
  rw [node_alloc, if_neg (List.mem_range.mp hid).ne]

/-- A run adds nodes that are all referred to from one slot, but for those that are still to be put
somewhere, as `pending` was before. -/
structure Lays {β : Type} (pending : List NodeId) (m : StateM Tree β) (rest : β → List NodeId) :
    Prop where
  count : ∀ t : Tree, ∀ y,
    (m t).2.held.count y + (rest (m t).1).count y + (List.range t.size).count y =
      t.held.count y + pending.count y + (List.range (m t).2.size).count y

namespace Lays

variable {α β : Type} {pending : List NodeId} {rest : β → List NodeId} {f : α → StateM Tree NodeId}

theorem pure {b : β} (h : ∀ y, (rest b).count y = pending.count y) :
    Lays pending (Pure.pure b) rest where
  count t y := by
    change t.held.count y + (rest b).count y + _ = t.held.count y + _ + (List.range t.size).count y
    rw [h]

theorem bind {m : StateM Tree α} {ids : α → List NodeId} {g : α → StateM Tree β}
    (hm : Lays [] m ids) (hg : ∀ a, Lays (ids a ++ pending) (g a) rest) :
    Lays pending (m >>= g) rest where
  count t y := by
    have h := hm.count t y
    have h' := (hg (m t).1).count (m t).2 y
    change ((g (m t).1) (m t).2).2.held.count y + (rest ((g (m t).1) (m t).2).1).count y + _ =
      _ + _ + (List.range ((g (m t).1) (m t).2).2.size).count y
    rw [List.count_append] at h'
    rw [List.count_nil] at h
    omega

theorem mapM_option {a? : Option α} (h : ∀ a, a? = some a → Lays [] (f a) ([·])) :
    Lays [] (a?.mapM f) Option.toList := by
  cases a? with
  | none => exact .pure fun _ => rfl
  | some a => exact (h a rfl).bind fun id => .pure fun y => by simp

theorem mapM {S : β → List NodeId} {f : α → StateM Tree β} {as : List α}
    (h : ∀ a ∈ as, Lays [] (f a) S) : Lays [] (as.mapM f) (·.flatMap S) := by
  induction as with
  | nil =>
    rw [List.mapM_nil]
    exact .pure fun _ => rfl
  | cons a as ih =>
    rw [List.mapM_cons]
    refine (h a (by simp)).bind fun b => ?_
    refine (ih fun a ha => h a (by simp [ha])).bind fun bs => .pure fun y => ?_
    simp [List.count_append, Nat.add_comm]

variable {c : α}

theorem required {g : NodeId → StateM Tree β} (h : Lays [] (f c) ([·]))
    (hg : ∀ id, Lays (id :: pending) (g id) rest) : Lays pending (f c >>= g) rest :=
  h.bind hg

theorem optional {c? : Option α} {g : Option NodeId → StateM Tree β}
    (h : ∀ c, c? = some c → Lays [] (f c) ([·]))
    (hg : ∀ id?, Lays (id?.toList ++ pending) (g id?) rest) : Lays pending (c?.mapM f >>= g) rest :=
  (mapM_option h).bind hg

theorem list {cs : List α} {g : List NodeId → StateM Tree β} (h : ∀ c ∈ cs, Lays [] (f c) ([·]))
    (hg : ∀ ids, Lays (ids ++ pending) (g ids) rest) : Lays pending (cs.mapM f >>= g) rest :=
  (mapM h).bind fun ids => by
    simpa using hg ids

theorem holey {cs : List (Option α)} {g : List (Option NodeId) → StateM Tree β}
    (h : ∀ c, some c ∈ cs → Lays [] (f c) ([·]))
    (hg : ∀ ids, Lays (ids.filterMap id ++ pending) (g ids) rest) :
    Lays pending ((cs.mapM fun c? => c?.mapM f) >>= g) rest := by
  have each : ∀ c? ∈ cs, Lays [] (c?.mapM f) Option.toList := fun c? hc? =>
    mapM_option fun c hc => h c (hc ▸ hc?)
  refine (mapM each).bind fun ids => ?_
  rw [← List.filterMap_eq_flatMap_toList]
  exact hg ids

theorem traverse {n : Node α} (h : ∀ c ∈ n.children, Lays [] (f c) ([·])) :
    Lays [] (n.traverse (Visitor.each f)) Node.children := by
  cases n <;> unfold Node.traverse Visitor.each <;> dsimp only
  all_goals
    simp only [Node.children, Node.slots, Slot.children, List.flatMap_cons, List.flatMap_nil,
      List.append_nil, List.mem_append, List.mem_cons, List.mem_filterMap, id, exists_eq_right,
      Option.mem_toList, List.not_mem_nil, or_false] at h
    repeat with_reducible first
      | refine .required (h _ (by grind)) fun _ => ?_
      | refine .optional (fun _ hc => h _ (by grind)) fun _ => ?_
      | refine .list (fun _ hc => h _ (by grind)) fun _ => ?_
      | refine .holey (fun _ hc => h _ (by grind)) fun _ => ?_
    refine .pure fun y => ?_
    simp only [Node.children, Node.slots, Slot.children, List.flatMap_cons, List.flatMap_nil,
      List.append_nil, List.count_append, List.count_cons, List.count_nil]
    try omega

end Lays

theorem child_unique (h : t.held.Nodup) : Relator.RightUnique t.Child := by
  intro c id id' hc hc'
  have apart : ∀ {a b}, a < b → t.Child c a → ¬ t.Child c b := by
    intro a b hab ha hb
    have hdisjoint := List.pairwise_iff_getElem.mp (List.nodup_flatMap.mp h).2 a b
      (by simpa using lt_size_of_child ha) (by simpa using lt_size_of_child hb) hab
    rw [List.getElem_range, List.getElem_range] at hdisjoint
    exact hdisjoint ha hb
  rcases Nat.lt_trichotomy id id' with hlt | heq | hlt
  · exact absurd hc' (apart hlt hc)
  · exact heq
  · exact absurd hc (apart hlt hc')

theorem nodup_children (h : t.held.Nodup) (id : NodeId) : (t.node id).children.Nodup := by
  by_cases hid : id < t.size
  · exact (List.nodup_flatMap.mp h).1 id (List.mem_range.mpr hid)
  · rw [node_of_size_le (Nat.le_of_not_lt hid)]
    exact List.nodup_nil

/-- Where every node is referred to once, nothing is met twice. -/
theorem nodup_members (wf : t.WellFormed) (h : t.held.Nodup) (id : NodeId) :
    (t.members id).Nodup := by
  induction id using wf.acyclic.induction with
  | _ id ih =>
    by_cases hf : t.isFrozen id
    · rw [members_of_frozen wf hf]
      exact List.nodup_nil
    rw [members_eq wf hf, List.nodup_cons, List.nodup_flatMap]
    refine ⟨?_, fun c hc => ih c hc, ?_⟩
    · intro hmem
      obtain ⟨c, hc, hid⟩ := List.mem_flatMap.mp hmem
      exact wf.not_within_child hc (within_of_mem_members wf hid)
    · refine (nodup_children h id).imp_of_mem fun {c d} hc hd hne y hyc hyd => ?_
      -- one of the two children would be below the other, and so their parent too
      have apart : ∀ {c d}, t.Child c id → t.Child d id → c ≠ d → ¬ t.Within c d := by
        intro c d hc hd hne hw
        rcases ReflTransGen.cases_head hw with heq | ⟨o, ho, hod⟩
        · exact hne heq
        · obtain rfl := child_unique h hc ho
          exact wf.not_within_child hd hod
      rcases ReflTransGen.total_of_right_unique (child_unique h) (within_of_mem_members wf hyc)
        (within_of_mem_members wf hyd) with hw | hw
      · exact apart hc hd hne hw
      · exact apart hd hc hne.symm hw

end Tree

namespace Term

open ScriptFold.Tree

theorem allocate_lays (t : Term) : Lays [] t.allocate ([·]) := by
  induction t using Term.induction with
  | _ n ih =>
    refine ⟨fun tree y => ?_⟩
    have hlays := (Lays.traverse ih).count tree y
    rw [allocate_mk]
    dsimp only
    generalize n.traverse (Visitor.each allocate) tree = r at *
    change (r.2.alloc r.1).2.held.count y + [r.2.size].count y + _ = _
    rw [held_alloc, size_alloc, List.range_succ, List.count_append, List.count_append]
    omega

theorem toTree_eq (t : Term) : t.toTree.size = (t.allocate empty).2.size ∧
    t.toTree.root = (t.allocate empty).1 ∧ ∀ id, t.toTree.node id = (t.allocate empty).2.node id := by
  change ((t.allocate empty).2.setRoot (t.allocate empty).1).size = _ ∧
    ((t.allocate empty).2.setRoot (t.allocate empty).1).root = _ ∧
      ∀ id, ((t.allocate empty).2.setRoot (t.allocate empty).1).node id = _
  unfold setRoot
  split
  · exact ⟨rfl, ‹_›, fun _ => rfl⟩
  · exact ⟨rfl, rfl, fun _ => rfl⟩

/-- What is laid out refers once to every node but the last, which is the program, and the first, which
is not used. -/
theorem count_held_toTree (t : Term) (y : NodeId) : t.toTree.held.count y +
    [t.toTree.root].count y + (List.range 1).count y = (List.range t.toTree.size).count y := by
  obtain ⟨hsize, hroot, hnode⟩ := t.toTree_eq
  have hheld : t.toTree.held = (t.allocate empty).2.held := by
    unfold held
    rw [hsize]
    exact List.flatMap_congr fun id _ => congrArg Node.children (hnode id)
  rw [hheld, hsize, hroot]
  have hlays := t.allocate_lays.count empty y
  have hempty : empty.held.count y = 0 := rfl
  rw [hempty, List.count_nil, Nat.zero_add] at hlays
  exact hlays

theorem nodup_held_toTree (t : Term) : t.toTree.held.Nodup := by
  rw [List.nodup_iff_count_le_one]
  intro y
  have hcount := t.count_held_toTree y
  have hrange := List.nodup_iff_count_le_one.mp (List.nodup_range (n := t.toTree.size)) y
  omega

theorem mem_held_toTree (t : Term) {y : NodeId} (hpos : 0 < y) (hy : y < t.toTree.size)
    (hne : y ≠ t.toTree.root) : y ∈ t.toTree.held := by
  have hcount := t.count_held_toTree y
  have hrange : 0 < (List.range t.toTree.size).count y :=
    List.count_pos_iff.mpr (List.mem_range.mpr hy)
  have hfirst : (List.range 1).count y = 0 :=
    List.count_eq_zero.mpr fun hmem => hpos.ne' (Nat.lt_one_iff.mp (List.mem_range.mp hmem))
  have hlast : [t.toTree.root].count y = 0 :=
    List.count_eq_zero.mpr fun hmem => hne (List.mem_singleton.mp hmem)
  refine List.count_pos_iff.mp ?_
  omega

end Term

/-- A program as it was read: no node is held twice, and what holds another is in the program. -/
structure Tree.Laid (t : Tree) : Prop where
  wellFormed : t.WellFormed
  held : t.held.Nodup
  within : ∀ {c x}, t.Child c x → t.Within x t.root
  program : (t.node t.root).kind = .program

theorem Tree.laid_ofJson {json : Json} {t : Tree} (hj : json.Finite) (ht : ofJson json = .ok t) :
    t.Laid := by
  obtain ⟨hs, hordered⟩ := fresh_ofJson hj ht
  unfold ofJson at ht
  cases h : Term.ofJson json with
  | error e =>
    rw [h] at ht
    cases ht
  | ok term =>
    rw [h] at ht
    obtain rfl : term.toTree = t := Except.ok.inj ht
    refine ⟨hs.wellFormed, term.nodup_held_toTree, fun {c x} hc => ?_, hs.program⟩
    -- going up from a node ends at the program, since the numbers grow
    have above : ∀ gap y, term.toTree.size - y ≤ gap → 0 < y → y < term.toTree.size →
        term.toTree.Within y term.toTree.root := by
      intro gap
      induction gap with
      | zero => omega
      | succ gap ih =>
        intro y hgap hpos hy
        by_cases hroot : y = term.toTree.root
        · rw [hroot]
        · obtain ⟨z, hz, hyz⟩ := List.mem_flatMap.mp (term.mem_held_toTree hpos hy hroot)
          have hlt : y < z := hordered hyz
          exact .head hyz (ih z (by omega) (by omega) (List.mem_range.mp hz))
    have hlt : c < x := hordered hc
    exact above _ x le_rfl (Nat.zero_lt_of_lt hlt) (lt_size_of_child hc)

/-- How nodes hang together: what is below a node is there and not above it, the program is held by no
node, and of the nodes of the program those that are not frozen are held by one slot. -/
structure Tree.Orderly (t : Tree) : Prop where
  closed : ∀ {c id}, t.Child c id → c < t.size
  acyclic : ∀ {id}, ¬ t.Below id id
  held_once : ∀ {id}, t.Within id t.root → ¬ t.isFrozen id → id ≠ t.root →
    ∃! slot : NodeId × Nat, t.Within slot.1 t.root ∧ t.Holds slot.1 slot.2 id
  root_free : ∀ {id}, t.Within id t.root → ¬ t.Child t.root id
  frozen : ∀ {c id}, t.isFrozen id → t.Child c id → t.isFrozen c
  program : (t.node t.root).kind = .program

theorem Store.Sound.orderly {s : Store} (h : s.Sound) (hu : s.tree.Unshared) : s.tree.Orderly where
  closed := h.wellFormed.closed
  acyclic := h.wellFormed.not_below_self
  held_once {id} hw hf hne := by
    rcases ReflTransGen.cases_head hw with rfl | ⟨owner, hc, howner⟩
    · exact absurd rfl hne
    obtain ⟨i, hi⟩ := hc.holds
    refine ⟨(owner, i), ⟨howner, hi⟩, fun slot ⟨hslot, hheld⟩ => ?_⟩
    obtain ⟨h₁, h₂⟩ := h.holds_unique hf hu hslot hheld howner hi
    exact Prod.ext h₁ h₂
  root_free hw hc := h.wellFormed.not_within_child hc hw
  frozen := h.isFrozen_child
  program := h.program

variable {json : Json} {t : Tree}

/-- A program is read into an orderly tree, and every firing keeps it so, with the same program. -/
theorem Tree.orderly_ofJson (hj : json.Finite) (ht : ofJson json = .ok t) :
    t.Orderly ∧ (∀ {c id}, t.Child c id → c < id) ∧ t.size = t.root + 1 ∧
    (∀ rules s, FoldState.Folds rules { tree := t } s → s.tree.Orderly ∧ s.tree.root = t.root) ∧
    ∀ options : Options, ∀ limit, ∃ s, options.rounds limit { tree := t } = .ok () s ∧
      FoldState.Folds options.rules { tree := t } s := by
  obtain ⟨hs, hordered⟩ := fresh_ofJson hj ht
  obtain ⟨hsize, hu⟩ : t.size = t.root + 1 ∧ t.Unshared := by
    unfold ofJson at ht
    cases h : Term.ofJson json with
    | error e =>
      rw [h] at ht
      cases ht
    | ok term =>
      rw [h] at ht
      obtain rfl : term.toTree = t := Except.ok.inj ht
      obtain ⟨hsize, hroot, -⟩ := term.toTree_eq
      obtain ⟨-, -, hlast, -⟩ :=
        Term.allocate_adds (Term.ofJson_finite hj h) empty fresh_empty
      exact ⟨by rw [hsize, hroot, hlast], nodup_members hs.wellFormed term.nodup_held_toTree _⟩
  refine ⟨hs.orderly hu, hordered, hsize, fun rules s hr => ⟨?_, hr.root_eq hs⟩,
    fun options limit => ?_⟩
  · exact (hr.sound hs).orderly (hr.unshared hs hu)
  · obtain ⟨_, s, hrun, hfolds⟩ := options.rounds_ensures limit (s := { tree := t }) hs
    exact ⟨s, hrun, hfolds⟩

namespace FoldState

-- `Tree.call` again, whose two arguments come to share a node: the rule on conditional expressions
-- fires, then the one on unary operators at either argument, and the empty statement is dropped

def callFirst : FoldState where
  tree := (callBranch.tree.alloc (.literal (.bool true)) { frozen := true }).2.setNode 10
    (.callExpression 2 [13, 7])
  pool := { interned := ({} : Std.HashMap _ _).insert (.bool true) 13
            values := ({} : Std.HashMap _ _).insert 13 (.bool true) }
  stats := callBranch.stats.record .unaryExpr

def callBoth : FoldState where
  tree := callFirst.tree.setNode 10 (.callExpression 2 [13, 13])
  pool := callFirst.pool
  stats := callFirst.stats.record .unaryExpr

variable {rules : List Rule}

theorem firing_branch (h : .conditionalExpr ∈ rules) : Firing rules { tree := .call } callBranch :=
  .of_run h (Tree.live_argumentSlot _ 1) rfl (by decide) (branch_run {}) rfl

theorem firing_first (h : .unaryExpr ∈ rules) (hs : callBranch.Sound) :
    Firing rules callBranch callFirst := by
  have hnull : callBranch.value? 3 = some .null := hs.value?_literal (l := .null) rfl
  have hnot : callBranch.value? 4 = none := by
    rw [hs.value?_eq, Store.valueStep,
      show callBranch.pool.values[4]? = none from Std.HashMap.getElem?_empty]
    rfl
  have hrun := FoldM.foldUnary_run (s := callBranch) (p := callBranch.tree.argumentSlot 0)
    (show Path.node? _ = some 4 from rfl) rfl hnot hnull (b := true) rfl
    (Store.internLiteral_of_none Std.HashMap.getElem?_empty) rfl
  exact .of_run h (Tree.live_argumentSlot _ 0) rfl (by decide) hrun rfl

theorem firing_both (h : .unaryExpr ∈ rules) (hs : callFirst.Sound) :
    Firing rules callFirst callBoth := by
  have hnull : callFirst.value? 6 = some .null := hs.value?_literal (l := .null) rfl
  have hnot : callFirst.value? 7 = none := by
    rw [hs.value?_eq, Store.valueStep, show callFirst.pool.values[7]? = none by simp [callFirst]]
    rfl
  have hrun := FoldM.foldUnary_run (s := callFirst) (p := callFirst.tree.argumentSlot 1)
    (show Path.node? _ = some 7 from rfl) rfl hnot hnull (b := true) rfl
    (Store.internLiteral_of_some Std.HashMap.getElem?_insert_self) rfl
  exact .of_run h (Tree.live_argumentSlot _ 1) rfl (by decide) hrun rfl

end FoldState

/-- Two arguments come to share a frozen node. -/
theorem Tree.orderly_ofJson_programCall : ∃ t, ofJson .programCall = .ok t ∧ ∃ s,
    FoldState.Folds [.conditionalExpr, .unaryExpr, .emptyStatements] { tree := t } s ∧
    s.stats.counts = [(.conditionalExpr, 1), (.unaryExpr, 2), (.emptyStatements, 1)] ∧
    s.tree.node 10 = .callExpression 2 [13, 13] ∧ s.tree.isFrozen 13 ∧
    s.tree.node 12 = .program [11] ∧ s.tree.Orderly ∧ s.tree.root = 12 := by
  let rules : List Rule := [.conditionalExpr, .unaryExpr, .emptyStatements]
  have hbranch : FoldState.Folds rules { tree := call } .callBranch :=
    .fire .refl (FoldState.firing_branch (by simp [rules]))
  have hfirst : FoldState.Folds rules { tree := call } .callFirst :=
    .fire hbranch (FoldState.firing_first (by simp [rules]) (hbranch.sound Store.sound_call))
  have hboth : FoldState.Folds rules { tree := call } .callBoth :=
    .fire hfirst (FoldState.firing_both (by simp [rules]) (hfirst.sound Store.sound_call))
  let p : Path := (Path.ofNode 12).get FoldState.callBoth.tree [.field .body, .index 0]
  obtain ⟨q, s, hrun, hcall, hfrozen, hprogram, hcounts⟩ : ∃ q s,
      Rule.emptyStatements.apply p .callBoth = .ok (some q) s ∧
      s.tree.node 10 = .callExpression 2 [13, 13] ∧ s.tree.isFrozen 13 ∧
      s.tree.node 12 = .program [11] ∧ s.stats = FoldState.callBoth.stats :=
    ⟨_, _, rfl, rfl, rfl, rfl, rfl⟩
  have hlive : p.Live FoldState.callBoth.tree := (Path.live_ofNode _).get _
  have hlast : FoldState.Folds rules { tree := call }
      { s with stats := s.stats.record .emptyStatements } :=
    .fire hboth (.intro (by simp [rules]) hlive rfl (by decide) hrun)
  obtain ⟨horderly, hroot⟩ :=
    (orderly_ofJson Json.finite_programCall ofJson_programCall).2.2.2.1 rules _ hlast
  refine ⟨_, rfl, _, hlast, ?_, hcall, hfrozen, hprogram, horderly, hroot⟩
  rw [hcounts]
  rfl

end ScriptFold

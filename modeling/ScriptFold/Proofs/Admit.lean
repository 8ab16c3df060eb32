import ScriptFold.Proofs.Rewrite

/-!
Every change by a rule keeps the invariant: it hits a node that may be edited, keeps the kind of
that node, and gives it no child that leads back to it.
-/

namespace ScriptFold

namespace Tree

variable {t : Tree} {a b : NodeId}

theorem not_below_of_children (h : ∀ x, t.Child x b → ¬ t.Within a x) : ¬ t.Below a b := by
  intro hb
  obtain ⟨x, hx, hc⟩ := Relation.TransGen.tail'_iff.mp hb
  exact h x hc hx

theorem lt_size_of_node {id : NodeId} (h : t.node id ≠ .emptyStatement) : id < t.size := by
  by_contra hid
  exact h (node_of_size_le (Nat.le_of_not_lt hid))

theorem child_of_node {n : Node NodeId} (hn : t.node a = n) (hb : b ∈ n.children) : t.Child b a := by
  unfold Child
  rwa [hn]

/-- A new node over nodes that do not lead to `a` does not lead there either. -/
theorem confined_of_node {n : Node NodeId} (hn : t.node b = n) (hne : n ≠ .emptyStatement)
    (h : ∀ x ∈ n.children, ¬ t.Within a x) : b < t.size ∧ ¬ t.Below a b := by
  refine ⟨lt_size_of_node (by rwa [hn]), not_below_of_children fun x hx => h x ?_⟩
  unfold Child at hx
  rwa [hn] at hx

end Tree

namespace Store

variable {s : Store} {observed : Bool} {rule : Rule} {a b id owner : NodeId}

theorem Sound.kind_of_frozen (h : s.Sound) (hf : s.tree.isFrozen id) :
    (s.tree.node id).kind ∈ [Kind.literal, .unaryExpression, .binaryExpression, .arrayExpression,
      .emptyStatement] := by
  rcases h.frozen hf with ⟨v, hv⟩ | he
  · exact List.mem_append_left [Kind.emptyStatement] (h.spells hv).kind
  · rw [(h.emptyStatement he).2]
    decide

theorem Sound.isFrozen_holds (h : s.Sound) {v : Value} (hb : s.Holds v b) : s.tree.isFrozen b :=
  (h.spells hb).isFrozen

theorem expression?_eq {n : Node NodeId} {e : NodeId} (h : n.expression? = some e) :
    ∃ directive, n = .expressionStatement e directive := by
  cases n <;> cases h
  exact ⟨_, rfl⟩

theorem ifExpression?_cases {t : Tree} {test consequent : NodeId} {alternate : Option NodeId}
    {n : Node NodeId} (h : FoldM.ifExpression? t observed test consequent alternate = some n) :
    (∃ other x y, alternate = some other ∧ (t.node consequent).expression? = some x ∧
      (t.node other).expression? = some y ∧ n = .conditionalExpression test x y) ∨
    ∃ x, alternate = none ∧ observed = false ∧ (t.node consequent).expression? = some x ∧
      n = .logicalExpression .and test x := by
  unfold FoldM.ifExpression? at h
  obtain ⟨x, hx, h⟩ := Option.bind_eq_some_iff.mp h
  cases alternate with
  | some other =>
    obtain ⟨y, hy, h⟩ := Option.bind_eq_some_iff.mp h
    exact .inl ⟨other, x, y, rfl, hx, hy, (Option.some.inj h).symm⟩
  | none =>
    obtain ⟨_, hg, h⟩ := Option.bind_eq_some_iff.mp h
    cases observed with
    | true => cases hg
    | false => exact .inr ⟨x, rfl, rfl, hx, (Option.some.inj h).symm⟩

/-- The children of the expression that an `if` becomes are below the `if`. -/
theorem below_of_ifExpression {test consequent : NodeId} {alternate : Option NodeId}
    {n : Node NodeId} {x : NodeId} (hn : s.tree.node a = .ifStatement test consequent alternate)
    (he : FoldM.ifExpression? s.tree observed test consequent alternate = some n)
    (hx : x ∈ n.children) : s.tree.Below x a := by
  have branch : ∀ {c e}, (s.tree.node c).expression? = some e →
      c ∈ (Node.ifStatement test consequent alternate).children → s.tree.Below e a := by
    intro c e he hc
    obtain ⟨directive, hnc⟩ := expression?_eq he
    refine .head ?_ (.single (Tree.child_of_node hn hc))
    exact Tree.child_of_node hnc (by simp [Node.children, Node.slots, Slot.children])
  have htest : s.tree.Below test a :=
    .single (Tree.child_of_node hn (by simp [Node.children, Node.slots, Slot.children]))
  rcases ifExpression?_cases he with ⟨other, y, z, rfl, hy, hz, rfl⟩ | ⟨y, rfl, -, hy, rfl⟩ <;>
    simp only [Node.children, Node.slots, Slot.children, List.flatMap_cons, List.flatMap_nil,
      List.singleton_append, List.append_nil, List.mem_cons, List.not_mem_nil, or_false] at hx
  · rcases hx with rfl | rfl | rfl
    · exact branch hz (by simp [Node.children, Node.slots, Slot.children])
    · exact branch hy (by simp [Node.children, Node.slots, Slot.children])
    · exact htest
  · rcases hx with rfl | rfl
    · exact htest
    · exact branch hy (by simp [Node.children, Node.slots, Slot.children])

/-- What is put where `a` was is frozen, or leads to nothing above `a`. -/
theorem Swap.confined (h : s.Sound) (hab : s.Swap observed rule a b) :
    s.tree.isFrozen b ∨ b < s.tree.size ∧ ¬ s.tree.Below a b := by
  have child : ∀ {n x}, s.tree.node a = n → x ∈ n.children →
      x < s.tree.size ∧ ¬ s.tree.Below a x := fun hn hx =>
    have hc := Tree.child_of_node hn hx
    ⟨h.wellFormed.closed hc, fun hb => h.wellFormed.not_below_self (hb.tail hc)⟩
  have statement : ∀ {n x}, s.tree.node a = n → x ∈ n.children →
      s.tree.node b = .expressionStatement x none → b < s.tree.size ∧ ¬ s.tree.Below a b := by
    intro n x hn hx hb
    refine Tree.confined_of_node hb (by simp) fun y hy => ?_
    obtain rfl : y = x := by simpa [Node.children, Node.slots, Slot.children] using hy
    exact h.wellFormed.not_within_child (Tree.child_of_node hn hx)
  cases hab with
  | constantStatement _ _ _ he => exact .inl (h.emptyStatement he).1
  | conditional hn _ =>
    right
    split <;> exact child hn (by simp [Node.children, Node.slots, Slot.children])
  | logical hn _ =>
    right
    split <;> exact child hn (by simp [Node.children, Node.slots, Slot.children])
  | binary _ _ _ _ _ hb => exact .inl (h.isFrozen_holds hb)
  | unary _ _ _ hb => exact .inl (h.isFrozen_holds hb)
  | lastItem hn _ => exact .inr (child hn (by simp [Node.children, Node.slots, Slot.children]))
  | member _ _ _ hb => exact .inl (h.isFrozen_holds hb)
  | memberOfCharacter hn _ _ _ _ hfirst hindex hb _ =>
    right
    refine Tree.confined_of_node hb (by simp) fun x hx hw => ?_
    -- frozen nodes do not lead to a member access
    have hx : s.tree.isFrozen x := by
      simp only [Node.children, Node.slots, Slot.children, List.flatMap_cons, List.flatMap_nil,
        List.singleton_append, List.append_nil, List.mem_cons, List.not_mem_nil, or_false] at hx
      rcases hx with rfl | rfl
      · exact h.isFrozen_holds hfirst
      · exact h.isFrozen_holds hindex
    have hk := h.kind_of_frozen (h.isFrozen_within hx hw)
    rw [hn] at hk
    simp [Node.kind] at hk
  | ifTest hn _ _ hb _ =>
    exact .inr (statement hn (by simp [Node.children, Node.slots, Slot.children]) hb)
  | ifExpression hn hexpr he hb _ _ =>
    right
    refine Tree.confined_of_node hb (by simp) fun y hy => ?_
    obtain rfl : y = _ := List.mem_singleton.mp hy
    refine Tree.not_within_of_children (fun hae => ?_) fun x hx => ?_
    · rw [← hae, hn] at he
      rcases ifExpression?_cases hexpr with ⟨_, _, _, _, _, _, rfl⟩ | ⟨_, _, _, _, rfl⟩ <;> cases he
    · unfold Tree.Child at hx
      rw [he] at hx
      exact h.wellFormed.not_within_below (below_of_ifExpression hn hexpr hx)
  | ifTrue hn _ _ => exact .inr (child hn (by simp [Node.children, Node.slots, Slot.children]))
  | ifFalse hn _ _ => exact .inr (child hn (by simp [Node.children, Node.slots, Slot.children]))
  | ifNever _ _ _ he => exact .inl (h.emptyStatement he).1
  | whileNever _ _ _ he => exact .inl (h.emptyStatement he).1
  | forNever _ _ _ he => exact .inl (h.emptyStatement he).1
  | forDeclaration hn _ _ _ =>
    exact .inr (child hn (by simp [Node.children, Node.slots, Slot.children]))
  | forExpression hn _ _ _ hb _ =>
    exact .inr (statement hn (by simp [Node.children, Node.slots, Slot.children]) hb)
  | minify _ _ hb _ => exact .inl (h.isFrozen_holds hb)

theorem Swap.avoids (h : s.Sound) (hab : s.Swap observed rule a b) (ha : s.tree.Child a owner)
    (howner : ¬ s.tree.isFrozen owner) : b < s.tree.size ∧ ¬ s.tree.Within owner b := by
  rcases hab.confined h with hf | ⟨hb, hbelow⟩
  · exact ⟨Tree.lt_size_of_isFrozen hf, h.not_within_frozen hf howner⟩
  · exact ⟨hb, fun hw => hbelow (Relation.TransGen.head' ha hw)⟩

theorem within_sequenceItems {t : Tree} {e x : NodeId} (hx : x ∈ FoldM.sequenceItems t e) :
    t.Within x e := by
  unfold FoldM.sequenceItems at hx
  split at hx
  · exact .single (Tree.child_of_node ‹_› (by simpa [Node.children, Node.slots, Slot.children] using hx))
  · obtain rfl := List.mem_singleton.mp hx
    exact .refl

theorem exists_statement_of_run {statements expressions : List NodeId} {e : NodeId}
    (hrun : List.Forall₂ (fun st e => (s.tree.node st).expression? = some e) statements expressions)
    (he : e ∈ expressions) :
    ∃ st ∈ statements, ∃ directive, s.tree.node st = .expressionStatement e directive := by
  induction hrun with
  | nil => cases he
  | @cons st e' statements expressions hst _ ih =>
    rcases List.mem_cons.mp he with rfl | he
    · exact ⟨st, List.mem_cons_self, expression?_eq hst⟩
    · obtain ⟨st, hmem, hn⟩ := ih he
      exact ⟨st, List.mem_cons_of_mem _ hmem, hn⟩

/-- What a run of expression statements is merged to leads only to what was below the run. -/
theorem below_of_merge {statements expressions : List NodeId} {x : NodeId}
    (hrun : List.Forall₂ (fun st e => (s.tree.node st).expression? = some e) statements expressions)
    (hold : ∀ st ∈ statements, s.tree.Child st owner)
    (hx : x ∈ expressions.flatMap (FoldM.sequenceItems s.tree)) : s.tree.Below x owner := by
  obtain ⟨e, he, hx⟩ := List.mem_flatMap.mp hx
  obtain ⟨st, hst, directive, hn⟩ := exists_statement_of_run hrun he
  have hchild : s.tree.Child e st := Tree.child_of_node hn (List.mem_singleton_self e)
  have hbelow : s.tree.Below e owner := .head hchild (.single (hold st hst))
  exact Relation.TransGen.trans_right (within_sequenceItems hx) hbelow

theorem Splice.avoids (h : s.Sound) {old : List (Option NodeId)} {new : List NodeId}
    (hs : s.Splice observed owner rule old new) (hold : ∀ c, some c ∈ old → s.tree.Child c owner)
    (howner : ¬ s.tree.isFrozen owner) :
    ∀ b ∈ new, b < s.tree.size ∧ ¬ s.tree.Within owner b := by
  have kept : ∀ {c}, some c ∈ old → c < s.tree.size ∧ ¬ s.tree.Within owner c := fun hc =>
    ⟨h.wellFormed.closed (hold _ hc), h.wellFormed.not_within_child (hold _ hc)⟩
  intro b hb
  cases hs with
  | swap hab =>
    obtain rfl := List.mem_singleton.mp hb
    exact hab.avoids h (hold _ (by simp)) howner
  | unreachable _ _ => exact kept (some_mem_of_mem_hoisted hb)
  | @merge statements expressions sequence _ hrun _ hseq hst hne hne' _ _ =>
    obtain rfl := List.mem_singleton.mp hb
    refine ⟨Tree.lt_size_of_node (by simp [hst]), ?_⟩
    refine Tree.not_within_of_children hne' fun x hx => ?_
    have hx : x = sequence := by
      unfold Tree.Child at hx
      rw [hst] at hx
      exact List.mem_singleton.mp hx
    subst hx
    refine Tree.not_within_of_children hne fun x hx => ?_
    unfold Tree.Child at hx
    rw [hseq] at hx
    refine h.wellFormed.not_within_below (below_of_merge hrun (fun st hst => hold st ?_) ?_)
    · exact List.mem_map_of_mem hst
    · simpa [Node.children, Node.slots, Slot.children] using hx
  | constant => cases hb
  | empty => cases hb

theorem Rewrite.children (h : s.Sound) {n n' : Node NodeId} (hr : s.Rewrite rule n n') {c : NodeId}
    (hc : c ∈ n'.children) :
    c ∈ n.children ∨ s.tree.isFrozen c ∨ ∃ name, s.tree.node c = .identifier name := by
  have holds : ∀ {v b}, s.Holds v b → s.tree.isFrozen b := fun hb => h.isFrozen_holds hb
  have empty : ∀ {b}, s.pool.emptyStatement = some b → s.tree.isFrozen b := fun he =>
    (h.emptyStatement he).1
  cases hr <;> simp only [Node.children, Node.slots, Slot.children, List.flatMap_cons,
    List.flatMap_nil, List.append_nil, List.mem_append, List.mem_filter, List.mem_cons,
    Option.mem_toList, List.not_mem_nil, or_false] at hc ⊢ <;> grind

theorem Rewrite.kind {n n' : Node NodeId} (hr : s.Rewrite rule n n') : n'.kind = n.kind := by
  cases hr <;> rfl

theorem Rewrite.hasFiniteLiteral {n n' : Node NodeId} (hr : s.Rewrite rule n n') :
    n'.HasFiniteLiteral := by
  cases hr <;> exact fun _ hn => by cases hn

end Store

theorem Node.hasFiniteLiteral_setSlot {n : Node NodeId} {f : Field} {slot new : Slot NodeId}
    (h : n.slot? f = some slot) : (n.setSlot f new).HasFiniteLiteral := by
  intro x hx
  have hk := n.kind_setSlot f new
  rw [hx] at hk
  cases n <;> cases hk
  cases h

namespace Path

variable {t : Tree} {p : Path} {owner a b c : NodeId} {n : Node NodeId}

theorem Splices.kind {old : List (Option NodeId)} {new : List NodeId}
    (h : p.Splices t owner old new n) : n.kind = (t.node owner).kind ∧ n.HasFiniteLiteral := by
  obtain ⟨hv, hs, hi⟩ := h
  exact ⟨Node.kind_setSlot _ _ _, Node.hasFiniteLiteral_setSlot hs⟩

theorem Splices.children {old : List (Option NodeId)} {new : List NodeId}
    (h : p.Splices t owner old new n) :
    (∀ c, some c ∈ old → t.Child c owner) ∧
      ∀ c ∈ n.children, t.Child c owner ∨ c ∈ new := by
  obtain ⟨hv, hs, hi⟩ := h
  have child : ∀ {c}, some c ∈ _ → t.Child c owner := fun hc =>
    Node.mem_children_of_slot? hs ((Slot.mem_children_of_items? hi).mpr hc)
  refine ⟨fun c hc => child (by simp [hc]), fun c hc => ?_⟩
  rcases Node.mem_children_setSlot hs (Slot.put_setItems _ _) hc with hc | hc
  · exact .inl hc
  · have hc := Slot.mem_of_mem_children_setItems hi hc
    simp only [List.mem_append, List.mem_map, Option.some.injEq, exists_eq_right] at hc
    rcases hc with (hc | hc) | hc
    · exact .inl (child (by simp [hc]))
    · exact .inr hc
    · exact .inl (child (by simp [hc]))

theorem Fills.kind (h : p.Fills t owner a b n) :
    n.kind = (t.node owner).kind ∧ n.HasFiniteLiteral := by
  cases h with
  | required _ hs => exact ⟨Node.kind_setSlot _ _ _, Node.hasFiniteLiteral_setSlot hs⟩
  | optional _ hs => exact ⟨Node.kind_setSlot _ _ _, Node.hasFiniteLiteral_setSlot hs⟩
  | item h => exact h.kind

theorem Fills.children (h : p.Fills t owner a b n) :
    t.Child a owner ∧ ∀ c ∈ n.children, t.Child c owner ∨ c = b := by
  cases h with
  | required _ hs =>
    refine ⟨Node.mem_children_of_slot? hs (by simp [Slot.children]), fun c hc => ?_⟩
    exact (Node.mem_children_setSlot hs rfl hc).imp_right fun hc => by
      simpa [Slot.children] using hc
  | optional _ hs =>
    refine ⟨Node.mem_children_of_slot? hs (by simp [Slot.children]), fun c hc => ?_⟩
    exact (Node.mem_children_setSlot hs rfl hc).imp_right fun hc => by
      simpa [Slot.children] using hc
  | item h => exact ⟨h.children.1 a (by simp), fun c hc => by simpa using h.children.2 c hc⟩

end Path

namespace Store

variable {s : Store} {observed : Bool} {rule : Rule} {p : Path} {owner : NodeId} {n : Node NodeId}

/-- A change is made to a node that may be edited, and leads nowhere above it. -/
theorem Edit.admissible (h : s.Sound) (he : s.Edit observed rule p owner n) :
    owner < s.tree.size ∧ ¬ s.tree.isFrozen owner ∧ n.kind = (s.tree.node owner).kind ∧
      n.HasFiniteLiteral ∧ ∀ c ∈ n.children, c < s.tree.size ∧ ¬ s.tree.Within owner c := by
  have old : ∀ {c owner}, s.tree.Child c owner → c < s.tree.size ∧ ¬ s.tree.Within owner c := fun hc =>
    ⟨h.wellFormed.closed hc, h.wellFormed.not_within_child hc⟩
  cases he with
  | fill hp howner hfill hab =>
    refine ⟨Tree.lt_size_of_child hp.child, howner, hfill.kind.1, hfill.kind.2, fun c hc => ?_⟩
    rcases hfill.children.2 c hc with hc | rfl
    · exact old hc
    · exact hab.avoids h hfill.children.1 howner
  | splice hp howner hsplice hnew =>
    refine ⟨Tree.lt_size_of_child hp.child, howner, hsplice.kind.1, hsplice.kind.2, fun c hc => ?_⟩
    rcases hsplice.children.2 c hc with hc | hc
    · exact old hc
    · exact hnew.avoids h hsplice.children.1 howner c hc
  | rewrite hp howner hr =>
    refine ⟨h.wellFormed.closed hp.child, howner, hr.kind, hr.hasFiniteLiteral, fun c hc => ?_⟩
    rcases hr.children h hc with hc | hf | ⟨name, hn⟩
    · exact old hc
    · exact ⟨Tree.lt_size_of_isFrozen hf, h.not_within_frozen hf howner⟩
    · refine ⟨Tree.lt_size_of_node (by simp [hn]), ?_⟩
      refine Tree.not_within_of_children ?_ fun x hx => ?_
      · rintro rfl
        rw [hn] at hr
        cases hr
      · unfold Tree.Child at hx
        rw [hn] at hx
        cases hx

theorem Edit.sound (h : s.Sound) (he : s.Edit observed rule p owner n) : (s.put owner n).Sound := by
  obtain ⟨hsize, howner, hkind, hfinite, hchildren⟩ := he.admissible h
  exact h.setNode hsize howner hkind hfinite hchildren

end Store

end ScriptFold

import ScriptFold.Proofs.Members

/-!
Folding keeps what it may edit unshared: each rule moves nodes to the place from which it takes them,
or puts new nodes there, or shared ones that are frozen. Every node of the program that is not frozen
is then held by one slot only.
-/

namespace ScriptFold

open Relation

theorem Node.children_setSlot {α : Type} {n : Node α} {f : Field} {slot new : Slot α}
    (h : n.slot? f = some slot) (hput : slot.put new = new) :
    ∃ l r, n.children = l ++ slot.children ++ r ∧
      (n.setSlot f new).children = l ++ new.children ++ r := by
  obtain ⟨l, r, hs, hset⟩ := slots_split h
  refine ⟨l.flatMap (·.2.children), r.flatMap (·.2.children), ?_, ?_⟩
  · simp [children, hs]
  · simp [children, hset, hput]

theorem Slot.children_of_items? {α : Type} {slot : Slot α} {items : List (Option α)}
    (h : slot.items? = some items) : slot.children = items.filterMap id := by
  cases slot with
  | required c | optional c => cases h
  | list cs =>
    obtain rfl := Option.some.inj h
    simp [children]
  | holey cs =>
    obtain rfl := Option.some.inj h
    rfl

namespace Path

variable {t : Tree} {p : Path} {owner a b : NodeId} {n : Node NodeId} {f : Field}

/-- Where a slot changes, what is in the other slots does not matter. -/
theorem covers_setSlot (wf : t.WellFormed) (howner : t.Within owner t.root) {slot new : Slot NodeId}
    (hs : t.slot? owner f = some slot) (hput : slot.put new = new) {l r old cs : List NodeId}
    (hold : slot.children = l ++ old ++ r) (hnew : new.children = l ++ cs ++ r)
    (h : t.Covers old cs) : t.Covers (t.node owner).children ((t.node owner).setSlot f new).children := by
  obtain ⟨l', r', hchildren, hset⟩ := Node.children_setSlot hs hput
  have hwithin : ∀ c ∈ (t.node owner).children, t.Within c t.root := fun c hc => .head hc howner
  rw [hchildren, hold] at hwithin ⊢
  rw [hset, hnew]
  have hcontext := h.context wf (l := l' ++ l) (r := r ++ r')
    (fun c hc => hwithin c (by
      rcases List.mem_append.mp hc with hc | hc <;> simp [hc]))
    (fun c hc => hwithin c (by
      rcases List.mem_append.mp hc with hc | hc <;> simp [hc]))
  simpa only [List.append_assoc] using hcontext

theorem Splices.covers {old : List (Option NodeId)} {new : List NodeId}
    (hsplice : p.Splices t owner old new n) (wf : t.WellFormed) (howner : t.Within owner t.root)
    (h : t.Covers (old.filterMap id) new) : t.Covers (t.node owner).children n.children := by
  obtain ⟨hv, hs, hi⟩ := hsplice
  rename_i parent f slot l r value
  refine covers_setSlot wf howner hs (slot.put_setItems _) (l := l.filterMap id)
    (r := r.filterMap id) ?_ ?_ h
  · rw [Slot.children_of_items? hi, List.filterMap_append, List.filterMap_append]
  · rw [Slot.children_of_items? (Slot.items?_splice hi new), List.filterMap_append, List.filterMap_append]
    simp

theorem Fills.covers (hfill : p.Fills t owner a b n) (wf : t.WellFormed)
    (howner : t.Within owner t.root) (h : t.Covers [a] [b]) :
    t.Covers (t.node owner).children n.children := by
  cases hfill with
  | required hv hs => exact covers_setSlot wf howner hs rfl (l := []) (r := []) rfl rfl h
  | optional hv hs => exact covers_setSlot wf howner hs rfl (l := []) (r := []) rfl rfl h
  | item hsplice => exact hsplice.covers wf howner h

end Path

namespace Store

variable {s s' : Store} {observed : Bool} {rule : Rule} {p : Path} {owner x a b y : NodeId}
  {n : Node NodeId}

theorem Sound.covers_children (h : s.Sound) {cs : List NodeId}
    (hcs : cs.Sublist (s.tree.node a).children) : s.tree.Covers [a] cs := .of_le fun y => by
  refine (Tree.occ_le_of_sublist hcs).trans ?_
  rw [Tree.occ_cons, Tree.occ_nil, Nat.add_zero]
  by_cases hf : s.tree.isFrozen a
  · have hnone : s.tree.occ y (s.tree.node a).children = 0 := by
      refine List.count_eq_zero.mpr fun hy => ?_
      obtain ⟨c, hc, hy⟩ := List.mem_flatMap.mp hy
      rw [Tree.members_of_frozen h.wellFormed (h.isFrozen_child hf hc)] at hy
      cases hy
    rw [hnone]
    exact Nat.zero_le _
  · rw [Tree.count_members h.wellFormed hf]
    exact Nat.le_add_left _ _

theorem Sound.covers_child (h : s.Sound) (hc : s.tree.Child b a) : s.tree.Covers [a] [b] :=
  h.covers_children (List.singleton_sublist.mpr hc)

theorem Sound.occ_expression (h : s.Sound) {statement e : NodeId}
    (he : (s.tree.node statement).expression? = some e) :
    s.tree.occ y [e] ≤ s.tree.occ y [statement] := by
  obtain ⟨directive, hn⟩ := expression?_eq he
  have hf : ¬ s.tree.isFrozen statement := h.not_frozen_of_kind (by simp [hn, Node.kind])
  rw [Tree.occ_cons _ _ statement, Tree.count_members h.wellFormed hf, hn]
  simp [Node.children, Node.slots, Slot.children]

theorem Swap.covers (h : s.Sound) (hab : s.Swap observed rule a b) : s.tree.Covers [a] [b] := by
  have wf := h.wellFormed
  have child : ∀ {c n}, s.tree.node a = n → c ∈ n.children → s.tree.Covers [a] [c] := fun hn hc =>
    h.covers_child (Tree.child_of_node hn hc)
  have statement : ∀ {e}, s.tree.node b = .expressionStatement e none → s.tree.Unused b →
      s.tree.Covers [a] [e] → s.tree.Covers [a] [b] := by
    intro e hb hu he
    refine .of_new wf hu (h.not_frozen_of_kind (by simp [hb, Node.kind])) ?_
    rw [hb]
    exact he
  cases hab with
  | constantStatement _ _ _ he => exact .of_frozen wf (h.emptyStatement he).1
  | conditional hn _ =>
    split <;> exact child hn (by simp [Node.children, Node.slots, Slot.children])
  | logical hn _ =>
    split <;> exact child hn (by simp [Node.children, Node.slots, Slot.children])
  | binary _ _ _ _ _ hb => exact .of_frozen wf (h.isFrozen_holds hb)
  | unary _ _ _ hb => exact .of_frozen wf (h.isFrozen_holds hb)
  | lastItem hn _ =>
    exact child hn (by simp [Node.children, Node.slots, Slot.children])
  | member _ _ _ hb => exact .of_frozen wf (h.isFrozen_holds hb)
  | memberOfCharacter hn _ _ _ _ hfirst hindex hb hu =>
    refine .of_new wf hu (h.not_frozen_of_kind (by simp [hb, Node.kind])) (.of_le fun y => ?_)
    rw [hb]
    change s.tree.occ y [_, _] ≤ _
    rw [Tree.occ_of_frozen wf (h.isFrozen_holds hfirst), Tree.occ_of_frozen wf (h.isFrozen_holds hindex)]
    exact Nat.zero_le _
  | ifTest hn _ _ hb hu =>
    exact statement hb hu (child hn (by simp [Node.children, Node.slots, Slot.children]))
  | @ifExpression a test consequent alternate n e b hn hexpr he hb hue hub =>
    refine statement hb hub (.of_new wf hue ?_ (.of_le fun y => ?_))
    · refine h.not_frozen_of_kind ?_
      rcases ifExpression?_cases hexpr with ⟨_, _, _, _, _, _, rfl⟩ | ⟨_, _, _, _, rfl⟩ <;>
        simp [he, Node.kind]
    -- the expressions in the branches were met where their statements were
    · have hf : ¬ s.tree.isFrozen a := h.not_frozen_of_kind (by simp [hn, Node.kind])
      rw [Tree.occ_cons _ _ a, Tree.count_members wf hf, hn, he]
      rcases ifExpression?_cases hexpr with ⟨other, u, v, rfl, hu, hv, rfl⟩ | ⟨u, rfl, -, hu, rfl⟩
      · have hu := h.occ_expression (y := y) hu
        have hv := h.occ_expression (y := y) hv
        simp only [Node.children, Node.slots, Slot.children, List.flatMap_cons, List.flatMap_nil,
          Option.toList_some, List.singleton_append, Tree.occ_cons, Tree.occ_nil] at hu hv ⊢
        omega
      · have hu := h.occ_expression (y := y) hu
        simp only [Node.children, Node.slots, Slot.children, List.flatMap_cons, List.flatMap_nil,
          Option.toList_none, List.singleton_append, List.nil_append, Tree.occ_cons,
          Tree.occ_nil] at hu ⊢
        omega
  | ifTrue hn _ _ | ifFalse hn _ _ | forDeclaration hn _ _ _ =>
    exact child hn (by simp [Node.children, Node.slots, Slot.children])
  | ifNever _ _ _ he => exact .of_frozen wf (h.emptyStatement he).1
  | whileNever _ _ _ he => exact .of_frozen wf (h.emptyStatement he).1
  | forNever _ _ _ he => exact .of_frozen wf (h.emptyStatement he).1
  | forExpression hn _ _ _ hb hu =>
    exact statement hb hu (child hn (by simp [Node.children, Node.slots, Slot.children]))
  | minify _ _ hb _ => exact .of_frozen wf (h.isFrozen_holds hb)

theorem Sound.occ_sequenceItems (h : s.Sound) (e : NodeId) :
    s.tree.occ y (FoldM.sequenceItems s.tree e) ≤ s.tree.occ y [e] := by
  unfold FoldM.sequenceItems
  split
  · rename_i expressions hn
    have hf : ¬ s.tree.isFrozen e := h.not_frozen_of_kind (by simp [hn, Node.kind])
    rw [Tree.occ_cons _ _ e, Tree.count_members h.wellFormed hf, hn]
    simp [Node.children, Node.slots, Slot.children]
  · exact le_rfl

theorem Splice.covers (h : s.Sound) {old : List (Option NodeId)} {new : List NodeId}
    (hs : s.Splice observed owner rule old new) : s.tree.Covers (old.filterMap id) new := by
  cases hs with
  | swap hab => exact hab.covers h
  | @unreachable jump tail hjump hne =>
    refine .of_le fun y => Tree.occ_le_of_sublist ?_
    exact List.filter_sublist.cons_cons jump
  | @merge statements expressions sequence statement hall hlen hsequence hstatement _ _ hu hu' =>
    have wf := h.wellFormed
    have hold : (statements.map some).filterMap id = statements := by simp
    rw [hold]
    refine .of_new wf hu' (h.not_frozen_of_kind (by simp [hstatement, Node.kind])) ?_
    rw [hstatement]
    refine .of_new wf hu (h.not_frozen_of_kind (by simp [hsequence, Node.kind])) (.of_le fun y => ?_)
    rw [hsequence]
    simp only [Node.children, Node.slots, Slot.children, List.flatMap_cons, List.flatMap_nil,
      List.append_nil]
    clear hlen hsequence hold
    induction hall with
    | nil => simp
    | @cons st e sts es he hall ih =>
      have hone := (h.occ_sequenceItems (y := y) e).trans (h.occ_expression he)
      rw [List.flatMap_cons, Tree.occ_append, Tree.occ_cons]
      rw [Tree.occ_cons, Tree.occ_nil] at hone
      omega
  | constant | empty => exact .of_le fun y => Nat.zero_le _

theorem Rewrite.covers (h : s.Sound) {n n' : Node NodeId} (hr : s.Rewrite rule n n')
    (hn : ∀ c ∈ n.children, s.tree.Within c s.tree.root) :
    s.tree.Covers n.children n'.children := by
  have wf := h.wellFormed
  cases hr with
  | @name object prop key name hprop hkey hu =>
    have hf : ¬ s.tree.isFrozen key := h.not_frozen_of_kind (by simp [hkey, Node.kind])
    have hnew : s.tree.Covers [prop] [key] := .of_new wf hu hf (.of_le fun y => by
      rw [hkey]
      exact Nat.zero_le _)
    exact hnew.context wf (l := [object]) (r := []) (fun c hc => hn c (by
      obtain rfl : c = object := by simpa using hc
      simp [Node.children, Node.slots, Slot.children])) fun c hc => by cases hc
  | leadingItems _ _ =>
    refine .of_le fun y => Tree.occ_le_of_sublist ?_
    simp only [Node.children, Node.slots, Slot.children, List.flatMap_cons, List.flatMap_nil,
      List.append_nil]
    exact List.filter_sublist.append_right _
  | firstItem _ _ hfirst =>
    refine .of_le fun y => ?_
    simp only [Node.children, Node.slots, Slot.children, List.flatMap_cons, List.flatMap_nil,
      List.append_nil, Tree.occ_append, Tree.occ_of_frozen wf (h.isFrozen_holds hfirst)]
    exact Nat.le_add_left _ _
  | nullLeft _ _ hb | nullRight _ _ hb | forNever _ _ _ hb =>
    refine .of_le fun y => ?_
    have hb := Tree.members_of_frozen wf (h.isFrozen_holds hb)
    simp [Node.children, Node.slots, Slot.children, Tree.occ_cons, hb]
  | consequent _ _ he | whileBody _ _ he | doWhileBody _ _ he | forBody _ _ he =>
    refine .of_le fun y => ?_
    have hb := Tree.members_of_frozen wf (h.emptyStatement he).1
    simp [Node.children, Node.slots, Slot.children, Tree.occ_cons, hb]
  | alternate _ | forInit _ | forUpdate _ | forAlways _ _ =>
    refine .of_le fun y => ?_
    simp [Node.children, Node.slots, Slot.children, Tree.occ_cons]

/-- What a change puts into a node was below the node before, or is new. -/
theorem Edit.covers (h : s.Sound) (hp : p.Live s.tree) (he : s.Edit observed rule p x n) :
    s.tree.Covers (s.tree.node x).children n.children := by
  have hroot := he.within_root hp
  cases he with
  | fill _ _ hfill hab => exact hfill.covers h.wellFormed hroot (hab.covers h)
  | splice _ _ hsplice hnew => exact hsplice.covers h.wellFormed hroot (hnew.covers h)
  | rewrite _ _ hr => exact hr.covers h fun c hc => .head hc hroot

theorem Sound.mem_members (h : s.Sound) (hf : ¬ s.tree.isFrozen y) (hw : s.tree.Within y x) :
    y ∈ s.tree.members x := by
  induction hw with
  | refl =>
    rw [Tree.members_eq h.wellFormed hf]
    exact List.mem_cons_self
  | @tail c id hw hc ih =>
    have hid : ¬ s.tree.isFrozen id := fun hid => hf (h.isFrozen_within hid (hw.tail hc))
    rw [Tree.members_eq h.wellFormed hid]
    exact List.mem_cons_of_mem _ (List.mem_flatMap.mpr ⟨c, hc, ih⟩)

theorem Edit.unshared (h : s.Sound) (hp : p.Live s.tree) (he : s.Edit observed rule p x n)
    (hu : s.tree.Unshared) : (s.put x n).tree.Unshared := by
  obtain ⟨hsize, hf, -, -, hchildren⟩ := he.admissible h
  have hmem := h.mem_members hf (he.within_root hp)
  exact hu.setNode h.wellFormed (he.sound h).wellFormed hsize hf (List.count_eq_one_of_mem hu hmem)
    (fun c hc => (hchildren c hc).2) (he.covers h hp)

/-- What is added is not yet part of the program. -/
theorem Grows.unshared (hg : s.Grows s') (h : s.Sound) (h' : s'.Sound) (hu : s.tree.Unshared) :
    s'.tree.Unshared := by
  unfold Tree.Unshared
  rw [hg.tree.root, Tree.members_congr h.wellFormed h'.wellFormed]
  · exact hu
  · exact fun y hy => hg.tree.node (h.wellFormed.within_lt_size hy h.lt_size_of_root)
  · exact fun y hy => hg.tree.isFrozen (h.wellFormed.within_lt_size hy h.lt_size_of_root)

theorem Fires.unshared (h : s.Sound) (hp : p.Live s.tree) (hleads : p.Leads s.tree owner a)
    (hfires : Fires observed rule p s s') (hu : s.tree.Unshared) : s'.tree.Unshared := by
  refine Fires.lift (R := fun s s' => s.tree.Unshared → s'.tree.Unshared) (fun h h' => h' ∘ h) ?_
    h hp hleads hfires hu
  intro s s₁ x n hs hs₁ hg hp₁ he hu
  exact he.unshared hs₁ hp₁ (hg.unshared hs hs₁ hu)

end Store

namespace FoldState

variable {rules : List Rule} {s s' : FoldState}

theorem Firing.unshared (h : s.Sound) (hf : Firing rules s s') (hu : s.tree.Unshared) :
    s'.tree.Unshared := by
  obtain ⟨rule, -, p, owner, id, hp, hopen, hfires, -⟩ := hf.cases h
  exact hfires.unshared h hp hopen.leads hu

theorem Folds.unshared (h : s.Sound) (hr : Folds rules s s') (hu : s.tree.Unshared) :
    s'.tree.Unshared := by
  induction hr with
  | refl => exact hu
  | fire hr hf ih => exact hf.unshared (hr.sound h) ih
  | round _ ih => exact ih

theorem Folds.root_eq (h : s.Sound) (hr : Folds rules s s') : s'.tree.root = s.tree.root := by
  induction hr with
  | refl => rfl
  | fire hr hf ih =>
    obtain ⟨rule, -, p, owner, id, hp, hopen, hfires, -⟩ := hf.cases (hr.sound h)
    exact (hfires.evolves (hr.sound h) hopen.leads).1.root.trans ih
  | round _ ih => exact ih

end FoldState

namespace Tree

variable {t : Tree} {id owner : NodeId} {i : Nat}

/-- The slots of a node that hold something are counted in the order of its fields; one of them holds
a given node. -/
def Holds (t : Tree) (owner : NodeId) (i : Nat) (id : NodeId) : Prop :=
  (t.node owner).children[i]? = some id

theorem Holds.child (h : t.Holds owner i id) : t.Child id owner :=
  List.mem_of_getElem? h

theorem Child.holds (h : t.Child id owner) : ∃ i, t.Holds owner i id :=
  List.mem_iff_getElem?.mp h

end Tree

namespace Store.Sound

variable {s : Store} {id x o o' : NodeId} {i i' : Nat}

theorem holds_unique (h : s.Sound) (hf : ¬ s.tree.isFrozen id) (hx : (s.tree.members x).Nodup)
    (ho : s.tree.Within o x) (hi : s.tree.Holds o i id) (ho' : s.tree.Within o' x)
    (hi' : s.tree.Holds o' i' id) : o = o' ∧ i = i' := by
  have wf := h.wellFormed
  induction x using wf.acyclic.induction with
  | _ x ih =>
    have hfx : ¬ s.tree.isFrozen x := fun hfx =>
      hf (h.isFrozen_within hfx (.head hi.child ho))
    rw [Tree.members_eq wf hfx, List.nodup_cons, List.nodup_flatMap] at hx
    obtain ⟨-, hnodup, hdisjoint⟩ := hx
    -- where the node is below a child, that is the only child below which it is
    have same : ∀ {j k c d}, s.tree.Holds x j c → s.tree.Holds x k d →
        s.tree.Within id c → s.tree.Within id d → j = k := by
      intro j k c d hj hk hc hd
      have hmem := h.mem_members hf hc
      have hmem' := h.mem_members hf hd
      obtain ⟨hj', rfl⟩ := List.getElem?_eq_some_iff.mp hj
      obtain ⟨hk', rfl⟩ := List.getElem?_eq_some_iff.mp hk
      rw [List.pairwise_iff_getElem] at hdisjoint
      rcases Nat.lt_trichotomy j k with hlt | heq | hlt
      · exact absurd hmem' (hdisjoint j k hj' hk' hlt hmem)
      · exact heq
      · exact absurd hmem (hdisjoint k j hk' hj' hlt hmem')
    have below : ∀ {o i c}, s.tree.Within o c → s.tree.Holds o i id → s.tree.Within id c :=
      fun ho hi => .head hi.child ho
    rcases ReflTransGen.cases_tail ho with rfl | ⟨c, hc, hcx⟩ <;>
      rcases ReflTransGen.cases_tail ho' with rfl | ⟨d, hd, hdx⟩
    · exact ⟨rfl, same hi hi' .refl .refl⟩
    · obtain ⟨k, hk⟩ := hdx.holds
      obtain rfl := same hi hk .refl (below hd hi')
      obtain rfl : id = d := Option.some.inj (hi.symm.trans hk)
      exact absurd hd (wf.not_within_child hi'.child)
    · obtain ⟨k, hk⟩ := hcx.holds
      obtain rfl := same hk hi' (below hc hi) .refl
      obtain rfl : c = id := Option.some.inj (hk.symm.trans hi')
      exact absurd hc (wf.not_within_child hi.child)
    · obtain ⟨j, hj⟩ := hcx.holds
      obtain ⟨k, hk⟩ := hdx.holds
      obtain rfl := same hj hk (below hc hi) (below hd hi')
      obtain rfl : c = d := Option.some.inj (hj.symm.trans hk)
      exact ih c hcx (hnodup c hcx) hc hd

end Store.Sound

end ScriptFold

import ScriptFold.Proofs.Equivalence

/-!
Expressions that have a value of their own. A tree may hold a sequence of nothing, which no source text
has; where statements are merged it gives way to what comes before it. `Tree.Solid` excludes it from the
places whose values may become that of the whole, and a change leaves it excluded from them.
-/

namespace ScriptFold

open Relation

variable {σ : Type} {sem : Semantics σ}

namespace Node

variable {α β : Type} {n : Node α} {g : α → β}

theorem map_eq_expressionStatement {e : β} {directive : Option String}
    (h : n.map g = .expressionStatement e directive) :
    ∃ e', n = .expressionStatement e' directive ∧ g e' = e := by
  cases n <;> cases h
  exact ⟨_, rfl, rfl⟩

theorem map_eq_conditional {test yes no : β} (h : n.map g = .conditionalExpression test yes no) :
    ∃ test' yes' no', n = .conditionalExpression test' yes' no' ∧
      g test' = test ∧ g yes' = yes ∧ g no' = no := by
  cases n <;> cases h
  exact ⟨_, _, _, rfl, rfl, rfl, rfl⟩

theorem map_eq_logical {operator : LogicalOp} {left right : β}
    (h : n.map g = .logicalExpression operator left right) :
    ∃ left' right', n = .logicalExpression operator left' right' ∧ g left' = left ∧
      g right' = right := by
  cases n <;> cases h
  exact ⟨_, _, rfl, rfl, rfl⟩

theorem map_eq_sequence {expressions : List β} (h : n.map g = .sequenceExpression expressions) :
    ∃ expressions', n = .sequenceExpression expressions' ∧ expressions'.map g = expressions := by
  cases n <;> cases h
  exact ⟨_, rfl, rfl⟩

theorem map_eq_choice {test yes no : β} (h : n.map g = .ifStatement test yes (some no)) :
    ∃ test' yes' no', n = .ifStatement test' yes' (some no') ∧
      g test' = test ∧ g yes' = yes ∧ g no' = no := by
  cases n <;> try cases h
  case ifStatement test' yes' no' =>
    cases no' <;> cases h
    exact ⟨_, _, _, rfl, rfl, rfl, rfl⟩

def unlisted : List Kind :=
  [.expressionStatement, .ifStatement, .conditionalExpression, .logicalExpression]

theorem items?_eq_none {n : Node NodeId} {f : Field} {slot : Slot NodeId} (hk : n.kind ∈ unlisted)
    (hs : n.slot? f = some slot) : slot.items? = none := by
  have hmem := mem_slots_of_slot? hs
  cases n <;> simp only [kind, unlisted, List.mem_cons, List.not_mem_nil, reduceCtorEq, or_false,
    false_or] at hk
  all_goals
    simp only [slots, List.mem_cons, List.not_mem_nil, Prod.mk.injEq, or_false] at hmem
    casesm* _ ∨ _, _ ∧ _ <;> subst_vars <;> rfl

end Node

theorem Path.Splices.kind_not_mem {t : Tree} {p : Path} {x : NodeId} {old : List (Option NodeId)}
    {new : List NodeId} {n : Node NodeId} (h : p.Splices t x old new n) :
    (t.node x).kind ∉ Node.unlisted := by
  intro hk
  cases h with
  | intro _ hs hi =>
    rw [Node.items?_eq_none hk hs] at hi
    cases hi

namespace Tree

/-- An expression whose value is never that of a sequence of nothing, which no source text has: not even
when one of its parts takes its place. -/
inductive Solid (t : Tree) : NodeId → Prop
  | plain {x} : (t.node x).kind ∉
      [Kind.conditionalExpression, .logicalExpression, .sequenceExpression] → Solid t x
  | conditional {x test yes no} : t.node x = .conditionalExpression test yes no →
      Solid t yes → Solid t no → Solid t x
  | logical {x operator left right} : t.node x = .logicalExpression operator left right →
      Solid t left → Solid t right → Solid t x
  | sequence {x leading last} : t.node x = .sequenceExpression (leading ++ [last]) →
      Solid t last → Solid t x

variable {t t' : Tree} {x : NodeId}

namespace Solid

theorem of_conditional {test yes no : NodeId} (h : t.Solid x)
    (hn : t.node x = .conditionalExpression test yes no) : t.Solid yes ∧ t.Solid no := by
  cases h with
  | plain hk => exact absurd (by rw [hn]; exact List.mem_of_elem_eq_true rfl) hk
  | conditional hn' hyes hno =>
    cases hn.symm.trans hn'
    exact ⟨hyes, hno⟩
  | logical hn' | sequence hn' => cases hn.symm.trans hn'

theorem of_logical {operator : LogicalOp} {left right : NodeId} (h : t.Solid x)
    (hn : t.node x = .logicalExpression operator left right) : t.Solid left ∧ t.Solid right := by
  cases h with
  | plain hk => exact absurd (by rw [hn]; exact List.mem_of_elem_eq_true rfl) hk
  | logical hn' hleft hright =>
    cases hn.symm.trans hn'
    exact ⟨hleft, hright⟩
  | conditional hn' | sequence hn' => cases hn.symm.trans hn'

theorem of_sequence {expressions : List NodeId} (h : t.Solid x)
    (hn : t.node x = .sequenceExpression expressions) :
    ∃ leading last, expressions = leading ++ [last] ∧ t.Solid last := by
  cases h with
  | plain hk => exact absurd (by rw [hn]; exact List.mem_of_elem_eq_true rfl) hk
  | sequence hn' hlast =>
    cases hn.symm.trans hn'
    exact ⟨_, _, rfl, hlast⟩
  | conditional hn' | logical hn' => cases hn.symm.trans hn'

theorem congr (h : t.Solid x) (hnode : ∀ y, t.Within y x → t'.node y = t.node y) : t'.Solid x := by
  induction h with
  | plain hk => exact .plain (by rwa [hnode _ .refl])
  | conditional hn _ _ ihyes ihno =>
    have below : ∀ {c y}, c ∈ (Node.conditionalExpression _ _ _).children → t.Within y c →
        t'.node y = t.node y := fun hc hy => hnode _ (hy.tail (Tree.child_of_node hn hc))
    refine .conditional ((hnode _ .refl).trans hn) (ihyes fun y => below ?_) (ihno fun y => below ?_)
    · simp [Node.children, Node.slots, Slot.children]
    · simp [Node.children, Node.slots, Slot.children]
  | logical hn _ _ ihleft ihright =>
    have below : ∀ {c y}, c ∈ (Node.logicalExpression _ _ _).children → t.Within y c →
        t'.node y = t.node y := fun hc hy => hnode _ (hy.tail (Tree.child_of_node hn hc))
    refine .logical ((hnode _ .refl).trans hn) (ihleft fun y => below ?_) (ihright fun y => below ?_)
    · simp [Node.children, Node.slots, Slot.children]
    · simp [Node.children, Node.slots, Slot.children]
  | sequence hn _ ih =>
    refine .sequence ((hnode _ .refl).trans hn) (ih fun y hy => hnode y (hy.tail ?_))
    exact Tree.child_of_node hn (by simp [Node.children_sequence])

end Solid

end Tree

namespace Store

variable {s s' : Store} {observed : Bool} {rule : Rule} {p : Path} {a b x owner : NodeId}
  {n : Node NodeId}

theorem Sound.solid_of_value (h : s.Sound) {v : Value} (hv : s.value? x = some v) :
    s.tree.Solid x := by
  refine .plain fun hk => ?_
  have hkinds : ∀ k ∈ [Kind.conditionalExpression, .logicalExpression, .sequenceExpression],
      k ∉ [Kind.literal, .unaryExpression, .binaryExpression, .arrayExpression] := by decide
  exact hkinds _ hk (h.kind_of_value? hv)

/-- By a rule on expressions a part takes the place of the whole, or something plain does. -/
theorem Swap.solid (h : s.Sound) (hrule : rule ∈ Rule.onExpressions)
    (hab : s.Swap observed rule a b) (ha : s.tree.Solid a) : s.tree.Solid b := by
  cases hab with
  | conditional hn _ =>
    obtain ⟨hyes, hno⟩ := ha.of_conditional hn
    split <;> assumption
  | logical hn _ =>
    obtain ⟨hleft, hright⟩ := ha.of_logical hn
    split <;> assumption
  | lastItem hn _ =>
    obtain ⟨leading, last, heq, hlast⟩ := ha.of_sequence hn
    obtain ⟨-, heq⟩ := List.append_inj' heq rfl
    cases heq
    exact hlast
  | binary _ _ _ _ _ hb | unary _ _ _ hb | member _ _ _ hb | minify _ _ hb _ =>
    exact h.solid_of_value (h.value?_of_values hb)
  | memberOfCharacter _ _ _ _ _ _ _ hb _ => exact .plain (by simp [hb, Node.kind])
  | constantStatement | ifTest | ifExpression | ifTrue | ifFalse | ifNever | whileNever | forNever
    | forDeclaration | forExpression => exact absurd hrule (by decide)

theorem Swap.onExpressions (h : s.Sound) (hab : s.Swap observed rule a b) {v : Comp σ Value}
    (hv : s.tree.valuation sem a = some v) : rule ∈ Rule.onExpressions := by
  refine rule.onStatements_or_onExpressions.resolve_left fun hrule => ?_
  have hnone : (sem.nodeMeaning a ((s.tree.node a).map (s.tree.sense sem))).value? = none :=
    (Semantics.nodeMeaning_tidied (by rw [Node.kind_map]; exact hab.tidied hrule)).1
  change (s.tree.sense sem a).value? = some v at hv
  rw [Tree.sense_of_node h.wellFormed rfl, hnone] at hv
  cases hv

theorem Edit.kind_eq (h : s.Sound) (he : s.Edit observed rule p x n) (a : NodeId) :
    ((s.put x n).tree.node a).kind = (s.tree.node a).kind := by
  by_cases hax : a = x
  · subst hax
    rw [he.node_self h, (he.admissible h).2.2.1]
  · rw [he.node_of_ne h hax]

/-- A child of a node is as it was, or by a rule at a path into the node another takes its place. -/
def Turns (s : Store) (observed : Bool) (rule : Rule) (p : Path) (x owner a b : NodeId) : Prop :=
  b = a ∨ owner = x ∧ s.Swap observed rule a b ∧ ¬ s.tree.Within x b ∧ ∃ d, p.Leads s.tree x d

/-- What a change does to a node: children of it turn into others, a list with statements in it is
spliced, or the node is rewritten. -/
theorem Edit.cases_at (h : s.Sound) (he : s.Edit observed rule p x n) (a : NodeId) :
    (∃ both : Node (NodeId × NodeId), both.map Prod.fst = s.tree.node a ∧
      both.map Prod.snd = (s.put x n).tree.node a ∧
        ∀ c ∈ both.children, s.Turns observed rule p x a c.1 c.2) ∨
    a = x ∧ ((∃ old new, p.Splices s.tree x old new n ∧
        ∃ c, some c ∈ old ∧ (s.tree.node c).kind ∈ Semantics.tidied) ∨
      s.Rewrite rule (s.tree.node x) n) := by
  by_cases hax : a = x
  swap
  · refine .inl ⟨(s.tree.node a).map fun c => (c, c), ?_, ?_, fun c hc => .inl ?_⟩
    · rw [Node.map_map, Node.map_id]
    · rw [Node.map_map, Node.map_id, he.node_of_ne h hax]
    · rw [Node.children_map] at hc
      obtain ⟨d, -, rfl⟩ := List.mem_map.mp hc
      rfl
  subst hax
  have swap : ∀ {b c d}, p.Leads s.tree a d → p.Fills s.tree a b c n →
      s.Swap observed rule b c → ∃ both : Node (NodeId × NodeId),
        both.map Prod.fst = s.tree.node a ∧ both.map Prod.snd = (s.put a n).tree.node a ∧
          ∀ c ∈ both.children, s.Turns observed rule p a a c.1 c.2 := by
    intro b c d hleads hfill hab
    obtain ⟨both, hold, hnew, hboth⟩ := hfill.pairs
    refine ⟨both, hold, hnew.trans (he.node_self h).symm, fun e hmem => ?_⟩
    rcases hboth e hmem with rfl | heq
    · refine .inr ⟨rfl, hab, ((he.admissible h).2.2.2.2 _ ?_).2, d, hleads⟩
      rw [← hnew, Node.children_map]
      exact List.mem_map_of_mem hmem
    · exact .inl heq
  cases he with
  | fill hleads _ hfill hab => exact .inl (swap hleads hfill hab)
  | rewrite _ _ hr => exact .inr ⟨rfl, .inr hr⟩
  | splice hleads _ hsplice hnew =>
    rcases rule.onStatements_or_onExpressions with hrule | hrule
    · exact .inr ⟨rfl, .inl ⟨_, _, hsplice, hnew.tidied hrule⟩⟩
    · cases hnew with
      | swap hab => exact .inl (swap hleads (.item hsplice) hab)
      | unreachable | merge | constant | empty => exact absurd hrule (by decide)

theorem Rewrite.kind_mem {n n' : Node NodeId} (hr : s.Rewrite rule n n') :
    n.kind ∈ [Kind.binaryExpression, .ifStatement, .whileStatement, .doWhileStatement,
      .forStatement, .sequenceExpression, .memberExpression] := by
  cases hr <;> exact List.mem_of_elem_eq_true rfl

/-- An expression statement or a choice keeps its shape: only children of it turn into others. -/
theorem Edit.turns (h : s.Sound) (he : s.Edit observed rule p x n)
    (hk : (s.tree.node a).kind ∈ Node.unlisted) (hne : (s.tree.node a).kind ≠ .ifStatement) :
    ∃ both : Node (NodeId × NodeId), both.map Prod.fst = s.tree.node a ∧
      both.map Prod.snd = (s.put x n).tree.node a ∧
        ∀ c ∈ both.children, s.Turns observed rule p x a c.1 c.2 := by
  rcases he.cases_at h a with hturns | ⟨rfl, ⟨_, _, hsplice, -⟩ | hr⟩
  · exact hturns
  · exact absurd hk hsplice.kind_not_mem
  · have hmem := hr.kind_mem
    simp only [Node.unlisted, List.mem_cons, List.not_mem_nil, or_false] at hk
    rcases hk with hk | hk | hk | hk
    · simp [hk] at hmem
    · exact absurd hk hne
    · simp [hk] at hmem
    · simp [hk] at hmem

namespace Turns

theorem valuation (h : s.Sound) (hsem : sem.Faithful) (he : s.Edit observed rule p x n)
    (hab : s.Turns observed rule p x owner a b) {v : Comp σ Value}
    (hv : s.tree.valuation sem a = some v) : (s.put x n).tree.valuation sem b = some v := by
  rcases hab with rfl | ⟨-, hab, happart, -⟩
  · exact (he.sense_kept h hsem b).value v hv
  · rw [he.valuation_apart h happart]
    exact hab.valuation_kept h hsem (hab.onExpressions h hv) v hv

theorem solid (h : s.Sound) (he : s.Edit observed rule p x n)
    (hab : s.Turns observed rule p x owner a b) {v : Comp σ Value}
    (hv : s.tree.valuation sem a = some v) (ha : s.tree.Solid a)
    (ih : (s.put x n).tree.Solid a) : (s.put x n).tree.Solid b := by
  rcases hab with rfl | ⟨-, hab, happart, -⟩
  · exact ih
  · exact (hab.solid h (hab.onExpressions h hv) ha).congr fun _ hy => he.node_apart h happart hy

end Turns

theorem Sound.valuation_of_child (h : s.Sound) (hk : (s.tree.node a).kind = .sequenceExpression)
    (hb : s.tree.Child b a) (hkb : (s.tree.node b).kind ∈ Semantics.tidied) :
    s.tree.valuation sem a = none := by
  change (s.tree.sense sem a).value? = none
  rw [Tree.sense_of_node h.wellFormed rfl, Semantics.nodeMeaning_of_child (c := s.tree.sense sem b)]
  · rw [Node.kind_map, hk]
    exact List.mem_of_elem_eq_true rfl
  · rw [Node.children_map]
    exact List.mem_map_of_mem hb
  · rw [Tree.sense_of_node h.wellFormed rfl]
    exact Semantics.nodeMeaning_tidied (by rwa [Node.kind_map])

/-- Through a change what has a value and is solid stays so. -/
theorem Edit.solid (h : s.Sound) (he : s.Edit observed rule p x n) {v : Comp σ Value}
    (hv : s.tree.valuation sem a = some v) (ha : s.tree.Solid a) :
    (s.put x n).tree.Solid a := by
  have wf := h.wellFormed
  induction ha generalizing v with
  | plain hk => exact .plain (by rwa [he.kind_eq h])
  | @conditional a _ yes no hn hyes hno ihyes ihno =>
    rw [Tree.valuation_conditional wf hn] at hv
    obtain ⟨_, -, hv⟩ := Option.bind_eq_some_iff.mp hv
    obtain ⟨y, hy, hv⟩ := Option.bind_eq_some_iff.mp hv
    obtain ⟨z, hz, -⟩ := Option.bind_eq_some_iff.mp hv
    obtain ⟨both, hold, hnew, hturns⟩ :=
      he.turns h (a := a) (by simp [hn, Node.kind, Node.unlisted]) (by simp [hn, Node.kind])
    obtain ⟨test', yes', no', rfl, -, rfl, rfl⟩ := Node.map_eq_conditional (hold.trans hn)
    have hyes' := hturns yes' (by simp [Node.children, Node.slots, Slot.children])
    have hno' := hturns no' (by simp [Node.children, Node.slots, Slot.children])
    exact .conditional hnew.symm (hyes'.solid h he hy hyes (ihyes hy))
      (hno'.solid h he hz hno (ihno hz))
  | @logical a _ left right hn hleft hright ihleft ihright =>
    rw [Tree.valuation_logical wf hn] at hv
    obtain ⟨y, hy, hv⟩ := Option.bind_eq_some_iff.mp hv
    obtain ⟨z, hz, -⟩ := Option.bind_eq_some_iff.mp hv
    obtain ⟨both, hold, hnew, hturns⟩ :=
      he.turns h (a := a) (by simp [hn, Node.kind, Node.unlisted]) (by simp [hn, Node.kind])
    obtain ⟨left', right', rfl, rfl, rfl⟩ := Node.map_eq_logical (hold.trans hn)
    have hleft' := hturns left' (by simp [Node.children, Node.slots, Slot.children])
    have hright' := hturns right' (by simp [Node.children, Node.slots, Slot.children])
    exact .logical hnew.symm (hleft'.solid h he hy hleft (ihleft hy))
      (hright'.solid h he hz hright (ihright hz))
  | @sequence a leading last hn hlast ih =>
    obtain ⟨cs, c, hcs, hc, -⟩ := (Tree.valuation_sequence_append wf hn).mp hv
    rcases he.cases_at h a with ⟨both, hold, hnew, hturns⟩ | ⟨rfl, ⟨_, _, hsplice, d, hd, hk⟩ | hr⟩
    · obtain ⟨pairs, rfl, hpairs⟩ := Node.map_eq_sequence (hold.trans hn)
      obtain ⟨before, after, rfl, -, hafter⟩ := List.map_eq_append_iff.mp hpairs
      obtain ⟨last', rfl, rfl⟩ := List.map_eq_singleton_iff.mp hafter
      have hnode : (s.put x n).tree.node a =
          .sequenceExpression (before.map Prod.snd ++ [last'.2]) := by
        rw [← hnew]
        change Node.sequenceExpression (List.map Prod.snd (before ++ [last'])) = _
        rw [List.map_append, List.map_singleton]
      exact .sequence hnode
        ((hturns last' (by simp [Node.children_sequence])).solid h he hc hlast (ih hc))
    · rw [h.valuation_of_child (hn ▸ rfl) (hsplice.children.1 d hd) hk] at hv
      cases hv
    -- a rewritten sequence keeps its last item
    · have same : ∀ {leading' last'}, s.tree.node a = .sequenceExpression (leading' ++ [last']) →
          last' = last := by
        intro leading' last' hn'
        obtain ⟨-, heq⟩ := List.append_inj' (Node.sequenceExpression.inj (hn'.symm.trans hn)) rfl
        exact List.singleton_inj.mp heq
      have hnew := he.node_self h
      generalize hm : s.tree.node a = m at hr
      cases hr with
      | leadingItems =>
        obtain rfl := same hm
        exact .sequence hnew (ih hc)
      | @firstItem _ last' first =>
        obtain rfl := same hm
        have hnode : (s.put a _).tree.node a = .sequenceExpression ([first] ++ [last']) := hnew
        exact .sequence hnode (ih hc)
      | _ => cases hm.symm.trans hn

end Store

end ScriptFold

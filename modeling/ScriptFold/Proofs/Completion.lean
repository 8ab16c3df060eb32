import ScriptFold.Proofs.Ending
import ScriptFold.Proofs.Tail

/-!
A program that is run for its value gives that of the last statement that it runs, and folding drops no
constant from where that statement stands. A change at a path keeps what is known of the value of all
that the program may end with, and so does folding.
-/

namespace ScriptFold

variable {σ : Type} {sem : Semantics σ}

namespace Store

variable {s s' s₁ : Store} {observed : Bool} {rule : Rule} {p : Path} {a b x owner : NodeId}
  {n : Node NodeId} {c : Comp σ Completion}

theorem Sound.not_ends_of_value (h : s.Sound) {v : Value} (hv : s.value? a = some v) :
    ¬ s.tree.Ends sem a c := fun hc => by
  have hkinds : ∀ k ∈ Tree.Ends.kinds,
      k ∉ [Kind.literal, .unaryExpression, .binaryExpression, .arrayExpression] := by decide
  exact hkinds _ hc.kind_mem (h.kind_of_value? hv)

/-- Where a constant is not dropped for its position, what takes the place of a statement ends with the
same value. -/
theorem Swap.ends (h : s.Sound) (hsem : sem.Faithful) (hab : s.Swap observed rule a b)
    (hobserved : rule = .expressionStatements → observed = true) (hc : s.tree.Ends sem a c) :
    s.tree.Ends sem b c := by
  have wf := h.wellFormed
  have hk := hc.kind_mem
  have test : ∀ {test v w}, s.value? test = some v → s.tree.valuation sem test = some w →
      w = pure v := fun hv hw =>
    Option.some.inj (hw.symm.trans (h.valuation_of_value hsem hv))
  cases hab with
  | constantStatement _ _ hunobserved => cases (hobserved rfl).symm.trans hunobserved
  | ifExpression hn hexpr he hb _ _ =>
    obtain ⟨no, v, d, e, rfl, hv, hyes, hno, rfl⟩ := hc.of_choice hn
    rcases ifExpression?_cases hexpr with ⟨other, y, z, hother, hy, hz, rfl⟩ | ⟨_, hnone, -⟩
    · cases hother
      obtain ⟨_, hny⟩ := expression?_eq hy
      obtain ⟨_, hnz⟩ := expression?_eq hz
      obtain ⟨f, hsy, hf, rfl⟩ := hyes.of_expression hny
      obtain ⟨g, hsz, hg, rfl⟩ := hno.of_expression hnz
      rw [← Comp.choose_bind]
      refine .expression hb (.conditional he hsy hsz) ?_
      rw [Tree.valuation_conditional wf he, hv, hf, hg]
      rfl
    · cases hnone
  | ifTrue hn hv hb =>
    obtain ⟨no, v, d, e, rfl, hw, hyes, -, rfl⟩ := hc.of_choice hn
    rwa [test hv hw, Comp.choose_pure, if_pos hb]
  | ifFalse hn hv hb =>
    obtain ⟨no, v, d, e, hno, hw, -, hend, rfl⟩ := hc.of_choice hn
    cases hno
    rwa [test hv hw, Comp.choose_pure, if_neg hb]
  | ifTest hn | ifNever hn =>
    obtain ⟨no, _, _, _, hno, -⟩ := hc.of_choice hn
    cases hno
  | minify hv => exact absurd hc (h.not_ends_of_value hv)
  | whileNever hn | forNever hn | forDeclaration hn | forExpression hn | conditional hn | logical hn
    | binary hn | unary hn | lastItem hn | member hn | memberOfCharacter hn =>
    rw [hn] at hk
    exact absurd hk (by simp [Tree.Ends.kinds, Node.kind])

theorem Swap.not_jump (h : s.Sound) (hab : s.Swap observed rule a b) :
    ¬ (s.tree.node a).isJump := fun hj => by
  have hjump := Rule.kind_of_isJump hj
  rcases hab.kind_mem with ⟨v, hv⟩ | hk
  · have hkinds : ∀ k ∈ [Kind.literal, .unaryExpression, .binaryExpression, .arrayExpression],
        k ∉ Rule.unreachableTail.kinds := by decide
    exact hkinds _ (h.kind_of_value? hv) hjump
  · have hkinds : ∀ k ∈ rule.replaced, k ∉ Rule.unreachableTail.kinds := by
      cases rule <;> decide
    exact hkinds _ hk hjump

/-- The items that a solid expression gives to a sequence: the last is solid, and has its value. -/
theorem Sound.items_of_solid (h : s.Sound) {e : NodeId} {v : Comp σ Value} (he : s.tree.Solid e)
    (hv : s.tree.valuation sem e = some v) :
    ∃ leading last es w, FoldM.sequenceItems s.tree e = leading ++ [last] ∧ s.tree.Solid last ∧
      List.Forall₂ (fun y c => s.tree.valuation sem y = some c) leading es ∧
        s.tree.valuation sem last = some w ∧ v = es.forM Comp.discard >>= fun _ => w := by
  unfold FoldM.sequenceItems
  split
  · rename_i expressions hn
    obtain ⟨leading, last, rfl, hlast⟩ := he.of_sequence hn
    obtain ⟨es, w, hes, hw, rfl⟩ := (Tree.valuation_sequence_append h.wellFormed hn).mp hv
    exact ⟨leading, last, es, w, rfl, hlast, hes, hw, rfl⟩
  · exact ⟨[], e, [], v, rfl, he, .nil, hv, rfl⟩

/-- What a run of expression statements is merged to ends with the value of the last. -/
theorem Sound.ends_merge (h : s.Sound) (hsem : sem.Faithful) {statements expressions : List NodeId}
    {sequence statement : NodeId}
    (hrun : List.Forall₂ (fun st e => (s.tree.node st).expression? = some e) statements expressions)
    (hsequence : s.tree.node sequence =
      .sequenceExpression (expressions.flatMap (FoldM.sequenceItems s.tree)))
    (hstatement : s.tree.node statement = .expressionStatement sequence none)
    (hc : s.tree.EndsIn sem statements c) : s.tree.Ends sem statement c := by
  have hmeaning : s.meaning sem = s.tree.sense sem := funext (h.meaning_eq_sense hsem)
  obtain ⟨lead, last, rest, cs, d, rfl, hcut, hlead, hlast, rfl⟩ := hc
  obtain ⟨before, after, rfl, hbefore, hafter⟩ := forall₂_of_append hrun
  cases hafter with
  | @cons _ e _ after he hafter =>
    obtain ⟨directive, hn⟩ := expression?_eq he
    obtain rfl : rest = [] := hcut.resolve_right (by rw [hn]; exact Bool.false_ne_true)
    cases hafter
    obtain ⟨v, hsolid, hv, rfl⟩ := hlast.of_expression hn
    rw [Tree.Does, ← hmeaning] at hlead
    obtain ⟨es, hes, heq⟩ := h.run_items hbefore hlead
    rw [hmeaning] at hes
    obtain ⟨leading, item, fs, w, hitems, hitem, hfs, hw, rfl⟩ := h.items_of_solid hsolid hv
    rw [List.flatMap_append, List.flatMap_singleton, hitems, ← List.append_assoc] at hsequence
    have hvalue : s.tree.valuation sem sequence =
        some ((es ++ fs).forM Comp.discard >>= fun _ => w) :=
      (Tree.valuation_sequence_append h.wellFormed hsequence).mpr
        ⟨es ++ fs, w, List.rel_append hes hfs, hw, rfl⟩
    have hends := Tree.Ends.expression hstatement (.sequence hsequence hitem) hvalue
    rw [← heq, Comp.run_effect_andThen]
    simpa only [List.forM_eq_forM, List.forM_append, bind_assoc] using hends

theorem Splice.does (h : s.Sound) (hsem : sem.Faithful) {old new : List NodeId}
    (hs : s.Splice observed owner rule (old.map some) new) {cs : List (Comp σ Completion)}
    (hcs : s.tree.Does sem old cs) : ∃ ds, s.tree.Does sem new ds ∧ Comp.run ds = Comp.run cs := by
  rcases rule.onStatements_or_onExpressions with hrule | hrule
  · have hmeaning : s.meaning sem = s.tree.sense sem := funext (h.meaning_eq_sense hsem)
    unfold Tree.Does at hcs ⊢
    rw [← hmeaning] at hcs ⊢
    exact hs.run_eq h hrule hcs
  · generalize hold : old.map some = old' at hs
    cases hs with
    | swap hab =>
      obtain ⟨a, rfl, ha⟩ := List.map_eq_singleton_iff.mp hold
      cases ha
      cases hcs with
      | cons hc hnil =>
        cases hnil
        exact ⟨_, .cons ((hab.sense_kept h hsem hrule).statement _ hc) .nil, rfl⟩
    | unreachable | merge | constant | empty => exact absurd hrule (by decide)

/-- A splice of a list that comes last, where a constant that comes last in it is not dropped. -/
theorem Splice.endsIn (h : s.Sound) (hsem : sem.Faithful) {old new rest : List NodeId}
    (hs : s.Splice observed owner rule (old.map some) new)
    (hobserved : ∀ a, old = [a] → rest = [] → rule = .expressionStatements → observed = true)
    (hc : s.tree.EndsIn sem (old ++ rest) c) : s.tree.EndsIn sem (new ++ rest) c := by
  have wf := h.wellFormed
  -- entries that are no jump come last themselves, or run before the rest
  have parts : (∀ y ∈ old, ¬ (s.tree.node y).isJump) →
      (rest = [] → s.tree.EndsIn sem old c → s.tree.EndsIn sem new c) →
      s.tree.EndsIn sem (new ++ rest) c := by
    intro hjump hlast
    by_cases hrest : rest = []
    · subst hrest
      rw [List.append_nil] at hc ⊢
      exact hlast rfl hc
    · rcases hc.of_append hrest with ⟨⟨y, hy, hj⟩, -⟩ | ⟨cs, d, hcs, hd, rfl⟩
      · exact absurd hj (hjump y hy)
      · obtain ⟨ds, hds, heq⟩ := hs.does h hsem hcs
        rw [← heq]
        exact .append hds hd
  have one : ∀ {a}, old.map some = [some a] → old = [a] := fun hold => by
    obtain ⟨b, rfl, hb⟩ := List.map_eq_singleton_iff.mp hold
    cases hb
    rfl
  generalize hold : old.map some = old' at hs
  cases hs with
  | @unreachable jump tail hjump _ =>
    obtain ⟨first, old, rfl, hfirst, -⟩ := List.map_eq_cons_iff.mp hold
    cases hfirst
    rw [List.cons_append, Tree.EndsIn.jump_iff wf hjump] at hc ⊢
    exact hc
  | swap hab =>
    obtain rfl := one hold
    refine parts (fun y hy => ?_) fun hrest hlast => ?_
    · obtain rfl := List.mem_singleton.mp hy
      exact hab.not_jump h
    · exact .singleton (hab.ends h hsem (hobserved _ rfl hrest) hlast.of_singleton)
  | merge hrun _ hsequence hstatement =>
    obtain rfl := List.map_injective_iff.mpr (Option.some_injective _) hold
    refine parts (fun y hy hj => ?_) fun _ hlast => ?_
    · obtain ⟨before, after, rfl⟩ := List.append_of_mem hy
      obtain ⟨_, _, -, -, hafter⟩ := forall₂_of_append hrun
      cases hafter with
      | cons he _ =>
        obtain ⟨_, hn⟩ := expression?_eq he
        rw [hn] at hj
        exact absurd hj Bool.false_ne_true
    · exact .singleton (h.ends_merge hsem hrun hsequence hstatement hlast)
  | constant hn _ hunobserved =>
    obtain rfl := one hold
    refine parts (fun y hy hj => ?_) fun hrest _ => ?_
    · obtain rfl := List.mem_singleton.mp hy
      rw [hn] at hj
      exact absurd hj Bool.false_ne_true
    -- what comes last is observed, and an observed constant is not dropped
    · cases (hobserved _ rfl hrest rfl).symm.trans hunobserved
  | empty hempty =>
    obtain rfl := one hold
    refine parts (fun y hy hj => ?_) fun _ hlast => ?_
    · obtain rfl := List.mem_singleton.mp hy
      exact Node.not_isJump_of_empty hempty hj
    · exact absurd hempty hlast.of_singleton.not_empty

theorem Splice.ne_nil {old : List (Option NodeId)} {new : List NodeId}
    (hs : s.Splice observed owner rule old new) : old ≠ [] := by
  cases hs with
  | merge hrun hlen =>
    rintro hnil
    rw [List.map_eq_nil_iff.mp hnil] at hlen
    exact absurd hlen (by decide)
  | swap | unreachable | constant | empty => exact List.cons_ne_nil _ _

/-- A change to a node with statements is a splice of its list. -/
theorem Edit.splices (he : s.Edit observed rule p x n)
    (hk : (s.tree.node x).kind = .program ∨ (s.tree.node x).kind = .blockStatement) :
    ∃ old new, p.Splices s.tree x old new n ∧ s.Splice observed x rule old new := by
  have hslots := Node.slots_of_body hk
  cases he with
  | fill hleads _ hfill hab =>
    cases hfill with
    | item hsplice => exact ⟨_, _, hsplice, .swap hab⟩
    | required _ hs | optional _ hs =>
      have hmem := Node.mem_slots_of_slot? hs
      rw [hslots, List.mem_singleton] at hmem
      cases (Prod.mk.inj hmem).2
  | splice _ _ hsplice hnew => exact ⟨_, _, hsplice, hnew⟩
  | rewrite _ _ hr =>
    have hmem := hr.kind_mem
    rcases hk with hk | hk <;> rw [hk] at hmem <;> exact absurd hmem (by decide)

theorem Edit.statements_cases (h : s.Sound) (he : s.Edit observed rule p x n)
    (hk : (s.tree.node x).kind = .program ∨ (s.tree.node x).kind = .blockStatement) :
    ∃ before old new rest parent v, (s.tree.node x).statements = before ++ (old ++ rest) ∧
      ((s.put x n).tree.node x).statements = before ++ (new ++ rest) ∧
      p = .child parent (.index before.length) v ∧ parent.value = .list x .body ∧
      s.Splice observed x rule (old.map some) new := by
  obtain ⟨old, new, hsplice, hnew⟩ := he.splices hk
  rw [he.node_self h]
  cases hsplice with
  | @intro parent f _ slot l _ r _ v hv hs hi =>
    have hmem := Node.mem_slots_of_slot? hs
    rw [Node.slots_of_body hk, List.mem_singleton] at hmem
    obtain ⟨rfl, rfl⟩ := Prod.mk.inj hmem
    obtain ⟨lo, rest, hsplit, hlo, rfl⟩ := List.map_eq_append_iff.mp (Option.some.inj hi)
    obtain ⟨before, old, rfl, rfl, rfl⟩ := List.map_eq_append_iff.mp hlo
    refine ⟨before, old, new, rest, parent, v, by rw [hsplit, List.append_assoc], ?_, ?_, hv, hnew⟩
    · change ((s.tree.node x).setSlot .body (.list (List.filterMap id _))).statements = _
      rw [Node.statements_setSlot hk]
      simp
    · rw [List.length_map]

section

-- a change of statements knows the position where it is made
variable (h : s.Sound) (hsem : sem.Faithful) (ht : s.tree.Shaped) (hp : p.Live s.tree)
  (he : s.Edit observed rule p x n)
  (hobserved : rule = .expressionStatements → s.tree.isCompletion p → observed = true)

include h hsem ht hp he hobserved

theorem Edit.ends_branch (ho : s.tree.Tail owner) (hk : (s.tree.node owner).kind ∈ Node.unlisted)
    (hab : s.Turns observed rule p x owner a b) (hc : s.tree.Ends sem a c)
    (hc' : (s.put x n).tree.Ends sem a c) : (s.put x n).tree.Ends sem b c := by
  rcases hab with rfl | ⟨rfl, hab, happart, d, hleads⟩
  · exact hc'
  obtain ⟨parent, key, f, slot, rfl, hs, -, hfield | ⟨_, _, -, -, hi, -⟩⟩ := hleads.slot
  · obtain ⟨rfl, hv, -⟩ := hfield
    have hends := hab.ends h hsem (fun hrule => hobserved hrule
      (ht.isCompletion_field (he.admissible h).2.1 ho hp hv)) hc
    exact hends.congr h.wellFormed (he.sound h).wellFormed fun _ hz => he.node_apart h happart hz
  · rw [Node.items?_eq_none hk hs] at hi
    cases hi

theorem Edit.ends_list (hx : s.tree.Tail x)
    (hk : (s.tree.node x).kind = .program ∨ (s.tree.node x).kind = .blockStatement)
    (hc : s.tree.Ends sem x c) : (s.put x n).tree.Ends sem x c := by
  rw [Tree.ends_body_iff hk] at hc
  obtain ⟨before, old, new, rest, parent, v, hold, hnew, rfl, hv, hsplice⟩ :=
    he.statements_cases h hk
  have hne : old ++ rest ≠ [] := fun hnil =>
    hsplice.ne_nil (by rw [(List.append_eq_nil_iff.mp hnil).1, List.map_nil])
  have hafter : s.tree.EndsIn sem (before ++ (new ++ rest)) c := by
    rw [hold] at hc
    rcases hc.of_append hne with ⟨-, hall⟩ | ⟨ds, d, hds, hd, rfl⟩
    · exact hall _
    · refine .append hds (hsplice.endsIn h hsem (fun e hone hrest hrule => ?_) hd)
      refine hobserved hrule
        (ht.isCompletion_item (he.admissible h).2.1 hx hp hv (Node.slot?_of_body hk) rfl ?_)
      rw [hold, hone, hrest]
      simp
  rw [Tree.ends_body_iff (by rwa [he.kind_eq h]), hnew]
  refine hafter.congr h.wellFormed (he.sound h).wellFormed fun y hy z hz => he.node_apart h ?_ hz
  rw [← hnew] at hy
  have hchild := Tree.child_of_statements hy
  rw [Tree.Child, he.node_self h] at hchild
  exact ((he.admissible h).2.2.2.2 y hchild).2

/-- Through a change a node that the program may end with ends with the same value. -/
theorem Edit.ends (ha : s.tree.Tail a) (hc : s.tree.Ends sem a c) : (s.put x n).tree.Ends sem a c := by
  have jump : ∀ {y}, (s.tree.node y).isJump → ((s.put x n).tree.node y).isJump := fun hj => by
    rwa [Node.isJump_of_kind (he.kind_eq h _)]
  induction hc with
  | @expression a e _ v hn hsolid hv =>
    obtain ⟨both, hold, hnew, hturns⟩ :=
      he.turns h (a := a) (by simp [hn, Node.kind, Node.unlisted]) (by simp [hn, Node.kind])
    obtain ⟨e', rfl, rfl⟩ := Node.map_eq_expressionStatement (hold.trans hn)
    have hturn := hturns e' (List.mem_singleton_self _)
    exact .expression hnew.symm (hturn.solid h he hv hsolid (he.solid h hv hsolid))
      (hturn.valuation h hsem he hv)
  | jump hj hc => exact .jump (jump hj) ((he.sense_kept h hsem _).statement _ hc)
  | @choice a test yes no v c d hn hv hyes hno ihyes ihno =>
    have hk : (s.tree.node a).kind ∈ Node.unlisted := by
      rw [hn]
      exact List.mem_of_elem_eq_true rfl
    rcases he.cases_at h a with ⟨both, hold, hnew, hturns⟩ | ⟨rfl, ⟨_, _, hsplice, -⟩ | hr⟩
    · obtain ⟨test', yes', no', rfl, rfl, rfl, rfl⟩ := Node.map_eq_choice (hold.trans hn)
      have mem : ∀ {y}, y = test' ∨ y = yes' ∨ y = no' →
          y ∈ (Node.ifStatement test' yes' (some no')).children := by
        rintro y (rfl | rfl | rfl) <;> simp [Node.children, Node.slots, Slot.children]
      refine .choice hnew.symm ((hturns test' (mem (.inl rfl))).valuation h hsem he hv) ?_ ?_
      · have htail := ha.field (f := .consequent) (by rw [Tree.read, Tree.slot?, hn]; rfl)
          hyes.not_function
        exact he.ends_branch h hsem ht hp hobserved ha hk (hturns yes' (mem (.inr (.inl rfl)))) hyes
          (ihyes htail)
      · have htail := ha.field (f := .alternate) (by rw [Tree.read, Tree.slot?, hn]; rfl)
          hno.not_function
        exact he.ends_branch h hsem ht hp hobserved ha hk (hturns no' (mem (.inr (.inr rfl)))) hno
          (ihno htail)
    · exact absurd hk hsplice.kind_not_mem
    -- neither branch is empty, as each ends with a value
    · generalize hm : s.tree.node a = m at hr
      cases hr with
      | consequent hempty =>
        cases hm.symm.trans hn
        exact absurd hempty hyes.not_empty
      | alternate hempty =>
        cases hm.symm.trans hn
        exact absurd hempty hno.not_empty
      | _ => cases hm.symm.trans hn
  | @body a lead last rest cs c hs hcut hlead hlast ih =>
    have hk : (s.tree.node a).kind = .program ∨ (s.tree.node a).kind = .blockStatement := by
      simpa using Node.kind_of_statements hs
    by_cases hax : a = x
    · subst hax
      exact he.ends_list h hsem ht hp hobserved ha hk (.body hs hcut hlead hlast)
    · have hnode := he.node_of_ne h hax
      refine .body ((congrArg Node.statements hnode).trans hs) (hcut.imp_right jump)
        (hlead.imp fun y _ => (he.sense_kept h hsem y).statement) ?_
      -- the last statement ends the program, or is a jump and keeps its meaning
      rcases hcut with rfl | hj
      · refine ih (ha.item (Node.slot?_of_body hk) (l := lead.map some) ?_ hlast.not_function)
        rw [hs]
        simp [Slot.items?]
      · exact .jump (jump hj) ((he.sense_kept h hsem _).statement _ (hlast.of_jump hj))

end

/-- What is kept where a program that ends with a value is folded. -/
structure EndsLike (sem : Semantics σ) (s s' : Store) : Prop where
  unshared : s.tree.Unshared → s'.tree.Unshared
  ends : s.tree.Unshared → ∀ c, s.tree.Ends sem s.tree.root c → s'.tree.Ends sem s'.tree.root c

theorem EndsLike.trans (h : s.EndsLike sem s₁) (h' : s₁.EndsLike sem s') : s.EndsLike sem s' where
  unshared := h'.unshared ∘ h.unshared
  ends hu c hc := h'.ends (h.unshared hu) c (h.ends hu c hc)

theorem Grows.node_within (h : s.Sound) (hg : s.Grows s') {y : NodeId}
    (hy : s.tree.Within y s.tree.root) : s'.tree.node y = s.tree.node y :=
  hg.tree.node (h.wellFormed.within_lt_size hy h.lt_size_of_root)

theorem Edit.endsLike (h : s.Sound) (hs₁ : s₁.Sound) (hg : s.Grows s₁) (hsem : sem.Faithful)
    (hp : p.Live s₁.tree) (he : s₁.Edit observed rule p x n)
    (hobserved : rule = .expressionStatements → s₁.tree.isCompletion p → observed = true) :
    s.EndsLike sem (s₁.put x n) where
  unshared hu := he.unshared hs₁ hp (hg.unshared h hs₁ hu)
  ends hu c hc := by
    have hu₁ := hg.unshared h hs₁ hu
    have hc₁ : s₁.tree.Ends sem s₁.tree.root c := by
      rw [hg.tree.root]
      exact hc.congr h.wellFormed hs₁.wellFormed fun _ hy => hg.node_within h hy
    exact he.ends hs₁ hsem (hs₁.orderly hu₁).shaped hp hobserved (Tree.Tail.root hs₁.program) hc₁

/-- Only the rule on expression statements looks at what is observed. -/
theorem Fires.endsLike (h : s.Sound) (hsem : sem.Faithful) (hp : p.Live s.tree)
    (hleads : p.Leads s.tree owner a) (hrule : rule ≠ .expressionStatements)
    (hfires : Fires observed rule p s s') : s.EndsLike sem s' :=
  Fires.lift EndsLike.trans (fun hs hs₁ hg hp he =>
    he.endsLike hs hs₁ hg hsem hp fun heq => absurd heq hrule) h hp hleads hfires

/-- A rule that makes one change knows the position as it is then. -/
theorem Step.endsLike (h : s.Sound) (hsem : sem.Faithful) (hp : p.Live s.tree)
    (hleads : p.Leads s.tree owner a) (hstep : Step (s.tree.isCompletion p) rule p s s') :
    s.EndsLike sem s' := by
  obtain ⟨s₁, x, n, hg, hs₁, he, rfl⟩ := hstep
  have hleads₁ := hleads.congr (hg.tree.node (Tree.lt_size_of_child hleads.child))
  have hp₁ := (Evolves.grows h hs₁ hg).live_of_leads hp hleads₁
  refine he.endsLike h hs₁ hg hsem hp₁ fun _ hcompletion => ?_
  rwa [Tree.isCompletion_congr hp fun _ hy => hg.node_within h hy] at hcompletion

end Store

namespace FoldState

variable {rules : List Rule} {s s' : FoldState}

theorem Firing.endsLike (h : s.Sound) (hsem : sem.Faithful) (hf : Firing rules s s') :
    s.toStore.EndsLike sem s'.toStore := by
  obtain @⟨rule, p, q, s₁, hrule, hp, hnode, hfrozen, hrun⟩ := hf
  rcases open_of_live h hp hnode hfrozen with rfl | ⟨owner, id, hopen⟩
  · cases ((rule.apply_root h).of_ok hrun).1
  · by_cases hstatements : rule = .expressionStatements
    · subst hstatements
      obtain ⟨⟨-, hstep, -⟩, -⟩ := (FoldM.foldExpressionStatement_applies hopen).of_ok hrun
      exact hstep.endsLike h hsem hp hopen.leads
    · obtain ⟨-, hfires, -⟩ := (rule.apply_ensures hopen).of_ok hrun
      exact hfires.endsLike h hsem hp hopen.leads hstatements

theorem Folds.endsLike (h : s.Sound) (hsem : sem.Faithful) (hr : Folds rules s s') :
    s.toStore.EndsLike sem s'.toStore := by
  induction hr with
  | refl => exact ⟨id, fun _ _ => id⟩
  | fire hr hf ih => exact ih.trans (hf.endsLike (hr.sound h) hsem)
  | round _ ih => exact ih

end FoldState

variable {json : Json} {t : Tree} {c : Comp σ Completion}

/-- A program that ends with a value does when it is folded what it did, and ends with the same
value. -/
theorem Tree.fold_ends (hj : json.Finite) (ht : ofJson json = .ok t) (hsem : sem.Faithful)
    (hc : t.Ends sem t.root c) (options : Options) :
    ∃ t' stats, t.fold options = .ok (t', stats) ∧ t'.Ends sem t'.root c := by
  have h : Store.Sound { tree := t } := (fresh_ofJson hj ht).sound
  have hu : t.Unshared := nodup_members h.wellFormed (laid_ofJson hj ht).held t.root
  obtain ⟨s, hfold, hfolds⟩ := fold_folds h options
  exact ⟨s.tree, s.stats, hfold, (hfolds.endsLike (s := { tree := t }) h hsem).ends hu c hc⟩

/-- The program `true && a` ends with the value of `a`, and so does what it is folded to. -/
theorem Tree.fold_ends_programAnd : ∃ t t' stats c, ofJson .programAnd = .ok t ∧
    t.fold {} = .ok (t', stats) ∧ t.Ends .folding t.root c ∧ t'.Ends .folding t'.root c := by
  obtain ⟨t, ht, hroot, hstatement, hand, htrue, hname⟩ : ∃ t, ofJson .programAnd = .ok t ∧
      (t.node t.root).statements = [] ++ [4] ∧ t.node 4 = .expressionStatement 3 none ∧
      t.node 3 = .logicalExpression .and 1 2 ∧ t.node 1 = .literal (.bool true) ∧
      t.node 2 = .identifier "a" := ⟨_, rfl, rfl, rfl, rfl, rfl, rfl⟩
  have hsolid : t.Solid 3 :=
    .logical hand (.plain (by rw [htrue]; decide)) (.plain (by rw [hname]; decide))
  have hends : t.Ends .folding t.root _ :=
    .body hroot (.inl rfl) .nil (.expression hstatement hsolid (valuation_programAnd ht))
  obtain ⟨t', stats, hfold, hends'⟩ :=
    fold_ends Json.finite_programAnd ht Semantics.folding_faithful hends {}
  exact ⟨t, t', stats, _, ht, hfold, hends, hends'⟩

end ScriptFold

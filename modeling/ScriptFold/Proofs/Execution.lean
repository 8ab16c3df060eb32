import ScriptFold.Proofs.Import
import ScriptFold.Proofs.Simulation

/-!
Rules on statements keep what a program does. The node that a change rewrites stands for the same
computation before and after, so does every node above it, and so for a run of changes.
-/

namespace ScriptFold

open Relation

variable {σ : Type} {sem : Semantics σ}

namespace Path

variable {t : Tree} {p : Path} {owner a b : NodeId} {n : Node NodeId}

/-- A node before and after a change of one slot, as one node of pairs. -/
theorem exists_pairs {f : Field} {slot : Slot NodeId} (hs : n.slot? f = some slot)
    (pairs : Slot (NodeId × NodeId)) (hput : (slot.map fun c => (c, c)).put pairs = pairs)
    (hold : pairs.map Prod.fst = slot) (hpairs : ∀ c ∈ pairs.children, c = (a, b) ∨ c.2 = c.1) :
    ∃ both : Node (NodeId × NodeId), both.map Prod.fst = n ∧
      both.map Prod.snd = n.setSlot f (pairs.map Prod.snd) ∧
      ∀ c ∈ both.children, c = (a, b) ∨ c.2 = c.1 := by
  have hs' : (n.map fun c => (c, c)).slot? f = some (slot.map fun c => (c, c)) := by
    rw [Node.slot?_map, hs, Option.map_some]
  refine ⟨(n.map fun c => (c, c)).setSlot f pairs, ?_, ?_, fun c hc => ?_⟩
  · rw [Node.map_setSlot, Node.map_map, Node.map_id, hold, Node.setSlot_self hs]
  · rw [Node.map_setSlot, Node.map_map, Node.map_id]
  · rcases Node.mem_children_setSlot hs' hput hc with hc | hc
    · rw [Node.children_map] at hc
      obtain ⟨d, -, rfl⟩ := List.mem_map.mp hc
      exact .inr rfl
    · exact hpairs c hc

theorem Splices.pairs (h : p.Splices t owner [some a] [b] n) :
    ∃ both : Node (NodeId × NodeId), both.map Prod.fst = t.node owner ∧ both.map Prod.snd = n ∧
      ∀ c ∈ both.children, c = (a, b) ∨ c.2 = c.1 := by
  cases h with
  | @intro _ f _ slot l _ r _ _ _ hs hi =>
    let twice : List (Option NodeId) → List (Option (NodeId × NodeId)) :=
      List.map (Option.map fun c => (c, c))
    have hnew : ((slot.map fun c => (c, c)).setItems (twice l ++ [some (a, b)] ++ twice r)).map
        Prod.snd = slot.setItems (l ++ [some b] ++ r) := by
      simp [twice, Slot.map_setItems, Slot.map_map, Slot.map_id, Function.comp_def]
    have hold : ((slot.map fun c => (c, c)).setItems (twice l ++ [some (a, b)] ++ twice r)).map
        Prod.fst = slot := by
      simpa [twice, Slot.map_setItems, Slot.map_map, Slot.map_id, Function.comp_def] using
        Slot.setItems_self hi
    rw [List.map_singleton, ← hnew]
    refine exists_pairs hs _ (Slot.put_setItems _ _) hold fun c hc => ?_
    have hitems : (slot.map fun c => (c, c)).items? = some (twice (l ++ [some a] ++ r)) := by
      rw [Slot.items?_map, hi, Option.map_some]
    have hc := Slot.mem_of_mem_children_setItems hitems hc
    simp only [twice, List.mem_append, List.mem_map, List.mem_singleton, Option.map_eq_some_iff,
      Option.some.injEq] at hc
    rcases hc with (⟨_, -, d, -, rfl⟩ | rfl) | ⟨_, -, d, -, rfl⟩
    · exact .inr rfl
    · exact .inl rfl
    · exact .inr rfl

theorem Fills.pairs (h : p.Fills t owner a b n) :
    ∃ both : Node (NodeId × NodeId), both.map Prod.fst = t.node owner ∧ both.map Prod.snd = n ∧
      ∀ c ∈ both.children, c = (a, b) ∨ c.2 = c.1 := by
  cases h with
  | required _ hs =>
    refine exists_pairs hs (.required (a, b)) rfl rfl fun c hc => ?_
    exact .inl (List.mem_singleton.mp hc)
  | optional _ hs =>
    refine exists_pairs hs (.optional (some (a, b))) rfl rfl fun c hc => ?_
    exact .inl (List.mem_singleton.mp hc)
  | item h => exact h.pairs

end Path

namespace Store

variable {s s' : Store} {observed : Bool} {rule : Rule} {p : Path} {a b x owner : NodeId}
  {n : Node NodeId}

/-- A node keeps its meaning where one of its children makes way for one that means the same. -/
theorem kept_of_pairs {m : NodeId → Meaning σ} {old new : Node NodeId}
    (hpairs : ∃ both : Node (NodeId × NodeId), both.map Prod.fst = old ∧ both.map Prod.snd = new ∧
      ∀ c ∈ both.children, c = (a, b) ∨ c.2 = c.1) (hab : (m a).Kept (m b)) :
    (sem.nodeMeaning x (old.map m)).Kept (sem.nodeMeaning x (new.map m)) := by
  obtain ⟨both, rfl, rfl, hboth⟩ := hpairs
  rw [Node.map_map, Node.map_map]
  refine Semantics.nodeMeaning_kept fun c hc => ?_
  rcases hboth c hc with rfl | heq
  · exact hab
  · rw [heq]
    exact .refl _

end Store

theorem Node.list_cases {α : Type} {n : Node α} {f : Field} {slot : Slot α}
    {items : List (Option α)} (hs : n.slot? f = some slot) (hi : slot.items? = some items) :
    (∃ body, n = .blockStatement body ∧ f = .body ∧ slot = .list body) ∨
      (∃ callee arguments, n = .callExpression callee arguments ∧ f = .arguments) ∨
      n.kind ∈ [Kind.arrayExpression, .sequenceExpression, .variableDeclaration] ∨
      n.kind ∈ [Kind.program, .switchStatement, .switchCase, .functionDeclaration,
        .objectExpression, .functionExpression, .arrowFunctionExpression, .newExpression] := by
  have hmem := mem_slots_of_slot? hs
  cases n <;> simp only [slots, List.mem_cons, List.not_mem_nil, Prod.mk.injEq, or_false] at hmem
  case blockStatement body => exact .inl ⟨body, rfl, hmem⟩
  case callExpression callee arguments =>
    rcases hmem with ⟨rfl, rfl⟩ | ⟨-, rfl⟩
    · exact .inr (.inl ⟨callee, arguments, rfl, rfl⟩)
    · cases hi
  all_goals first
    | exact .inr (.inr (.inl (List.mem_of_elem_eq_true rfl)))
    | exact .inr (.inr (.inr (List.mem_of_elem_eq_true rfl)))
    | (casesm* _ ∨ _, _ ∧ _ <;> subst_vars <;> cases hi)

namespace Semantics

variable {x : NodeId} {n : Node (Meaning σ)}

/-- Kinds of nodes with a list that are no statement or expression by themselves. -/
theorem nodeMeaning_unknown (hk : n.kind ∈ [Kind.program, .switchStatement, .switchCase,
    .functionDeclaration, .objectExpression, .functionExpression, .arrowFunctionExpression,
    .newExpression]) : sem.nodeMeaning x n = {} := by
  cases n <;> first | rfl | exact absurd hk (by simp [Node.kind])

end Semantics

namespace Store

variable {s s' : Store} {observed : Bool} {rule : Rule} {p : Path} {a b x owner : NodeId}
  {n : Node NodeId}

theorem Swap.tidied (hrule : rule ∈ Rule.onStatements) (hab : s.Swap observed rule a b) :
    (s.tree.node a).kind ∈ Semantics.tidied := by
  cases hab with
  | constantStatement hn | ifTest hn | ifExpression hn | ifTrue hn | ifFalse hn | ifNever hn
    | whileNever hn | forNever hn | forDeclaration hn | forExpression hn =>
    rw [hn]
    exact List.mem_of_elem_eq_true rfl
  | conditional | logical | binary | unary | lastItem | member | memberOfCharacter | minify =>
    exact absurd hrule (by decide)

theorem Splice.tidied {old : List (Option NodeId)} {new : List NodeId}
    (hrule : rule ∈ Rule.onStatements) (hs : s.Splice observed owner rule old new) :
    ∃ c, some c ∈ old ∧ (s.tree.node c).kind ∈ Semantics.tidied := by
  cases hs with
  | swap hab => exact ⟨_, List.mem_singleton_self _, hab.tidied hrule⟩
  | @unreachable jump tail hjump _ =>
    refine ⟨jump, List.mem_cons_self .., ?_⟩
    cases hn : s.tree.node jump <;> rw [hn] at hjump <;> first
      | exact List.mem_of_elem_eq_true rfl
      | cases hjump
  | merge hrun hlen =>
    cases hrun with
    | nil => exact absurd hlen (by simp)
    | cons hst _ =>
      refine ⟨_, List.mem_cons_self .., ?_⟩
      obtain ⟨_, hn⟩ := expression?_eq hst
      rw [hn]
      exact List.mem_of_elem_eq_true rfl
  | constant hn _ _ =>
    refine ⟨_, List.mem_singleton_self _, ?_⟩
    rw [hn]
    exact List.mem_of_elem_eq_true rfl
  | empty hempty =>
    refine ⟨_, List.mem_singleton_self _, ?_⟩
    revert hempty
    generalize s.tree.node _ = n
    cases n <;> first
      | exact fun _ => List.mem_of_elem_eq_true rfl
      | exact fun h => nomatch h

theorem Edit.tidied (hrule : rule ∈ Rule.onStatements) (he : s.Edit observed rule p x n) :
    (s.tree.node x).kind ∈ Semantics.tidied ∨
      ∃ c, s.tree.Child c x ∧ (s.tree.node c).kind ∈ Semantics.tidied := by
  cases he with
  | fill hleads _ _ hab => exact .inr ⟨_, hleads.child, hab.tidied hrule⟩
  | splice _ _ hsplice hnew =>
    obtain ⟨c, hc, hk⟩ := hnew.tidied hrule
    exact .inr ⟨c, hsplice.children.1 c hc, hk⟩
  | rewrite _ _ hr =>
    refine .inl ?_
    generalize s.tree.node x = old at hr ⊢
    cases hr <;> first
      | exact List.mem_of_elem_eq_true rfl
      | exact absurd hrule (by decide)

theorem Splice.block_kept (h : s.Sound) (hrule : rule ∈ Rule.onStatements)
    {l old r new : List NodeId} (hs : s.Splice observed owner rule (old.map some) new) :
    (sem.nodeMeaning x ((Node.blockStatement (l ++ old ++ r)).map (s.meaning sem))).Kept
      (sem.nodeMeaning x ((Node.blockStatement (l ++ new ++ r)).map (s.meaning sem))) := by
  refine .ofStatement fun c hc => ?_
  change (List.mapM Meaning.statement? (List.map _ _) >>= fun cs => some (Comp.run cs)) = some c
    at hc ⊢
  obtain ⟨_, hall, hc⟩ := Option.bind_eq_some_iff.mp hc
  rw [List.map_append, List.map_append] at hall ⊢
  obtain ⟨_, rs, hleft, hr, rfl⟩ := mapM_append_eq_some.mp hall
  obtain ⟨ls, os, hl, hold, rfl⟩ := mapM_append_eq_some.mp hleft
  obtain ⟨ns, hnew, hrun⟩ := hs.run_eq h hrule (List.forall₂_map_left_iff.mp (forall₂_of_mapM hold))
  have hnew := mapM_of_forall₂ (f := Meaning.statement?) (List.forall₂_map_left_iff.mpr hnew)
  have hleft := mapM_append_eq_some.mpr ⟨ls, ns, hl, hnew, rfl⟩
  have hall := mapM_append_eq_some.mpr ⟨_, rs, hleft, hr, rfl⟩
  rw [hall, ← hc, Option.bind_eq_bind, Option.bind_some, Comp.run_append, Comp.run_append, hrun,
    Comp.run_append, Comp.run_append]

theorem Splice.node_kept (h : s.Sound) (hrule : rule ∈ Rule.onStatements)
    {old : List (Option NodeId)} {new : List NodeId} (hsplice : p.Splices s.tree x old new n)
    (hs : s.Splice observed x rule old new) :
    (sem.nodeMeaning x ((s.tree.node x).map (s.meaning sem))).Kept
      (sem.nodeMeaning x (n.map (s.meaning sem))) := by
  obtain ⟨c, hc, hk⟩ := hs.tidied hrule
  have hchild := hsplice.children.1 c hc
  cases hsplice with
  | @intro _ f _ slot l _ r _ _ _ hslot hi =>
    rcases Node.list_cases hslot hi with
      ⟨body, hn, rfl, rfl⟩ | ⟨callee, arguments, hn, rfl⟩ | hkind | hkind
    · obtain ⟨lo, r, hbody, hlo, rfl⟩ := List.map_eq_append_iff.mp (Option.some.inj hi)
      obtain ⟨l, old, rfl, rfl, rfl⟩ := List.map_eq_append_iff.mp hlo
      subst hbody
      rw [hn]
      have hitems : (l.map some ++ new.map some ++ r.map some).filterMap id = l ++ new ++ r := by
        simp
      change Meaning.Kept _ (sem.nodeMeaning x ((Node.blockStatement (List.filterMap id _)).map _))
      rw [hitems]
      exact hs.block_kept h hrule
    · rw [hn]
      cases slot <;> exact .refl _
    · rw [Semantics.nodeMeaning_of_child]
      · exact .unknown _
      · rw [Node.kind_map]
        exact List.mem_cons_of_mem _ (List.mem_cons_of_mem _ (List.mem_cons_of_mem _ hkind))
      · rw [Node.children_map]
        exact List.mem_map_of_mem hchild
      · exact h.meaning_of_tidied hk
    · rw [Semantics.nodeMeaning_unknown (by rwa [Node.kind_map])]
      exact .unknown _

theorem Edit.node_kept (h : s.Sound) (hrule : rule ∈ Rule.onStatements)
    (he : s.Edit observed rule p x n) :
    (sem.nodeMeaning x ((s.tree.node x).map (s.meaning sem))).Kept
      (sem.nodeMeaning x (n.map (s.meaning sem))) := by
  cases he with
  | fill _ _ hfill hab => exact kept_of_pairs hfill.pairs (hab.kept h hrule)
  | splice _ _ hsplice hnew => exact hnew.node_kept h hrule hsplice
  | rewrite _ _ hr =>
    rw [hr.meaning h hrule]
    exact .refl _

namespace Sound

theorem isSome_of_items {f : NodeId → Option Value} {elements : List (Option NodeId)}
    {items : List (Option Value)}
    (h : List.Forall₂ (fun e item => e.mapM f = some item) elements items)
    (ha : some a ∈ elements) : (f a).isSome := by
  have hall := isSome_mapM_list (fun e : Option NodeId => e.mapM f) elements
  rw [mapM_of_forall₂ h, Option.isSome_some] at hall
  have := List.all_eq_true.mp hall.symm _ ha
  rwa [isSome_mapM_option] at this

theorem isSome_negation (h : s.Sound) (hn : s.tree.node x = .unaryExpression .minus a) {y : Float}
    (ha : s.tree.node a = .literal (.number y)) : (s.value? x).isSome := by
  rw [h.value?_eq, valueStep]
  cases s.pool.values[x]? with
  | some v => rfl
  | none =>
    simp only [hn, ha]
    rfl

theorem isSome_array (h : s.Sound) {elements : List (Option NodeId)}
    (hn : s.tree.node x = .arrayExpression elements)
    (hall : ∀ c, some c ∈ elements → (s.value? c).isSome) : (s.value? x).isSome := by
  rw [h.value?_eq, valueStep]
  cases s.pool.values[x]? with
  | some v => rfl
  | none =>
    simp only [hn, Option.map_eq_map, Option.isSome_map, isSome_mapM_list, isSome_mapM_option,
      List.all_eq_true]
    intro e he
    cases e with
    | none => rfl
    | some c => exact hall c he

theorem value?_child (h : s.Sound) (hf : ¬ s.tree.isFrozen x) {v : Value} (hv : s.value? x = some v)
    (hc : s.tree.Child a x) : (s.value? a).isSome := by
  unfold Tree.Child Node.children at hc
  rcases h.value?_cases hv with
    hp | ⟨-, ⟨l, hn, -⟩ | ⟨b, y, hn, hb, -⟩ | ⟨elements, items, hn, -, hitems⟩⟩
  · exact absurd (h.spells hp).isFrozen hf
  all_goals
    rw [hn] at hc
    simp only [Node.slots, Slot.children, List.flatMap_cons, List.flatMap_nil, List.append_nil,
      List.mem_cons, List.not_mem_nil, or_false, List.mem_filterMap, id, exists_eq_right] at hc
  · subst hc
    rw [h.value?_literal hb]
    rfl
  · exact isSome_of_items hitems hc

theorem value?_within (h : s.Sound) (hf : ¬ s.tree.isFrozen x) (hw : s.tree.Within x a)
    (hv : (s.value? a).isSome) : (s.value? x).isSome := by
  induction hw with
  | refl => exact hv
  | @tail b a hw hc ih =>
    obtain ⟨v, hv⟩ := Option.isSome_iff_exists.mp hv
    exact ih (h.value?_child (fun ha => hf (h.isFrozen_within ha (hw.tail hc))) hv hc)

end Sound

/-- No rule on statements makes a change within a constant. -/
theorem Edit.not_within_constant (h : s.Sound) (hrule : rule ∈ Rule.onStatements)
    (he : s.Edit observed rule p x n) {v : Value} (hv : s.value? a = some v) :
    ¬ s.tree.Within x a := by
  intro hw
  have hf := (he.admissible h).2.1
  obtain ⟨w, hx⟩ := Option.isSome_iff_exists.mp (h.value?_within hf hw (by rw [hv]; rfl))
  rcases he.tidied hrule with hk | ⟨c, hc, hk⟩
  · rw [h.value?_of_tidied hk] at hx
    cases hx
  · have hsome := h.value?_child hf hx hc
    rw [h.value?_of_tidied hk] at hsome
    cases hsome

theorem Edit.meaning_apart (h : s.Sound) (he : s.Edit observed rule p x n)
    (ha : ¬ s.tree.Within x a) : (s.put x n).meaning sem a = s.meaning sem a :=
  Tree.meaning_congr h.wellFormed (he.sound h).wellFormed (fun _ hy => he.node_apart h ha hy)
    fun _ hy => he.value?_apart h fun hx => ha (hx.trans hy)

theorem Edit.value?_of_value (h : s.Sound) (hrule : rule ∈ Rule.onStatements)
    (he : s.Edit observed rule p x n) {v : Value} (hv : s.value? a = some v) :
    (s.put x n).value? a = some v :=
  (he.value?_apart h (he.not_within_constant h hrule hv)).trans hv

theorem Edit.kind_ne_literal (hrule : rule ∈ Rule.onStatements) (he : s.Edit observed rule p x n) :
    (s.tree.node x).kind ≠ .literal := by
  intro hk
  rcases he.tidied hrule with hstatement | ⟨c, hc, -⟩
  · rw [hk] at hstatement
    exact absurd hstatement (by decide)
  · unfold Tree.Child at hc
    cases hn : s.tree.node x <;> rw [hn] at hk hc <;> cases hk
    cases hc

/-- What becomes constant meant nothing before. -/
theorem Edit.unknown_of_value (h : s.Sound) (hrule : rule ∈ Rule.onStatements)
    (he : s.Edit observed rule p x n) {v : Value} (hv : s.value? a = none)
    (hv' : (s.put x n).value? a = some v) : s.meaning sem a = {} := by
  have hs' := he.sound h
  obtain ⟨hsize, -, hkind, -, -⟩ := he.admissible h
  induction a using h.wellFormed.acyclic.induction generalizing v with
  | _ a ih =>
    rw [h.meaning_of_none hv]
    -- a node becomes constant by being rewritten, or because a child did
    by_cases hax : a = x
    · subst hax
      have hk := hs'.kind_of_value? hv'
      rw [he.node_self h, hkind] at hk
      rcases he.tidied hrule with hstatement | ⟨c, hc, hstatement⟩
      · exact absurd hk (Semantics.not_mem_of_tidied hstatement)
      · refine Semantics.nodeMeaning_of_child (c := s.meaning sem c) ?_ ?_
          (h.meaning_of_tidied hstatement)
        · rw [Node.kind_map]
          exact List.mem_append_left [Kind.sequenceExpression, .variableDeclaration] hk
        · rw [Node.children_map]
          exact List.mem_map_of_mem hc
    · have hnode := he.node_of_ne h hax
      have hnot : ¬ (s.value? a).isSome := by simp [hv]
      rcases hs'.value?_cases hv' with
        hp | ⟨-, ⟨l, hn, hl⟩ | ⟨b, y, hn, hb, -⟩ | ⟨elements, items, hn, -, hitems⟩⟩
      · exact absurd (by rw [h.value?_of_values hp]; rfl) hnot
      · exact absurd (by rw [h.value?_literal (hnode.symm.trans hn), hl]; rfl) hnot
      · have hbx : b ≠ x := by
          rintro rfl
          rw [he.node_self h] at hb
          exact he.kind_ne_literal hrule (hkind.symm.trans (congrArg Node.kind hb))
        have hb := (he.node_of_ne h hbx).symm.trans hb
        exact absurd (h.isSome_negation (hnode.symm.trans hn) hb) hnot
      · -- some element was no constant before, and so meant nothing
        have hn := hnode.symm.trans hn
        obtain ⟨c, hc, hnone⟩ : ∃ c, some c ∈ elements ∧ s.value? c = none := by
          by_contra hall
          refine hnot (h.isSome_array hn fun c hc => ?_)
          exact Option.isSome_iff_ne_none.mpr fun hnone => hall ⟨c, hc, hnone⟩
        obtain ⟨w, hw⟩ := Option.isSome_iff_exists.mp (Sound.isSome_of_items hitems hc)
        have hchild : s.tree.Child c a :=
          Tree.child_of_node hn (by simpa [Node.children, Node.slots, Slot.children] using hc)
        refine Semantics.nodeMeaning_of_child (c := s.meaning sem c) ?_ ?_ ?_
        · rw [Node.kind_map, hn]
          exact List.mem_of_elem_eq_true rfl
        · rw [Node.children_map]
          exact List.mem_map_of_mem hchild
        · rw [ih c hchild hnone hw]
          exact ⟨rfl, rfl⟩

theorem Edit.kept (h : s.Sound) (hrule : rule ∈ Rule.onStatements)
    (he : s.Edit observed rule p x n) (a : NodeId) :
    (s.meaning sem a).Kept ((s.put x n).meaning sem a) := by
  have hs' := he.sound h
  induction a using h.wellFormed.acyclic.induction with
  | _ a ih =>
    cases hv : s.value? a with
    | some v =>
      rw [h.meaning_of_value hv, hs'.meaning_of_value (he.value?_of_value h hrule hv)]
      exact .refl _
    | none =>
      cases hv' : (s.put x n).value? a with
      | some v =>
        rw [he.unknown_of_value h hrule hv hv']
        exact .unknown _
      | none =>
        rw [h.meaning_of_none hv, hs'.meaning_of_none hv']
        by_cases hax : a = x
        · subst hax
          have hchildren : ∀ c ∈ n.children, (s.put a n).meaning sem c = s.meaning sem c :=
            fun c hc => he.meaning_apart h ((he.admissible h).2.2.2.2 c hc).2
          rw [he.node_self h, Node.map_congr hchildren]
          exact he.node_kept h hrule
        · rw [he.node_of_ne h hax]
          exact Semantics.nodeMeaning_kept fun c hc => ih c hc

theorem Grows.meaning (h : s.Sound) (hs' : s'.Sound) (hg : s.Grows s') (ha : a < s.tree.size) :
    s'.meaning sem a = s.meaning sem a := by
  have hsize : ∀ {y}, s.tree.Within y a → y < s.tree.size := fun hy =>
    h.wellFormed.within_lt_size hy ha
  exact Tree.meaning_congr h.wellFormed hs'.wellFormed (fun y hy => hg.tree.node (hsize hy))
    fun y hy => h.value?_grows hs' hg (hsize hy)

/-- Through a firing of a rule on statements every node keeps what it stands for. -/
theorem Fires.kept (h : s.Sound) (hrule : rule ∈ Rule.onStatements) (hp : p.Live s.tree)
    (hleads : p.Leads s.tree owner b) (hfires : Fires observed rule p s s') :
    s.tree.size ≤ s'.tree.size ∧
      ∀ a < s.tree.size, (s.meaning sem a).Kept (s'.meaning sem a) := by
  refine Fires.lift (R := fun s s' => s.tree.size ≤ s'.tree.size ∧
    ∀ a < s.tree.size, (s.meaning sem a).Kept (s'.meaning sem a)) ?_ ?_ h hp hleads hfires
  · intro s s₁ s₂ h₁ h₂
    exact ⟨h₁.1.trans h₂.1, fun a ha => (h₁.2 a ha).trans (h₂.2 a (ha.trans_le h₁.1))⟩
  · intro s s₁ x n hs hs₁ hg _ he
    refine ⟨hg.tree.size.trans (s₁.tree.size_setNode x n).ge, fun a ha => ?_⟩
    rw [← hg.meaning hs hs₁ ha]
    exact he.kept hs₁ hrule a

end Store

namespace FoldState

/-- One of some rules fires inside the node at the end of a path, as `Firing` has it. -/
inductive FiringInside (rules : List Rule) (body : Path) (s : FoldState) : FoldState → Prop
  | intro {rule p q s'} : rule ∈ rules → body.Above p → p ≠ body → p.Live s.tree →
    p.node?.isSome → ¬ Rule.inFrozenNode s.tree p → rule.apply p s = .ok (some q) s' →
    FiringInside rules body s { s' with stats := s'.stats.record rule }

variable {rules : List Rule} {body : Path} {s s' : FoldState} {x : NodeId}

theorem FiringInside.kept (h : s.Sound) (hbody : body.Live s.tree) (hx : body.node? = some x)
    (hf : FiringInside Rule.onStatements body s s') :
    s'.Sound ∧ body.Live s'.tree ∧ (s.meaning sem x).Kept (s'.meaning sem x) := by
  obtain @⟨rule, p, q, s₁, hrule, habove, hne, hp, hnode, hfrozen, hrun⟩ := hf
  have hvalue : body.value.owner? = some x := by
    rw [Path.value_eq_node hx]
    rfl
  rcases open_of_live h hp hnode hfrozen with rfl | ⟨owner, id, hopen⟩
  · cases habove
    exact absurd rfl hne
  · obtain ⟨hs₁, hfires, -⟩ := (rule.apply_ensures hopen).of_ok hrun
    have hwithin : s.tree.Within owner x := by
      cases habove with
      | refl => exact absurd rfl hne
      | child habove => exact habove.within hp.1 hvalue hopen.leads.owner?
    obtain ⟨-, hkept⟩ := hfires.kept h hrule hp hopen.leads
    obtain ⟨hevolves, -⟩ := Store.Fires.evolves h hopen.leads hfires
    refine ⟨hs₁, hevolves.live hbody hvalue hwithin, hkept x ?_⟩
    exact h.wellFormed.within_lt_size (hbody.within_root hvalue) h.lt_size_of_root

end FoldState

variable {json : Json} {t : Tree}

/-- Whatever identifiers, calls and operators do, a body does the same before and after rules on
statements fire inside it. -/
theorem Tree.execution_ofJson (hj : json.Finite) (ht : ofJson json = .ok t) {rules : List Rule}
    {s s' : FoldState} (hs : FoldState.Folds rules { tree := t } s) {body : Path} {x : NodeId}
    (hbody : body.Live s.tree) (hx : body.node? = some x) {c : Comp σ Completion}
    (hc : (s.meaning sem x).statement? = some c)
    (hr : ReflTransGen (FoldState.FiringInside Rule.onStatements body) s s') :
    body.Live s'.tree ∧ (s'.meaning sem x).statement? = some c := by
  have h : s.Sound := hs.sound (s := { tree := t }) (fresh_ofJson hj ht).sound
  have hkept : s'.Sound ∧ body.Live s'.tree ∧ (s.meaning sem x).Kept (s'.meaning sem x) := by
    induction hr with
    | refl => exact ⟨h, hbody, .refl _⟩
    | tail _ hf ih =>
      obtain ⟨hs₁, hlive, hkept⟩ := ih
      obtain ⟨hs₂, hlive₂, hkept₂⟩ := hf.kept hs₁ hlive hx
      exact ⟨hs₂, hlive₂, hkept.trans hkept₂⟩
  exact ⟨hkept.2.1, hkept.2.2.statement c hc⟩

/-- The program `function f() { ; return a; }`. -/
def Json.programReturn : Json :=
  .obj [("type", .str "Program"), ("body", .arr [.obj [("type", .str "FunctionDeclaration"),
    ("id", .obj [("type", .str "Identifier"), ("name", .str "f")]), ("params", .arr []),
    ("body", .obj [("type", .str "BlockStatement"), ("body", .arr [
      .obj [("type", .str "EmptyStatement")],
      .obj [("type", .str "ReturnStatement"),
        ("argument", .obj [("type", .str "Identifier"), ("name", .str "a")])]])]),
    ("generator", .bool false), ("async", .bool false)]])]

/-- A semantics over a counter of what is looked up. -/
def Semantics.counting : Semantics Nat where
  identifier _ _ := do
    modify (· + 1)
    return .undefined
  call _ _ := return .undefined
  unary _ v := return v
  binary _ v _ := return v
  lookup v _ := return v
  assign _ _ := return ()

theorem Json.finite_programReturn : programReturn.Finite := by
  simp [programReturn, Json.Finite, Json.FiniteMembers, Json.FiniteItems]

theorem Tree.execution_ofJson_return : ∃ t, ∃ s : FoldState, ofJson .programReturn = .ok t ∧
    t.node 5 = .blockStatement [2, 4] ∧ s.tree.node 5 = .blockStatement [4] ∧
    ∃ c, (Store.meaning { tree := t } .counting 5).statement? = some c ∧
      (s.meaning .counting 5).statement? = some c := by
  let function := ((Path.ofNode 7).child (.field .body) (.list 7 .body)).child (.index 0) (.node 6)
  let body := function.child (.field .body) (.node 5)
  let slot := (body.child (.field .body) (.list 5 .body)).child (.index 0) (.node 2)
  obtain ⟨t, ht, hblock, hempty, hreturn, hname, hfrozen, hlive, s, q, hrun, hs⟩ :
      ∃ t, ofJson .programReturn = .ok t ∧ t.node 5 = .blockStatement [2, 4] ∧
        t.node 2 = .emptyStatement ∧ t.node 4 = .returnStatement (some 3) ∧
        t.node 3 = .identifier "a" ∧ Rule.inFrozenNode t slot = false ∧ slot.Live t ∧
        ∃ s : FoldState, ∃ q, Rule.emptyStatements.apply slot { tree := t } = .ok (some q) s ∧
          s.tree.node 5 = .blockStatement [4] :=
    ⟨_, rfl, rfl, rfl, rfl, rfl, rfl, ⟨⟨⟨⟨⟨rfl, rfl⟩, rfl⟩, rfl⟩, rfl⟩, rfl⟩, _, _, rfl, rfl⟩
  have h : Store.Sound { tree := t } := (fresh_ofJson Json.finite_programReturn ht).sound
  have hc : (Store.meaning { tree := t } .counting 5).statement? = some (.run
      [return .normal, Semantics.counting.identifier 3 "a" >>= fun v => return .returned v]) := by
    have h₂ : Store.meaning { tree := t } .counting 2 = _ :=
      h.meaning_of_node hempty (by simp [Node.kind])
    have h₃ : Store.meaning { tree := t } .counting 3 = _ :=
      h.meaning_of_node hname (by simp [Node.kind])
    have h₄ : Store.meaning { tree := t } .counting 4 = _ :=
      h.meaning_of_node hreturn (by simp [Node.kind])
    rw [h.meaning_of_node hblock (by simp [Node.kind])]
    change Option.bind (List.mapM Meaning.statement?
      [Store.meaning { tree := t } .counting 2, Store.meaning { tree := t } .counting 4]) _ = _
    rw [h₂, h₄]
    change Option.bind (List.mapM Meaning.statement? [Meaning.statement (some (return .normal)),
      Meaning.statement (Option.bind (Store.meaning { tree := t } .counting 3).value? _)]) _ = _
    rw [h₃]
    rfl
  have hf : FoldState.FiringInside Rule.onStatements body { tree := t } _ :=
    .intro (List.mem_of_elem_eq_true rfl) (.child (.child .refl)) (fun h => by cases h) hlive rfl
      (by rw [hfrozen]; exact Bool.false_ne_true) hrun
  have hstart : FoldState.Folds [] { tree := t } { tree := t } := .refl
  have hafter := execution_ofJson Json.finite_programReturn ht hstart hlive.1.1 rfl hc (.single hf)
  exact ⟨t, _, ht, hblock, hs, _, hc, hafter.2⟩

end ScriptFold

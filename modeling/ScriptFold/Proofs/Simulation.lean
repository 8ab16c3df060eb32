import ScriptFold.Proofs.Semantics

/-!
What each rule on statements puts in the place of statements does what they did. A swap keeps the
meaning of a node, a splice that of a stretch of a list, and a rewritten node means what it meant.
-/

namespace ScriptFold

variable {σ : Type} {sem : Semantics σ}

def Rule.onStatements : List Rule :=
  [.unreachableTail, .expressionStatements, .emptyStatements, .ifStatement, .loops]

namespace Meaning

theorem kept_of_statement {c? : Option (Comp σ Completion)} {m : Meaning σ}
    (h : ScriptFold.Kept c? m.statement?) : (Meaning.statement c?).Kept m :=
  ⟨.none _, .none _, .none _, .none _, h⟩

end Meaning

theorem Node.isJump_map {α β : Type} (g : α → β) (n : Node α) : (n.map g).isJump = n.isJump := by
  cases n <;> rfl

namespace Semantics

variable {x : NodeId} {n : Node (Meaning σ)}

/-- Kinds of statements that a rule on statements rewrites, moves or takes away. -/
def tidied : List Kind :=
  [.expressionStatement, .emptyStatement, .blockStatement, .ifStatement, .whileStatement,
    .doWhileStatement, .forStatement, .returnStatement, .breakStatement, .continueStatement,
    .throwStatement]

theorem jumps_nodeMeaning (hj : n.isJump) {c : Comp σ Completion}
    (hc : (sem.nodeMeaning x n).statement? = some c) : c.Jumps := by
  cases n <;> try cases hj
  case returnStatement argument =>
    obtain ⟨e, -, hc⟩ := Option.bind_eq_some_iff.mp hc
    cases hc
    exact Comp.jumps_bind e Comp.jumps_returned
  case throwStatement argument =>
    obtain ⟨e, -, hc⟩ := Option.bind_eq_some_iff.mp hc
    cases hc
    exact Comp.jumps_bind e Comp.jumps_throw
  case breakStatement label =>
    cases label <;> cases hc
    exact Comp.jumps_broken
  case continueStatement label =>
    cases label <;> cases hc
    exact Comp.jumps_continued

theorem not_mem_of_tidied {k : Kind} (h : k ∈ tidied) :
    k ∉ [Kind.literal, .unaryExpression, .binaryExpression, .arrayExpression] := by
  revert k
  decide

theorem nodeMeaning_tidied (h : n.kind ∈ tidied) :
    (sem.nodeMeaning x n).value? = none ∧ (sem.nodeMeaning x n).declarator? = none := by
  cases n <;> simp only [Node.kind, tidied, List.mem_cons, List.not_mem_nil, reduceCtorEq, or_false,
    false_or] at h
  case breakStatement label | continueStatement label => cases label <;> exact ⟨rfl, rfl⟩
  all_goals exact ⟨rfl, rfl⟩

theorem mapM_eq_none {α β : Type} {f : α → Option β} {xs : List α} {a : α} (ha : a ∈ xs)
    (h : f a = none) : xs.mapM f = none := by
  rw [← Option.not_isSome_iff_eq_none, isSome_mapM_list, List.all_eq_true]
  intro hall
  have := hall a ha
  rw [h] at this
  cases this

/-- What is made of expressions and declarators only means nothing where one of its children is
neither. -/
theorem nodeMeaning_of_child {c : Meaning σ}
    (hk : n.kind ∈ [Kind.literal, .unaryExpression, .binaryExpression, .arrayExpression,
      .sequenceExpression, .variableDeclaration])
    (hc : c ∈ n.children) (hv : c.value? = none ∧ c.declarator? = none) :
    sem.nodeMeaning x n = {} := by
  unfold Node.children at hc
  cases n <;> simp only [Node.kind, List.mem_cons, List.not_mem_nil, reduceCtorEq, or_false,
    false_or] at hk <;>
    simp only [Node.slots, Slot.children, List.flatMap_cons, List.flatMap_nil, List.append_nil,
      List.singleton_append, List.mem_cons, List.not_mem_nil, or_false, List.mem_filterMap, id,
      exists_eq_right] at hc
  case unaryExpression op argument =>
    subst hc
    simp [nodeMeaning, hv.1, Meaning.expression]
  case binaryExpression op left right =>
    rcases hc with rfl | rfl <;> simp [nodeMeaning, hv.1, Meaning.expression]
  case arrayExpression elements =>
    have hnone : elements.mapM (fun e => e.elim (some (return none)) fun c : Meaning σ =>
        c.value?.map (some <$> ·)) = none := mapM_eq_none hc (by simp [hv.1])
    simp [nodeMeaning, hnone, Meaning.expression]
  case sequenceExpression expressions =>
    simp [nodeMeaning, mapM_eq_none hc hv.1, Meaning.expression]
  case variableDeclaration declarations kind =>
    cases kind with
    | var => simp [nodeMeaning, mapM_eq_none hc hv.2, Meaning.declaration]
    | _ => rfl

theorem nodeMeaning_head? (hk : n.kind ≠ .variableDeclaration) :
    (sem.nodeMeaning x n).head? = (sem.nodeMeaning x n).value?.map Comp.discard := by
  cases n
  case variableDeclaration => exact absurd rfl hk
  case breakStatement label | continueStatement label => cases label <;> rfl
  case memberExpression computed => cases computed <;> rfl
  all_goals rfl

/-- Of an `if` counts what its parts stand for, and none for an `else` is as good as one that does
nothing. -/
theorem nodeMeaning_if_congr {t c c' : Meaning σ} {a a' : Option (Meaning σ)}
    (hc : c'.statement? = c.statement?)
    (ha : a'.elim (some (return .normal)) Meaning.statement? =
      a.elim (some (return .normal)) Meaning.statement?) :
    sem.nodeMeaning x (.ifStatement t c' a') = sem.nodeMeaning x (.ifStatement t c a) := by
  simp only [nodeMeaning, hc, ha]

theorem nodeMeaning_while_congr {t b b' : Meaning σ} (hb : b'.statement? = b.statement?) :
    sem.nodeMeaning x (.whileStatement t b') = sem.nodeMeaning x (.whileStatement t b) := by
  simp only [nodeMeaning, hb]

theorem nodeMeaning_doWhile_congr {t b b' : Meaning σ} (hb : b'.statement? = b.statement?) :
    sem.nodeMeaning x (.doWhileStatement b' t) = sem.nodeMeaning x (.doWhileStatement b t) := by
  simp only [nodeMeaning, hb]

theorem nodeMeaning_for_congr {i i' t t' u u' : Option (Meaning σ)} {b b' : Meaning σ}
    (hi : i'.elim (some (return ())) Meaning.head? = i.elim (some (return ())) Meaning.head?)
    (ht : t'.elim (some (return true)) (fun e => e.value?.map (Value.toBoolean <$> ·)) =
      t.elim (some (return true)) (fun e => e.value?.map (Value.toBoolean <$> ·)))
    (hu : u'.elim (some (return ())) (fun e => e.value?.map Comp.discard) =
      u.elim (some (return ())) (fun e => e.value?.map Comp.discard))
    (hb : b'.statement? = b.statement?) :
    sem.nodeMeaning x (.forStatement i' t' u' b') = sem.nodeMeaning x (.forStatement i t u b) := by
  simp only [nodeMeaning, hi, ht, hu, hb]

end Semantics

namespace Store

noncomputable def meaning (s : Store) (sem : Semantics σ) : NodeId → Meaning σ :=
  s.tree.meaning sem s.value?

variable {s s' : Store} {observed : Bool} {rule : Rule} {a b x : NodeId} {n n' : Node NodeId}

namespace Sound

theorem value?_of_tidied (h : s.Sound) (hk : (s.tree.node x).kind ∈ Semantics.tidied) :
    s.value? x = none := by
  refine Option.eq_none_iff_forall_ne_some.mpr fun v hv => ?_
  exact Semantics.not_mem_of_tidied hk (h.kind_of_value? hv)

theorem meaning_of_value (h : s.Sound) {v : Value} (hv : s.value? x = some v) :
    s.meaning sem x = .expression (some (pure v)) := by
  rw [meaning, Tree.meaning_eq h.wellFormed, Semantics.step, hv]

/-- What a constant test makes a loop do. -/
theorem test_of_value (h : s.Sound) {v : Value} (hv : s.value? x = some v) :
    (s.meaning sem x).value?.map (Value.toBoolean <$> ·) = some (pure v.toBoolean) := by
  rw [h.meaning_of_value hv]
  exact congrArg some (map_pure _ _)

theorem meaning_of_none (h : s.Sound) (hv : s.value? x = none) :
    s.meaning sem x = sem.nodeMeaning x ((s.tree.node x).map (s.meaning sem)) := by
  rw [meaning, Tree.meaning_eq h.wellFormed, Semantics.step, hv]

theorem meaning_of_node (h : s.Sound) (hn : s.tree.node x = n)
    (hk : n.kind ∉ [Kind.literal, .unaryExpression, .binaryExpression, .arrayExpression]) :
    s.meaning sem x = sem.nodeMeaning x (n.map (s.meaning sem)) := by
  subst hn
  refine h.meaning_of_none (Option.eq_none_iff_forall_ne_some.mpr fun v hv => ?_)
  exact hk (h.kind_of_value? hv)

theorem meaning_of_tidied (h : s.Sound) (hk : (s.tree.node x).kind ∈ Semantics.tidied) :
    (s.meaning sem x).value? = none ∧ (s.meaning sem x).declarator? = none := by
  rw [h.meaning_of_none (h.value?_of_tidied hk)]
  exact Semantics.nodeMeaning_tidied (by rwa [Node.kind_map])

theorem meaning_empty (h : s.Sound) (hn : (s.tree.node x).isEmptyStatement) :
    s.meaning sem x = .statement (some (return .normal)) := by
  cases hx : s.tree.node x <;> rw [hx] at hn <;> try cases hn
  case emptyStatement =>
    rw [h.meaning_of_node hx (by simp [Node.kind])]
    rfl
  case blockStatement body =>
    obtain rfl := List.isEmpty_iff.mp hn
    rw [h.meaning_of_node hx (by simp [Node.kind])]
    rfl

theorem meaning_pool_empty (h : s.Sound) (hx : s.pool.emptyStatement = some x) :
    s.meaning sem x = .statement (some (return .normal)) :=
  h.meaning_empty (by rw [(h.emptyStatement hx).2]; rfl)

end Sound

theorem Rewrite.meaning (h : s.Sound) (hrule : rule ∈ Rule.onStatements)
    (hr : s.Rewrite rule n n') :
    sem.nodeMeaning x (n'.map (s.meaning sem)) = sem.nodeMeaning x (n.map (s.meaning sem)) := by
  have empty : ∀ {a b}, (s.tree.node a).isEmptyStatement → s.pool.emptyStatement = some b →
      (s.meaning sem b).statement? = (s.meaning sem a).statement? := fun ha hb => by
    rw [h.meaning_empty ha, h.meaning_pool_empty hb]
  cases hr <;> try exact absurd hrule (by decide)
  case consequent hold _ hnew => exact Semantics.nodeMeaning_if_congr (empty hold hnew) rfl
  case alternate hold =>
    refine Semantics.nodeMeaning_if_congr rfl ?_
    change _ = (s.meaning sem _).statement?
    rw [h.meaning_empty hold]
    rfl
  case whileBody hold _ hnew => exact Semantics.nodeMeaning_while_congr (empty hold hnew)
  case doWhileBody hold _ hnew => exact Semantics.nodeMeaning_doWhile_congr (empty hold hnew)
  case forBody hold _ hnew => exact Semantics.nodeMeaning_for_congr rfl rfl rfl (empty hold hnew)
  case forInit hv =>
    refine Semantics.nodeMeaning_for_congr ?_ rfl rfl rfl
    change _ = (s.meaning sem _).head?
    rw [h.meaning_of_value hv]
    exact congrArg some (Comp.discard_pure _).symm
  case forUpdate hv =>
    refine Semantics.nodeMeaning_for_congr rfl rfl ?_ rfl
    change _ = (s.meaning sem _).value?.map _
    rw [h.meaning_of_value hv]
    exact congrArg some (Comp.discard_pure _).symm
  case forAlways hv hb =>
    refine Semantics.nodeMeaning_for_congr rfl ?_ rfl rfl
    exact ((h.test_of_value hv).trans (by rw [hb]; rfl)).symm
  case forNever hv hb _ hnew =>
    refine Semantics.nodeMeaning_for_congr rfl ?_ rfl rfl
    refine (h.test_of_value (h.value?_of_values hnew)).trans ((h.test_of_value hv).trans ?_).symm
    rw [Bool.eq_false_of_not_eq_true hb, Value.toBoolean]

namespace Sound

theorem meaning_expressionStatement (h : s.Sound) {e : NodeId} {directive : Option String}
    (hn : s.tree.node x = .expressionStatement e directive) :
    s.meaning sem x = .statement ((s.meaning sem e).value?.map Comp.effect) := by
  rw [h.meaning_of_node hn (by simp [Node.kind])]
  rfl

theorem statement?_of_expression? (h : s.Sound) {e : NodeId}
    (he : (s.tree.node x).expression? = some e) :
    (s.meaning sem x).statement? = (s.meaning sem e).value?.map Comp.effect := by
  obtain ⟨directive, hn⟩ := expression?_eq he
  rw [h.meaning_expressionStatement hn, Meaning.statement?_statement]

theorem meaning_conditional (h : s.Sound) {test consequent alternate : NodeId}
    (hn : s.tree.node x = .conditionalExpression test consequent alternate) :
    s.meaning sem x = .expression do
      let t ← (s.meaning sem test).value?
      let c ← (s.meaning sem consequent).value?
      let a ← (s.meaning sem alternate).value?
      return .choose t c a := by
  rw [h.meaning_of_node hn (by simp [Node.kind])]
  rfl

theorem meaning_and (h : s.Sound) {left right : NodeId}
    (hn : s.tree.node x = .logicalExpression .and left right) :
    s.meaning sem x = .expression do
      let l ← (s.meaning sem left).value?
      let r ← (s.meaning sem right).value?
      return l >>= fun v => if !v.toBoolean then return v else r := by
  rw [h.meaning_of_node hn (by simp [Node.kind])]
  rfl

theorem meaning_if (h : s.Sound) {test consequent : NodeId} {alternate : Option NodeId}
    (hn : s.tree.node x = .ifStatement test consequent alternate) :
    s.meaning sem x = .statement do
      let t ← (s.meaning sem test).value?
      let c ← (s.meaning sem consequent).statement?
      let a ← (alternate.map (s.meaning sem)).elim (some (return .normal)) Meaning.statement?
      return .choose t c a := by
  rw [h.meaning_of_node hn (by simp [Node.kind])]
  rfl

theorem meaning_while (h : s.Sound) {test body : NodeId}
    (hn : s.tree.node x = .whileStatement test body) :
    s.meaning sem x = .statement do
      let t ← (s.meaning sem test).value?
      let b ← (s.meaning sem body).statement?
      return .loop (Value.toBoolean <$> t) b (return ()) := by
  rw [h.meaning_of_node hn (by simp [Node.kind])]
  rfl

theorem meaning_for (h : s.Sound) {init test update : Option NodeId} {body : NodeId}
    (hn : s.tree.node x = .forStatement init test update body) :
    s.meaning sem x = .statement do
      let i ← (init.map (s.meaning sem)).elim (some (return ())) Meaning.head?
      let t ← (test.map (s.meaning sem)).elim (some (return true)) fun e =>
        e.value?.map (Value.toBoolean <$> ·)
      let u ← (update.map (s.meaning sem)).elim (some (return ())) fun e => e.value?.map Comp.discard
      let b ← (s.meaning sem body).statement?
      return i >>= fun _ => .loop t b u := by
  rw [h.meaning_of_node hn (by simp [Node.kind])]
  rfl

theorem head?_of_node (h : s.Sound)
    (hn : ∀ declarations kind, s.tree.node x ≠ .variableDeclaration declarations kind) :
    (s.meaning sem x).head? = (s.meaning sem x).value?.map Comp.discard := by
  cases hv : s.value? x with
  | some v =>
    rw [h.meaning_of_value hv]
    rfl
  | none =>
    rw [h.meaning_of_none hv]
    refine Semantics.nodeMeaning_head? ?_
    rw [Node.kind_map]
    intro hk
    cases hx : s.tree.node x <;> rw [hx] at hk <;> cases hk
    exact hn _ _ hx

/-- A loop that never runs does what comes before it. -/
theorem kept_for_never (h : s.Sound) {init update : Option NodeId} {test body : NodeId} {v : Value}
    (hn : s.tree.node x = .forStatement init (some test) update body)
    (hv : s.value? test = some v) (hb : ¬ v.toBoolean) :
    (s.meaning sem x).Kept (.statement
      (((init.map (s.meaning sem)).elim (some (return ())) Meaning.head?).map fun i => do
        i
        return .normal)) := by
  rw [h.meaning_for hn]
  refine .ofStatement fun c hc => ?_
  obtain ⟨i, hi, hc⟩ := Option.bind_eq_some_iff.mp hc
  obtain ⟨t, ht, hc⟩ := Option.bind_eq_some_iff.mp hc
  obtain ⟨u, -, hc⟩ := Option.bind_eq_some_iff.mp hc
  obtain ⟨b, -, hc⟩ := Option.bind_eq_some_iff.mp hc
  obtain rfl : pure v.toBoolean = t := Option.some.inj ((h.test_of_value hv).symm.trans ht)
  rw [hi, ← hc, Bool.eq_false_of_not_eq_true hb]
  simp only [Comp.loop_never, Option.map_some]
  rfl

end Sound

/-- What is put in the place of a statement does what the statement did. -/
theorem Swap.kept (h : s.Sound) (hrule : rule ∈ Rule.onStatements)
    (hab : s.Swap observed rule a b) : (s.meaning sem a).Kept (s.meaning sem b) := by
  have map_test : ∀ v : Value, Value.toBoolean <$> (pure v : Comp σ Value) = pure v.toBoolean :=
    fun v => map_pure _ _
  have never : ∀ {v : Value}, ¬ v.toBoolean → ∀ (body : Comp σ Completion) (update : Comp σ Unit),
      Comp.loop (pure v.toBoolean) body update = return .normal := fun hb body update => by
    rw [Bool.eq_false_of_not_eq_true hb]
    exact Comp.loop_never body update
  cases hab with
  | constantStatement hn hv _ hb =>
    rw [h.meaning_expressionStatement hn, h.meaning_of_value hv, h.meaning_pool_empty hb]
    simp only [Meaning.value?_expression, Option.map_some, Comp.effect_pure]
    exact .refl _
  | ifTest hn hempty _ hb _ =>
    rw [h.meaning_if hn, h.meaning_expressionStatement hb, h.meaning_empty hempty]
    refine .ofStatement fun c hc => ?_
    obtain ⟨t, ht, hc⟩ := Option.bind_eq_some_iff.mp hc
    rw [ht, ← hc]
    exact congrArg some (Comp.choose_same t _).symm
  | ifExpression hn hexpr he hb _ _ =>
    rw [h.meaning_if hn, h.meaning_expressionStatement hb]
    refine .ofStatement fun c hc => ?_
    obtain ⟨t, ht, hc⟩ := Option.bind_eq_some_iff.mp hc
    rcases ifExpression?_cases hexpr with ⟨other, x, y, rfl, hx, hy, rfl⟩ | ⟨x, rfl, -, hx, rfl⟩ <;>
      rw [h.statement?_of_expression? hx] at hc
    · rw [Option.map_some, Option.elim, h.statement?_of_expression? hy] at hc
      obtain ⟨_, hk, hc⟩ := Option.bind_eq_some_iff.mp hc
      obtain ⟨yes, hyes, rfl⟩ := Option.map_eq_some_iff.mp hk
      obtain ⟨_, hk, hc⟩ := Option.bind_eq_some_iff.mp hc
      obtain ⟨no, hno, rfl⟩ := Option.map_eq_some_iff.mp hk
      rw [h.meaning_conditional he, ht, hyes, hno, ← hc]
      exact congrArg some (Comp.effect_choose t yes no)
    · obtain ⟨_, hk, hc⟩ := Option.bind_eq_some_iff.mp hc
      obtain ⟨yes, hyes, rfl⟩ := Option.map_eq_some_iff.mp hk
      rw [h.meaning_and he, ht, hyes, ← hc]
      exact congrArg some (Comp.effect_and t yes)
  | ifTrue hn hv hb =>
    rw [h.meaning_if hn, h.meaning_of_value hv]
    simp only [Meaning.value?_expression, Option.bind_eq_bind, Option.bind_some, Comp.choose_pure,
      hb]
    -- of the branch that is not taken it only counts that it means something
    refine Meaning.kept_of_statement fun c hc => ?_
    obtain ⟨k, hk, hc⟩ := Option.bind_eq_some_iff.mp hc
    obtain ⟨k', -, hc⟩ := Option.bind_eq_some_iff.mp hc
    exact hk.trans hc
  | ifFalse hn hv hb =>
    rw [h.meaning_if hn, h.meaning_of_value hv]
    simp only [Meaning.value?_expression, Option.bind_eq_bind, Option.bind_some, Comp.choose_pure,
      hb]
    refine Meaning.kept_of_statement fun c hc => ?_
    obtain ⟨k, -, hc⟩ := Option.bind_eq_some_iff.mp hc
    obtain ⟨k', hk, hc⟩ := Option.bind_eq_some_iff.mp hc
    exact hk.trans hc
  | ifNever hn hv hb he =>
    rw [h.meaning_if hn, h.meaning_of_value hv, h.meaning_pool_empty he]
    simp only [Meaning.value?_expression, Option.bind_eq_bind, Option.bind_some, Comp.choose_pure,
      hb, Option.map_none, Option.elim]
    refine .ofStatement fun c hc => ?_
    obtain ⟨k, -, hc⟩ := Option.bind_eq_some_iff.mp hc
    exact hc
  | whileNever hn hv hb he =>
    rw [h.meaning_while hn, h.meaning_of_value hv, h.meaning_pool_empty he]
    simp only [Meaning.value?_expression, Option.bind_eq_bind, Option.bind_some, map_test, never hb]
    refine .ofStatement fun c hc => ?_
    obtain ⟨k, -, hc⟩ := Option.bind_eq_some_iff.mp hc
    exact hc
  | forNever hn hv hb he =>
    refine (h.kept_for_never hn hv hb).trans (Meaning.kept_of_statement ?_)
    rw [h.meaning_pool_empty he]
    simp only [Option.map_none, Option.elim, Option.map_some, pure_bind]
    exact .refl _
  | forDeclaration hn hv hb hi =>
    refine (h.kept_for_never hn hv hb).trans (Meaning.kept_of_statement ?_)
    rw [Option.map_some, Option.elim, h.meaning_of_node hi (by simp [Node.kind])]
    exact .refl _
  | forExpression hn hv hb hi hb' _ =>
    refine (h.kept_for_never hn hv hb).trans (Meaning.kept_of_statement ?_)
    rw [h.meaning_expressionStatement hb', Option.map_some, Option.elim, h.head?_of_node hi]
    cases (s.meaning sem _).value? <;> exact .refl _
  | conditional | logical | binary | unary | lastItem | member | memberOfCharacter | minify =>
    exact absurd hrule (by decide)

theorem Sound.jumps (h : s.Sound) (hj : (s.tree.node x).isJump) {c : Comp σ Completion}
    (hc : (s.meaning sem x).statement? = some c) : c.Jumps := by
  have hkinds : Rule.unreachableTail.kinds ⊆ Semantics.tidied := by decide
  have hk := Semantics.not_mem_of_tidied (hkinds (Rule.kind_of_isJump hj))
  rw [h.meaning_of_node rfl hk] at hc
  exact Semantics.jumps_nodeMeaning (by rwa [Node.isJump_map]) hc

theorem Sound.run_sequenceItems (h : s.Sound) {e : Comp σ Value}
    (he : (s.meaning sem x).value? = some e) :
    ∃ es, List.Forall₂ (fun c e => (s.meaning sem c).value? = some e)
      (FoldM.sequenceItems s.tree x) es ∧ Comp.run (es.map Comp.effect) = e.effect := by
  unfold FoldM.sequenceItems
  split
  · rename_i expressions hn
    rw [h.meaning_of_node hn (by simp [Node.kind])] at he
    obtain ⟨es, hes, rfl⟩ := Option.map_eq_some_iff.mp he
    refine ⟨es, ?_, Comp.run_effect es⟩
    exact List.forall₂_map_left_iff.mp (forall₂_of_mapM hes)
  · exact ⟨[e], .cons he .nil, Comp.run_singleton _⟩

/-- What expression statements do is done by the items of their sequence. -/
theorem Sound.run_items (h : s.Sound) {statements expressions : List NodeId}
    (hrun : List.Forall₂ (fun st e => (s.tree.node st).expression? = some e) statements expressions)
    {cs : List (Comp σ Completion)}
    (hcs : List.Forall₂ (fun c y => (s.meaning sem c).statement? = some y) statements cs) :
    ∃ es, List.Forall₂ (fun c e => (s.meaning sem c).value? = some e)
      (expressions.flatMap (FoldM.sequenceItems s.tree)) es ∧
      Comp.run (es.map Comp.effect) = Comp.run cs := by
  induction hrun generalizing cs with
  | nil =>
    cases hcs
    exact ⟨[], .nil, rfl⟩
  | @cons st e statements expressions hst _ ih =>
    cases hcs with
    | cons hc hcs =>
      obtain ⟨es, hes, hrun⟩ := ih hcs
      rw [h.statement?_of_expression? hst] at hc
      obtain ⟨f, hf, rfl⟩ := Option.map_eq_some_iff.mp hc
      obtain ⟨fs, hfs, hrun'⟩ := h.run_sequenceItems hf
      refine ⟨fs ++ es, ?_, ?_⟩
      · rw [List.flatMap_cons]
        exact List.rel_append hfs hes
      · rw [List.map_append, Comp.run_append, hrun, hrun', Comp.run]

theorem forall₂_filter {α β : Type} {R : α → β → Prop} {xs : List α} {ys : List β} (p : α → Bool)
    (h : List.Forall₂ R xs ys) : ∃ zs, List.Forall₂ R (xs.filter p) zs := by
  induction h with
  | nil => exact ⟨[], .nil⟩
  | @cons x y _ _ hx _ ih =>
    obtain ⟨zs, hzs⟩ := ih
    rw [List.filter_cons]
    split
    · exact ⟨y :: zs, .cons hx hzs⟩
    · exact ⟨zs, hzs⟩

/-- What a stretch of a list is replaced by does what the stretch did. -/
theorem Splice.run_eq (h : s.Sound) (hrule : rule ∈ Rule.onStatements) {owner : NodeId}
    {old new : List NodeId} (hs : s.Splice observed owner rule (old.map some) new)
    {cs : List (Comp σ Completion)}
    (hcs : List.Forall₂ (fun c y => (s.meaning sem c).statement? = some y) old cs) :
    ∃ ds, List.Forall₂ (fun c y => (s.meaning sem c).statement? = some y) new ds ∧
      Comp.run ds = Comp.run cs := by
  have one : ∀ {a}, old.map some = [some a] →
      ∃ c, (s.meaning sem a).statement? = some c ∧ cs = [c] := by
    intro a ha
    obtain ⟨b, rfl, hb⟩ := List.map_eq_singleton_iff.mp ha
    cases hb
    cases hcs with
    | cons hc hnil =>
      cases hnil
      exact ⟨_, hc, rfl⟩
  generalize hold : old.map some = old' at hs
  cases hs with
  | swap hab =>
    obtain ⟨c, hc, rfl⟩ := one hold
    exact ⟨[c], .cons ((hab.kept h hrule).statement c hc) .nil, rfl⟩
  | @unreachable jump tail hjump _ =>
    cases hcs with
    | nil => cases hold
    | @cons _ c rest cs hc hcs =>
      obtain ⟨hfirst, rfl⟩ := List.cons_eq_cons.mp hold
      cases hfirst
      have hitems : (rest.map some).filterMap id = rest := by simp
      rw [hitems]
      -- nothing runs after the jump, whatever stays there
      have hjumps := h.jumps hjump hc
      obtain ⟨ks, hks⟩ := forall₂_filter (fun statement => (s.tree.node statement).isHoisted) hcs
      refine ⟨c :: ks, .cons hc hks, ?_⟩
      rw [Comp.run, Comp.run, hjumps, hjumps]
  | @merge statements expressions sequence statement hrun _ hsequence hstatement _ _ _ _ =>
    obtain rfl := List.map_injective_iff.mpr (Option.some_injective _) hold
    obtain ⟨es, hes, heq⟩ := h.run_items hrun hcs
    have hvalue : (s.meaning sem sequence).value? = some (.sequence es) := by
      rw [h.meaning_of_node hsequence (by simp [Node.kind])]
      have hitems := mapM_of_forall₂ (f := Meaning.value?) (List.forall₂_map_left_iff.mpr hes)
      exact congrArg (Option.map Comp.sequence) hitems
    refine ⟨[Comp.effect (.sequence es)], .cons ?_ .nil, ?_⟩
    · rw [h.meaning_expressionStatement hstatement, hvalue]
      rfl
    · rw [Comp.run_singleton, ← Comp.run_effect, heq]
  | constant hn hv _ =>
    obtain ⟨c, hc, rfl⟩ := one hold
    rw [h.meaning_expressionStatement hn, h.meaning_of_value hv] at hc
    cases hc
    exact ⟨[], .nil, by rw [Comp.run_singleton, Comp.effect_pure, Comp.run]⟩
  | empty hempty =>
    obtain ⟨c, hc, rfl⟩ := one hold
    rw [h.meaning_empty hempty] at hc
    cases hc
    exact ⟨[], .nil, by rw [Comp.run_singleton, Comp.run]⟩

end Store

end ScriptFold

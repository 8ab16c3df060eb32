import ScriptFold.Proofs.History
import ScriptFold.Proofs.Path
import ScriptFold.Proofs.Refusal

/-!
A rule that fails has edited nothing, whatever the state and the path that it is handed. Some rules edit the
fields of a node one after another: there only the first edit can be refused, since the next ones are to
fields of the same node, which then is known not to be frozen. Nor does a rule edit anything if it leaves
the tree alone.
-/

namespace ScriptFold

/-- A node is at hand whose fields may be assigned. -/
structure Tree.Editable (t : Tree) (kind : Kind) (id : NodeId) : Prop where
  lt_size : id < t.size
  writable : ¬ t.isFrozen id
  kind_eq : (t.node id).kind = kind

namespace Tree.Editable

variable {t t' : Tree} {kind : Kind} {id : NodeId}

theorem grows (h : t.Editable kind id) (hg : t.Grows t') : t'.Editable kind id where
  lt_size := h.lt_size.trans_le hg.size
  writable hf := h.writable ((hg.isFrozen h.lt_size).symm.trans hf)
  kind_eq := (congrArg Node.kind (hg.node h.lt_size)).trans h.kind_eq

theorem setSlot (h : t.Editable kind id) (f : Field) (slot : Slot NodeId) :
    (t.setSlot id f slot).Editable kind id where
  lt_size := (size_setNode t id _).symm ▸ h.lt_size
  writable hf := h.writable ((isFrozen_setNode t id _ id).symm.trans hf)
  kind_eq := by
    unfold Tree.setSlot
    rw [node_setNode h.lt_size, if_pos rfl, Node.kind_setSlot]
    exact h.kind_eq

end Tree.Editable

def Slot.takes (new : Option NodeId) : Slot NodeId → Bool
  | .required _ => new.isSome
  | .optional _ => true
  | .list _ | .holey _ => false

/-- All nodes of a kind have a field that may be assigned a node, or be cleared. -/
def Kind.Takes (kind : Kind) (f : Field) (new : Option NodeId) : Prop :=
  ∀ n : Node NodeId, n.kind = kind → ∃ slot, n.slot? f = some slot ∧ slot.takes new

theorem Node.takes_kind (m : Node NodeId) {f : Field} {slot : Slot NodeId} {new : Option NodeId}
    (hslot : m.slot? f = some slot) (htakes : slot.takes new) : m.kind.Takes f new := by
  intro n hn
  have hshape : (n.slots.map fun e => (e.1, e.2.takes new)) =
      m.slots.map fun e => (e.1, e.2.takes new) := by
    cases n <;> cases m <;> cases hn <;> rfl
  have hmem : (f, true) ∈ n.slots.map fun e => (e.1, e.2.takes new) := by
    rw [hshape]
    exact List.mem_map.mpr ⟨_, Node.mem_slots_of_slot? hslot, by rw [htakes]⟩
  obtain ⟨⟨_, slot'⟩, hslot', heq⟩ := List.mem_map.mp hmem
  obtain ⟨rfl, htakes'⟩ := Prod.mk.inj heq
  exact ⟨slot', Node.slot?_of_mem hslot', htakes'⟩

namespace Tree

variable {t t' : Tree} {id : NodeId} {f : Field} {new : Option NodeId} {changed : Bool}

theorem assign_cases {same : Prop} [Decidable same] {slot : Slot NodeId}
    (h : (if same then (false, t) else (true, t.setSlot id f slot)) = (changed, t')) :
    changed = false ∧ t' = t ∨ changed = true ∧ t' = t.setSlot id f slot := by
  split at h
  · cases h
    exact .inl ⟨rfl, rfl⟩
  · cases h
    exact .inr ⟨rfl, rfl⟩

theorem write_cases (h : t.write (.node id) (.field f) new = .ok (changed, t')) :
    ¬ t.isFrozen id ∧ (changed = false ∧ t' = t ∨
      changed = true ∧ ∃ slot, t' = t.setSlot id f slot) := by
  obtain ⟨hf, h⟩ := of_checkWritable h
  refine ⟨hf, ?_⟩
  unfold writeField at h
  split at h
  · cases h
  · cases h
  · exact (assign_cases (Except.ok.inj h)).imp_right fun h => ⟨h.1, _, h.2⟩
  · exact (assign_cases (Except.ok.inj h)).imp_right fun h => ⟨h.1, _, h.2⟩
  · cases h
  · cases h

theorem write_ok {kind : Kind} (h : t.Editable kind id) (htakes : kind.Takes f new) :
    ∃ r, t.write (.node id) (.field f) new = .ok r := by
  obtain ⟨slot, hslot, htakes⟩ := htakes _ h.kind_eq
  have hcheck : t.checkWritable id = .ok () := if_neg h.writable
  change ∃ r, (do t.checkWritable id; t.writeField id f new) = _
  rw [hcheck]
  change ∃ r, t.writeField id f new = _
  unfold writeField Tree.slot?
  rw [hslot]
  cases slot with
  | required old =>
    cases new with
    | none => cases htakes
    | some c => exact ⟨_, rfl⟩
  | optional old => exact ⟨_, rfl⟩
  | list | holey => cases htakes

end Tree

/-- A rule changes the fields of a node one after another. As long as it has changed none, all that was in
the first state is as it was; once it has, the node can be changed further. -/
structure Underway (s₀ : FoldState) (kind : Kind) (id : NodeId) (changed : Bool) (s : FoldState) :
    Prop where
  lt_size : id < s₀.tree.size
  kind_eq : (s₀.tree.node id).kind = kind
  intact : changed = false → s₀.Gains s
  editable : changed = true → s.tree.Editable kind id

namespace Underway

variable {s₀ s s' : FoldState} {kind : Kind} {id : NodeId} {changed : Bool}

theorem start (kind : Kind) {p : Path} {n : Node NodeId} (hn : s.tree.nodeAt? p = some n)
    (hkind : n.kind = kind) (hne : kind ≠ .emptyStatement) :
    ∃ id, p.value = .node id ∧ Underway s kind id false s := by
  obtain ⟨id, hid, rfl⟩ := Option.map_eq_some_iff.mp hn
  refine ⟨id, Path.value_eq_node hid, ?_, hkind, fun _ => .refl s, fun h => by cases h⟩
  by_contra hsize
  rw [Tree.node_of_size_le (Nat.le_of_not_lt hsize)] at hkind
  exact hne hkind.symm

theorem gains (h : Underway s₀ kind id changed s) (hg : s.Gains s') :
    Underway s₀ kind id changed s' :=
  ⟨h.lt_size, h.kind_eq, fun hc => (h.intact hc).trans hg, fun hc => (h.editable hc).grows hg.tree⟩

theorem pass (h : Underway s₀ kind id changed s) :
    Spares s₀ (return false) s fun c s' => Underway s₀ kind id (changed || c) s' := by
  refine .pure ?_
  rwa [Bool.or_false]

theorem answer (h : Underway s₀ kind id changed s) (p : Path) :
    Spares s₀ (return if changed then some p else none) s (FoldM.Declines s₀) := by
  refine .pure fun hnone => h.intact ?_
  cases changed with
  | false => rfl
  | true => cases hnone

theorem write (h : Underway s₀ kind id changed s) {f : Field} {new : Option NodeId}
    (htakes : kind.Takes f new) : Spares s₀ (FoldM.write (.node id) (.field f) new) s fun c s' =>
      Underway s₀ kind id (changed || c) s' := by
  have hok : ∀ c t, s.tree.write (.node id) (.field f) new = .ok (c, t) →
      Underway s₀ kind id (changed || c) { s with tree := t } := by
    intro c t hw
    obtain ⟨hf, ⟨rfl, rfl⟩ | ⟨rfl, slot, rfl⟩⟩ := Tree.write_cases hw
    · rwa [Bool.or_false]
    · have hs : s.tree.Editable kind id := by
        cases changed with
        | true => exact h.editable rfl
        | false =>
          have hgains := h.intact rfl
          refine ⟨h.lt_size.trans_le hgains.tree.size, hf, ?_⟩
          rw [hgains.tree.node h.lt_size, h.kind_eq]
      rw [Bool.or_true]
      exact ⟨h.lt_size, h.kind_eq, fun h => (by cases h), fun _ => hs.setSlot f slot⟩
  cases changed with
  | false => exact FoldM.edit_ends (h.intact rfl) hok
  | true =>
    obtain ⟨⟨c, t⟩, hw⟩ := Tree.write_ok (h.editable rfl) htakes
    have hrun : FoldM.write (.node id) (.field f) new s = .ok c { s with tree := t } := by
      unfold FoldM.write FoldM.edit
      dsimp only
      rw [hw]
    unfold Spares Ends
    rw [hrun]
    exact hok c t hw

theorem writeMade (h : Underway s₀ kind id changed s) {p : Path} (hp : p.value = .node id) {f : Field}
    (htakes : ∀ c, kind.Takes f (some c)) {m : FoldM NodeId}
    (hm : Spares s₀ m s fun _ s' => s.Gains s') :
    Spares s₀ (m >>= fun c => FoldM.write p.value (.field f) (some c)) s fun c s' =>
      Underway s₀ kind id (changed || c) s' := by
  refine hm.bind fun c s₁ hs₁ => ?_
  rw [hp]
  exact (h.gains hs₁).write (htakes c)

end Underway

namespace FoldM

open Node (takes_kind)

variable {s₀ s : FoldState} {p : Path} {kind : Kind} {id : NodeId} {changed : Bool}

theorem nullifyOperand_ends (h : Underway s₀ kind id changed s) (hp : p.value = .node id) {f : Field}
    (htakes : ∀ c, kind.Takes f (some c)) (operand : NodeId) :
    Spares s₀ (nullifyOperand p f operand) s fun c s' => Underway s₀ kind id (changed || c) s' := by
  unfold nullifyOperand
  refine .read rfl ?_
  split
  · exact h.writeMade hp htakes (store_ends fun s => Store.Gains.intern s _)
  · exact h.pass

theorem foldBinary_ends : Spares s (foldBinary p) s (Declines s) := by
  unfold foldBinary
  refine .read rfl ?_
  split
  · rename_i id hid
    split
    · rename_i operator left right hn
      dsimp only
      -- what is done where no operand has been changed
      generalize hrest : (constant? left >>= _) = rest
      have hevaluate : ∀ s₁, s.Gains s₁ → Spares s rest s₁ (Declines s) := by
        subst hrest
        intro s₁ hs₁
        refine (constant?_ends hs₁ _).bind fun leftValue s₂ hs₂ => ?_
        subst hs₂
        refine (constant?_ends hs₁ _).bind fun rightValue s₃ hs₃ => ?_
        subst hs₃
        split
        · split
          · split
            · exact none_ends hs₁
            · exact toConst_declines hs₁ _
          · exact none_ends hs₁
        · exact none_ends hs₁
      split
      · exact none_ends (.refl s)
      · split
        · have hat : s.tree.nodeAt? p = some (.binaryExpression operator left right) :=
            Option.map_eq_some_iff.mpr ⟨id, hid, hn⟩
          obtain ⟨a, hp, hstart⟩ := Underway.start .binaryExpression hat rfl (by decide)
          have htakes : ∀ {f}, f = .left ∨ f = .right → ∀ c, Kind.binaryExpression.Takes f (some c) := by
            rintro f (rfl | rfl) c <;> exact takes_kind (.binaryExpression operator left right) rfl rfl
          refine (nullifyOperand_ends hstart hp (htakes (.inl rfl)) left).bind fun _ s₁ hs₁ => ?_
          refine (nullifyOperand_ends hs₁ hp (htakes (.inr rfl)) right).bind fun _ s₂ hs₂ => ?_
          rw [Bool.false_or] at hs₂
          split
          · exact .pure (.some s s₂ p)
          · refine hevaluate s₂ (hs₂.intact ?_)
            rwa [Bool.not_eq_true] at *
        · exact hevaluate s (.refl s)
    · exact none_ends (.refl s)
  · exact none_ends (.refl s)

theorem normalizeConsequent_ends (h : Underway s₀ .ifStatement id changed s) (hp : p.value = .node id)
    (consequent : NodeId) : Spares s₀ (normalizeConsequent p consequent) s fun c s' =>
      Underway s₀ .ifStatement id (changed || c) s' := by
  unfold normalizeConsequent
  refine .read rfl ?_
  split
  · exact h.pass
  · exact h.writeMade hp (fun c => takes_kind (.ifStatement c c none) rfl rfl)
      (store_ends Store.Gains.emptyStatementNode)

theorem dropEmptyAlternate_ends (h : Underway s₀ .ifStatement id changed s) (hp : p.value = .node id)
    (alternate : Option NodeId) : Spares s₀ (dropEmptyAlternate p alternate) s fun c s' =>
      Underway s₀ .ifStatement id (changed || c) s' := by
  unfold dropEmptyAlternate
  refine .read rfl ?_
  split
  · rw [hp]
    exact h.write (takes_kind (.ifStatement id id none) rfl rfl)
  · exact h.pass

theorem foldIf_ends : Spares s (foldIf p) s (Declines s) := by
  unfold foldIf
  refine .read rfl ?_
  split
  · rename_i test consequent alternate hn
    dsimp only
    split
    · refine (alloc_ends _).bind fun statement s₁ hs₁ => ?_
      exact edit_declines hs₁ _
    · split
      · refine (alloc_ends _).bind fun expression s₁ hs₁ => ?_
        refine (alloc_ends _).bind fun statement s₂ hs₂ => ?_
        exact edit_declines (hs₁.trans hs₂) _
      · refine (constant?_ends (.refl s) _).bind fun value s₁ hs₁ => ?_
        subst hs₁
        split
        · split
          · exact edit_declines (.refl _) _
          · cases alternate with
            | none =>
              refine (store_ends Store.Gains.emptyStatementNode).bind fun branch s₂ hs₂ => ?_
              exact edit_declines hs₂ _
            | some branch => exact .read rfl (edit_declines (.refl _) _)
        · obtain ⟨id, hp, hstart⟩ := Underway.start .ifStatement hn rfl (by decide)
          refine (normalizeConsequent_ends hstart hp consequent).bind fun c s₂ hs₂ => ?_
          refine (dropEmptyAlternate_ends hs₂ hp alternate).bind fun c' s₃ hs₃ => ?_
          exact hs₃.answer p
  · exact none_ends (.refl s)

theorem normalizeBody_ends (h : Underway s₀ kind id changed s) (hp : p.value = .node id)
    (htakes : ∀ c, kind.Takes .body (some c)) (body : NodeId) :
    Spares s₀ (normalizeBody p body) s fun c s' => Underway s₀ kind id (changed || c) s' := by
  unfold normalizeBody
  refine .read rfl ?_
  split
  · exact h.pass
  · exact h.writeMade hp htakes (store_ends Store.Gains.emptyStatementNode)

theorem clearConstant_ends (h : Underway s₀ kind id changed s) (hp : p.value = .node id) {f : Field}
    (htakes : kind.Takes f none) (child : Option NodeId) :
    Spares s₀ (clearConstant p f child) s fun c s' => Underway s₀ kind id (changed || c) s' := by
  unfold clearConstant
  split
  · exact h.pass
  · refine .read rfl ?_
    split
    · rw [hp]
      exact h.write htakes
    · exact h.pass

theorem normalizeTest_ends (h : Underway s₀ kind id changed s) (hp : p.value = .node id)
    (htakes : ∀ new, kind.Takes .test new) (value : Option Value) :
    Spares s₀ (normalizeTest p value) s fun c s' => Underway s₀ kind id (changed || c) s' := by
  unfold normalizeTest
  split
  · exact h.pass
  · exact h.pass
  · split
    · rw [hp]
      exact h.write (htakes none)
    · -- the node of a boolean is there or is made
      have hfalse : Spares s₀ (toConst (.bool false)) s fun _ s' => s.Gains s' := by
        unfold toConst
        rw [Value.toNode]
        exact ⟨Store.Gains.intern s.toStore (.bool false), rfl⟩
      exact h.writeMade hp (fun c => htakes (some c)) hfalse

theorem headStatement?_ends (init : Option NodeId) :
    Spares s (headStatement? init) s fun _ s' => s.Gains s' := by
  unfold headStatement?
  split
  · refine (store_ends Store.Gains.emptyStatementNode).bind fun c s₁ hs₁ => ?_
    exact .pure hs₁
  · refine .read rfl ?_
    split
    · exact .pure (.refl s)
    · exact .pure (.refl s)
    · refine (alloc_ends _).bind fun c s₁ hs₁ => ?_
      exact .pure hs₁

theorem foldFor_ends {init test update : Option NodeId} {body : NodeId}
    (hn : s.tree.nodeAt? p = some (.forStatement init test update body)) :
    Spares s (foldFor p init test update body) s (Declines s) := by
  have hvalue : Spares s (test.elim (pure none) constant?) s fun _ s' => s' = s := by
    cases test with
    | none => exact .pure rfl
    | some test => exact constant?_ends (.refl s) test
  unfold foldFor
  refine hvalue.bind fun value s₁ hs₁ => ?_
  subst hs₁
  obtain ⟨id, hp, hstart⟩ := Underway.start .forStatement hn rfl (by decide)
  -- what is done where the loop stays
  have htidy : ∀ s₂, s₁.Gains s₂ → Spares s₁ (do
      let bodyChanged ← normalizeBody p body
      let initChanged ← clearConstant p .init init
      let testChanged ← normalizeTest p value
      let updateChanged ← clearConstant p .update update
      return if bodyChanged || initChanged || testChanged || updateChanged then some p else none)
      s₂ (Declines s₁) := by
    intro s₂ hs₂
    let head : Node NodeId := .forStatement init test update body
    refine (normalizeBody_ends (hstart.gains hs₂) hp (fun _ => takes_kind head rfl rfl) body).bind
      fun _ s₃ hs₃ => ?_
    refine (clearConstant_ends hs₃ hp (takes_kind head rfl rfl) init).bind fun _ s₄ hs₄ => ?_
    refine (normalizeTest_ends hs₄ hp (fun _ => takes_kind head rfl rfl) value).bind
      fun _ s₅ hs₅ => ?_
    refine (clearConstant_ends hs₅ hp (takes_kind head rfl rfl) update).bind fun _ s₆ hs₆ => ?_
    exact hs₆.answer p
  dsimp only
  split
  · refine (headStatement?_ends init).bind fun statement s₂ hs₂ => ?_
    split
    · exact edit_declines hs₂ _
    · exact htidy s₂ hs₂
  · exact htidy s₁ (.refl s₁)

theorem foldLoop_ends : Spares s (foldLoop p) s (Declines s) := by
  unfold foldLoop
  refine .read rfl ?_
  split
  · rename_i body test hn
    obtain ⟨id, hp, hstart⟩ := Underway.start .doWhileStatement hn rfl (by decide)
    refine (normalizeBody_ends hstart hp (fun c => takes_kind (.doWhileStatement c c) rfl rfl)
      body).bind fun _ s₁ hs₁ => ?_
    exact hs₁.answer p
  · rename_i test body hn
    refine (constant?_ends (.refl s) _).bind fun value s₁ hs₁ => ?_
    subst hs₁
    split
    · refine (store_ends Store.Gains.emptyStatementNode).bind fun c s₂ hs₂ => ?_
      exact edit_declines hs₂ _
    · obtain ⟨id, hp, hstart⟩ := Underway.start .whileStatement hn rfl (by decide)
      refine (normalizeBody_ends hstart hp (fun c => takes_kind (.whileStatement c c) rfl rfl)
        body).bind fun _ s₂ hs₂ => ?_
      exact hs₂.answer p
  · exact foldFor_ends ‹_›
  · exact none_ends (.refl s)

end FoldM

theorem Rule.apply_ends (rule : Rule) (p : Path) (s : FoldState) :
    Spares s (rule.apply p) s (FoldM.Declines s) := by
  cases rule with
  | unreachableTail => exact FoldM.dropUnreachable_ends
  | expressionStatements => exact FoldM.foldExpressionStatement_ends
  | conditionalExpr => exact FoldM.foldConditional_ends
  | logicalExpr => exact FoldM.foldLogical_ends
  | binaryExpr => exact FoldM.foldBinary_ends
  | unaryExpr => exact FoldM.foldUnary_ends
  | sequenceExpr => exact FoldM.foldSequence_ends
  | memberExpr => exact FoldM.foldMember_ends
  | emptyStatements => exact FoldM.dropEmptyStatement_ends
  | ifStatement => exact FoldM.foldIf_ends
  | loops => exact FoldM.foldLoop_ends
  | booleanLiterals => exact FoldM.minifyBoolean_ends

/-- A rule that fails, in any state and at any path, leaves every node that there was as it is, and so
flags, root, revision and counts; the pool has the same values of these nodes. There may be new nodes,
which the pool may know. -/
theorem Rule.gains_of_error {rule : Rule} {p : Path} {s s' : FoldState} {e : Halt FoldError}
    (h : rule.apply p s = .error e s') : s.Gains s' :=
  (rule.apply_ends p s).of_error h

/-- The statement `if (x);`, not yet part of the program. -/
def FoldState.loneIf : FoldState where
  tree :=
    { cells := #[⟨.program [], {}⟩, ⟨.ifStatement 2 3 none, {}⟩, ⟨.identifier "x", {}⟩,
        ⟨.emptyStatement, {}⟩]
      root := 0
      revision := 0 }

/-- What is made of the statement finds no place, but stays. -/
theorem Rule.gains_of_error_loneIf : ∃ s', Rule.ifStatement.apply (.ofNode 1) .loneIf =
    .error (.error (.tree .detached)) s' ∧ s'.tree.size = 5 ∧ FoldState.loneIf.Gains s' := by
  obtain ⟨s', hrun, hsize⟩ : ∃ s', Rule.ifStatement.apply (.ofNode 1) .loneIf =
      .error (.error (.tree .detached)) s' ∧ s'.tree.size = 5 := ⟨_, rfl, rfl⟩
  exact ⟨s', hrun, hsize, gains_of_error hrun⟩

end ScriptFold

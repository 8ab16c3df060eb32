import ScriptFold.Proofs.Import

/-!
What is a reference and not just a value: the callee of a method call, a direct `eval`, the operand
that `delete` removes. Folding a sequence of several items never makes one of what was none. A choice
is not looked at in this way: the operand that is taken stands in its place as it is, and is a
reference there if it would be one.
-/

namespace ScriptFold

def Node.isDelete {α : Type} : Node α → Bool
  | .unaryExpression .delete _ => true
  | _ => false

theorem Node.isDelete_setSlot {α : Type} (n : Node α) (field : Field) (slot : Slot α) :
    (n.setSlot field slot).isDelete = n.isDelete := by
  cases n with
  | unaryExpression operator _ => cases operator <;> rfl
  | _ => rfl

namespace Tree

/-- Whether what a path finds is a reference in its slot. -/
def isReference (t : Tree) (p : Path) : Bool :=
  p.node?.any (t.isReferenceAt p)

variable {t t' : Tree} {p : Path} {id : NodeId}

theorem isCallee_eq (t : Tree) (p : Path) : t.isCallee p =
    ((p.parent?.bind t.nodeAt?).any (fun n => decide (n.kind = .callExpression)) &&
      decide (p.key? = some (.field .callee))) := by
  unfold isCallee
  split
  · simp_all [Node.kind]
  · rename_i hother
    cases hn : p.parent?.bind t.nodeAt? with
    | none => rfl
    | some n =>
      cases n with
      | callExpression => simp_all [Node.kind]
      | _ => rfl

theorem isDeleted_eq (t : Tree) (p : Path) : t.isDeleted p =
    ((p.parent?.bind t.nodeAt?).any Node.isDelete &&
      decide (p.key? = some (.field .argument))) := by
  unfold isDeleted
  split
  · simp_all [Node.isDelete]
  · rename_i hother
    cases hn : p.parent?.bind t.nodeAt? with
    | none => rfl
    | some n =>
      cases n with
      | unaryExpression operator _ => cases operator <;> simp_all [Node.isDelete]
      | _ => rfl

theorem any_nodeAt?_congr {f : Node NodeId → Bool} (h : ∀ x, f (t'.node x) = f (t.node x))
    (p : Option Path) : (p.bind t'.nodeAt?).any f = (p.bind t.nodeAt?).any f := by
  cases p with
  | none => rfl
  | some p =>
    change (p.node?.map t'.node).any f = (p.node?.map t.node).any f
    cases p.node? with
    | none => rfl
    | some x => exact h x

/-- What is a callee and what is deleted does not change when slots are set. -/
theorem isReferenceAt_congr (hkind : ∀ x, (t'.node x).kind = (t.node x).kind)
    (hdelete : ∀ x, (t'.node x).isDelete = (t.node x).isDelete) (hid : t'.node id = t.node id)
    (value : Ref) : t'.isReferenceAt (p.withValue value) id = t.isReferenceAt p id := by
  have hparent : (p.withValue value).parent? = p.parent? := by
    cases p <;> rfl
  have hkey : (p.withValue value).key? = p.key? := by
    cases p <;> rfl
  have hcallee : t'.isCallee (p.withValue value) = t.isCallee p := by
    rw [isCallee_eq, isCallee_eq, hparent, hkey, any_nodeAt?_congr]
    exact fun x => by rw [hkind]
  have hdeleted : t'.isDeleted (p.withValue value) = t.isDeleted p := by
    rw [isDeleted_eq, isDeleted_eq, hparent, hkey, any_nodeAt?_congr hdelete]
  unfold isReferenceAt
  rw [hid, hcallee, hdeleted]

theorem isReferenceAt_sequence {expressions : List NodeId}
    (h : t.node id = .sequenceExpression expressions) (p : Path) :
    t.isReferenceAt p id = false := by
  unfold isReferenceAt
  rw [h]

end Tree

theorem Path.Fills.isDelete {t : Tree} {p : Path} {owner a b : NodeId} {n : Node NodeId}
    (h : p.Fills t owner a b n) : n.isDelete = (t.node owner).isDelete := by
  cases h with
  | required => exact Node.isDelete_setSlot _ _ _
  | optional => exact Node.isDelete_setSlot _ _ _
  | item h =>
    cases h
    exact Node.isDelete_setSlot _ _ _

namespace FoldM

open Store

variable {s : FoldState} {p : Path} {owner id a b : NodeId} {n : Node NodeId}

/-- An operand that is put in the place of its expression is a reference there if it would be
one. -/
theorem replace_isReference (h : s.Open p owner a) (hb : s.tree.Child b a) :
    Ensures (do return some (← replace p b)) s fun retry s' =>
      ∃ q, retry = some q ∧ s'.tree.isReference q = s.tree.isReferenceAt p b := by
  have wf := h.sound.wellFormed
  have hne : b ≠ a := by
    rintro rfl
    exact wf.not_below_self (.single hb)
  have hne' : b ≠ owner := by
    rintro rfl
    exact wf.not_below_self (.tail (.single hb) h.leads.child)
  have howner := Tree.lt_size_of_child h.leads.child
  obtain ⟨n, hfill, hrun⟩ := h.leads.replace h.writable hne
  refine (edit_ensures hrun).bind fun p' s' ⟨hp', hs'⟩ => .pure ⟨p', rfl, ?_⟩
  have hnode : ∀ x, s'.tree.node x = if x = owner then n else s.tree.node x := fun x => by
    rw [hs']
    exact Tree.node_setNode howner n x
  have hvalue : p'.node? = some b := by
    rw [hp']
    cases p <;> rfl
  change (p'.node?.any (s'.tree.isReferenceAt p')) = _
  rw [hvalue, Option.any_some, hp']
  refine Tree.isReferenceAt_congr (fun x => ?_) (fun x => ?_) ?_ _
  · rw [hnode]
    split
    · subst x
      exact hfill.kind.1
    · rfl
  · rw [hnode]
    split
    · subst x
      exact hfill.isDelete
    · rfl
  · rw [hnode, if_neg hne']

/-- A conditional expression makes way for the branch that is taken, whatever its slot. -/
theorem foldConditional_isReference {test consequent alternate : NodeId} {v : Value}
    (h : s.Open p owner id) (hn : s.tree.node id = .conditionalExpression test consequent alternate)
    (hv : s.value? test = some v) : Ensures (foldConditional p) s fun retry s' =>
      ∃ q, retry = some q ∧ s'.tree.isReference q =
        s.tree.isReferenceAt p (if v.toBoolean then consequent else alternate) := by
  unfold foldConditional
  refine .read (getTree_run s) ?_
  rw [h.nodeAt?, hn]
  refine .read (constant?_run s test) ?_
  rw [hv]
  refine replace_isReference h (Tree.child_of_node hn ?_)
  split <;> simp [Node.children, Node.slots, Slot.children]

theorem foldLogical_isReference {operator : LogicalOp} {left right : NodeId} {v : Value}
    (h : s.Open p owner id) (hn : s.tree.node id = .logicalExpression operator left right)
    (hv : s.value? left = some v) : Ensures (foldLogical p) s fun retry s' =>
      ∃ q, retry = some q ∧ s'.tree.isReference q =
        s.tree.isReferenceAt p (if operator.decides v then left else right) := by
  unfold foldLogical
  refine .read (getTree_run s) ?_
  rw [h.nodeAt?, hn]
  refine .read (constant?_run s left) ?_
  rw [hv]
  refine replace_isReference (b := if operator.decides v then left else right) h
    (Tree.child_of_node hn ?_)
  split <;> simp [Node.children, Node.slots, Slot.children]

theorem modifySequence_isReference {expressions : List NodeId} (h : s.Owns p owner id n) :
    Ensures (do modifyNode id fun _ => .sequenceExpression expressions; return some p) s
      fun retry s' => ∀ q ∈ retry, s'.tree.isReference q = false := by
  refine (modifyNode_ensures h _).bind fun _ s' hs' => .pure fun q hq => ?_
  obtain rfl := Option.some.inj hq
  change p.node?.any (s'.tree.isReferenceAt p) = false
  rw [h.node?, Option.any_some]
  have hnode : s'.tree.node id = .sequenceExpression expressions := by
    rw [hs']
    exact (Tree.node_setNode h.lt_size _ id).trans (if_pos rfl)
  exact Tree.isReferenceAt_sequence hnode p

/-- A sequence of several items does not become a reference: it keeps an item before the last, or
its last item is none. -/
theorem foldSequence_isReference {leading : List NodeId} {last : NodeId} (h : s.Open p owner id)
    (hn : s.tree.node id = .sequenceExpression (leading ++ [last])) (hleading : leading ≠ []) :
    Ensures (foldSequence p) s fun retry s' => ∀ q ∈ retry, s'.tree.isReference q = false := by
  have howns := h.owns hn (by simp [Node.kind])
  have nothing : Ensures (Pure.pure none : FoldM (Option Path)) s fun retry s' =>
      ∀ q ∈ retry, s'.tree.isReference q = false := .pure fun q hq => by cases hq
  unfold foldSequence
  refine .read (a := s) rfl ?_
  rw [h.node?]
  dsimp only
  rw [hn]
  simp only [List.getLast?_concat, List.dropLast_concat, List.isEmpty_iff, if_neg hleading]
  split
  · split
    · exact nothing
    · refine (toConst_ensures h.sound representable_zero).bind ?_
      intro first s₁ hconst
      exact modifySequence_isReference (howns.grows hconst.1 hconst.2.1)
  · rename_i hplain
    split
    · exact nothing
    · split
      · rename_i hkept
        refine (replace_isReference h (Tree.child_of_node hn ?_)).mono ?_
        · simp [Node.children, Node.slots, Slot.children]
        · rintro _ s' ⟨q, rfl, hs'⟩ r hr
          obtain rfl := Option.some.inj hr
          rw [hs']
          simpa [hkept] using hplain
      · exact modifySequence_isReference howns

end FoldM

/-- In every state of a run, a sequence of several items does not become a reference when it is folded,
and a choice becomes one exactly if the operand that is taken is one in its slot. -/
theorem Tree.references_ofJson {json : Json} {t : Tree} (hj : json.Finite) (ht : ofJson json = .ok t)
    {rules : List Rule} {s : FoldState} (hs : FoldState.Folds rules { tree := t } s) {p : Path}
    (hp : p.Live s.tree) (hfrozen : ¬ Rule.inFrozenNode s.tree p) {id : NodeId}
    (hid : p.node? = some id) :
    (∀ leading last, s.tree.node id = .sequenceExpression (leading ++ [last]) → leading ≠ [] →
      ∃ retry s', Rule.sequenceExpr.apply p s = .ok retry s' ∧
        ∀ q ∈ retry, s'.tree.isReference q = false) ∧
    (∀ test consequent alternate v, s.tree.node id = .conditionalExpression test consequent alternate →
      s.value? test = some v → ∃ q s', Rule.conditionalExpr.apply p s = .ok (some q) s' ∧
        s'.tree.isReference q =
          s.tree.isReferenceAt p (if v.toBoolean then consequent else alternate)) ∧
    ∀ operator left right v, s.tree.node id = .logicalExpression operator left right →
      s.value? left = some v → ∃ q s', Rule.logicalExpr.apply p s = .ok (some q) s' ∧
        s'.tree.isReference q = s.tree.isReferenceAt p (if operator.decides v then left else right) := by
  have h : s.Sound := hs.sound (s := { tree := t }) (fresh_ofJson hj ht).sound
  rcases FoldState.open_of_live h hp (by rw [hid]; rfl) hfrozen with rfl | ⟨owner, a, hopen⟩
  · -- the program is none of these
    obtain rfl := Option.some.inj hid
    have hkind := h.program
    refine ⟨fun _ _ hn => ?_, fun _ _ _ _ hn => ?_, fun _ _ _ _ hn => ?_⟩
    all_goals
      rw [hn] at hkind
      cases hkind
  · obtain rfl : a = id := Option.some.inj (hopen.node?.symm.trans hid)
    refine ⟨fun leading last hn hleading => ?_, fun test consequent alternate v hn hv => ?_,
      fun operator left right v hn hv => ?_⟩
    · exact FoldM.foldSequence_isReference hopen hn hleading
    · obtain ⟨_, s', hrun, q, rfl, hq⟩ := FoldM.foldConditional_isReference hopen hn hv
      exact ⟨q, s', hrun, hq⟩
    · obtain ⟨_, s', hrun, q, rfl, hq⟩ := FoldM.foldLogical_isReference hopen hn hv
      exact ⟨q, s', hrun, hq⟩

/-- The program `(true ? o.m : a)(); (a, o.m)();`. -/
def Json.programCallees : Json :=
  let name (text : String) : Json := .obj [("type", .str "Identifier"), ("name", .str text)]
  let method : Json := .obj [("type", .str "MemberExpression"), ("computed", .bool false),
    ("object", name "o"), ("property", name "m")]
  let call (callee : Json) : Json := .obj [("type", .str "ExpressionStatement"), ("expression",
    .obj [("type", .str "CallExpression"), ("callee", callee), ("arguments", .arr [])])]
  .obj [("type", .str "Program"), ("body", .arr [
    call (.obj [("type", .str "ConditionalExpression"),
      ("test", .obj [("type", .str "Literal"), ("value", .bool true)]),
      ("consequent", method), ("alternate", name "a")]),
    call (.obj [("type", .str "SequenceExpression"), ("expressions", .arr [name "a", method])])])]

theorem Json.finite_programCallees : programCallees.Finite := by
  simp [programCallees, Json.Finite, Json.FiniteMembers, Json.FiniteItems]

def Tree.callees : Tree where
  cells := #[⟨.program [], {}⟩, ⟨.literal (.bool true), {}⟩, ⟨.identifier "o", {}⟩,
    ⟨.identifier "m", {}⟩, ⟨.memberExpression 2 3 false, {}⟩, ⟨.identifier "a", {}⟩,
    ⟨.conditionalExpression 1 4 5, {}⟩, ⟨.callExpression 6 [], {}⟩, ⟨.expressionStatement 7 none, {}⟩,
    ⟨.identifier "a", {}⟩, ⟨.identifier "o", {}⟩, ⟨.identifier "m", {}⟩,
    ⟨.memberExpression 10 11 false, {}⟩, ⟨.sequenceExpression [9, 12], {}⟩,
    ⟨.callExpression 13 [], {}⟩, ⟨.expressionStatement 14 none, {}⟩, ⟨.program [8, 15], {}⟩]
  root := 16
  revision := 1

theorem Tree.ofJson_programCallees : ofJson .programCallees = .ok callees := by
  decide +kernel

def Tree.calleeSlot (t : Tree) (i : Nat) : Path :=
  (Path.ofNode t.root).get t [.field .body, .index i, .field .expression, .field .callee]

/-- A callee that was none becomes a reference where a choice is folded, but not where a sequence is. -/
theorem Tree.references_ofJson_programCallees : ofJson .programCallees = .ok callees ∧
    callees.isReference (callees.calleeSlot 0) = false ∧
    (∃ q s, Rule.conditionalExpr.apply (callees.calleeSlot 0) { tree := callees } = .ok (some q) s ∧
      s.tree.isReference q) ∧
    callees.isReferenceAt (callees.calleeSlot 1) 12 ∧
    ∃ retry s, Rule.sequenceExpr.apply (callees.calleeSlot 1) { tree := callees } = .ok retry s ∧
      ∀ q ∈ retry, s.tree.isReference q = false := by
  have ht := ofJson_programCallees
  have h : Store.Sound { tree := callees } := (fresh_ofJson Json.finite_programCallees ht).sound
  have hlive : ∀ i, (callees.calleeSlot i).Live callees := fun i => (Path.live_ofNode _).get _
  have hstart : FoldState.Folds [] { tree := callees } { tree := callees } := .refl
  have hfrozen : ∀ i < 2, ¬ Rule.inFrozenNode callees (callees.calleeSlot i) := by decide
  have hfirst : (callees.calleeSlot 0).node? = some 6 := rfl
  have hsecond : (callees.calleeSlot 1).node? = some 13 := rfl
  obtain ⟨-, hchoice, -⟩ := references_ofJson Json.finite_programCallees ht hstart (hlive 0)
    (hfrozen 0 (by decide)) hfirst
  obtain ⟨hsequence, -, -⟩ := references_ofJson Json.finite_programCallees ht hstart (hlive 1)
    (hfrozen 1 (by decide)) hsecond
  obtain ⟨q, s, hrun, hreference⟩ := hchoice 1 4 5 _ rfl (h.value?_literal (l := .bool true) rfl)
  exact ⟨ht, by decide, ⟨q, s, hrun, hreference.trans (by decide)⟩, by decide,
    hsequence [9] 12 rfl (by simp)⟩

end ScriptFold

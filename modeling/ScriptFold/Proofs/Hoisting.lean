import ScriptFold.Proofs.Directive
import ScriptFold.Proofs.Shape

/-!
Declarations that take effect without being reached. Those that stand in a list of statements stay
there, in their order, whatever is dropped around them. Nothing like that holds of declarations that
are nested in what is dropped: a block after a jump, a branch that is never taken and the body of a
loop that never runs go with all that is in them.
-/

namespace ScriptFold

namespace Node

variable {n : Node NodeId} {f g : Field}

/-- What the list of a field holds, without holes. -/
def entries (n : Node NodeId) (f : Field) : List NodeId :=
  (((n.slot? f).bind Slot.items?).getD []).filterMap id

theorem entries_of_items {slot : Slot NodeId} {items : List (Option NodeId)}
    (hs : n.slot? f = some slot) (hi : slot.items? = some items) :
    n.entries f = items.filterMap id := by
  unfold entries
  rw [hs, Option.bind_some, hi, Option.getD_some]

theorem entries_of_no_items {slot : Slot NodeId} (hs : n.slot? f = some slot)
    (hi : slot.items? = none) : n.entries f = [] := by
  unfold entries
  rw [hs, Option.bind_some, hi]
  rfl

theorem child_of_entries {c : NodeId} (hc : c ∈ n.entries f) : c ∈ n.children := by
  unfold entries at hc
  cases hs : n.slot? f with
  | none =>
    rw [hs] at hc
    cases hc
  | some slot =>
    cases hi : slot.items? with
    | none =>
      rw [hs, Option.bind_some, hi] at hc
      cases hc
    | some items =>
      rw [hs, Option.bind_some, hi] at hc
      exact mem_children_of_slot? hs (Slot.children_of_items? hi ▸ hc)

theorem kind_of_isHoisted (h : n.isHoisted) :
    n.kind = .functionDeclaration ∨ n.kind = .variableDeclaration := by
  cases n <;> first | exact .inl rfl | exact .inr rfl | cases h

theorem isHoisted_setSlot (n : Node NodeId) (f : Field) (slot : Slot NodeId) :
    (n.setSlot f slot).isHoisted = n.isHoisted := by
  cases n with
  | variableDeclaration declarations kind => cases kind <;> rfl
  | _ => rfl

theorem not_hoisted_of_isEmptyStatement (h : n.isEmptyStatement) : ¬ n.isHoisted := by
  cases n <;> first | exact Bool.false_ne_true | cases h

theorem not_hoisted_of_expression? {e : NodeId} (h : n.expression? = some e) : ¬ n.isHoisted := by
  cases n <;> first | exact Bool.false_ne_true | cases h

theorem entries_setSlot_of_ne (h : g ≠ f) (slot : Slot NodeId) :
    (n.setSlot f slot).entries g = n.entries g := by
  unfold entries
  rw [slot?_setSlot_of_ne h]

theorem entries_eq_nil (h : ∀ e ∈ n.slots, e.2.items? = none) (f : Field) : n.entries f = [] := by
  cases hs : n.slot? f with
  | none =>
    unfold entries
    rw [hs]
    rfl
  | some slot => exact entries_of_no_items hs (h _ (mem_slots_of_slot? hs))

theorem entries_sequence (es : List NodeId) (f : Field) :
    (sequenceExpression es).entries f = if f = .expressions then es else [] := by
  split
  · rename_i hf
    subst hf
    have hs : (sequenceExpression es).slot? .expressions = some (.list es) := rfl
    exact (entries_of_items hs rfl).trans (by simp)
  · rename_i hf
    unfold entries slot? slots
    rw [List.lookup_cons, beq_eq_false_iff_ne.mpr hf]
    rfl

end Node

namespace Tree

/-- The declarations that stand in a list and take effect without being reached. -/
def declarations (t : Tree) (x : NodeId) (f : Field) : List NodeId :=
  ((t.node x).entries f).filter fun c => (t.node c).isHoisted

variable {t t' : Tree}

theorem Grows.declarations (h : t.Grows t') (wf : t.WellFormed) (x : NodeId) (f : Field) :
    (t.declarations x f).Sublist (t'.declarations x f) := by
  unfold Tree.declarations
  by_cases hx : x < t.size
  · rw [h.node hx]
    refine (List.filter_congr fun c hc => ?_).symm ▸ List.Sublist.refl _
    rw [h.node (wf.closed (Node.child_of_entries hc))]
  · rw [node_of_size_le (Nat.le_of_not_lt hx)]
    exact List.nil_sublist _

end Tree

namespace Path

variable {t : Tree} {p : Path} {owner a b : NodeId} {n : Node NodeId} {H : NodeId → Bool}

theorem Splices.entries {old : List (Option NodeId)} {new : List NodeId}
    (hsplice : p.Splices t owner old new n)
    (h : ((old.filterMap id).filter H).Sublist (new.filter H)) (f : Field) :
    (((t.node owner).entries f).filter H).Sublist ((n.entries f).filter H) := by
  obtain ⟨hv, hs, hi⟩ := hsplice
  rename_i parent g slot l r value
  by_cases hf : f = g
  · subst hf
    rw [Node.entries_of_items hs hi, Node.entries_of_items
      (Node.slot?_setSlot hs _ (slot.put_setItems _)) (Slot.items?_splice hi new)]
    simp only [List.filterMap_append, List.filter_append]
    refine ((List.Sublist.refl _).append ?_).append (.refl _)
    simpa using h
  · rw [Node.entries_setSlot_of_ne hf]

theorem Fills.entries (hfill : p.Fills t owner a b n) (ha : ¬ H a) (f : Field) :
    (((t.node owner).entries f).filter H).Sublist ((n.entries f).filter H) := by
  have single : ∀ {g} {slot new : Slot NodeId}, t.slot? owner g = some slot → slot.items? = none →
      (((t.node owner).entries f).filter H).Sublist
        ((((t.node owner).setSlot g new).entries f).filter H) := by
    intro g slot new hs hi
    by_cases hf : f = g
    · subst hf
      rw [Node.entries_of_no_items hs hi]
      exact List.nil_sublist _
    · rw [Node.entries_setSlot_of_ne hf]
  cases hfill with
  | required _ hs => exact single hs rfl
  | optional _ hs => exact single hs rfl
  | item hsplice => exact hsplice.entries (by simp [ha]) f

end Path

namespace Store

variable {s s' : Store} {observed : Bool} {rule : Rule} {p : Path} {owner x a b : NodeId}
  {n : Node NodeId}

theorem Sound.not_hoisted_of_value (h : s.Sound) {v : Value} (hv : s.value? a = some v) :
    ¬ (s.tree.node a).isHoisted := by
  intro hhoisted
  have hk := h.kind_of_value? hv
  rcases Node.kind_of_isHoisted hhoisted with heq | heq <;> rw [heq] at hk <;> simp at hk

theorem Swap.not_hoisted (h : s.Sound) (hab : s.Swap observed rule a b) :
    ¬ (s.tree.node a).isHoisted := by
  rcases hab.kind_mem with ⟨v, hv⟩ | hk
  · exact h.not_hoisted_of_value hv
  · intro hhoisted
    have hall : ∀ k ∈ rule.replaced, k ≠ .functionDeclaration ∧ k ≠ .variableDeclaration := by
      cases rule <;> decide
    rcases Node.kind_of_isHoisted hhoisted with heq | heq
    · exact (hall _ hk).1 heq
    · exact (hall _ hk).2 heq

theorem Splice.entries (h : s.Sound) {old : List (Option NodeId)} {new : List NodeId}
    (hs : s.Splice observed owner rule old new) :
    ((old.filterMap id).filter fun c => (s.tree.node c).isHoisted).Sublist
      (new.filter fun c => (s.tree.node c).isHoisted) := by
  have without : ∀ {cs new : List NodeId}, (∀ c ∈ cs, ¬ (s.tree.node c).isHoisted) →
      (cs.filter fun c => (s.tree.node c).isHoisted).Sublist
        (new.filter fun c => (s.tree.node c).isHoisted) := fun h => by
    rw [List.filter_eq_nil_iff.mpr h]
    exact List.nil_sublist _
  cases hs with
  | swap hab => exact without (by simpa using hab.not_hoisted h)
  | @unreachable jump tail _ _ =>
    change ((jump :: tail.filterMap id).filter _).Sublist _
    rw [List.filter_cons, List.filter_cons, List.filter_filter]
    simp only [Bool.and_self]
    exact .refl _
  | @merge statements expressions sequence statement hall hlen hsequence =>
    have hstatements : ∀ c ∈ statements, ¬ (s.tree.node c).isHoisted := by
      clear hlen hsequence
      induction hall with
      | nil => exact fun c hc => by cases hc
      | cons he _ ih => exact List.forall_mem_cons.mpr ⟨Node.not_hoisted_of_expression? he, ih⟩
    exact without (by simpa using hstatements)
  | constant hn => exact without (by simp [hn, Node.isHoisted])
  | empty hempty => exact without (by simpa using Node.not_hoisted_of_isEmptyStatement hempty)

/-- The list of a sequence loses nothing but constants. -/
theorem Rewrite.entries (h : s.Sound) {n n' : Node NodeId} (hr : s.Rewrite rule n n') (f : Field) :
    ((n.entries f).filter fun c => (s.tree.node c).isHoisted).Sublist
      ((n'.entries f).filter fun c => (s.tree.node c).isHoisted) := by
  have constant : ∀ {c}, (s.value? c).isSome → ¬ (s.tree.node c).isHoisted := by
    intro c hc
    obtain ⟨v, hv⟩ := Option.isSome_iff_exists.mp hc
    exact h.not_hoisted_of_value hv
  cases hr with
  | @leadingItems leading last _ _ =>
    rw [Node.entries_sequence, Node.entries_sequence]
    split
    · rw [List.filter_append, List.filter_append, List.filter_filter]
      have hkept : leading.filter (fun c => (s.tree.node c).isHoisted) =
          leading.filter fun c => (s.tree.node c).isHoisted && !s.isConstant c := by
        refine List.filter_congr fun c _ => ?_
        cases hc : s.isConstant c with
        | false => simp
        | true => simpa using constant (s.isConstant_eq c ▸ hc)
      rw [hkept]
    · exact .refl _
  | @firstItem leading last first hvalues _ _ =>
    rw [Node.entries_sequence, Node.entries_sequence]
    split
    · rw [List.filter_append, List.filter_eq_nil_iff.mpr fun c hc => constant (hvalues c hc),
        List.nil_append]
      exact (List.sublist_cons_self first [last]).filter _
    · exact .refl _
  | _ =>
    rw [Node.entries_eq_nil (by simp [Node.slots, Slot.items?])]
    exact List.nil_sublist _

theorem Edit.entries (h : s.Sound) (he : s.Edit observed rule p x n) (f : Field) :
    (((s.tree.node x).entries f).filter fun c => (s.tree.node c).isHoisted).Sublist
      ((n.entries f).filter fun c => (s.tree.node c).isHoisted) := by
  cases he with
  | fill _ _ hfill hab => exact hfill.entries (hab.not_hoisted h) f
  | splice _ _ hsplice hnew => exact hsplice.entries (hnew.entries h) f
  | rewrite _ _ hr => exact hr.entries h f

theorem Edit.isHoisted (he : s.Edit observed rule p x n) :
    n.isHoisted = (s.tree.node x).isHoisted := by
  have splices : ∀ {old new}, p.Splices s.tree x old new n →
      n.isHoisted = (s.tree.node x).isHoisted := by
    intro old new hsplice
    obtain ⟨_, _, _⟩ := hsplice
    exact Node.isHoisted_setSlot ..
  cases he with
  | fill _ _ hfill _ =>
    cases hfill with
    | required | optional => exact Node.isHoisted_setSlot ..
    | item hsplice => exact splices hsplice
  | splice _ _ hsplice _ => exact splices hsplice
  | rewrite _ _ hr =>
    generalize s.tree.node x = m at hr
    cases hr <;> rfl

theorem Edit.declarations (h : s.Sound) (he : s.Edit observed rule p x n) (y : NodeId) (f : Field) :
    (s.tree.declarations y f).Sublist ((s.put x n).tree.declarations y f) := by
  obtain ⟨hsize, -, -, -, -⟩ := he.admissible h
  have hnode : ∀ c, (s.put x n).tree.node c = if c = x then n else s.tree.node c := fun c =>
    Tree.node_setNode hsize n c
  have hhoisted : ∀ c, ((s.put x n).tree.node c).isHoisted = (s.tree.node c).isHoisted := by
    intro c
    rw [hnode]
    split
    · rename_i hc
      rw [hc, he.isHoisted]
    · rfl
  unfold Tree.declarations
  simp only [hhoisted]
  rw [hnode]
  split
  · rename_i hy
    rw [hy]
    exact he.entries h f
  · exact .refl _

theorem Fires.declarations (h : s.Sound) (hp : p.Live s.tree) (hleads : p.Leads s.tree owner a)
    (hfires : Fires observed rule p s s') (y : NodeId) (f : Field) :
    (s.tree.declarations y f).Sublist (s'.tree.declarations y f) := by
  refine Fires.lift
    (R := fun s s' => (s.tree.declarations y f).Sublist (s'.tree.declarations y f))
    .trans ?_ h hp hleads hfires
  intro s s₁ x n hs hs₁ hg _ he
  exact (hg.tree.declarations hs.wellFormed y f).trans (he.declarations hs₁ y f)

end Store

namespace FoldState

variable {rules : List Rule} {s s' : FoldState}

theorem Folds.declarations (h : s.Sound) (hr : Folds rules s s') (x : NodeId) (f : Field) :
    (s.tree.declarations x f).Sublist (s'.tree.declarations x f) := by
  induction hr with
  | refl => exact .refl _
  | fire hr hf ih =>
    obtain ⟨rule, -, p, owner, id, hp, hopen, hfires, -⟩ := hf.cases (hr.sound h)
    exact ih.trans (hfires.declarations (hr.sound h) hp hopen.leads x f)
  | round _ ih => exact ih

end FoldState

/-- When folding is over, each list of the program as it was read still has its declarations, in their
order. -/
theorem Tree.declarations_ofJson {json : Json} {t : Tree} (hj : json.Finite)
    (ht : ofJson json = .ok t) (options : Options) : ∃ t' stats, t.fold options = .ok (t', stats) ∧
      ∀ x f, (t.declarations x f).Sublist (t'.declarations x f) := by
  have hs : Store.Sound { tree := t } := (fresh_ofJson hj ht).sound
  obtain ⟨s, hfold, hr⟩ := fold_folds hs options
  exact ⟨s.tree, s.stats, hfold, hr.declarations hs⟩

/-- The program `function f() { return; ; var x; }`. -/
def Json.programVar : Json :=
  let name (text : String) : Json := .obj [("type", .str "Identifier"), ("name", .str text)]
  .obj [("type", .str "Program"), ("body", .arr [.obj [("type", .str "FunctionDeclaration"),
    ("id", name "f"), ("params", .arr []), ("body", .obj [("type", .str "BlockStatement"),
      ("body", .arr [.obj [("type", .str "ReturnStatement")], .obj [("type", .str "EmptyStatement")],
        .obj [("type", .str "VariableDeclaration"), ("kind", .str "var"), ("declarations", .arr [
          .obj [("type", .str "VariableDeclarator"), ("id", name "x")]])]])])]])]

theorem Json.finite_programVar : programVar.Finite := by
  simp [programVar, Json.Finite, Json.FiniteMembers, Json.FiniteItems]

theorem Tree.declarations_ofJson_programVar : ∃ t t' stats, ofJson .programVar = .ok t ∧
    t.fold {} = .ok (t', stats) ∧ t.node 7 = .blockStatement [2, 3, 6] ∧
      t.declarations 7 .body = [6] ∧ 6 ∈ t'.declarations 7 .body := by
  obtain ⟨t, ht, hblock, hvar⟩ : ∃ t, ofJson .programVar = .ok t ∧
      t.node 7 = .blockStatement [2, 3, 6] ∧ t.declarations 7 .body = [6] := ⟨_, rfl, rfl, rfl⟩
  obtain ⟨t', stats, hfold, hkept⟩ := declarations_ofJson Json.finite_programVar ht {}
  refine ⟨t, t', stats, ht, hfold, hblock, hvar, (hkept 7 .body).subset ?_⟩
  rw [hvar]
  exact List.mem_singleton_self 6

end ScriptFold

import ScriptFold.Proofs.Run

/-!
Rules on expressions: where one applies it fires, and none of them fails.
-/

namespace ScriptFold

namespace FoldM

open Store

variable {s : FoldState} {p : Path} {owner id : NodeId}

theorem foldConditional_ensures (h : s.Open p owner id) :
    Ensures (foldConditional p) s (Rule.conditionalExpr.Outcome p s) := by
  unfold foldConditional
  refine .read (getTree_run s) ?_
  split
  · rename_i test consequent alternate hn
    rw [h.nodeAt?] at hn
    refine .read (constant?_run s test) ?_
    split
    · exact swap_ensures h h.sound (.refl _) (.conditional (Option.some.inj hn) ‹_›)
    · exact .pure (.unchanged h.sound)
  · exact .pure (.unchanged h.sound)

theorem foldConditional_run {test consequent alternate : NodeId} {v : Value} {q : Path} {t : Tree}
    (hn : s.tree.nodeAt? p = some (.conditionalExpression test consequent alternate))
    (hv : s.value? test = some v)
    (hreplace : s.tree.replace p (if v.toBoolean then consequent else alternate) = .ok (q, t)) :
    foldConditional p s = .ok (some q) { s with tree := t } := by
  unfold foldConditional
  refine Ensures.run_eq (.read (getTree_run s) ?_)
  rw [hn]
  refine .read (constant?_run s test) ?_
  rw [hv]
  exact ⟨_, _, replace_run (m := pure _) rfl hreplace, rfl, rfl⟩

theorem foldLogical_ensures (h : s.Open p owner id) :
    Ensures (foldLogical p) s (Rule.logicalExpr.Outcome p s) := by
  unfold foldLogical
  refine .read (getTree_run s) ?_
  split
  · rename_i operator left right hn
    rw [h.nodeAt?] at hn
    refine .read (constant?_run s left) ?_
    split
    · rename_i v hv
      refine swap_ensures h h.sound (.refl _) ?_
      exact .logical (Option.some.inj hn) hv
    · exact .pure (.unchanged h.sound)
  · exact .pure (.unchanged h.sound)

theorem bulk_array (items : List (Option Value)) : (Value.array items).bulk ≠ 1 := by
  rw [Value.bulk]
  omega

/-- A result that is not left as an expression has a node. -/
theorem representable_of_evaluate? {op : BinaryOp} {x y v : Value} (h : op.evaluate? x y = some v)
    (hv : ¬ v.isUnboundedNumber) : v.Representable := by
  have hbulk := BinaryOp.bulk_of_evaluate? h
  cases v with
  | number x =>
    intro hinf
    rw [Value.isUnboundedNumber, isFinite_eq, hinf] at hv
    simp at hv
  | array items => exact absurd hbulk (bulk_array items)
  | _ => simp only [Value.Representable]

theorem representable_of_evaluate (op : UnaryOp) (v : Value) (h : ¬ (op.evaluate v).isInfinite) :
    (op.evaluate v).Representable := by
  have hbulk := UnaryOp.bulk_of_evaluate op v
  cases hv : op.evaluate v with
  | number x =>
    rw [hv] at h
    exact h
  | array items => exact absurd (hv ▸ hbulk) (bulk_array items)
  | _ => simp only [Value.Representable]

theorem nullifyOperand_ensures {n : Node NodeId} {f : Field} {operand : NodeId} (observed : Bool)
    (h : s.Owns p owner id n) (hslot : n.slot? f = some (.required operand))
    (hr : ∀ {s' : Store} {b}, s'.Holds .undefined operand → s'.Holds .null b →
      s'.Rewrite .binaryExpr n (n.setSlot f (.required b))) :
    Ensures (nullifyOperand p f operand) s fun changed s' =>
      Rule.binaryExpr.Tidies observed p s changed s' ∧ changed = s.isUndefined operand ∧
        ∃ b, s'.Owns p owner id (n.setSlot f (.required b)) := by
  unfold nullifyOperand
  refine .read rfl ?_
  split
  · rename_i hisUndefined
    have hu : s.Holds .undefined operand := h.sound.undefined (of_decide_eq_true hisUndefined)
    refine (null_ensures h.sound).bind fun b s₁ ⟨hs₁, hg, hb⟩ => ?_
    have hu₁ : s₁.Holds .undefined operand := h.sound.value_of_grows hg hu
    have hne : operand ≠ b := by
      rintro rfl
      cases Option.some.inj (hu₁.symm.trans hb)
    refine (writeRequired_ensures observed h hs₁ hg hslot hne (hr hu₁ hb)).mono fun changed s' hs' => ?_
    exact ⟨hs'.2.1, hs'.1.trans hisUndefined.symm, b, hs'.2.2.1⟩
  · rename_i hisUndefined
    refine .pure ⟨.refl h.sound, (Bool.eq_false_of_not_eq_true hisUndefined).symm, operand, ?_⟩
    rw [Node.setSlot_self hslot]
    exact h

theorem foldBinary_ensures (h : s.Open p owner id) :
    Ensures (foldBinary p) s (Rule.binaryExpr.Outcome p s) := by
  unfold foldBinary
  refine .read (getTree_run s) ?_
  rw [h.node?]
  dsimp only
  split
  · rename_i operator left right hn
    split
    · exact .pure (.unchanged h.sound)
    · rename_i hf
      -- operands are evaluated from two places: for most operators at once, for `==` and `!=` if
      -- none was `void 0`
      generalize hrest : (constant? left >>= _) = rest
      have evaluate : Ensures rest s (Rule.binaryExpr.Outcome p s) := by
        subst hrest
        refine .read (constant?_run s left) (.read (constant?_run s right) ?_)
        split
        · rename_i x y hx hy
          split
          · rename_i v hv
            split
            · exact .pure (.unchanged h.sound)
            · rename_i hu
              refine swapConst_ensures h (representable_of_evaluate? hv hu) fun s' b hg hs' hb => ?_
              exact .binary (h.node_of_grows hg hn) (h.not_frozen_of_grows hg hf)
                (h.sound.value?_of_grows hs' hg hx) (h.sound.value?_of_grows hs' hg hy) hv hb
          · exact .pure (.unchanged h.sound)
        · exact .pure (.unchanged h.sound)
      split
      · rename_i hop
        have hop : operator = .eq ∨ operator = .notEq := by simpa using hop
        have howns : s.Owns p owner id (.binaryExpression operator left right) := ⟨h, hf, hn⟩
        refine (nullifyOperand_ensures (s.tree.isCompletion p) howns (f := .left) rfl
          (.nullLeft hop)).bind fun leftChanged s₁ hleft => ?_
        obtain ⟨hleft, -, b, howns₁⟩ := hleft
        refine (nullifyOperand_ensures (s.tree.isCompletion p) howns₁ (f := .right) rfl
          (.nullRight hop)).bind fun rightChanged s₂ hright => ?_
        have hboth := hleft.trans hright.1
        split
        · rename_i hchanged
          have := hboth.outcome h.leads
          rw [if_pos hchanged] at this
          exact .pure this
        · rename_i hchanged
          obtain rfl := hboth.same (Bool.eq_false_of_not_eq_true hchanged)
          exact evaluate
      · exact evaluate
  · exact .pure (.unchanged h.sound)

theorem foldUnary_ensures (h : s.Open p owner id) :
    Ensures (foldUnary p) s (Rule.unaryExpr.Outcome p s) := by
  unfold foldUnary
  rw [h.node?]
  refine .read (a := s.tree.node id) rfl ?_
  split
  · rename_i operator argument hn
    refine .read (isConstant_run s id) ?_
    split
    · exact .pure (.unchanged h.sound)
    · rename_i hnone
      have hnone : s.value? id = none := by simpa using hnone
      refine .read (constant?_run s argument) ?_
      split
      · rename_i v hv
        dsimp only
        split
        · exact .pure (.unchanged h.sound)
        · rename_i hinf
          refine swapConst_ensures h (representable_of_evaluate operator v hinf)
            fun s' b hg hs' hb => ?_
          refine .unary (h.node_of_grows hg hn) ?_ (h.sound.value?_of_grows hs' hg hv) hb
          exact (h.sound.value?_grows hs' hg h.lt_size).trans hnone
      · exact .pure (.unchanged h.sound)
  · exact .pure (.unchanged h.sound)

/-- An operator that gives a boolean is replaced by the shared node of that boolean. -/
theorem foldUnary_run {operator : UnaryOp} {argument new : NodeId} {v : Value} {b : Bool} {s' : Store}
    {q : Path} {t : Tree} (hid : p.node? = some id)
    (hn : s.tree.node id = .unaryExpression operator argument) (hnone : s.value? id = none)
    (hv : s.value? argument = some v) (hb : operator.evaluate v = .bool b)
    (hintern : s.toStore.intern (.bool b) = (new, s'))
    (hreplace : s'.tree.replace p new = .ok (q, t)) :
    foldUnary p s = .ok (some q) { s with tree := t, pool := s'.pool } := by
  have hconst : toConst (.bool b) s = .ok new { s with toStore := s' } := by
    unfold toConst tryStore Value.toNode
    change EStateM.Result.ok (s.toStore.intern (.bool b)).1
      { s with toStore := (s.toStore.intern (.bool b)).2 } = _
    rw [hintern]
  unfold foldUnary
  refine Ensures.run_eq ?_
  rw [hid]
  refine .read (a := s.tree.node id) rfl ?_
  rw [hn]
  refine .read (isConstant_run s id) ?_
  rw [hnone]
  refine .read (constant?_run s argument) ?_
  simp only [hv, hb, Value.isInfinite]
  exact ⟨_, _, replace_run hconst hreplace, rfl, rfl⟩

theorem minifyBoolean_ensures (h : s.Open p owner id) :
    Ensures (minifyBoolean p) s (Rule.booleanLiterals.Outcome p s) := by
  unfold minifyBoolean
  rw [h.node?]
  refine .read (getTree_run s) ?_
  split
  · exact .pure (.unchanged h.sound)
  · rename_i hm
    refine .read (constant?_run s id) ?_
    split
    · rename_i b hv
      refine (minifiedBool_ensures h.sound b).bind fun c s₁ ⟨hs₁, hg, hc, hmc⟩ => ?_
      refine swap_ensures h hs₁ hg (.minify (h.sound.value?_of_grows hs₁ hg hv) ?_ hc hmc)
      rw [hg.tree.flags h.lt_size]
      exact hm
    · exact .pure (.unchanged h.sound)

theorem representable_zero : (Value.number 0).Representable := by
  rw [Value.Representable]
  decide

theorem foldSequence_ensures (h : s.Open p owner id) :
    Ensures (foldSequence p) s (Rule.sequenceExpr.Outcome p s) := by
  unfold foldSequence
  refine .read (a := s) rfl ?_
  rw [h.node?]
  dsimp only
  split
  · rename_i expressions hn
    split
    · rename_i last hlast
      have hsplit : expressions = expressions.dropLast ++ [last] :=
        (List.dropLast_append_getLast? last hlast).symm
      generalize expressions.dropLast = leading at hsplit
      subst hsplit
      -- where nothing is kept, all items but the last are constant
      have constants : (leading.filter fun e => !s.isConstant e).isEmpty →
          ∀ e ∈ leading, (s.value? e).isSome := fun hkept e he => by
        rw [← s.isConstant_eq]
        simpa using List.filter_eq_nil_iff.mp (List.isEmpty_iff.mp hkept) e he
      split
      · rename_i hempty
        obtain rfl := List.isEmpty_iff.mp hempty
        exact swap_ensures h h.sound (.refl _) (.lastItem hn nofun)
      · rename_i hleading
        split
        · rename_i hkept
          rw [Bool.and_eq_true] at hkept
          split
          · exact .pure (.unchanged h.sound)
          · rename_i hone
            refine (toConst_ensures h.sound representable_zero).bind fun first s₁ ⟨hs₁, hg, hfirst⟩ => ?_
            refine rewrite_ensures (h.owns hn (by simp [Node.kind])) hs₁ hg
              (.firstItem (fun e he => ?_) ?_ hfirst)
            · obtain ⟨v, hv⟩ := Option.isSome_iff_exists.mp (constants hkept.1 e he)
              rw [h.sound.value?_of_grows hs₁ hg hv]
              rfl
            · have := List.length_pos_of_ne_nil (mt List.isEmpty_iff.mpr hleading)
              omega
        · rename_i hkept
          split
          · exact .pure (.unchanged h.sound)
          · rename_i hlen
            split
            · rename_i hempty
              exact swap_ensures h h.sound (.refl _) (.lastItem hn (constants hempty))
            · rename_i hne
              exact rewrite_ensures (h.owns hn (by simp [Node.kind])) h.sound (.refl _)
                (.leadingItems (mt List.isEmpty_iff.mpr hne) hlen)
    · exact .pure (.unchanged h.sound)
  · exact .pure (.unchanged h.sound)

theorem representable_item {items : List (Option Value)} {i : Nat} {v : Value}
    (h : Value.RepresentableItems items) (hi : items[i]? = some (some v)) : v.Representable := by
  induction items generalizing i with
  | nil => cases hi
  | cons item items ih =>
    rw [Value.RepresentableItems] at h
    cases i with
    | zero =>
      obtain rfl : item = some v := Option.some.inj hi
      exact h.1
    | succ i => exact ih h.2 hi

theorem representable_memberValue? {object v : Value} {prop : NodeId} {computed : Bool}
    (hobject : object.Representable) (hv : s.memberValue? object prop computed = some v) :
    v.Representable := by
  unfold Store.memberValue? at hv
  split at hv
  · obtain ⟨key, -, hv⟩ := Option.bind_eq_some_iff.mp hv
    obtain ⟨i, -, hv⟩ := Option.bind_eq_some_iff.mp hv
    cases object with
    | string text =>
      obtain ⟨u, -, hv⟩ := Option.bind_eq_some_iff.mp hv
      obtain ⟨c, -, hv⟩ := Option.bind_eq_some_iff.mp hv
      cases hv
      simp only [Value.Representable]
    | array items =>
      rw [Value.Representable] at hobject
      exact representable_item hobject (Option.join_eq_some_iff.mp hv)
    | _ => cases hv
  · split at hv
    · obtain ⟨n, -, rfl⟩ := Option.map_eq_some_iff.mp hv
      rw [Value.Representable]
      have hfinite := isFinite_ofLength n
      rw [isFinite_eq] at hfinite
      intro hinf
      simp [hinf] at hfinite
    · cases hv

theorem memberValue?_run (s : FoldState) (object : Value) (prop : NodeId) (computed : Bool) :
    memberValue? object prop computed s = .ok (s.memberValue? object prop computed) s := by
  cases computed with
  | true =>
    simp only [memberValue?, Store.memberValue?, bind, EStateM.bind, constant?_run, if_true]
    rfl
  | false =>
    simp only [memberValue?, Store.memberValue?, Bool.false_eq_true, if_false]
    change EStateM.bind (node prop) _ s = _
    have hnode : node prop s = .ok (s.tree.node prop) s := rfl
    rw [EStateM.bind, hnode]
    dsimp only
    generalize s.tree.node prop = n
    split
    · rfl
    · change EStateM.Result.ok none s = _
      simp only

theorem memberValue?_grows (h : s.Sound) {s' : Store} (hs' : s'.Sound) (hg : s.Grows s')
    {object v : Value} {prop : NodeId} {computed : Bool}
    (hv : s.memberValue? object prop computed = some v) :
    s'.memberValue? object prop computed = some v := by
  unfold Store.memberValue? at hv ⊢
  split at hv
  · rename_i hc
    obtain ⟨key, hkey, hv⟩ := Option.bind_eq_some_iff.mp hv
    rw [if_pos hc, h.value?_of_grows hs' hg hkey]
    exact hv
  · rename_i hc
    rw [if_neg hc]
    split at hv
    · rename_i hn
      rw [hg.tree.node (Tree.lt_size_of_node (by simp [hn])), hn]
      exact hv
    · cases hv

theorem foldOutsidePrologue_ensures (h : s.Open p owner id) {object prop : NodeId} {computed : Bool}
    {v w : Value} (hn : s.tree.node id = .memberExpression object prop computed)
    (hv : s.value? object = some v) (hw : s.memberValue? v prop computed = some w) :
    Ensures (foldOutsidePrologue p v w) s (Rule.memberExpr.Outcome p s) := by
  have hrep := representable_memberValue? (h.sound.representable_value? hv) hw
  unfold foldOutsidePrologue
  split
  · rename_i text
    split
    · exact .pure (.unchanged h.sound)
    · rename_i hlen
      rw [Bool.or_eq_true, not_or] at hlen
      refine (toConst_ensures h.sound hrep).bind fun first s₁ ⟨hs₁, hg₁, hfirst⟩ => ?_
      refine (toConst_ensures hs₁ representable_zero).bind fun index s₂ ⟨hs₂, hg₂, hindex⟩ => ?_
      have hfirst₂ : s₂.Holds (.string text) first := hs₁.value_of_grows hg₂ hfirst
      refine (alloc_ensures hs₂ (fun _ hx => by cases hx) fun c hc => ?_).bind
        fun b s₃ ⟨_, hs₃, hg₃, hb, hunused⟩ => ?_
      · simp only [Node.children, Node.slots, Slot.children, List.flatMap_cons, List.flatMap_nil,
          List.singleton_append, List.append_nil, List.mem_cons, List.not_mem_nil, or_false] at hc
        rcases hc with rfl | rfl
        · exact hs₂.lt_size_of_value hfirst₂
        · exact hs₂.lt_size_of_value hindex
      · have hg := (hg₁.trans hg₂).trans hg₃
        refine swap_ensures h hs₃ hg ?_
        exact .memberOfCharacter (h.node_of_grows hg hn) (h.sound.value?_of_grows hs₃ hg hv)
          (memberValue?_grows h.sound hs₃ hg hw) hlen.1 (by simpa using hlen.2)
          (hs₂.value_of_grows hg₃ hfirst₂) (hs₂.value_of_grows hg₃ hindex) hb hunused
  · refine swapConst_ensures h hrep fun s' b hg hs' hb => ?_
    exact .member (h.node_of_grows hg hn) (h.sound.value?_of_grows hs' hg hv)
      (memberValue?_grows h.sound hs' hg hw) hb

theorem string?_eq {n : Node NodeId} {text : String} (h : n.string? = some text) :
    n = .literal (.string text) := by
  unfold Node.string? at h
  split at h <;> cases h
  rfl

theorem foldMember_ensures (h : s.Open p owner id) :
    Ensures (foldMember p) s (Rule.memberExpr.Outcome p s) := by
  unfold foldMember
  refine .read (getTree_run s) ?_
  rw [h.node?]
  dsimp only
  split
  · rename_i object prop computed hn
    have howns := h.owns hn (by simp [Node.kind])
    generalize hrest : (if s.tree.isReferenceTarget p then _ else _) = rest
    have lookup : Ensures rest s (Rule.memberExpr.Outcome p s) := by
      subst hrest
      split
      · exact .pure (.unchanged h.sound)
      · refine .read (constant?_run s object) ?_
        split
        · rename_i v hv
          refine .read (memberValue?_run s v prop computed) ?_
          split
          · rename_i w hw
            split
            · exact foldOutsidePrologue_ensures h hn hv hw
            · refine swapConst_ensures h ?_ fun s' b hg hs' hb => ?_
              · exact representable_memberValue? (h.sound.representable_value? hv) hw
              · exact .member (h.node_of_grows hg hn) (h.sound.value?_of_grows hs' hg hv)
                  (memberValue?_grows h.sound hs' hg hw) hb
          · exact .pure (.unchanged h.sound)
        · exact .pure (.unchanged h.sound)
    split
    · rename_i hc
      subst hc
      split
      · rename_i name hname
        refine (alloc_ensures h.sound (n := .identifier name) (fun _ hx => by cases hx)
          (fun c hc => by cases hc)).bind fun key s₁ hadd => ?_
        obtain ⟨-, hs₁, hg, hkey, hunused⟩ := hadd
        refine rewrite_ensures howns hs₁ hg (.name ?_ hkey hunused)
        have hprop := string?_eq (Option.filter_eq_some_iff.mp hname).1
        rw [hg.tree.node (Tree.lt_size_of_node (by simp [hprop])), hprop]
      · exact lookup
    · exact lookup
  · exact .pure (.unchanged h.sound)

end FoldM

end ScriptFold

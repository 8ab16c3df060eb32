import ScriptFold.Proofs.Constant
import ScriptFold.Proofs.History
import ScriptFold.Value.Operator

/-!
The pool over any history of requests to it and edits of its tree. The tree may be any graph: what
the pool says rests on frozen nodes only. Each node that it remembers has the value of its own shape
over nodes that it remembered before, and what it has once answered for a primitive value it answers
ever after.
-/

namespace ScriptFold

theorem mapM_option_mono {α β : Type} {f g : α → Option β} (h : ∀ a b, f a = some b → g a = some b)
    {x : Option α} {y : Option β} (hx : x.mapM f = some y) : x.mapM g = some y := by
  cases x with
  | none => exact hx
  | some a =>
    obtain ⟨b, hb, rfl⟩ := Option.map_eq_some_iff.mp hx
    exact Option.map_eq_some_iff.mpr ⟨b, h a b hb, rfl⟩

theorem mapM_list_mono {α β : Type} {f g : α → Option β} (h : ∀ a b, f a = some b → g a = some b)
    {xs : List α} {ys : List β} (hxs : xs.mapM f = some ys) : xs.mapM g = some ys :=
  mapM_of_forall₂ ((forall₂_of_mapM hxs).imp h)

/-- The value of an expression by its operator, where the values of its operands are known. -/
def Node.evaluate? (operand : NodeId → Option Value) : Node NodeId → Option Value
  | .literal l => l.value?
  | .unaryExpression operator argument => (operand argument).map operator.evaluate
  | .binaryExpression operator left right => do
    operator.evaluate? (← operand left) (← operand right)
  | .arrayExpression elements => .array <$> elements.mapM fun element => element.mapM operand
  | _ => none

theorem Node.evaluate?_mono {f g : NodeId → Option Value} (h : ∀ c v, f c = some v → g c = some v)
    {n : Node NodeId} {v : Value} (hv : n.evaluate? f = some v) : n.evaluate? g = some v := by
  cases n <;> try exact hv
  case unaryExpression operator argument =>
    obtain ⟨w, hw, rfl⟩ := Option.map_eq_some_iff.mp hv
    exact Option.map_eq_some_iff.mpr ⟨w, h _ _ hw, rfl⟩
  case binaryExpression operator left right =>
    obtain ⟨x, hx, hv⟩ := Option.bind_eq_some_iff.mp hv
    obtain ⟨y, hy, hv⟩ := Option.bind_eq_some_iff.mp hv
    exact Option.bind_eq_some_iff.mpr
      ⟨x, h _ _ hx, Option.bind_eq_some_iff.mpr ⟨y, h _ _ hy, hv⟩⟩
  case arrayExpression elements =>
    obtain ⟨items, hitems, rfl⟩ := Option.map_eq_some_iff.mp hv
    refine Option.map_eq_some_iff.mpr ⟨items, ?_, rfl⟩
    exact mapM_list_mono (fun _ _ => mapM_option_mono h) hitems

def Tree.evaluateTo? (t : Tree) : Nat → NodeId → Option Value
  | 0, _ => none
  | depth + 1, id => (t.node id).evaluate? (t.evaluateTo? depth)

/-- The value of a closed expression by its shape alone. -/
def Tree.evaluate? (t : Tree) (id : NodeId) : Option Value :=
  t.evaluateTo? t.size id

/-- What can be asked of a pool. -/
inductive Request where
  | toNode (v : Value)
  | undefined
  | nan
  | negativeZero
  | null
  | emptyStatement
  | minifiedBool (b : Bool)

def Request.run : Request → EStateM FoldError Store NodeId
  | .toNode v => v.toNode
  | .undefined => modifyGet Store.undefined
  | .nan => modifyGet Store.nan
  | .negativeZero => modifyGet Store.negativeZero
  | .null => modifyGet Store.null
  | .emptyStatement => modifyGet Store.emptyStatement
  | .minifiedBool b => modifyGet fun s => s.minifiedBool b

/-- A request to the pool, or an operation on its tree. -/
inductive Event where
  | request (request : Request)
  | edit (op : Operation)

/-- The store after a request, answered or not, or an operation, refused or not. -/
def Store.after (s : Store) : Event → Store
  | .request request =>
    match request.run s with
    | .ok _ s' => s'
    | .error _ s' => s'
  | .edit op => { s with tree := s.tree.perform op }

def Store.afterAll (s : Store) (events : List Event) : Store :=
  events.foldl Store.after s

namespace Value

/-- A value of which the pool keeps one node. -/
def IsPrimitive : Value → Prop
  | .array _ => False
  | _ => True

/-- Two values that are the same, with numbers told apart by their bits and all NaNs alike. -/
def Identical : Value → Value → Prop
  | .number x, .number y => x.toBits = y.toBits ∨ x.isNaN ∧ y.isNaN
  | v, w => v = w

theorem identical_iff {v w : Value} : v.Identical w ↔ v = w := by
  unfold Identical
  split
  · rename_i x y
    rw [Value.number.injEq]
    constructor
    · rintro (h | ⟨hx, hy⟩)
      · rw [← ofBits_toBits x, h, ofBits_toBits]
      · rw [eq_nan hx, eq_nan hy]
    · rintro rfl
      exact .inl rfl
  · exact Iff.rfl

end Value

def Request.primitive? : Request → Option Value
  | .toNode (.array _) => none
  | .toNode v => some v
  | .undefined => some .undefined
  | .nan => some (.number (0 / 0))
  | .negativeZero => some (.number (-0))
  | .null => some .null
  | .emptyStatement | .minifiedBool _ => none

theorem Request.run_of_primitive {r : Request} {v : Value} (h : r.primitive? = some v) :
    v.IsPrimitive ∧ r.run = v.toNode := by
  cases r with
  | toNode w => cases w <;> cases h <;> exact ⟨trivial, rfl⟩
  | undefined | null =>
    cases h
    refine ⟨trivial, ?_⟩
    rw [Value.toNode]
    rfl
  | nan =>
    cases h
    refine ⟨trivial, ?_⟩
    have hnan : (0 / 0 : Float).isNaN := by decide
    rw [Value.toNode, if_pos hnan]
    rfl
  | negativeZero =>
    cases h
    refine ⟨trivial, ?_⟩
    have hnan : ¬ (-0 : Float).isNaN := by decide
    have hfinite : (!(-0 : Float).isFinite) = false := by decide
    have hzero : Constant.ofNumber (-0) = .negated (0 : Float).toBits := by decide
    rw [Value.toNode, if_neg hnan, hfinite, if_neg Bool.false_ne_true, hzero]
    rfl
  | emptyStatement | minifiedBool => cases h

namespace Store

/-- The node that the pool keeps for a primitive value, if it was asked for it. -/
def known? (s : Store) : Value → Option NodeId
  | .undefined => s.pool.undefined
  | .null => s.pool.interned[Constant.null]?
  | .bool b => s.pool.interned[Constant.bool b]?
  | .string text => s.pool.interned[Constant.string text]?
  | .number x => if x.isNaN then s.pool.nan else s.pool.interned[Constant.ofNumber x]?
  | .array _ => none

/-- What is remembered of the nodes before a given one. -/
def earlier (s : Store) (id c : NodeId) : Option Value :=
  if c < id then s.pool.values[c]? else none

/-- A pool that tells the truth about the frozen nodes it has made. -/
structure Faithful (s : Store) : Prop where
  frozen : ∀ {id : NodeId} {v}, s.pool.values[id]? = some v → s.tree.isFrozen id
  shape : ∀ {id : NodeId} {v}, s.pool.values[id]? = some v →
    (s.tree.node id).evaluate? (s.earlier id) = some v
  interned : ∀ {c : Constant} {id}, s.pool.interned[c]? = some id →
    s.pool.values[id]? = some c.value
  undefined : ∀ {id}, s.pool.undefined = some id → s.pool.values[id]? = some .undefined
  nan : ∀ {id}, s.pool.nan = some id → s.pool.values[id]? = some (.number (0 / 0))
  minified : ∀ {b : Bool} {id}, (if b then s.pool.minifiedTrue else s.pool.minifiedFalse) = some id →
    s.pool.values[id]? = some (.bool b)

/-- One store is what has become of another: it has forgotten nothing. -/
structure Later (s s' : Store) : Prop where
  tree : s.tree.Becomes s'.tree
  values : ∀ {id : NodeId} {v}, s.pool.values[id]? = some v → s'.pool.values[id]? = some v
  interned : ∀ {c : Constant} {id}, s.pool.interned[c]? = some id → s'.pool.interned[c]? = some id
  undefined : ∀ {id}, s.pool.undefined = some id → s'.pool.undefined = some id
  nan : ∀ {id}, s.pool.nan = some id → s'.pool.nan = some id

namespace Later

variable {s s' s'' : Store}

theorem refl (s : Store) : s.Later s :=
  ⟨.refl _, id, id, id, id⟩

theorem trans (h : s.Later s') (h' : s'.Later s'') : s.Later s'' where
  tree := h.tree.trans h'.tree
  values hv := h'.values (h.values hv)
  interned hc := h'.interned (h.interned hc)
  undefined hu := h'.undefined (h.undefined hu)
  nan hn := h'.nan (h.nan hn)

theorem known? (h : s.Later s') {v : Value} {id : NodeId} (hv : s.known? v = some id) :
    s'.known? v = some id := by
  cases v with
  | undefined => exact h.undefined hv
  | null | bool | string => exact h.interned hv
  | array => cases hv
  | number x =>
    unfold Store.known? at hv ⊢
    dsimp only at hv ⊢
    split at hv
    · rw [if_pos ‹_›]
      exact h.nan hv
    · rw [if_neg ‹_›]
      exact h.interned hv

end Later

/-- The outcome of a request: a node that the pool remembers with a given value. -/
structure Answers (s : Store) (v : Value) (r : NodeId × Store) : Prop where
  faithful : r.2.Faithful
  later : s.Later r.2
  value : r.2.pool.values[r.1]? = some v

theorem Answers.after_of_later {s s' : Store} {v : Value} {r : NodeId × Store} (h : s.Later s')
    (ha : s'.Answers v r) : s.Answers v r :=
  ⟨ha.faithful, h.trans ha.later, ha.value⟩

namespace Faithful

variable {s : Store} {id : NodeId} {v : Value}

theorem lt_size (h : s.Faithful) (hv : s.pool.values[id]? = some v) : id < s.tree.size :=
  Tree.lt_size_of_frozen (h.frozen hv)

theorem earlier_eq_some {c : NodeId} (h : s.earlier id c = some v) :
    c < id ∧ s.pool.values[c]? = some v := by
  unfold earlier at h
  split at h
  · exact ⟨‹_›, h⟩
  · cases h

theorem evaluateTo?_eq (h : s.Faithful) (hv : s.pool.values[id]? = some v) {depth : Nat}
    (hdepth : id < depth) : s.tree.evaluateTo? depth id = some v := by
  induction id using Nat.strong_induction_on generalizing v depth with
  | _ id ih =>
    cases depth with
    | zero => exact absurd hdepth (Nat.not_lt_zero id)
    | succ depth =>
      refine Node.evaluate?_mono (fun c w hc => ?_) (h.shape hv)
      obtain ⟨hlt, hw⟩ := earlier_eq_some hc
      exact ih c hlt hw (hlt.trans_le (Nat.le_of_lt_succ hdepth))

theorem evaluate?_eq (h : s.Faithful) (hv : s.pool.values[id]? = some v) :
    s.tree.evaluate? id = some v :=
  h.evaluateTo?_eq hv (h.lt_size hv)

theorem valueOf_eq (h : s.Faithful) (hv : s.pool.values[id]? = some v) :
    s.isConstant id ∧ s.valueOf id = .ok v := by
  obtain ⟨depth, hdepth⟩ := Nat.exists_eq_add_one_of_ne_zero (Nat.ne_zero_of_lt (h.lt_size hv))
  have hvalue : s.valueOf id = .ok v := by
    rw [valueOf, hdepth, valueTo, hv]
  refine ⟨?_, hvalue⟩
  have hsome : (s.value? id).isSome := by
    rw [value?, show s.valueTo s.tree.size id = .ok v from hvalue]
    rfl
  exact (s.isConstant_eq id).trans hsome

/-- Operations on the tree leave the frozen nodes, and so the pool stays faithful. -/
theorem of_becomes (h : s.Faithful) {t : Tree} (ht : s.tree.Becomes t) :
    Faithful { s with tree := t } where
  frozen hv := (ht.isFrozen (h.lt_size hv)).trans (h.frozen hv)
  shape hv := by
    change (t.node _).evaluate? _ = _
    rw [ht.frozen (h.frozen hv)]
    exact h.shape hv
  interned := h.interned
  undefined := h.undefined
  nan := h.nan
  minified := h.minified

theorem answers_freeze (h : s.Faithful) {n : Node NodeId} (minified : Bool)
    (hn : n.evaluate? (fun c => s.pool.values[c]?) = some v) :
    s.Answers v (s.freeze n (some v) minified) := by
  have hg := Tree.Grows.alloc s.tree n { frozen := true, minified := minified }
  have old : ∀ {c w}, s.pool.values[c]? = some w →
      (s.freeze n (some v) minified).2.pool.values[c]? = some w := fun {c w} hw => by
    rw [values_freeze, if_neg (h.lt_size hw).ne]
    exact hw
  have new : (s.freeze n (some v) minified).2.pool.values[s.tree.size]? = some v := by
    rw [values_freeze, if_pos rfl]
  have hf := isFrozen_freeze s n (some v) minified
  refine ⟨⟨fun {c w} hw => ?_, fun {c w} hw => ?_, fun hc => old (h.interned hc),
    fun hu => old (h.undefined hu), fun hn => old (h.nan hn), fun {b c} hb => old (h.minified hb)⟩,
    ⟨.of_grows hg, old, id, id, id⟩, new⟩
  · rw [values_freeze] at hw
    split at hw
    · subst c
      exact hf.1
    · exact (hg.isFrozen (h.lt_size hw)).trans (h.frozen hw)
  · rw [values_freeze] at hw
    split at hw
    · subst c
      obtain rfl : v = w := Option.some.inj hw
      rw [hf.2]
      refine Node.evaluate?_mono (fun c w hc => ?_) hn
      have hlt := h.lt_size hc
      exact (if_pos hlt).trans (old hc)
    · rw [tree_freeze, hg.node (h.lt_size hw)]
      refine Node.evaluate?_mono (fun x y hx => ?_) (h.shape hw)
      obtain ⟨hlt, hy⟩ := earlier_eq_some hx
      exact (if_pos hlt).trans (old hy)

theorem answers_addConstant (h : s.Faithful) {c : Constant} {n : Node NodeId}
    (hc : s.pool.interned[c]? = none)
    (hn : n.evaluate? (fun x => s.pool.values[x]?) = some c.value) :
    s.Answers c.value (s.addConstant c n) ∧
      (s.addConstant c n).2.pool.interned[c]? = some (s.addConstant c n).1 := by
  have ha := h.answers_freeze false hn
  have lookup : ∀ c' : Constant, (s.addConstant c n).2.pool.interned[c']? =
      if c == c' then some s.tree.size else s.pool.interned[c']? := fun c' =>
    Std.HashMap.getElem?_insert
  refine ⟨⟨⟨ha.faithful.frozen, ha.faithful.shape, fun {c' id} hc' => ?_, ha.faithful.undefined,
    ha.faithful.nan, ha.faithful.minified⟩, ⟨ha.later.tree, ha.later.values, fun {c' id} hc' => ?_,
    ha.later.undefined, ha.later.nan⟩, ha.value⟩, ?_⟩
  · rw [lookup] at hc'
    split at hc'
    · obtain rfl := eq_of_beq ‹_›
      obtain rfl := Option.some.inj hc'
      exact ha.value
    · exact ha.faithful.interned hc'
  · rw [lookup, if_neg]
    · exact hc'
    · intro heq
      obtain rfl := eq_of_beq heq
      rw [hc] at hc'
      cases hc'
  · rw [lookup, if_pos (beq_self_eq_true c)]
    rfl

theorem answers_internLiteral (h : s.Faithful) {c : Constant} (hc : c.literal.value? = some c.value) :
    s.Answers c.value (s.internLiteral c) ∧
      (s.internLiteral c).2.pool.interned[c]? = some (s.internLiteral c).1 := by
  unfold Store.internLiteral
  split
  · exact ⟨⟨h, .refl s, h.interned ‹_›⟩, ‹_›⟩
  · exact h.answers_addConstant ‹_› hc

theorem answers_intern (h : s.Faithful) (c : Constant) :
    s.Answers c.value (s.intern c) ∧ (s.intern c).2.pool.interned[c]? = some (s.intern c).1 := by
  unfold Store.intern
  split
  · rename_i bits
    split
    · exact ⟨⟨h, .refl s, h.interned ‹_›⟩, ‹_›⟩
    · rename_i hnone
      obtain ⟨ha, -⟩ := h.answers_internLiteral (c := .number bits) rfl
      have hmiss : (s.internLiteral (.number bits)).2.pool.interned[Constant.negated bits]? = none := by
        unfold Store.internLiteral
        split
        · exact hnone
        · change (s.pool.interned.insert _ _)[_]? = none
          rw [Std.HashMap.getElem?_insert, if_neg (by simp)]
          exact hnone
      obtain ⟨hneg, hknown⟩ := ha.faithful.answers_addConstant (c := .negated bits)
        (n := .unaryExpression .minus (s.internLiteral (.number bits)).1) hmiss (by
          change Option.map _ ((s.internLiteral (.number bits)).2.pool.values[_]?) = _
          rw [ha.value]
          rfl)
      exact ⟨hneg.after_of_later ha.later, hknown⟩
  · rename_i hc
    refine h.answers_internLiteral ?_
    cases c with
    | negated bits => exact absurd rfl (hc bits)
    | null | bool | number | string => rfl

theorem answers_over (h : s.Faithful) {x : Float} {n : NodeId → Node NodeId} (minified : Bool)
    (hn : ∀ a operand, operand a = some (.number x) → (n a).evaluate? operand = some v) :
    s.Answers v ((s.intern (.number x.toBits)).2.freeze (n (s.intern (.number x.toBits)).1)
      (some v) minified) := by
  obtain ⟨ha, -⟩ := h.answers_intern (.number x.toBits)
  have hx := ha.value
  rw [Constant.value, ofBits_toBits] at hx
  exact (ha.faithful.answers_freeze minified (hn _ _ hx)).after_of_later ha.later

theorem answers_undefined (h : s.Faithful) : s.Answers .undefined s.undefined ∧
    s.undefined.2.pool.undefined = some s.undefined.1 := by
  unfold Store.undefined
  split
  · exact ⟨⟨h, .refl s, h.undefined ‹_›⟩, ‹_›⟩
  · have ha := h.answers_over (x := 0) (n := .unaryExpression .void) (v := .undefined) false
      fun a operand ho => by
        change (operand a).map _ = _
        rw [ho]
        rfl
    refine ⟨⟨?_, ⟨ha.later.tree, ha.later.values, ha.later.interned, fun {id} hu => ?_, ha.later.nan⟩,
      ha.value⟩, rfl⟩
    · exact { ha.faithful with undefined := fun hu => Option.some.inj hu ▸ ha.value }
    · rw [‹s.pool.undefined = none›] at hu
      cases hu

theorem answers_nan (h : s.Faithful) : s.Answers (.number (0 / 0)) s.nan ∧
    s.nan.2.pool.nan = some s.nan.1 := by
  unfold Store.nan
  split
  · exact ⟨⟨h, .refl s, h.nan ‹_›⟩, ‹_›⟩
  · have ha := h.answers_over (x := 0) (n := fun a => .binaryExpression .div a a)
      (v := .number (0 / 0)) false fun a operand ho => by
        change (do BinaryOp.div.evaluate? (← operand a) (← operand a)) = _
        rw [ho]
        rfl
    refine ⟨⟨?_, ⟨ha.later.tree, ha.later.values, ha.later.interned, ha.later.undefined,
      fun {id} hn => ?_⟩, ha.value⟩, rfl⟩
    · exact { ha.faithful with nan := fun hn => Option.some.inj hn ▸ ha.value }
    · rw [‹s.pool.nan = none›] at hn
      cases hn

theorem answers_minifiedBool (h : s.Faithful) (b : Bool) :
    s.Answers (.bool b) (s.minifiedBool b) := by
  unfold Store.minifiedBool
  split
  · exact ⟨h, .refl s, h.minified ‹_›⟩
  · have ha := h.answers_over (x := if b then 0 else 1) (n := .unaryExpression .not) (v := .bool b)
      true fun a operand ho => by
        change (operand a).map _ = _
        rw [ho]
        cases b <;> rfl
    cases b with
    | false =>
      refine ⟨?_, ⟨ha.later.tree, ha.later.values, ha.later.interned, ha.later.undefined,
        ha.later.nan⟩, ha.value⟩
      exact
        { ha.faithful with
          minified := fun {b id} hb => by
            cases b with
            | false => exact Option.some.inj hb ▸ ha.value
            | true => exact ha.faithful.minified (b := true) hb }
    | true =>
      refine ⟨?_, ⟨ha.later.tree, ha.later.values, ha.later.interned, ha.later.undefined,
        ha.later.nan⟩, ha.value⟩
      exact
        { ha.faithful with
          minified := fun {b id} hb => by
            cases b with
            | false => exact ha.faithful.minified (b := false) hb
            | true => exact Option.some.inj hb ▸ ha.value }

theorem later_emptyStatement (h : s.Faithful) :
    s.emptyStatement.2.Faithful ∧ s.Later s.emptyStatement.2 := by
  unfold Store.emptyStatement
  split
  · exact ⟨h, .refl s⟩
  · have hb : s.tree.Becomes (s.tree.alloc .emptyStatement { frozen := true }).2 :=
      .of_grows (.alloc _ _ _)
    have hf := h.of_becomes hb
    exact ⟨⟨hf.frozen, hf.shape, hf.interned, hf.undefined, hf.nan, hf.minified⟩,
      ⟨hb, id, id, id, id⟩⟩

end Faithful

end Store

namespace Value

open Store

mutual

theorem toNode_cases {s : Store} (h : s.Faithful) : ∀ v : Value,
    (v.Representable ∧ ∃ id s', v.toNode s = .ok id s' ∧ s.Answers v (id, s') ∧
      (v.IsPrimitive → s'.known? v = some id)) ∨
    ¬ v.Representable ∧ ∃ e s', v.toNode s = .error e s' ∧ s'.Faithful ∧ s.Later s'
  | .undefined => by
    obtain ⟨ha, hk⟩ := h.answers_undefined
    exact .inl ⟨trivial, _, _, by rw [toNode]; rfl, ha, fun _ => hk⟩
  | .null => by
    obtain ⟨ha, hk⟩ := h.answers_intern .null
    exact .inl ⟨trivial, _, _, by rw [toNode]; rfl, ha, fun _ => hk⟩
  | .bool b => by
    obtain ⟨ha, hk⟩ := h.answers_intern (.bool b)
    exact .inl ⟨trivial, _, _, by rw [toNode]; rfl, ha, fun _ => hk⟩
  | .string text => by
    obtain ⟨ha, hk⟩ := h.answers_intern (.string text)
    exact .inl ⟨trivial, _, _, by rw [toNode]; rfl, ha, fun _ => hk⟩
  | .number x => by
    rw [Representable, toNode]
    simp only [known?]
    by_cases hn : x.isNaN
    · obtain ⟨ha, hk⟩ := h.answers_nan
      -- there is one NaN, so its shared node has just this value
      obtain rfl := eq_nan hn
      refine .inl ⟨by decide, s.nan.1, s.nan.2, ?_, ha, fun _ => ?_⟩
      · rw [if_pos hn]
        rfl
      · rw [if_pos hn]
        exact hk
    · simp only [if_neg hn]
      have hfinite := isFinite_eq x
      rw [Bool.eq_false_of_not_eq_true hn, Bool.not_false, Bool.true_and] at hfinite
      by_cases hi : x.isInf
      · refine .inr ⟨not_not_intro hi, .notRepresentable (numberToString x), s, ?_, h, .refl s⟩
        rw [hfinite, hi]
        rfl
      · obtain ⟨ha, hk⟩ := h.answers_intern (.ofNumber x)
        rw [Constant.value_ofNumber] at ha
        refine .inl ⟨hi, _, _, ?_, ha, fun _ => hk⟩
        rw [hfinite, Bool.eq_false_of_not_eq_true hi]
        rfl
  | .array items => by
    rw [Representable, toNode]
    -- a refused array leaves the nodes of the items before the one that has none
    rcases itemNodes_cases h items with ⟨hr, es, s₁, hrun, hf, hl, hes⟩ | ⟨hr, e, s₁, hrun, hf, hl⟩
    · have ha := hf.answers_freeze (n := .arrayExpression es) (v := .array items) false
        (Option.map_eq_some_iff.mpr ⟨items, hes, rfl⟩)
      refine .inl ⟨hr, _, _, ?_, ha.after_of_later hl, False.elim⟩
      change EStateM.bind _ _ _ = _
      rw [EStateM.bind, hrun]
      rfl
    · refine .inr ⟨hr, e, s₁, ?_, hf, hl⟩
      change EStateM.bind _ _ _ = _
      rw [EStateM.bind, hrun]

theorem itemNodes_cases {s : Store} (h : s.Faithful) : ∀ items : List (Option Value),
    (RepresentableItems items ∧ ∃ es s', itemNodes items s = .ok es s' ∧ s'.Faithful ∧ s.Later s' ∧
      (es.mapM fun e => e.mapM fun c => s'.pool.values[c]?) = some items) ∨
    ¬ RepresentableItems items ∧ ∃ e s', itemNodes items s = .error e s' ∧ s'.Faithful ∧ s.Later s'
  | [] => .inl ⟨trivial, [], s, by rw [itemNodes]; rfl, h, .refl s, rfl⟩
  | item :: items => by
    rw [RepresentableItems, itemNodes]
    rcases itemNode_cases h item with ⟨hr, e, s₁, hrun, hf, hl, he⟩ | ⟨hr, e, s₁, hrun, hf, hl⟩
    · rcases itemNodes_cases hf items with
        ⟨hr', es, s₂, hrun', hf', hl', hes⟩ | ⟨hr', e', s₂, hrun', hf', hl'⟩
      · refine .inl ⟨⟨hr, hr'⟩, e :: es, s₂, ?_, hf', hl.trans hl', ?_⟩
        · simp only [bind, EStateM.bind, hrun, hrun']
          rfl
        · have he' := mapM_option_mono (fun _ _ => hl'.values) he
          rw [List.mapM_cons, he', hes]
          rfl
      · refine .inr ⟨fun hboth => hr' hboth.2, e', s₂, ?_, hf', hl.trans hl'⟩
        simp only [bind, EStateM.bind, hrun, hrun']
    · refine .inr ⟨fun hboth => hr hboth.1, e, s₁, ?_, hf, hl⟩
      simp only [bind, EStateM.bind, hrun]

theorem itemNode_cases {s : Store} (h : s.Faithful) : ∀ item : Option Value,
    (RepresentableItem item ∧ ∃ e s', itemNode item s = .ok e s' ∧ s'.Faithful ∧ s.Later s' ∧
      (e.mapM fun c => s'.pool.values[c]?) = some item) ∨
    ¬ RepresentableItem item ∧ ∃ e s', itemNode item s = .error e s' ∧ s'.Faithful ∧ s.Later s'
  | none => .inl ⟨trivial, none, s, by rw [itemNode]; rfl, h, .refl s, rfl⟩
  | some v => by
    rw [RepresentableItem, itemNode]
    rcases toNode_cases h v with ⟨hr, id, s₁, hrun, ha, -⟩ | ⟨hr, e, s₁, hrun, hf, hl⟩
    · refine .inl ⟨hr, some id, s₁, ?_, ha.faithful, ha.later, ?_⟩
      · simp only [bind, EStateM.bind, hrun]
        rfl
      · exact Option.map_eq_some_iff.mpr ⟨v, ha.value, rfl⟩
    · refine .inr ⟨hr, e, s₁, ?_, hf, hl⟩
      simp only [bind, EStateM.bind, hrun]

end

variable {s : Store}

theorem answers_of_toNode (h : s.Faithful) {v : Value} {id : NodeId} {s' : Store}
    (hrun : v.toNode s = .ok id s') :
    s.Answers v (id, s') ∧ (v.IsPrimitive → s'.known? v = some id) := by
  rcases toNode_cases h v with ⟨-, id', s₁, hrun', ha, hk⟩ | ⟨-, e, s₁, hrun', -⟩
  · rw [hrun] at hrun'
    cases hrun'
    exact ⟨ha, hk⟩
  · rw [hrun] at hrun'
    cases hrun'

theorem toNode_error_iff (h : s.Faithful) (v : Value) :
    (∃ e s', v.toNode s = .error e s') ↔ ¬ v.Representable := by
  rcases toNode_cases h v with ⟨hr, id, s₁, hrun, -⟩ | ⟨hr, e, s₁, hrun, -⟩
  · refine ⟨?_, fun hnot => absurd hr hnot⟩
    rintro ⟨e, s', herror⟩
    rw [hrun] at herror
    cases herror
  · exact ⟨fun _ => hr, fun _ => ⟨e, s₁, hrun⟩⟩

theorem toNode_of_known {v : Value} {id : NodeId} (hk : s.known? v = some id)
    (hv : v.Representable) : v.toNode s = .ok id s := by
  have literal : ∀ {c : Constant}, s.pool.interned[c]? = some id → s.intern c = (id, s) := by
    intro c hc
    cases c <;> simp only [Store.intern, Store.internLiteral, hc]
  cases v with
  | undefined =>
    have hu : s.undefined = (id, s) := by
      simp only [Store.undefined, show s.pool.undefined = some id from hk]
    rw [toNode]
    exact congrArg (fun r : NodeId × Store => EStateM.Result.ok r.1 r.2) hu
  | null | bool | string =>
    rw [toNode]
    exact congrArg (fun r : NodeId × Store => EStateM.Result.ok r.1 r.2) (literal hk)
  | array => cases hk
  | number x =>
    have hinf : ¬ x.isInf := hv
    simp only [Store.known?] at hk
    rw [toNode]
    split at hk
    · have hn : s.nan = (id, s) := by
        simp only [Store.nan, hk]
      rw [if_pos ‹_›]
      exact congrArg (fun r : NodeId × Store => EStateM.Result.ok r.1 r.2) hn
    · rename_i hnan
      have hfinite : x.isFinite := by
        rw [isFinite_eq, Bool.eq_false_of_not_eq_true hnan, Bool.eq_false_of_not_eq_true hinf]
        rfl
      rw [if_neg hnan, hfinite]
      exact congrArg (fun r : NodeId × Store => EStateM.Result.ok r.1 r.2) (literal hk)

end Value

namespace Store

variable {s : Store}

/-- An event keeps the pool faithful, and makes it forget nothing. -/
theorem Faithful.after (h : s.Faithful) (event : Event) :
    (s.after event).Faithful ∧ s.Later (s.after event) := by
  cases event with
  | edit op =>
    have hb := Tree.perform_becomes s.tree op
    exact ⟨h.of_becomes hb, hb, id, id, id, id⟩
  | request r =>
    cases r with
    | toNode v =>
      unfold Store.after Request.run
      dsimp only
      rcases Value.toNode_cases h v with ⟨-, id, s', hrun, ha, -⟩ | ⟨-, e, s', hrun, hf, hl⟩
      · rw [hrun]
        exact ⟨ha.faithful, ha.later⟩
      · rw [hrun]
        exact ⟨hf, hl⟩
    | undefined => exact ⟨h.answers_undefined.1.faithful, h.answers_undefined.1.later⟩
    | nan => exact ⟨h.answers_nan.1.faithful, h.answers_nan.1.later⟩
    | negativeZero =>
      obtain ⟨ha, -⟩ := h.answers_intern (.negated (0 : Float).toBits)
      exact ⟨ha.faithful, ha.later⟩
    | null =>
      obtain ⟨ha, -⟩ := h.answers_intern .null
      exact ⟨ha.faithful, ha.later⟩
    | emptyStatement => exact h.later_emptyStatement
    | minifiedBool b => exact ⟨(h.answers_minifiedBool b).faithful, (h.answers_minifiedBool b).later⟩

theorem Faithful.afterAll (h : s.Faithful) (events : List Event) :
    (s.afterAll events).Faithful ∧ s.Later (s.afterAll events) := by
  induction events generalizing s with
  | nil => exact ⟨h, .refl s⟩
  | cons event events ih =>
    obtain ⟨hf, hl⟩ := h.after event
    exact ⟨(ih hf).1, hl.trans (ih hf).2⟩

theorem faithful_empty (t : Tree) : Faithful { tree := t } where
  frozen hv := by simp at hv
  shape hv := by simp at hv
  interned hc := by simp at hc
  undefined hu := by cases hu
  nan hn := by cases hn
  minified {b _} hb := by cases b <;> cases hb

/-- The node of a primitive value is the answer whenever it is asked for, and the answer to nothing
else. -/
theorem Faithful.answer_eq_iff (h : s.Faithful) {v w : Value} {id id' : NodeId} {s' s'' : Store}
    (hv : v.IsPrimitive) (hrun : v.toNode s = .ok id s') (events : List Event)
    (hrun' : w.toNode (s'.afterAll events) = .ok id' s'') : id' = id ↔ v = w := by
  obtain ⟨ha, hknown⟩ := Value.answers_of_toNode h hrun
  obtain ⟨hf, hl⟩ := ha.faithful.afterAll events
  constructor
  · rintro rfl
    have ha' := (Value.answers_of_toNode hf hrun').1
    have hboth := ha'.later.values (hl.values ha.value)
    rw [ha'.value] at hboth
    exact (Option.some.inj hboth).symm
  · rintro rfl
    have hr : v.Representable := by
      by_contra hnot
      obtain ⟨e, s₁, herror⟩ := (Value.toNode_error_iff hf v).mpr hnot
      rw [hrun'] at herror
      cases herror
    rw [Value.toNode_of_known (hl.known? (hknown hv)) hr] at hrun'
    injection hrun' with hid
    exact hid.symm

end Store

/-- A pool tells the truth after any events on any tree. It refuses exactly the values with an infinite
number in them; the node it gives for a value is frozen, and constant with that value ever after; two
requests for primitive values have the same answer exactly if the values are the same; and whatever it
remembers of a node is the value of that node's shape. -/
theorem Tree.pool_faithful (t : Tree) (earlier : List Event) :
    let s := Store.afterAll { tree := t } earlier
    (∀ v : Value, (∃ e s', v.toNode s = .error e s') ↔ ¬ v.Representable) ∧
    (∀ (v : Value) id s', v.toNode s = .ok id s' → ∀ later, let s'' := s'.afterAll later
      s''.tree.isFrozen id ∧ s''.isConstant id ∧ s''.valueOf id = .ok v) ∧
    (∀ (q r : Request) v w id s' between id' s'', q.primitive? = some v → r.primitive? = some w →
      q.run s = .ok id s' → r.run (s'.afterAll between) = .ok id' s'' →
      (id' = id ↔ v.Identical w)) ∧
    ∀ (id : NodeId) v, s.pool.values[id]? = some v → s.tree.evaluate? id = some v := by
  intro s
  have hs : s.Faithful := ((Store.faithful_empty t).afterAll earlier).1
  refine ⟨Value.toNode_error_iff hs, fun v id s' hrun later => ?_,
    fun q r v w id s' between id' s'' hq hr hrun hrun' => ?_, fun id v hv => hs.evaluate?_eq hv⟩
  · obtain ⟨ha, -⟩ := Value.answers_of_toNode hs hrun
    obtain ⟨hf, hl⟩ := ha.faithful.afterAll later
    have hv := hl.values ha.value
    exact ⟨hf.frozen hv, hf.valueOf_eq hv⟩
  · obtain ⟨hv, hqv⟩ := Request.run_of_primitive hq
    obtain ⟨-, hrw⟩ := Request.run_of_primitive hr
    rw [hqv] at hrun
    rw [hrw] at hrun'
    rw [Value.identical_iff]
    exact hs.answer_eq_iff hv hrun between hrun'

/-- After a refused array `undefined` is asked for; it is asked for again when another constant has
been made and the program been given up. -/
theorem Tree.pool_faithful_undefined :
    let s := Store.afterAll { tree := Tree.empty }
      [.request (.toNode (.array [some (.bool true), some (.number (1 / 0))]))]
    let between : List Event := [.request (.minifiedBool true), .edit (.setRoot 1)]
    ∃ id s' id' s'', Request.run (.toNode .undefined) s = .ok id s' ∧
      Request.undefined.run (s'.afterAll between) = .ok id' s'' ∧ id' = id ∧
      (s'.afterAll between).valueOf id = .ok .undefined := by
  intro s between
  obtain ⟨-, hvalue, hsame, -⟩ := pool_faithful Tree.empty
    [.request (.toNode (.array [some (.bool true), some (.number (1 / 0))]))]
  refine ⟨_, _, _, _, rfl, rfl, ?_, ?_⟩
  · exact (hsame (.toNode .undefined) .undefined .undefined .undefined _ _ between _ _ rfl rfl rfl
      rfl).mpr (Value.identical_iff.mpr rfl)
  · exact (hvalue .undefined _ _ rfl between).2.2

end ScriptFold

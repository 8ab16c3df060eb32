import ScriptFold.Proofs.Admit
import ScriptFold.Proofs.Weight

/-!
Why folding comes to rest: every change by a rule takes weight away. A shared constant weighs no
more than what it may take the place of, and what is made of several nodes weighs less than they
do.
-/

namespace ScriptFold

theorem BinaryOp.bulk_of_evaluate? {op : BinaryOp} {x y v : Value} (h : op.evaluate? x y = some v) :
    v.bulk = 1 := by
  cases op <;> cases h <;> try simp only [Value.bulk]
  unfold Value.add
  split <;> simp only [Value.bulk]

theorem UnaryOp.bulk_of_evaluate (op : UnaryOp) (v : Value) : (op.evaluate v).bulk = 1 := by
  cases op <;> simp only [UnaryOp.evaluate, Value.bulk]

namespace Store

variable {s : Store} {observed : Bool} {rule : Rule} {a b id owner : NodeId}

namespace Sound

theorem weight_of_holds (h : s.Sound) {v : Value} (hv : s.Holds v id) :
    s.tree.weight id = v.weight (s.tree.flags id).minified := by
  rw [Tree.weight_of_frozen h.wellFormed (h.isFrozen_holds hv)]
  exact (h.spells hv).frozenWeight h.wellFormed

theorem weight_of_emptyStatement (h : s.Sound) (he : s.pool.emptyStatement = some id) :
    s.tree.weight id = 1 := by
  obtain ⟨hf, hn⟩ := h.emptyStatement he
  rw [Tree.weight_of_frozen h.wellFormed hf, Tree.frozenWeight, hn]

theorem not_frozen_of_kind (h : s.Sound) (hk : (s.tree.node id).kind ∉ [Kind.literal,
    .unaryExpression, .binaryExpression, .arrayExpression, .emptyStatement]) :
    ¬ s.tree.isFrozen id := fun hf =>
  hk (h.kind_of_frozen hf)

theorem not_frozen_of_value (h : s.Sound) (hp : s.pool.values[id]? = none)
    (hn : s.tree.node id ≠ .emptyStatement) : ¬ s.tree.isFrozen id := by
  intro hf
  rcases h.frozen hf with ⟨v, hv⟩ | he
  · rw [hp] at hv
    cases hv
  · exact hn (h.emptyStatement he).2

theorem itemsBulk_le {elements : List (Option NodeId)} {items : List (Option Value)}
    (hitems : List.Forall₂ (fun e item => e.mapM s.value? = some item) elements items)
    (ih : ∀ c v, some c ∈ elements → s.value? c = some v → v.bulk ≤ s.tree.weight c) :
    Value.itemsBulk items ≤ (Slot.total 2 0 ((Slot.holey elements).map s.tree.weight)) := by
  induction hitems with
  | nil =>
    rw [Value.itemsBulk]
    exact Nat.zero_le _
  | @cons e item elements items he _ ihs =>
    have := ihs fun c v hc => ih c v (List.mem_cons_of_mem _ hc)
    have hitem : Value.itemBulk item ≤ 2 + (e.map s.tree.weight).getD 0 := by
      cases e with
      | none =>
        obtain rfl : none = item := Option.some.inj he
        rw [Value.itemBulk]
        omega
      | some c =>
        obtain ⟨v, hv, rfl⟩ := Option.map_eq_some_iff.mp he
        have := ih c v (List.mem_cons_self ..) hv
        rw [Value.itemBulk]
        exact this.trans (Nat.le_add_left _ _)
    rw [Value.itemsBulk]
    exact Nat.add_le_add hitem this

/-- A constant weighs at least what the shared node of its value would. -/
theorem weight_of_value? (h : s.Sound) {v : Value} (hv : s.value? id = some v) :
    v.weight (s.tree.flags id).minified ≤ s.tree.weight id := by
  induction id using h.wellFormed.acyclic.induction generalizing v with
  | _ id ih =>
    rcases h.value?_cases hv with
      hp | ⟨hp, ⟨l, hn, hl⟩ | ⟨a, x, hn, -, rfl⟩ | ⟨elements, items, hn, rfl, hitems⟩⟩
    · rw [h.weight_of_holds hp]
    · rw [Tree.weight_of_node h.wellFormed (h.not_frozen_of_value hp (by simp [hn])) hn]
      refine le_trans ?_ (Nat.le_add_right _ _)
      change _ ≤ 5
      cases l <;> cases hl <;> rw [Value.weight] <;> (try split) <;> omega
    · rw [Tree.weight_of_node h.wellFormed (h.not_frozen_of_value hp (by simp [hn])) hn]
      refine le_trans ?_ (Nat.le_add_right _ _)
      change 3 ≤ 4
      omega
    · rw [Tree.weight_of_node h.wellFormed (h.not_frozen_of_value hp (by simp [hn])) hn,
        Value.weight, Value.bulk]
      refine Nat.add_le_add_left (itemsBulk_le hitems fun c w hc hw => ?_) 4
      refine (w.bulk_le_weight _).trans (ih c ?_ hw)
      exact Tree.child_of_node hn (by simpa [Node.children, Node.slots, Slot.children] using hc)

/-- The node of a value is small. -/
theorem extent_le (h : s.Sound) (hf : s.tree.isFrozen id) :
    s.tree.extent id + 2 ≤ 5 * s.tree.bulk id := by
  induction id using h.wellFormed.acyclic.induction with
  | _ id ih =>
    let x := s.tree.extent
    have hbulk := Tree.bulk_pos h.wellFormed id
    have spread : ∀ {a n}, s.tree.node a = n → x a = 1 + (n.map x).load :=
      Tree.extent_of_node h.wellFormed
    have literal : ∀ {l a}, s.tree.FrozenLiteral l a → x a = 1 := fun hl => spread hl.2
    change x id + 2 ≤ _
    rcases h.frozen hf with ⟨v, hv⟩ | he
    · have hs := h.spells hv
      cases v <;> rw [Tree.Spells] at hs
      case undefined =>
        obtain ⟨-, a, hn, ha⟩ := hs
        have hx : x id = 1 + (x a + 0) := spread hn
        have := literal ha
        omega
      case null =>
        have := literal hs
        omega
      case bool b =>
        rcases hs with hl | ⟨-, a, hn, ha⟩
        · have := literal hl
          omega
        · have hx : x id = 1 + (x a + 0) := spread hn
          have := literal ha
          omega
      case number y =>
        rcases hs with hl | ⟨-, a, z, hn, ha, -⟩ | ⟨-, a, hn, ha, -⟩
        · have := literal hl
          omega
        · have hx : x id = 1 + (x a + 0) := spread hn
          have := literal ha
          omega
        · have hx : x id = 1 + (x a + (x a + 0)) := spread hn
          have := literal ha
          omega
      case string text =>
        have := literal hs
        omega
      case array items =>
        obtain ⟨-, elements, hn, -⟩ := hs
        have hx : x id = 1 + ((((elements.map (Option.map x)).map fun e => 2 + e.getD 0).sum) + 0) :=
          spread hn
        have hb : s.tree.bulk id =
            4 + ((elements.map (Option.map s.tree.bulk)).map fun e => e.getD 1).sum := by
          rw [Tree.bulk_eq h.wellFormed, hn]
          rfl
        -- by induction every element spans two less than its share, which pays for the entry
        have hsum : ((elements.map (Option.map x)).map fun e => 2 + e.getD 0).sum ≤
            5 * ((elements.map (Option.map s.tree.bulk)).map fun e => e.getD 1).sum := by
          rw [List.map_map, List.map_map]
          refine Tree.sum_map_le_mul fun e he => ?_
          cases e with
          | none => simp
          | some c =>
            have hc := Tree.child_of_node hn (b := c)
              (by simpa [Node.children, Node.slots, Slot.children] using he)
            have := ih c hc (h.isFrozen_child hf hc)
            simp only [Function.comp_apply, Option.map_some, Option.getD_some]
            change s.tree.extent c + 2 ≤ _ at this
            change 2 + s.tree.extent c ≤ _
            omega
        omega
    · have hx : x id = 1 := spread (h.emptyStatement he).2
      omega

theorem bulk_le_weight (h : s.Sound) (hf : s.tree.isFrozen id) :
    s.tree.bulk id ≤ s.tree.weight id := by
  rcases h.frozen hf with ⟨v, hv⟩ | he
  · rw [h.weight_of_holds hv, (h.spells hv).bulk h.wellFormed]
    exact v.bulk_le_weight _
  · rw [h.weight_of_emptyStatement he, Tree.bulk_eq h.wellFormed, (h.emptyStatement he).2]
    exact le_rfl

theorem isEmptyStatement_of_frozen (h : s.Sound) (hf : s.tree.isFrozen id)
    (he : (s.tree.node id).isEmptyStatement) : s.pool.emptyStatement = some id := by
  rcases h.frozen hf with ⟨v, hv⟩ | hp
  · have hs := h.spells hv
    exfalso
    cases v <;> simp only [Tree.Spells, Tree.FrozenLiteral] at hs <;> grind [Node.isEmptyStatement]
  · exact hp

theorem weight_of_isEmptyStatement (h : s.Sound) (he : (s.tree.node id).isEmptyStatement)
    (hb : s.pool.emptyStatement = some b) (hne : id ≠ b) : s.tree.weight b < s.tree.weight id := by
  have hf : ¬ s.tree.isFrozen id := fun hf => by
    have := h.isEmptyStatement_of_frozen hf he
    rw [hb] at this
    exact hne (Option.some.inj this).symm
  rw [h.weight_of_emptyStatement hb, Tree.weight_eq h.wellFormed hf]
  refine lt_of_lt_of_le ?_ (Nat.le_add_right _ _)
  cases hn : s.tree.node id <;> rw [hn] at he
  case emptyStatement => decide
  case blockStatement body => exact Nat.one_lt_two
  all_goals cases he

end Sound

theorem Sound.weight_of_node (h : s.Sound) {n : Node NodeId} (hn : s.tree.node a = n)
    (hk : n.kind ∉ [Kind.literal, .unaryExpression, .binaryExpression, .arrayExpression,
      .emptyStatement]) :
    s.tree.weight a = n.burden + (n.map s.tree.weight).load :=
  Tree.weight_of_node h.wellFormed (h.not_frozen_of_kind (hn ▸ hk)) hn

theorem weight_of_arrayIndex? {key : Value} {i : Nat} (h : key.arrayIndex? = some i) :
    ∀ b, key ≠ .bool b := by
  rintro b rfl
  have hnone : (Value.bool b).arrayIndex? = none := by cases b <;> decide +kernel
  rw [hnone] at h
  cases h

theorem arrayIndex?_of_memberValue? {v : Value} {prop : NodeId} {computed : Bool} {text : String}
    (h : s.memberValue? v prop computed = some (.string text)) :
    ∃ key i, s.value? prop = some key ∧ key.arrayIndex? = some i := by
  unfold memberValue? at h
  split at h
  · obtain ⟨key, hkey, h⟩ := Option.bind_eq_some_iff.mp h
    obtain ⟨i, hi, -⟩ := Option.bind_eq_some_iff.mp h
    exact ⟨key, i, hkey, hi⟩
  · split at h
    · obtain ⟨n, -, h⟩ := Option.map_eq_some_iff.mp h
      cases h
    · cases h

/-- An element weighs less than what it is an element of, or than four. -/
theorem bulk_of_memberValue? {v w : Value} {prop : NodeId} {computed : Bool}
    (h : s.memberValue? v prop computed = some w) : w.bulk ≤ v.bulk := by
  unfold memberValue? at h
  split at h
  · obtain ⟨key, -, h⟩ := Option.bind_eq_some_iff.mp h
    obtain ⟨i, -, h⟩ := Option.bind_eq_some_iff.mp h
    cases v with
    | string text =>
      obtain ⟨u, -, h⟩ := Option.bind_eq_some_iff.mp h
      obtain ⟨c, -, h⟩ := Option.bind_eq_some_iff.mp h
      cases h
      simp [Value.bulk]
    | array items =>
      have := Value.itemBulk_le (Option.join_eq_some_iff.mp h)
      rw [Value.bulk]
      omega
    | _ => cases h
  · split at h
    · obtain ⟨n, -, rfl⟩ := Option.map_eq_some_iff.mp h
      rw [show (Value.number (ofLength n)).bulk = 1 by simp [Value.bulk]]
      exact v.bulk_pos
    · cases h

theorem Sound.weight_le_of_holds (h : s.Sound) {v : Value} (hb : s.Holds v b) (hv : v.bulk = 1) :
    s.tree.weight b ≤ 4 := by
  have hle := v.weight_le (s.tree.flags b).minified
  rw [← h.weight_of_holds hb, hv] at hle
  exact hle

theorem Sound.weight_lt_member (h : s.Sound) {object prop : NodeId} {computed : Bool} {v x : Value}
    (hn : s.tree.node a = .memberExpression object prop computed) (hv : s.value? object = some v)
    (hm : s.memberValue? v prop computed = some x) (hb : s.Holds x b) :
    s.tree.weight b < s.tree.weight a := by
  have ha : s.tree.weight a = 4 + (s.tree.weight object + (s.tree.weight prop + 0)) :=
    h.weight_of_node hn (by simp [Node.kind])
  have hx := bulk_of_memberValue? hm
  have hobject := (v.bulk_le_weight _).trans (h.weight_of_value? hv)
  have hshared : s.tree.weight b ≤ max 4 x.bulk := by
    rw [h.weight_of_holds hb]
    exact x.weight_le _
  have := Tree.weight_pos h.wellFormed prop
  omega

theorem Sound.weight_lt_character (h : s.Sound) {object prop first index : NodeId} {computed : Bool}
    {v : Value} {text : String} (hn : s.tree.node a = .memberExpression object prop computed)
    (hv : s.value? object = some v) (hm : s.memberValue? v prop computed = some (.string text))
    (hlen : ¬ v.length?.all (· ≤ 1)) (hunits : (units text).length = 1)
    (hfirst : s.Holds (.string text) first) (hindex : s.Holds (.number 0) index)
    (hb : s.tree.node b = .memberExpression first index true) :
    s.tree.weight b < s.tree.weight a := by
  have ha : s.tree.weight a = 4 + (s.tree.weight object + (s.tree.weight prop + 0)) :=
    h.weight_of_node hn (by simp [Node.kind])
  have hb : s.tree.weight b = 4 + (s.tree.weight first + (s.tree.weight index + 0)) :=
    h.weight_of_node hb (by simp [Node.kind])
  have hfirst : s.tree.weight first = 3 := by
    refine (h.weight_of_holds hfirst).trans ?_
    rw [Value.weight, if_pos hunits.le]
  have hindex : s.tree.weight index = 3 := h.weight_of_holds hindex
  obtain ⟨key, i, hkey, hi⟩ := arrayIndex?_of_memberValue? hm
  have hprop : 3 ≤ s.tree.weight prop :=
    (Value.le_weight _ (weight_of_arrayIndex? hi)).trans (h.weight_of_value? hkey)
  have hobject : 4 ≤ s.tree.weight object :=
    (Value.le_weight_of_length? _ hlen).trans (h.weight_of_value? hv)
  omega

theorem Sound.weight_lt_ifExpression (h : s.Sound) {test consequent e : NodeId}
    {alternate : Option NodeId} {n : Node NodeId}
    (hn : s.tree.node a = .ifStatement test consequent alternate)
    (hexpr : FoldM.ifExpression? s.tree observed test consequent alternate = some n)
    (he : s.tree.node e = n) (hb : s.tree.node b = .expressionStatement e none) :
    s.tree.weight b < s.tree.weight a := by
  let w := s.tree.weight
  have spread : ∀ {a n}, s.tree.node a = n → n.kind ∉ [Kind.literal, .unaryExpression,
      .binaryExpression, .arrayExpression, .emptyStatement] → w a = n.burden + (n.map w).load :=
    fun hn hk => h.weight_of_node hn hk
  have branch : ∀ {c x}, (s.tree.node c).expression? = some x → w c = 4 + (w x + 0) := fun hx => by
    obtain ⟨directive, hc⟩ := expression?_eq hx
    exact spread hc (by simp [Node.kind])
  have ha : w a = 4 + ((alternate.map w).getD 0 + (w consequent + (w test + 0))) :=
    spread hn (by simp [Node.kind])
  have hb : w b = 4 + (w e + 0) := spread hb (by simp [Node.kind])
  change w b < w a
  rcases ifExpression?_cases hexpr with ⟨other, x, y, rfl, hx, hy, rfl⟩ | ⟨x, rfl, -, hx, rfl⟩
  · have he : w e = 1 + (w y + (w x + (w test + 0))) := spread he (by simp [Node.kind])
    have := branch hx
    have := branch hy
    simp only [Option.map_some, Option.getD_some] at ha
    omega
  · have he : w e = 1 + (w test + (w x + 0)) := spread he (by simp [Node.kind])
    have := branch hx
    omega

/-- What is put where a node was weighs less. -/
theorem Swap.weight_lt (h : s.Sound) (hab : s.Swap observed rule a b) :
    s.tree.weight b < s.tree.weight a := by
  let w := s.tree.weight
  have pos : ∀ id, 1 ≤ w id := Tree.weight_pos h.wellFormed
  have spread : ∀ {a n}, s.tree.node a = n → n.kind ∉ [Kind.literal, .unaryExpression,
      .binaryExpression, .arrayExpression, .emptyStatement] → w a = n.burden + (n.map w).load :=
    fun hn hk => h.weight_of_node hn hk
  have empty : ∀ {b}, s.pool.emptyStatement = some b → w b = 1 := h.weight_of_emptyStatement
  have shared : ∀ {v b}, s.Holds v b → v.bulk = 1 → w b ≤ 4 := h.weight_le_of_holds
  change w b < w a
  cases hab with
  | @constantStatement _ e _ _ _ hn _ _ he =>
    have ha : w a = 4 + (w e + 0) := spread hn (by simp [Node.kind])
    have hb := empty he
    omega
  | @conditional _ test consequent alternate v hn _ =>
    have ha : w a = 1 + (w alternate + (w consequent + (w test + 0))) := spread hn (by simp [Node.kind])
    have := pos test
    split <;> omega
  | @logical _ operator left right v hn _ =>
    have ha : w a = 1 + (w left + (w right + 0)) := spread hn (by simp [Node.kind])
    split <;> omega
  | @binary _ operator left right x y v _ hn hf _ _ hv hb =>
    have ha : w a = 4 + (w left + (w right + 0)) := Tree.weight_of_node h.wellFormed hf hn
    -- no operator gives an array, so the node of the result is a light one
    have := shared hb (BinaryOp.bulk_of_evaluate? hv)
    have := pos left
    omega
  | @unary _ operator argument v _ hn hnone _ hb =>
    have hp : s.pool.values[a]? = none := by
      by_contra hp
      obtain ⟨v, hv⟩ := Option.ne_none_iff_exists'.mp hp
      rw [h.value?_of_values hv] at hnone
      cases hnone
    have ha : w a = 4 + (w argument + 0) :=
      Tree.weight_of_node h.wellFormed (h.not_frozen_of_value hp (by simp [hn])) hn
    have := shared hb (operator.bulk_of_evaluate v)
    have := pos argument
    omega
  | @lastItem _ leading last hn _ =>
    have ha : w a = 1 + ((((leading ++ [b]).map w).map (2 + ·)).sum + 0) :=
      spread hn (by simp [Node.kind])
    simp only [List.map_append, List.sum_append, List.map_cons, List.map_nil, List.sum_cons,
      List.sum_nil] at ha
    omega
  | member hn hv hm hb => exact h.weight_lt_member hn hv hm hb
  | memberOfCharacter hn hv hm hlen hunits hfirst hindex hb _ =>
    exact h.weight_lt_character hn hv hm hlen hunits hfirst hindex hb
  | @ifTest _ test consequent _ hn _ _ hb _ =>
    have ha : w a = 4 + (0 + (w consequent + (w test + 0))) := spread hn (by simp [Node.kind])
    have hb : w b = 4 + (w test + 0) := spread hb (by simp [Node.kind])
    have := pos consequent
    omega
  | ifExpression hn hexpr he hb _ _ => exact h.weight_lt_ifExpression hn hexpr he hb
  | @ifTrue _ test _ alternate v hn _ _ =>
    have ha : w a = 4 + ((alternate.map w).getD 0 + (w b + (w test + 0))) :=
      spread hn (by simp [Node.kind])
    omega
  | @ifFalse _ test consequent _ v hn _ _ =>
    have ha : w a = 4 + (w b + (w consequent + (w test + 0))) := spread hn (by simp [Node.kind])
    omega
  | @ifNever _ test consequent v _ hn _ _ he =>
    have ha : w a = 4 + (0 + (w consequent + (w test + 0))) := spread hn (by simp [Node.kind])
    have := empty he
    omega
  | @whileNever _ test body v _ hn _ _ he =>
    have ha : w a = 1 + (w body + (w test + 0)) := spread hn (by simp [Node.kind])
    have := empty he
    have := pos body
    omega
  | @forNever _ test update body v _ hn _ _ he =>
    have ha : w a = 4 + (w body + (0 + (w test + ((update.map w).getD 0 + 0)))) :=
      spread hn (by simp [Node.kind])
    have := empty he
    omega
  | @forDeclaration _ _ test update body v declarations hn _ _ _ =>
    have ha : w a = 4 + (w body + (w b + (w test + ((update.map w).getD 0 + 0)))) :=
      spread hn (by simp [Node.kind])
    omega
  | @forExpression _ init test update body v _ hn _ _ _ hb _ =>
    have ha : w a = 4 + (w body + (w init + (w test + ((update.map w).getD 0 + 0)))) :=
      spread hn (by simp [Node.kind])
    have hb : w b = 4 + (w init + 0) := spread hb (by simp [Node.kind])
    have := pos body
    omega
  | @minify _ v _ hv hm hb hmb =>
    -- the short form in the pool weighs one, and any other form at least two
    have ha := h.weight_of_value? hv
    have hb : w b = 1 := by
      refine (h.weight_of_holds hb).trans ?_
      rw [Value.weight, if_pos hmb]
    rw [Value.weight, if_neg hm] at ha
    change 2 ≤ w a at ha
    omega

end Store

/-- What the entries of a list weigh. -/
def listLoad (w : NodeId → Nat) (items : List (Option NodeId)) : Nat :=
  (items.map fun e => 2 + (e.map w).getD 0).sum

section

variable {w : NodeId → Nat}

theorem listLoad_append (l r : List (Option NodeId)) :
    listLoad w (l ++ r) = listLoad w l + listLoad w r := by
  simp [listLoad]

theorem listLoad_cons (e : Option NodeId) (items : List (Option NodeId)) :
    listLoad w (e :: items) = 2 + (e.map w).getD 0 + listLoad w items := by
  simp [listLoad]

theorem listLoad_map_some (ids : List NodeId) :
    listLoad w (ids.map some) = ((ids.map w).map (2 + ·)).sum := by
  simp [listLoad, Function.comp_def]

theorem listLoad_filterMap_le (items : List (Option NodeId)) :
    listLoad w ((items.filterMap id).map some) ≤ listLoad w items := by
  induction items with
  | nil => exact le_rfl
  | cons e items ih =>
    rw [listLoad_cons]
    cases e with
    | none => exact ih.trans (Nat.le_add_left _ _)
    | some c =>
      rw [List.filterMap_cons_some (by rfl), List.map_cons, listLoad_cons]
      omega

theorem listLoad_filter_lt (items : List (Option NodeId)) {p : NodeId → Bool}
    (h : ((items.filterMap id).filter p).length ≠ items.length) :
    listLoad w (((items.filterMap id).filter p).map some) < listLoad w items := by
  induction items with
  | nil => exact absurd rfl h
  | cons e items ih =>
    have hle : listLoad w (((items.filterMap id).filter p).map some) ≤ listLoad w items := by
      by_cases hl : ((items.filterMap id).filter p).length = items.length
      · have hsub := (List.filter_sublist (p := p) (l := items.filterMap id))
        have hid : (items.filterMap id).filter p = items.filterMap id := by
          refine hsub.eq_of_length_le ?_
          rw [hl]
          exact List.length_filterMap_le _ _
        rw [hid]
        exact listLoad_filterMap_le items
      · exact (ih hl).le
    rw [listLoad_cons]
    cases e with
    | none =>
      rw [List.filterMap_cons_none (by rfl)]
      omega
    | some c =>
      rw [List.filterMap_cons_some (by rfl)] at h ⊢
      cases hp : p c with
      | true =>
        rw [List.filter_cons_of_pos hp] at h ⊢
        simp only [List.map_cons, listLoad_cons, List.length_cons] at h ⊢
        have := ih (fun hl => h (by rw [hl]))
        omega
      | false =>
        rw [List.filter_cons_of_neg (by simp [hp])]
        omega

theorem total_map_of_items? {slot : Slot NodeId} {items : List (Option NodeId)}
    (h : slot.items? = some items) : (slot.map w).total 2 0 = listLoad w items := by
  cases slot with
  | required c => cases h
  | optional c => cases h
  | list cs =>
    cases h
    exact (listLoad_map_some cs).symm
  | holey cs =>
    cases h
    simp only [Slot.map, Slot.total, listLoad, List.map_map, Function.comp_def]

theorem total_map_setItems_le {slot : Slot NodeId} {old : List (Option NodeId)}
    (h : slot.items? = some old) (items : List (Option NodeId)) :
    ((slot.setItems items).map w).total 2 0 ≤ listLoad w items := by
  cases slot with
  | required c => cases h
  | optional c => cases h
  | list cs =>
    refine le_of_eq_of_le ?_ (listLoad_filterMap_le items)
    exact total_map_of_items? rfl
  | holey cs => exact (total_map_of_items? rfl).le

theorem Node.load_setSlot {n : Node NodeId} {f : Field} {slot : Slot NodeId}
    (h : n.slot? f = some slot) (new : Slot NodeId) (hput : slot.put new = new) :
    ∃ rest, (n.map w).load = rest + (slot.map w).total 2 0 ∧
      ((n.setSlot f new).map w).load = rest + (new.map w).total 2 0 := by
  obtain ⟨l, r, hs, hset⟩ := slots_split h
  let side (es : List (Field × Slot NodeId)) : Nat := (es.map fun e => (e.2.map w).total 2 0).sum
  refine ⟨side l + side r, ?_, ?_⟩
  · simp only [load, slots_map, hs, List.map_append, List.map_cons, List.map_map, List.sum_append,
      List.sum_cons, side, Function.comp_def]
    omega
  · simp only [load, slots_map, hset, hput, List.map_append, List.map_cons, List.map_map,
      List.sum_append, List.sum_cons, side, Function.comp_def]
    omega

end

namespace Path

variable {t : Tree} {p : Path} {owner a b : NodeId} {n : Node NodeId} {w : NodeId → Nat}

theorem Splices.load_lt {old : List (Option NodeId)} {new : List NodeId}
    (h : p.Splices t owner old new n) (hlt : listLoad w (new.map some) < listLoad w old) :
    (n.map w).load < ((t.node owner).map w).load := by
  cases h with
  | @intro parent f _ slot l _ r _ value hv hs hi =>
    obtain ⟨rest, hold, hnew⟩ := Node.load_setSlot (w := w) hs _
      (slot.put_setItems (l ++ new.map some ++ r))
    have hle := total_map_setItems_le (w := w) hi (l ++ new.map some ++ r)
    rw [hold, hnew, total_map_of_items? hi]
    simp only [listLoad_append] at hle ⊢
    omega

theorem Fills.load_lt (h : p.Fills t owner a b n) (hlt : w b < w a) :
    (n.map w).load < ((t.node owner).map w).load := by
  cases h with
  | @required parent f _ _ _ value hv hs =>
    obtain ⟨rest, hold, hnew⟩ := Node.load_setSlot (w := w) hs (.required b) rfl
    rw [hold, hnew]
    exact Nat.add_lt_add_left hlt rest
  | @optional parent f _ _ _ value hv hs =>
    obtain ⟨rest, hold, hnew⟩ := Node.load_setSlot (w := w) hs (.optional (some b)) rfl
    rw [hold, hnew]
    exact Nat.add_lt_add_left hlt rest
  | item h =>
    refine h.load_lt ?_
    simp only [List.map_cons, List.map_nil, listLoad_cons, Option.map_some, Option.getD_some]
    omega

end Path

namespace Store

variable {s : Store} {observed : Bool} {rule : Rule} {p : Path} {owner id : NodeId}
  {n : Node NodeId}

theorem listLoad_sequenceItems (h : s.Sound) (e : NodeId) :
    listLoad s.tree.weight ((FoldM.sequenceItems s.tree e).map some) ≤ 2 + s.tree.weight e := by
  unfold FoldM.sequenceItems
  split
  · rename_i expressions hn
    have he : s.tree.weight e = 1 + (((expressions.map s.tree.weight).map (2 + ·)).sum + 0) :=
      h.weight_of_node hn (by simp [Node.kind])
    rw [listLoad_map_some]
    omega
  · exact (listLoad_cons _ _).le

/-- A run of expression statements weighs more than its items in one sequence. -/
theorem listLoad_merge (h : s.Sound) {statements expressions : List NodeId}
    (hrun : List.Forall₂ (fun st e => (s.tree.node st).expression? = some e) statements expressions) :
    listLoad s.tree.weight ((expressions.flatMap (FoldM.sequenceItems s.tree)).map some)
      + 4 * statements.length ≤ listLoad s.tree.weight (statements.map some) := by
  induction hrun with
  | nil => exact le_rfl
  | @cons st e statements expressions hst _ ih =>
    obtain ⟨directive, hn⟩ := expression?_eq hst
    have hw : s.tree.weight st = 4 + (s.tree.weight e + 0) := h.weight_of_node hn (by simp [Node.kind])
    have := listLoad_sequenceItems h e
    simp only [List.flatMap_cons, List.map_append, listLoad_append, List.map_cons, listLoad_cons,
      Option.map_some, Option.getD_some, List.length_cons]
    omega

theorem Splice.load_lt (h : s.Sound) {old : List (Option NodeId)} {new : List NodeId}
    (hs : s.Splice observed owner rule old new) :
    listLoad s.tree.weight (new.map some) < listLoad s.tree.weight old := by
  cases hs with
  | swap hab =>
    have := hab.weight_lt h
    simp only [List.map_cons, List.map_nil, listLoad_cons, Option.map_some, Option.getD_some]
    omega
  | unreachable _ hlen =>
    rw [List.map_cons, listLoad_cons, listLoad_cons]
    exact Nat.add_lt_add_left (listLoad_filter_lt _ hlen) _
  | @merge statements expressions sequence statement hrun hlen hseq hst _ _ _ _ =>
    have hload := listLoad_merge h hrun
    have hw : s.tree.weight statement = 4 + (s.tree.weight sequence + 0) :=
      h.weight_of_node hst (by simp [Node.kind])
    have hw' : s.tree.weight sequence = 1 + ((((expressions.flatMap
        (FoldM.sequenceItems s.tree)).map s.tree.weight).map (2 + ·)).sum + 0) :=
      h.weight_of_node hseq (by simp [Node.kind])
    rw [listLoad_map_some] at hload
    simp only [List.map_cons, List.map_nil, listLoad_cons, Option.map_some, Option.getD_some]
    simp only [listLoad, List.map_nil, List.sum_nil]
    change _ < listLoad s.tree.weight (statements.map some)
    omega
  | constant | empty =>
    rw [listLoad_cons]
    simp only [listLoad, List.map_nil, List.sum_nil]
    omega

theorem Rewrite.load_lt (h : s.Sound) {n' : Node NodeId} (hr : s.Rewrite rule n n') :
    (n'.map s.tree.weight).load < (n.map s.tree.weight).load := by
  let w := s.tree.weight
  have pos : ∀ id, 1 ≤ w id := Tree.weight_pos h.wellFormed
  have undefined : ∀ {id}, s.Holds .undefined id → w id = 4 := h.weight_of_holds
  have null : ∀ {id}, s.Holds .null id → w id = 3 := h.weight_of_holds
  have empty : ∀ {c b}, (s.tree.node c).isEmptyStatement → c ≠ b → s.pool.emptyStatement = some b →
      w b < w c := fun hc hne hb => h.weight_of_isEmptyStatement hc hb hne
  have leading : ∀ (l : List NodeId) (last : NodeId), (((l ++ [last]).map w).map (2 + ·)).sum =
      listLoad w (l.map some) + (2 + w last) := fun l last => by
    simp [listLoad_map_some]
  cases hr with
  | @nullLeft _ left right b _ hl hb =>
    change w b + (w right + 0) < w left + (w right + 0)
    have := undefined hl
    have := null hb
    omega
  | @nullRight _ left right b _ hr hb =>
    change w left + (w b + 0) < w left + (w right + 0)
    have := undefined hr
    have := null hb
    omega
  | @consequent test consequent alternate b hc hne hb =>
    change _ + (w b + (w test + 0)) < _ + (w consequent + (w test + 0))
    have := empty hc hne hb
    omega
  | @alternate test consequent alternate _ =>
    change 0 + (w consequent + (w test + 0)) < w alternate + (w consequent + (w test + 0))
    have := pos alternate
    omega
  | @whileBody test body b hc hne hb =>
    change w b + (w test + 0) < w body + (w test + 0)
    have := empty hc hne hb
    omega
  | @doWhileBody test body b hc hne hb =>
    change w b + (w test + 0) < w body + (w test + 0)
    have := empty hc hne hb
    omega
  | @forBody init test update body b hc hne hb =>
    change w b + _ < w body + _
    exact Nat.add_lt_add_right (empty hc hne hb) _
  | @forInit init test update body v _ =>
    change w body + (0 + _) < w body + (w init + _)
    have := pos init
    omega
  | @forUpdate init test update body v _ =>
    change w body + (_ + (_ + (0 + 0))) < w body + (_ + (_ + (w update + 0)))
    have := pos update
    omega
  | @forAlways init test update body v _ _ =>
    change w body + (_ + (0 + (_ + 0))) < w body + (_ + (w test + (_ + 0)))
    have := pos test
    omega
  | @forNever init test update body v b hv hfalsy hne hb =>
    change w body + (_ + (w b + (_ + 0))) < w body + (_ + (w test + (_ + 0)))
    -- the rule leaves `false` alone, and all other values weigh more than it
    have htest : 3 ≤ w test := by
      refine (Value.le_weight _ ?_).trans (h.weight_of_value? hv)
      rintro c rfl
      cases c with
      | false => exact hne rfl
      | true => exact hfalsy rfl
    have hfalse : w b ≤ 2 := by
      refine (h.weight_of_holds hb).trans_le ?_
      rw [Value.weight]
      split <;> omega
    omega
  | @leadingItems l last hne hlen =>
    change ((((l.filter _) ++ [last]).map w).map (2 + ·)).sum + 0 <
      (((l ++ [last]).map w).map (2 + ·)).sum + 0
    rw [leading, leading]
    have := listLoad_filter_lt (w := w) (l.map some) (p := fun e => !s.isConstant e)
      (by simpa [List.filterMap_map] using hlen)
    simp only [List.filterMap_map, Function.comp_def, id, List.filterMap_some] at this
    omega
  | @firstItem l last first _ hlen hfirst =>
    change 2 + w first + (2 + w last + 0) + 0 < (((l ++ [last]).map w).map (2 + ·)).sum + 0
    rw [leading]
    have : w first = 3 := h.weight_of_holds hfirst
    -- one constant takes the place of two at least
    rcases l with _ | ⟨x, _ | ⟨y, l⟩⟩
    · simp at hlen
    · simp at hlen
    · simp only [List.map_cons, listLoad_cons, Option.map_some, Option.getD_some]
      have := pos x
      have := pos y
      omega
  | @name object prop key name hprop hkey =>
    change w object + (w key + 0) < w object + (w prop + 0)
    have hkey : w key = 1 := h.weight_of_node hkey (by simp [Node.kind])
    have hprop := h.weight_of_value? (h.value?_literal hprop)
    have := (Value.le_weight (v := .string name) (s.tree.flags prop).minified
      fun _ hv => by cases hv).trans hprop
    change 3 ≤ w prop at this
    omega

/-- A change takes weight from the node that it rewrites. -/
theorem Edit.load_lt (h : s.Sound) (he : s.Edit observed rule p owner n) :
    (n.map s.tree.weight).load < ((s.tree.node owner).map s.tree.weight).load := by
  cases he with
  | fill hp howner hfill hab => exact hfill.load_lt (hab.weight_lt h)
  | splice hp howner hsplice hnew => exact hsplice.load_lt (hnew.load_lt h)
  | rewrite hp howner hr => exact hr.load_lt h

theorem Swap.ne {a b : NodeId} (h : s.Sound) (hab : s.Swap observed rule a b) : b ≠ a := by
  rintro rfl
  exact lt_irrefl _ (hab.weight_lt h)

end Store

end ScriptFold

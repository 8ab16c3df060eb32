import ScriptFold.Fold.State
import ScriptFold.Proofs.Intern

/-!
Values of constant nodes. `value?` is what folding finds out about a node: a node is constant
exactly if it has a value, and the value of an array comes from the values of its elements.
-/

namespace ScriptFold

theorem toOption_mapM_list {ε α β : Type} (f : α → Except ε β) (xs : List α) :
    (xs.mapM f).toOption = xs.mapM fun x => (f x).toOption := by
  induction xs with
  | nil => rfl
  | cons x xs ih =>
    rw [List.mapM_cons, List.mapM_cons, ← ih]
    cases f x <;> cases xs.mapM f <;> rfl

theorem toOption_mapM_option {ε α β : Type} (f : α → Except ε β) (x : Option α) :
    (x.mapM f).toOption = x.mapM fun a => (f a).toOption := by
  cases x with
  | none => rfl
  | some a => 
    change (some <$> f a).toOption = some <$> (f a).toOption
    cases f a <;> rfl

theorem isSome_mapM_list {α β : Type} (f : α → Option β) (xs : List α) :
    (xs.mapM f).isSome = xs.all fun x => (f x).isSome := by
  induction xs with
  | nil => rfl
  | cons x xs ih =>
    rw [List.mapM_cons, List.all_cons, ← ih]
    cases f x <;> cases xs.mapM f <;> rfl

theorem isSome_mapM_option {α β : Type} (f : α → Option β) (x : Option α) :
    (x.mapM f).isSome = x.all fun a => (f a).isSome := by
  cases x with
  | none => rfl
  | some a =>
    change (some <$> f a).isSome = (f a).isSome
    cases f a <;> rfl

theorem mapM_congr_list {α β : Type} {f g : α → Option β} {xs : List α}
    (h : ∀ x ∈ xs, f x = g x) : xs.mapM f = xs.mapM g := by
  induction xs with
  | nil => rfl
  | cons x xs ih =>
    rw [List.mapM_cons, List.mapM_cons, h x (by simp), ih fun y hy => h y (by simp [hy])]

theorem forall₂_of_mapM {α β : Type} {f : α → Option β} {xs : List α} {ys : List β}
    (h : xs.mapM f = some ys) : List.Forall₂ (fun x y => f x = some y) xs ys := by
  induction xs generalizing ys with
  | nil =>
    obtain rfl : [] = ys := Option.some.inj h
    exact .nil
  | cons x xs ih =>
    rw [List.mapM_cons] at h
    obtain ⟨y, hy, h⟩ := Option.bind_eq_some_iff.mp h
    obtain ⟨ys', hys, h⟩ := Option.bind_eq_some_iff.mp h
    obtain rfl : y :: ys' = ys := Option.some.inj h
    exact .cons hy (ih hys)

theorem mapM_of_forall₂ {α β : Type} {f : α → Option β} {xs : List α} {ys : List β}
    (h : List.Forall₂ (fun x y => f x = some y) xs ys) : xs.mapM f = some ys := by
  induction h with
  | nil => rfl
  | cons hx _ ih =>
    rw [List.mapM_cons, hx, ih]
    rfl

theorem mapM_append_eq_some {α β : Type} {f : α → Option β} {xs ys : List α} {zs : List β} :
    (xs ++ ys).mapM f = some zs ↔
      ∃ as bs, xs.mapM f = some as ∧ ys.mapM f = some bs ∧ as ++ bs = zs := by
  simp [List.mapM_append, Option.bind_eq_some_iff]

/-- The value of a literal; a regular expression has none. -/
def Literal.value? : Literal → Option Value
  | .null => some .null
  | .bool b => some (.bool b)
  | .number x => some (.number x)
  | .string text => some (.string text)
  | .regExp .. => none

namespace Store

def value? (s : Store) (id : NodeId) : Option Value :=
  (s.valueTo s.tree.size id).toOption

/-- One step of `value?`: the value of a node over the values of its elements. -/
def valueStep (s : Store) (value? : NodeId → Option Value) (id : NodeId) : Option Value :=
  match s.pool.values[id]? with
  | some v => some v
  | none =>
    match s.tree.node id with
    | .literal .null => some .null
    | .literal (.bool b) => some (.bool b)
    | .literal (.number x) => some (.number x)
    | .literal (.string text) => some (.string text)
    | .unaryExpression .minus argument =>
      match s.tree.node argument with
      | .literal (.number x) => some (.number (-x))
      | _ => none
    | .arrayExpression elements =>
      .array <$> elements.mapM fun element => element.mapM value?
    | _ => none

theorem toOption_valueTo_succ (s : Store) (depth : Nat) (id : NodeId) :
    (s.valueTo (depth + 1) id).toOption =
      s.valueStep (fun c => (s.valueTo depth c).toOption) id := by
  rw [valueTo, valueStep]
  cases s.pool.values[id]? with
  | some v => rfl
  | none =>
    cases s.tree.node id <;> try rfl
    case literal l => cases l <;> rfl
    case unaryExpression op argument =>
      cases op <;> try rfl
      dsimp only
      cases s.tree.node argument <;> try rfl
      case literal l => cases l <;> rfl
    case arrayExpression elements =>
      simp only [← toOption_mapM_option]
      rw [← toOption_mapM_list]
      cases elements.mapM fun element => element.mapM (s.valueTo depth) <;> rfl

theorem isConstantTo_eq (s : Store) (depth : Nat) (id : NodeId) :
    s.isConstantTo depth id = (s.valueTo depth id).toOption.isSome := by
  induction depth generalizing id with
  | zero => rfl
  | succ depth ih =>
    rw [toOption_valueTo_succ, isConstantTo, valueStep, Std.HashMap.contains_eq_isSome_getElem?]
    cases s.pool.values[id]? with
    | some v => rfl
    | none =>
      cases s.tree.node id <;> try rfl
      case literal l => cases l <;> rfl
      case unaryExpression op argument =>
        cases op <;> try rfl
        dsimp only
        cases s.tree.node argument <;> try rfl
        case literal l => cases l <;> rfl
      case arrayExpression elements =>
        rw [funext ih]
        simp only [Option.isSome_map, Option.map_eq_map, isSome_mapM_list, isSome_mapM_option]
        rfl

theorem isConstant_eq (s : Store) (id : NodeId) : s.isConstant id = (s.value? id).isSome :=
  s.isConstantTo_eq _ id

theorem valueOf_eq {s : Store} {id : NodeId} {v : Value} (h : s.value? id = some v) :
    s.valueOf id = .ok v := by
  unfold value? at h
  unfold valueOf
  cases hv : s.valueTo s.tree.size id with
  | ok w =>
    rw [hv] at h
    exact congrArg _ (Option.some.inj h)
  | error e =>
    rw [hv] at h
    cases h

theorem valueStep_congr {s s' : Store} {f g : NodeId → Option Value} {id : NodeId}
    (hvalues : s'.pool.values[id]? = s.pool.values[id]?) (hnode : s'.tree.node id = s.tree.node id)
    (hchild : ∀ c, s.tree.Child c id → s'.tree.node c = s.tree.node c)
    (h : ∀ c, s.tree.Child c id → f c = g c) : s'.valueStep f id = s.valueStep g id := by
  unfold valueStep
  rw [hvalues, hnode]
  cases s.pool.values[id]? with
  | some v => rfl
  | none =>
    unfold Tree.Child at h hchild
    cases hn : s.tree.node id <;> try rfl
    case literal l => cases l <;> rfl
    case unaryExpression op argument =>
      cases op <;> try rfl
      dsimp only
      rw [hchild argument (by simp [hn, Node.children, Node.slots, Slot.children])]
    case arrayExpression elements =>
      have hc : ∀ e ∈ elements, e.mapM f = e.mapM g := by
        intro e he
        cases e with
        | none => rfl
        | some c =>
          have := h c (by simpa [hn, Node.children, Node.slots, Slot.children] using he)
          simp [Option.mapM, this]
      exact congrArg (Value.array <$> ·) (mapM_congr_list hc)

namespace Sound

variable {s : Store} {id : NodeId}

theorem valueTo_eq (h : s.Sound) {d e : Nat} (hd : s.tree.countBelow id < d)
    (he : s.tree.countBelow id < e) :
    (s.valueTo d id).toOption = (s.valueTo e id).toOption := by
  induction d generalizing e id with
  | zero => omega
  | succ d ih =>
    obtain ⟨e, rfl⟩ : ∃ e', e = e' + 1 := ⟨e - 1, by omega⟩
    rw [toOption_valueTo_succ, toOption_valueTo_succ]
    refine valueStep_congr rfl rfl (fun _ _ => rfl) fun c hc => ?_
    have := h.wellFormed.countBelow_lt hc
    exact ih (by omega) (by omega)

theorem value?_eq (h : s.Sound) (id : NodeId) : s.value? id = s.valueStep s.value? id := by
  obtain ⟨d, hd⟩ := Nat.exists_eq_add_of_lt h.lt_size_of_root
  unfold value?
  conv_lhs => rw [hd, toOption_valueTo_succ]
  refine valueStep_congr rfl rfl (fun _ _ => rfl) fun c hc => ?_
  have hlt := h.wellFormed.countBelow_lt hc
  have hsize := h.wellFormed.countBelow_lt_size (Tree.lt_size_of_child hc)
  exact h.valueTo_eq (by omega) (by omega)

theorem value?_of_values (h : s.Sound) {v : Value} (hv : s.pool.values[id]? = some v) :
    s.value? id = some v := by
  rw [h.value?_eq, valueStep, hv]

/-- The ways in which a node has a value. -/
theorem value?_cases (h : s.Sound) {v : Value} (hv : s.value? id = some v) :
    s.pool.values[id]? = some v ∨ s.pool.values[id]? = none ∧
      ((∃ l, s.tree.node id = .literal l ∧ l.value? = some v) ∨
        (∃ a x, s.tree.node id = .unaryExpression .minus a ∧ s.tree.node a = .literal (.number x) ∧
          v = .number (-x)) ∨
        ∃ elements items, s.tree.node id = .arrayExpression elements ∧ v = .array items ∧
          List.Forall₂ (fun e item => e.mapM s.value? = some item) elements items) := by
  rw [h.value?_eq, valueStep] at hv
  cases hp : s.pool.values[id]? with
  | some w =>
    rw [hp] at hv
    exact .inl hv
  | none =>
    rw [hp] at hv
    refine .inr ⟨rfl, ?_⟩
    cases hn : s.tree.node id <;> rw [hn] at hv <;> try cases hv
    case literal l =>
      refine .inl ⟨l, rfl, ?_⟩
      cases l <;> exact hv
    case unaryExpression op argument =>
      cases op <;> try cases hv
      dsimp only at hv
      cases ha : s.tree.node argument <;> rw [ha] at hv <;> try cases hv
      case literal l =>
        cases l <;> try cases hv
        exact .inr (.inl ⟨argument, _, rfl, ha, rfl⟩)
    case arrayExpression elements =>
      obtain ⟨items, hitems, rfl⟩ := Option.map_eq_some_iff.mp hv
      exact .inr (.inr ⟨elements, items, rfl, rfl, forall₂_of_mapM hitems⟩)

theorem kind_of_value? (h : s.Sound) {v : Value} (hv : s.value? id = some v) :
    (s.tree.node id).kind ∈
      [Kind.literal, .unaryExpression, .binaryExpression, .arrayExpression] := by
  rcases h.value?_cases hv with hp | ⟨-, ⟨l, hn, -⟩ | ⟨a, x, hn, -⟩ | ⟨elements, items, hn, -⟩⟩
  · exact (h.spells hp).kind
  all_goals
    rw [hn]
    simp [Node.kind]

theorem value?_literal (h : s.Sound) {l : Literal} (hn : s.tree.node id = .literal l) :
    s.value? id = l.value? := by
  rw [h.value?_eq, valueStep]
  cases hp : s.pool.values[id]? with
  | none =>
    rw [hn]
    cases l <;> rfl
  | some v =>
    have hv := h.spells hp
    cases v <;> simp only [Tree.Spells, Tree.FrozenLiteral, hn] at hv <;>
      simp_all [Literal.value?]

theorem lt_size_of_value? (h : s.Sound) {v : Value} (hv : s.value? id = some v) :
    id < s.tree.size := by
  rcases h.value?_cases hv with hp | ⟨-, ⟨l, hn, -⟩ | ⟨a, x, hn, -⟩ | ⟨elements, items, hn, -⟩⟩
  · exact h.lt_size_of_value hp
  all_goals
    by_contra hid
    rw [Tree.node_of_size_le (Nat.le_of_not_lt hid)] at hn
    cases hn

theorem value?_root (h : s.Sound) : s.value? s.tree.root = none := by
  cases hv : s.value? s.tree.root with
  | none => rfl
  | some v =>
    have hk := h.program
    rcases h.value?_cases hv with
      hp | ⟨-, ⟨l, hn, -⟩ | ⟨a, x, hn, -⟩ | ⟨elements, items, hn, -⟩⟩
    · exact absurd (h.spells hp).isFrozen h.root_not_frozen
    all_goals
      rw [hn] at hk
      cases hk

/-- A value depends only on what is within the node. -/
theorem value?_congr (h : s.Sound) {s' : Store} (h' : s'.Sound)
    (hnode : ∀ x, s.tree.Within x id → s'.tree.node x = s.tree.node x)
    (hvalues : ∀ x, s.tree.Within x id → s'.pool.values[x]? = s.pool.values[x]?) :
    s'.value? id = s.value? id := by
  induction id using h.wellFormed.acyclic.induction with
  | _ id ih =>
    rw [h.value?_eq, h'.value?_eq]
    exact valueStep_congr (hvalues id .refl) (hnode id .refl) (fun c hc => hnode c (.single hc))
      fun c hc => ih c hc (fun x hx => hnode x (hx.tail hc)) fun x hx => hvalues x (hx.tail hc)

theorem value?_grows (h : s.Sound) {s' : Store} (h' : s'.Sound) (hg : s.Grows s')
    (hid : id < s.tree.size) : s'.value? id = s.value? id := by
  refine h.value?_congr h' (fun x hx => ?_) fun x hx => ?_
  · exact hg.tree.node (h.wellFormed.within_lt_size hx hid)
  · exact hg.values (h.wellFormed.within_lt_size hx hid)

theorem value?_of_grows (h : s.Sound) {s' : Store} (h' : s'.Sound) (hg : s.Grows s') {v : Value}
    (hv : s.value? id = some v) : s'.value? id = some v :=
  (h.value?_grows h' hg (h.lt_size_of_value? hv)).trans hv

end Sound

end Store

namespace Tree

variable {t : Tree}

mutual

theorem Spells.representable (hfinite : ∀ id, (t.node id).HasFiniteLiteral) :
    ∀ {v : Value} {id : NodeId}, t.Spells v id → v.Representable
  | .undefined, _, _ | .null, _, _ | .bool _, _, _ | .string _, _, _ => by
    simp only [Value.Representable]
  | .number x, id, hv => by
    have hinf : ∀ {y : Float}, y.isFinite → ¬ y.isInf := by
      intro y hy hi
      rw [isFinite_eq, hi] at hy
      simp at hy
    rw [Value.Representable]
    rw [Spells] at hv
    rcases hv with hl | ⟨-, a, y, -, ha, rfl⟩ | ⟨-, a, -, -, rfl⟩
    · exact hinf (hfinite id x hl.2)
    · exact hinf (by rw [isFinite_neg]; exact hfinite a y ha.2)
    · decide
  | .array items, id, hv => by
    rw [Value.Representable]
    rw [Spells] at hv
    obtain ⟨-, elements, -, hitems⟩ := hv
    exact hitems.representable hfinite

theorem SpellsItems.representable (hfinite : ∀ id, (t.node id).HasFiniteLiteral) :
    ∀ {items : List (Option Value)} {elements : List (Option NodeId)},
      t.SpellsItems items elements → Value.RepresentableItems items
  | [], _, _ => by rw [Value.RepresentableItems]; trivial
  | item :: items, _, hv => by
    rw [SpellsItems] at hv
    obtain ⟨e, es, -, he, hes⟩ := hv
    rw [Value.RepresentableItems]
    exact ⟨he.representable hfinite, hes.representable hfinite⟩

theorem SpellsItem.representable (hfinite : ∀ id, (t.node id).HasFiniteLiteral) :
    ∀ {item : Option Value} {e : Option NodeId}, t.SpellsItem item e → Value.RepresentableItem item
  | none, _, _ => by rw [Value.RepresentableItem]; trivial
  | some v, _, hv => by
    rw [SpellsItem] at hv
    obtain ⟨id, -, hid⟩ := hv
    rw [Value.RepresentableItem]
    exact hid.representable hfinite

end

end Tree

namespace Store.Sound

variable {s : Store} {id : NodeId}

theorem representable_value? (h : s.Sound) {v : Value} (hv : s.value? id = some v) :
    v.Representable := by
  induction id using h.wellFormed.acyclic.induction generalizing v with
  | _ id ih =>
    have finite : ∀ {x : Float}, x.isFinite → (Value.number x).Representable := by
      intro x hx
      rw [isFinite_eq] at hx
      simp only [Value.Representable]
      intro hi
      simp [hi] at hx
    rcases h.value?_cases hv with
      hp | ⟨-, ⟨l, hn, hl⟩ | ⟨a, x, -, ha, rfl⟩ | ⟨elements, items, hn, rfl, hitems⟩⟩
    · exact (h.spells hp).representable h.finite
    · cases l <;> cases hl <;> try simp only [Value.Representable]
      exact finite (h.finite id _ hn)
    · exact finite ((isFinite_neg x).trans (h.finite a x ha))
    · rw [Value.Representable]
      have hc : ∀ {c w}, some c ∈ elements → s.value? c = some w → w.Representable := fun hc =>
        ih _ (by
          unfold Tree.Child
          simpa [hn, Node.children, Node.slots, Slot.children] using hc)
      clear hv hn
      induction hitems with
      | nil => trivial
      | @cons e item elements items he _ ihs =>
        refine ⟨?_, ihs fun hmem => hc (List.mem_cons_of_mem _ hmem)⟩
        cases e with
        | none =>
          obtain rfl : none = item := Option.some.inj he
          trivial
        | some c =>
          obtain ⟨w, hw, rfl⟩ := Option.map_eq_some_iff.mp he
          exact hc (List.mem_cons_self ..) hw

end Store.Sound

end ScriptFold

import ScriptFold.Proofs.Faithful
import ScriptFold.Proofs.Import

/-!
How deep the search for constants goes. Whether a node is constant and what its value is are found
by two recursions, each written here as one step over any monad. Run with a limit on nested calls
that they report where it is too low (`constantWithin?`, `valueWithin?`), both come to an end if no
node is below itself: the number of nodes is limit enough. Then one says that a node is constant
exactly if the other finds a value.
-/

namespace ScriptFold

theorem allM_id {α : Type} (f : α → Id Bool) (xs : List α) :
    Id.run (xs.allM f) = xs.all fun x => Id.run (f x) := by
  induction xs with
  | nil => rfl
  | cons x xs ih =>
    rw [List.all_cons, ← ih]
    cases hx : Id.run (f x) <;> simp_all [List.allM]

theorem allM_settles {α : Type} {f : α → Option Bool} {g : α → Bool} {xs : List α}
    (h : ∀ x ∈ xs, f x = some (g x)) : xs.allM f = some (xs.all g) := by
  induction xs with
  | nil => rfl
  | cons x xs ih =>
    obtain ⟨hx, hxs⟩ := List.forall_mem_cons.mp h
    rw [List.allM, hx, List.all_cons]
    cases g x with
    | true => exact ih hxs
    | false => rfl

theorem mapM_settles {ε α β : Type} {f : α → ExceptT ε Option β} {g : α → Except ε β} {xs : List α}
    (h : ∀ x ∈ xs, (f x).run = some (g x)) : (xs.mapM f).run = some (xs.mapM g) := by
  induction xs with
  | nil => rfl
  | cons x xs ih =>
    obtain ⟨hx, hxs⟩ := List.forall_mem_cons.mp h
    rw [List.mapM_cons, List.mapM_cons, ExceptT.run_bind, hx]
    cases g x with
    | error e => rfl
    | ok y =>
      change (xs.mapM f >>= fun ys => pure (y :: ys)).run =
        some (do let ys ← xs.mapM g; pure (y :: ys))
      rw [ExceptT.run_bind, ih hxs]
      cases xs.mapM g <;> rfl

namespace Store

/-- One step of asking whether a node is constant. It ends with the first element that is not. -/
def constantStepM {m : Type → Type} [Monad m] (s : Store) (constant : NodeId → m Bool)
    (id : NodeId) : m Bool :=
  if s.pool.values.contains id then return true
  else
    match s.tree.node id with
    | .literal (.regExp ..) => return false
    | .literal _ => return true
    | .unaryExpression .minus argument => return (s.tree.node argument).isNumber
    | .arrayExpression elements => elements.allM fun element => element.elim (return true) constant
    | _ => return false

def valueStepM {m : Type → Type} [Monad m] [MonadExcept FoldError m] (s : Store)
    (value : NodeId → m Value) (id : NodeId) : m Value :=
  match s.pool.values[id]? with
  | some v => return v
  | none =>
    match s.tree.node id with
    | .literal .null => return .null
    | .literal (.bool b) => return .bool b
    | .literal (.number x) => return .number x
    | .literal (.string text) => return .string text
    | .unaryExpression .minus argument =>
      match s.tree.node argument with
      | .literal (.number x) => return .number (-x)
      | _ => throw (.notConstant id)
    | .arrayExpression elements =>
      .array <$> elements.mapM fun element => element.mapM value
    | _ => throw (.notConstant id)

/-- Whether a node is constant, if so many nested calls are enough to tell. -/
def constantWithin? (s : Store) : Nat → NodeId → Option Bool
  | 0, _ => none
  | limit + 1, id => s.constantStepM (s.constantWithin? limit) id

/-- The value of a node, if so many nested calls are enough to find it, or to find that there is
none. -/
def valueWithin? (s : Store) : Nat → NodeId → ExceptT FoldError Option Value
  | 0, _ => ExceptT.mk none
  | limit + 1, id => s.valueStepM (s.valueWithin? limit) id

variable {s : Store} {id : NodeId}

/-- `isConstantTo` takes the step without any effect. -/
theorem isConstantTo_succ (s : Store) (depth : Nat) (id : NodeId) :
    s.isConstantTo (depth + 1) id = Id.run (s.constantStepM (s.isConstantTo depth) id) := by
  rw [isConstantTo, constantStepM]
  cases s.pool.values.contains id with
  | true => rfl
  | false =>
    cases s.tree.node id <;> try rfl
    case literal l => cases l <;> rfl
    case unaryExpression op argument => cases op <;> rfl
    case arrayExpression elements =>
      refine Eq.trans ?_ (allM_id _ elements).symm
      simp only [Bool.false_or]
      congr 1
      funext element
      cases element <;> rfl

theorem valueTo_succ (s : Store) (depth : Nat) (id : NodeId) :
    s.valueTo (depth + 1) id = s.valueStepM (s.valueTo depth) id :=
  rfl

theorem child_of_element {elements : List (Option NodeId)} {c : NodeId}
    (hn : s.tree.node id = .arrayExpression elements) (hc : some c ∈ elements) :
    s.tree.Child c id :=
  Tree.child_of_node hn (by simpa [Node.children, Node.slots, Slot.children] using hc)

theorem constantStepM_settles {constant : NodeId → Option Bool} {constant' : NodeId → Bool}
    (h : ∀ c, s.tree.Child c id → constant c = some (constant' c)) :
    s.constantStepM constant id = some (Id.run (s.constantStepM constant' id)) := by
  unfold constantStepM
  cases s.pool.values.contains id with
  | true => rfl
  | false =>
    cases hn : s.tree.node id <;> try rfl
    case literal l => cases l <;> rfl
    case unaryExpression op argument => cases op <;> rfl
    case arrayExpression elements =>
      have helement : ∀ e ∈ elements, e.elim (some true) constant =
          some (Id.run (e.elim (pure true) constant')) := by
        intro e he
        cases e with
        | none => rfl
        | some c => exact h c (child_of_element hn he)
      exact (allM_settles helement).trans (congrArg some (allM_id _ elements).symm)

theorem valueStepM_settles {value : NodeId → ExceptT FoldError Option Value}
    {value' : NodeId → Except FoldError Value}
    (h : ∀ c, s.tree.Child c id → (value c).run = some (value' c)) :
    (s.valueStepM value id).run = some (s.valueStepM value' id) := by
  unfold valueStepM
  cases s.pool.values[id]? with
  | some v => rfl
  | none =>
    cases hn : s.tree.node id <;> try rfl
    case literal l => cases l <;> rfl
    case unaryExpression op argument =>
      cases op <;> try rfl
      dsimp only
      cases s.tree.node argument <;> try rfl
      case literal l => cases l <;> rfl
    case arrayExpression elements =>
      have helement : ∀ e ∈ elements, (e.mapM value).run = some (e.mapM value') := by
        intro e he
        cases e with
        | none => rfl
        | some c =>
          change (some <$> value c).run = some (some <$> value' c)
          rw [ExceptT.run_map, h c (child_of_element hn he)]
          cases value' c <;> rfl
      have hitems := mapM_settles helement
      refine (ExceptT.run_map ..).trans ?_
      rw [hitems]
      dsimp only
      cases elements.mapM fun e : Option NodeId => e.mapM value' <;> rfl

theorem constantWithin?_eq (h : s.tree.WellFormed) {limit depth : Nat}
    (hlimit : s.tree.countBelow id < limit) (hdepth : s.tree.countBelow id < depth) :
    s.constantWithin? limit id = some (s.isConstantTo depth id) := by
  induction limit generalizing depth id with
  | zero => omega
  | succ limit ih =>
    obtain ⟨depth, rfl⟩ := Nat.exists_eq_add_one_of_ne_zero (Nat.ne_zero_of_lt hdepth)
    rw [constantWithin?, isConstantTo_succ]
    refine constantStepM_settles fun c hc => ?_
    have hlt := h.countBelow_lt hc
    exact ih (by omega) (by omega)

theorem valueWithin?_eq (h : s.tree.WellFormed) {limit depth : Nat}
    (hlimit : s.tree.countBelow id < limit) (hdepth : s.tree.countBelow id < depth) :
    (s.valueWithin? limit id).run = some (s.valueTo depth id) := by
  induction limit generalizing depth id with
  | zero => omega
  | succ limit ih =>
    obtain ⟨depth, rfl⟩ := Nat.exists_eq_add_one_of_ne_zero (Nat.ne_zero_of_lt hdepth)
    rw [valueWithin?, valueTo_succ]
    refine valueStepM_settles fun c hc => ?_
    have hlt := h.countBelow_lt hc
    exact ih (by omega) (by omega)

theorem isConstant_iff (s : Store) (id : NodeId) : s.isConstant id ↔ ∃ v, s.valueOf id = .ok v := by
  rw [isConstant_eq]
  change (s.valueOf id).toOption.isSome ↔ _
  cases s.valueOf id <;> simp [Except.toOption]

/-- Both recursions end within as many nested calls as there are nodes, and one says that the node
is constant exactly if the other finds a value. -/
structure Decides (s : Store) (id : NodeId) : Prop where
  constant : ∀ limit ≥ s.tree.size, s.constantWithin? limit id = some (s.isConstant id)
  value : ∀ limit ≥ s.tree.size, (s.valueWithin? limit id).run = some (s.valueOf id)
  agree : s.isConstant id ↔ ∃ v, s.valueOf id = .ok v

theorem decides (h : s.tree.WellFormed) (hid : id < s.tree.size) : s.Decides id where
  constant _ hlimit :=
    have hbelow := h.countBelow_lt_size hid
    constantWithin?_eq h (hbelow.trans_le hlimit) hbelow
  value _ hlimit :=
    have hbelow := h.countBelow_lt_size hid
    valueWithin?_eq h (hbelow.trans_le hlimit) hbelow
  agree := s.isConstant_iff id

section Requests

theorem wellFormed_freeze (hw : s.tree.WellFormed) {n : Node NodeId} (value : Option Value)
    (minified : Bool) (hn : ∀ c ∈ n.children, c < s.tree.size) :
    (s.freeze n value minified).2.tree.WellFormed := by
  rw [tree_freeze]
  exact hw.alloc _ hn

theorem wellFormed_internLiteral (hw : s.tree.WellFormed) (c : Constant) :
    (s.internLiteral c).2.tree.WellFormed := by
  unfold internLiteral
  split
  · exact hw
  · exact wellFormed_freeze hw (some c.value) false (by simp [Node.children, Node.slots])

theorem wellFormed_intern (h : s.Faithful) (hw : s.tree.WellFormed) (c : Constant) :
    (s.intern c).2.tree.WellFormed := by
  unfold intern
  split
  · rename_i bits
    split
    · exact hw
    · obtain ⟨ha, -⟩ := h.answers_internLiteral (c := .number bits) rfl
      refine wellFormed_freeze (wellFormed_internLiteral hw _)
        (some (Constant.value (.negated bits))) false fun a hmem => ?_
      obtain rfl := List.mem_singleton.mp hmem
      exact ha.faithful.lt_size ha.value
  · exact wellFormed_internLiteral hw _

theorem wellFormed_over (h : s.Faithful) (hw : s.tree.WellFormed) {c : Constant}
    {n : NodeId → Node NodeId} (value : Option Value) (minified : Bool)
    (hn : ∀ a, ∀ x ∈ (n a).children, x = a) :
    ((s.intern c).2.freeze (n (s.intern c).1) value minified).2.tree.WellFormed := by
  obtain ⟨ha, -⟩ := h.answers_intern c
  refine wellFormed_freeze (wellFormed_intern h hw c) value minified fun x hx => ?_
  rw [hn _ x hx]
  exact ha.faithful.lt_size ha.value

theorem wellFormed_undefined (h : s.Faithful) (hw : s.tree.WellFormed) :
    s.undefined.2.tree.WellFormed := by
  unfold Store.undefined
  split
  · exact hw
  · exact wellFormed_over (n := .unaryExpression .void) h hw (some .undefined) false
      fun a x hx => List.mem_singleton.mp hx

theorem wellFormed_nan (h : s.Faithful) (hw : s.tree.WellFormed) : s.nan.2.tree.WellFormed := by
  unfold Store.nan
  split
  · exact hw
  · exact wellFormed_over (n := fun a => .binaryExpression .div a a) h hw (some (.number (0 / 0)))
      false fun a x hx => by simpa [Node.children, Node.slots, Slot.children] using hx

theorem wellFormed_minifiedBool (h : s.Faithful) (hw : s.tree.WellFormed) (b : Bool) :
    (s.minifiedBool b).2.tree.WellFormed := by
  have hover := wellFormed_over (c := .number (if b then 0 else 1 : Float).toBits)
    (n := .unaryExpression .not) h hw (some (.bool b)) true fun a x hx => List.mem_singleton.mp hx
  unfold Store.minifiedBool
  split
  · exact hw
  · cases b <;> exact hover

theorem wellFormed_emptyStatement (hw : s.tree.WellFormed) :
    s.emptyStatement.2.tree.WellFormed := by
  unfold Store.emptyStatement
  split
  · exact hw
  · exact wellFormed_freeze hw none false (by simp [Node.children, Node.slots])

end Requests

/-- The store that a run leaves, whether it fails or not. -/
def left {α : Type} : EStateM.Result FoldError Store α → Store
  | .ok _ s => s
  | .error _ s => s

end Store

namespace Value

open Store

mutual

theorem wellFormed_toNode {s : Store} (h : s.Faithful) (hw : s.tree.WellFormed) :
    ∀ v : Value, (Store.left (v.toNode s)).tree.WellFormed
  | .undefined => wellFormed_undefined h hw
  | .null => wellFormed_intern h hw .null
  | .bool b => wellFormed_intern h hw (.bool b)
  | .string text => wellFormed_intern h hw (.string text)
  | .number x => by
    rw [toNode]
    split
    · exact wellFormed_nan h hw
    · split
      · exact hw
      · exact wellFormed_intern h hw (.ofNumber x)
  | .array items => by
    have hitems := wellFormed_itemNodes h hw items
    rw [toNode]
    change (Store.left (EStateM.bind _ _ s)).tree.WellFormed
    rcases itemNodes_cases h items with ⟨-, es, s₁, hrun, hf, -, hes⟩ | ⟨-, e, s₁, hrun, -⟩
    · rw [hrun] at hitems
      rw [EStateM.bind, hrun]
      refine wellFormed_freeze hitems (some (.array items)) false fun c hc => ?_
      -- the pool remembers every element, so that each is a node
      have hmem : some c ∈ es := by simpa [Node.children, Node.slots, Slot.children] using hc
      have hsome :=
        isSome_mapM_list (fun e : Option NodeId => e.mapM fun c => s₁.pool.values[c]?) es
      rw [hes] at hsome
      have hc := List.all_eq_true.mp hsome.symm (some c) hmem
      rw [isSome_mapM_option] at hc
      obtain ⟨v, hv⟩ := Option.isSome_iff_exists.mp hc
      exact hf.lt_size hv
    · rw [hrun] at hitems
      rw [EStateM.bind, hrun]
      exact hitems

theorem wellFormed_itemNodes {s : Store} (h : s.Faithful) (hw : s.tree.WellFormed) :
    ∀ items : List (Option Value), (Store.left (itemNodes items s)).tree.WellFormed
  | [] => hw
  | item :: items => by
    have hitem := wellFormed_itemNode h hw item
    rw [itemNodes]
    change (Store.left (EStateM.bind _ _ s)).tree.WellFormed
    rcases itemNode_cases h item with ⟨-, e, s₁, hrun, hf, -⟩ | ⟨-, e, s₁, hrun, -⟩
    · rw [hrun] at hitem
      have hitems := wellFormed_itemNodes hf hitem items
      rw [EStateM.bind, hrun]
      change (Store.left (EStateM.bind _ _ s₁)).tree.WellFormed
      rw [EStateM.bind]
      cases hrest : itemNodes items s₁ <;> rw [hrest] at hitems <;> exact hitems
    · rw [hrun] at hitem
      rw [EStateM.bind, hrun]
      exact hitem

theorem wellFormed_itemNode {s : Store} (h : s.Faithful) (hw : s.tree.WellFormed) :
    ∀ item : Option Value, (Store.left (itemNode item s)).tree.WellFormed
  | none => hw
  | some v => by
    have hv := wellFormed_toNode h hw v
    rw [itemNode]
    change (Store.left (EStateM.bind _ _ s)).tree.WellFormed
    rw [EStateM.bind]
    cases hrun : v.toNode s <;> rw [hrun] at hv <;> exact hv

end

end Value

namespace Store

variable {s : Store}

theorem wellFormed_request (h : s.Faithful) (hw : s.tree.WellFormed) (r : Request) :
    (s.after (.request r)).tree.WellFormed := by
  cases r with
  | toNode v =>
    have hv := Value.wellFormed_toNode h hw v
    unfold after Request.run
    dsimp only
    cases hrun : v.toNode s <;> rw [hrun] at hv <;> exact hv
  | undefined => exact wellFormed_undefined h hw
  | nan => exact wellFormed_nan h hw
  | negativeZero => exact wellFormed_intern h hw (.negated (0 : Float).toBits)
  | null => exact wellFormed_intern h hw .null
  | emptyStatement => exact wellFormed_emptyStatement hw
  | minifiedBool b => exact wellFormed_minifiedBool h hw b

theorem wellFormed_requests (h : s.Faithful) (hw : s.tree.WellFormed) (requests : List Request) :
    (s.afterAll (requests.map .request)).tree.WellFormed := by
  induction requests generalizing s with
  | nil => exact hw
  | cons r requests ih => exact ih (h.after (.request r)).1 (wellFormed_request h hw r)

end Store

/-- Whether a node is constant and what its value is are found by recursions that end and agree: in
any well formed tree, whatever its pool, within as many nested calls as there are nodes. Requests to
a new pool leave a tree well formed, and so does folding; and in no state does asking for the value
of a node that is constant fail. -/
theorem Tree.constants_decided :
    (∀ s : Store, s.tree.WellFormed → ∀ id < s.tree.size, s.Decides id) ∧
    (∀ (t : Tree) (requests : List Request), t.WellFormed →
      (Store.afterAll { tree := t } (requests.map .request)).tree.WellFormed) ∧
    (∀ (json : Json) (t : Tree) (rules : List Rule) (s : FoldState), json.Finite →
      ofJson json = .ok t → FoldState.Folds rules { tree := t } s → s.tree.WellFormed) ∧
    ∀ (s : FoldState) (id : NodeId), FoldM.constant? id s = .ok (s.valueOf id).toOption s := by
  refine ⟨fun s hs id hid => Store.decides hs hid, fun t requests ht =>
    Store.wellFormed_requests (Store.faithful_empty t) ht requests,
    fun json t rules s hj ht hr => ?_, fun s id => FoldM.constant?_run s id⟩
  have hs : Store.Sound { tree := t } := (fresh_ofJson hj ht).sound
  exact (hr.sound hs).wellFormed

/-- `[[-1, ,], a]` -/
def Json.programArrays : Json :=
  .obj [("type", .str "Program"), ("body", .arr [.obj [("type", .str "ExpressionStatement"),
    ("expression", .obj [("type", .str "ArrayExpression"), ("elements", .arr [
      .obj [("type", .str "ArrayExpression"), ("elements", .arr [
        .obj [("type", .str "UnaryExpression"), ("operator", .str "-"),
          ("argument", .obj [("type", .str "Literal"), ("value", .int 1)])], .null])],
      .obj [("type", .str "Identifier"), ("name", .str "a")]])])]])]

theorem Json.finite_programArrays : programArrays.Finite := by
  have h : (Float.ofInt 1).isFinite := by rfl
  simp [programArrays, Json.Finite, Json.FiniteMembers, Json.FiniteItems, h]

/-- A pool is asked for `[,]` and the empty statement over the program `[[-1, ,], a]`. The inner array
of the program is constant then, and the outer one is not. -/
theorem Tree.constants_decided_arrays : ∃ t, ofJson .programArrays = .ok t ∧ t.WellFormed ∧
    t.node 3 = .arrayExpression [some 2, none] ∧ t.node 5 = .arrayExpression [some 3, some 4] ∧
    let s := Store.afterAll { tree := t }
      ([Request.toNode (.array [none]), .emptyStatement].map .request)
    s.tree.WellFormed ∧ s.constantWithin? 10 5 = some false ∧
      (∃ v, (s.valueWithin? 10 3).run = some (.ok v)) ∧
      FoldM.constant? 5 { toStore := s } = .ok none { toStore := s } := by
  obtain ⟨hdecides, hrequests, hfolds, hconstant⟩ := constants_decided
  have ht := hfolds _ _ [] { tree := _ } Json.finite_programArrays rfl .refl
  have hs := hrequests _ [.toNode (.array [none]), .emptyStatement] ht
  refine ⟨_, rfl, ht, rfl, rfl, ?_⟩
  intro s
  have hpool : ∀ x, x ≠ 8 → s.pool.values.contains x = false := by
    intro x hx
    change (Std.HashMap.insert {} 8 _).contains x = false
    simpa using hx.symm
  have inner : s.isConstant 3 = true := by
    have hminus : s.isConstantTo 9 2 = true := by
      rw [Store.isConstantTo, hpool 2 (by decide)]
      rfl
    change s.isConstantTo 10 3 = true
    rw [Store.isConstantTo, hpool 3 (by decide)]
    change (s.isConstantTo 9 2 && (true && true)) = true
    rw [hminus]
    rfl
  have outer : s.isConstant 5 = false := by
    have hname : s.isConstantTo 9 4 = false := by
      rw [Store.isConstantTo, hpool 4 (by decide)]
      rfl
    change s.isConstantTo 10 5 = false
    rw [Store.isConstantTo, hpool 5 (by decide)]
    change (s.isConstantTo 9 3 && (s.isConstantTo 9 4 && true)) = false
    rw [hname]
    exact Bool.and_false _
  refine ⟨hs, ?_, ?_, ?_⟩
  · rw [(hdecides s hs 5 (by decide)).constant 10 (by decide), outer]
  · obtain ⟨v, hv⟩ := (hdecides s hs 3 (by decide)).agree.mp inner
    refine ⟨v, ?_⟩
    rw [(hdecides s hs 3 (by decide)).value 10 (by decide), hv]
  · have hnone : (s.valueOf 5).toOption = none := by
      rw [s.isConstant_eq] at outer
      exact Option.not_isSome_iff_eq_none.mp (Bool.eq_false_iff.mp outer)
    refine (hconstant { toStore := s } 5).trans ?_
    rw [hnone]

end ScriptFold

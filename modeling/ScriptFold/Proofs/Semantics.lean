import ScriptFold.Proofs.Computation
import ScriptFold.Proofs.Firing

/-!
What a program does. Every node stands for a computation, put together from those of its children in
the order in which they are run; identifiers, calls and operators may be anything at all. A node has
no meaning where it is no such expression or statement, or has a child that has none there.
-/

namespace ScriptFold

variable {σ : Type}

/-- What is not said by the shape of a program: what its identifiers, calls, operators and
assignments do. Occurrences of one identifier may differ, and so may calls of one function. -/
structure Semantics (σ : Type) where
  identifier : NodeId → String → Comp σ Value
  /-- A call of what an identifier names; what it does with its arguments is its own affair. -/
  call : NodeId → String → Comp σ Value
  unary : UnaryOp → Value → Comp σ Value
  binary : BinaryOp → Value → Value → Comp σ Value
  /-- Reads a property of a value. -/
  lookup : Value → Value → Comp σ Value
  assign : String → Value → Comp σ Unit

/-- What a node stands for in each of the places where it may be. -/
@[ext]
structure Meaning (σ : Type) where
  value? : Option (Comp σ Value) := none
  name? : Option String := none
  declarator? : Option (Comp σ Unit) := none
  /-- What comes before a loop: a declaration, or an expression whose value is dropped. -/
  head? : Option (Comp σ Unit) := none
  statement? : Option (Comp σ Completion) := none

namespace Meaning

def expression (e? : Option (Comp σ Value)) : Meaning σ :=
  { value? := e?, head? := e?.map Comp.discard }

def statement (c? : Option (Comp σ Completion)) : Meaning σ :=
  { statement? := c? }

def declaration (d? : Option (Comp σ Unit)) : Meaning σ :=
  { head? := d?, statement? := d?.map fun d => do d; return .normal }

@[simp] theorem value?_expression (e? : Option (Comp σ Value)) :
    (Meaning.expression e?).value? = e? := rfl

@[simp] theorem statement?_statement (c? : Option (Comp σ Completion)) :
    (Meaning.statement c?).statement? = c? := rfl

end Meaning

namespace Semantics

/-- What a node stands for, over what its children stand for. -/
noncomputable def nodeMeaning (sem : Semantics σ) (x : NodeId) : Node (Meaning σ) → Meaning σ
  | .identifier name =>
    { Meaning.expression (some (sem.identifier x name)) with name? := some name }
  | .literal l => .expression (l.value?.map pure)
  | .callExpression callee _ => .expression (callee.name?.map (sem.call x))
  | .unaryExpression op argument => .expression do
    guard (op ≠ .delete)
    argument.value?.map (· >>= sem.unary op)
  | .binaryExpression op left right => .expression do
    let l ← left.value?
    let r ← right.value?
    return do
      let a ← l
      let b ← r
      sem.binary op a b
  | .logicalExpression op left right => .expression do
    let l ← left.value?
    let r ← right.value?
    return do
      let a ← l
      if op.decides a then return a else r
  | .conditionalExpression test consequent alternate => .expression do
    let t ← test.value?
    let c ← consequent.value?
    let a ← alternate.value?
    return .choose t c a
  | .sequenceExpression expressions =>
    .expression ((expressions.mapM Meaning.value?).map Comp.sequence)
  | .arrayExpression elements => .expression do
    let es ← elements.mapM fun element =>
      element.elim (some (return none)) fun e => e.value?.map (some <$> ·)
    return do
      let items ← es.mapM fun e => e
      return .array items
  | .memberExpression object prop true => .expression do
    let o ← object.value?
    let p ← prop.value?
    return do
      let v ← o
      let key ← p
      sem.lookup v key
  | .memberExpression object prop false => .expression do
    let o ← object.value?
    let name ← prop.name?
    return do
      let v ← o
      sem.lookup v (.string name)
  | .variableDeclarator target init =>
    { declarator? := do
        let name ← target.name?
        init.elim (some (return ())) fun e => e.value?.map (· >>= sem.assign name) }
  | .variableDeclaration declarations .var => .declaration do
    let ds ← declarations.mapM Meaning.declarator?
    return ds.forM fun d => d
  | .emptyStatement => .statement (some (return .normal))
  | .expressionStatement expression _ => .statement (expression.value?.map Comp.effect)
  | .blockStatement body => .statement do
    let cs ← body.mapM Meaning.statement?
    return .run cs
  | .ifStatement test consequent alternate => .statement do
    let t ← test.value?
    let c ← consequent.statement?
    let a ← alternate.elim (some (return .normal)) Meaning.statement?
    return .choose t c a
  | .whileStatement test body => .statement do
    let t ← test.value?
    let b ← body.statement?
    return .loop (Value.toBoolean <$> t) b (return ())
  | .doWhileStatement body test => .statement do
    let b ← body.statement?
    let t ← test.value?
    return .loopOnce (Value.toBoolean <$> t) b
  | .forStatement init test update body => .statement do
    let i ← init.elim (some (return ())) Meaning.head?
    let t ← test.elim (some (return true)) fun e => e.value?.map (Value.toBoolean <$> ·)
    let u ← update.elim (some (return ())) fun e => e.value?.map Comp.discard
    let b ← body.statement?
    return do
      i
      .loop t b u
  | .breakStatement none => .statement (some (return .broken))
  | .continueStatement none => .statement (some (return .continued))
  | .returnStatement argument => .statement do
    let e ← argument.elim (some (return .undefined)) Meaning.value?
    return do
      let v ← e
      return .returned v
  | .throwStatement argument => .statement do
    let e ← argument.value?
    return do
      let v ← e
      throw v
  | _ => {}

/-- The same where some nodes are known to be constant. -/
noncomputable def step (sem : Semantics σ) (constant : NodeId → Option Value) (x : NodeId)
    (n : Node (Meaning σ)) : Meaning σ :=
  match constant x with
  | some v => .expression (some (pure v))
  | none => sem.nodeMeaning x n

end Semantics

/-- What a node of a tree stands for, where some nodes are known to be constant. -/
noncomputable def Tree.meaning (t : Tree) (sem : Semantics σ) (constant : NodeId → Option Value) :
    NodeId → Meaning σ :=
  t.attr (sem.step constant) {}

def Kept {α : Type} (o o' : Option α) : Prop :=
  ∀ a, o = some a → o' = some a

namespace Kept

variable {α β : Type} {o o' : Option α}

theorem refl (o : Option α) : Kept o o :=
  fun _ h => h

theorem none (o : Option α) : Kept .none o :=
  fun _ h => by cases h

theorem bind {f f' : α → Option β} (h : Kept o o') (hf : ∀ a, Kept (f a) (f' a)) :
    Kept (o >>= f) (o' >>= f') := by
  intro b hb
  obtain ⟨a, ha, hb⟩ := Option.bind_eq_some_iff.mp hb
  exact Option.bind_eq_some_iff.mpr ⟨a, h a ha, hf a b hb⟩

theorem map (h : Kept o o') (f : α → β) : Kept (o.map f) (o'.map f) := by
  intro b hb
  obtain ⟨a, ha, rfl⟩ := Option.map_eq_some_iff.mp hb
  exact Option.map_eq_some_iff.mpr ⟨a, h a ha, rfl⟩

variable {ι γ : Type} {f g : ι → γ} {p : γ → Option β}

theorem mapM {xs : List ι} (h : ∀ x ∈ xs, Kept (p (f x)) (p (g x))) :
    Kept ((xs.map f).mapM p) ((xs.map g).mapM p) := by
  induction xs with
  | nil => exact refl _
  | cons x xs ih =>
    rw [List.map_cons, List.map_cons, List.mapM_cons, List.mapM_cons]
    refine bind (h x (List.mem_cons_self ..)) fun y => bind (ih fun x hx => ?_) fun ys => refl _
    exact h x (List.mem_cons_of_mem _ hx)

theorem elim {x : Option ι} {d : Option β} (h : ∀ y, x = some y → Kept (p (f y)) (p (g y))) :
    Kept ((x.map f).elim d p) ((x.map g).elim d p) := by
  cases x with
  | none => exact refl _
  | some x => exact h x rfl

end Kept

namespace Meaning

/-- Wherever one node has a meaning, another has the same. -/
structure Kept (m m' : Meaning σ) : Prop where
  value : ScriptFold.Kept m.value? m'.value?
  name : ScriptFold.Kept m.name? m'.name?
  declarator : ScriptFold.Kept m.declarator? m'.declarator?
  head : ScriptFold.Kept m.head? m'.head?
  statement : ScriptFold.Kept m.statement? m'.statement?

namespace Kept

variable {m m' m'' : Meaning σ}

theorem refl (m : Meaning σ) : m.Kept m :=
  ⟨.refl _, .refl _, .refl _, .refl _, .refl _⟩

theorem trans (h : m.Kept m') (h' : m'.Kept m'') : m.Kept m'' where
  value a ha := h'.value a (h.value a ha)
  name a ha := h'.name a (h.name a ha)
  declarator a ha := h'.declarator a (h.declarator a ha)
  head a ha := h'.head a (h.head a ha)
  statement a ha := h'.statement a (h.statement a ha)

theorem unknown (m : Meaning σ) : Kept {} m :=
  ⟨.none _, .none _, .none _, .none _, .none _⟩

theorem expression {e? e?' : Option (Comp σ Value)} (h : ScriptFold.Kept e? e?') :
    (Meaning.expression e?).Kept (.expression e?') :=
  ⟨h, .refl _, .refl _, h.map _, .refl _⟩

theorem ofStatement {c? c?' : Option (Comp σ Completion)} (h : ScriptFold.Kept c? c?') :
    (Meaning.statement c?).Kept (.statement c?') :=
  ⟨.refl _, .refl _, .refl _, .refl _, h⟩

theorem declaration {d? d?' : Option (Comp σ Unit)} (h : ScriptFold.Kept d? d?') :
    (Meaning.declaration d?).Kept (.declaration d?') :=
  ⟨.refl _, .refl _, .refl _, h, h.map _⟩

end Kept

end Meaning

namespace Semantics

variable {ι : Type} {sem : Semantics σ} {x : NodeId} {f g : ι → Meaning σ}

theorem nodeMeaning_kept {n : Node ι} (h : ∀ c ∈ n.children, (f c).Kept (g c)) :
    (sem.nodeMeaning x (n.map f)).Kept (sem.nodeMeaning x (n.map g)) := by
  unfold Node.children at h
  cases n <;> simp only [Node.slots, Slot.children, List.flatMap_cons, List.flatMap_nil,
    List.append_nil, List.singleton_append, List.mem_append, List.mem_cons, List.not_mem_nil, or_false,
    Option.mem_toList, List.mem_filterMap, id, exists_eq_right, or_imp, forall_and, forall_eq] at h <;>
    simp only [Node.map, Node.traverse, Visitor.plain, Id.run, pure, bind]
  -- kinds that mean nothing, and kinds without children
  all_goals try exact .unknown _
  all_goals try exact .refl _
  case expressionStatement => exact .ofStatement (h.value.map _)
  case throwStatement => exact .ofStatement (.bind h.value fun _ => .refl _)
  case blockStatement =>
    exact .ofStatement (.bind (.mapM fun c hc => (h c hc).statement) fun _ => .refl _)
  case returnStatement =>
    exact .ofStatement (.bind (.elim fun c hc => (h c hc).value) fun _ => .refl _)
  case breakStatement label | continueStatement label =>
    cases label with
    | none => exact .refl _
    | some _ => exact .unknown _
  case ifStatement =>
    exact .ofStatement (.bind h.2.2.value fun _ => .bind h.2.1.statement fun _ =>
      .bind (.elim fun c hc => (h.1 c hc).statement) fun _ => .refl _)
  case whileStatement =>
    exact .ofStatement (.bind h.2.value fun _ => .bind h.1.statement fun _ => .refl _)
  case doWhileStatement =>
    exact .ofStatement (.bind h.1.statement fun _ => .bind h.2.value fun _ => .refl _)
  case forStatement =>
    obtain ⟨hbody, hinit, htest, hupdate⟩ := h
    exact .ofStatement (.bind (.elim fun c hc => (hinit c hc).head) fun _ =>
      .bind (.elim fun c hc => (htest c hc).value.map _) fun _ =>
      .bind (.elim fun c hc => (hupdate c hc).value.map _) fun _ =>
      .bind hbody.statement fun _ => .refl _)
  case variableDeclaration kind =>
    cases kind with
    | var => exact .declaration (.bind (.mapM fun c hc => (h c hc).declarator) fun _ => .refl _)
    | _ => exact .unknown _
  case variableDeclarator =>
    refine ⟨.refl _, .refl _, ?_, .refl _, .refl _⟩
    exact .bind h.1.name fun _ => .elim fun c hc => (h.2 c hc).value.map _
  case arrayExpression =>
    refine .expression (.bind (.mapM fun e he => ?_) fun _ => .refl _)
    exact .elim fun c hc => (h c (hc ▸ he)).value.map _
  case unaryExpression => exact .expression (.bind (.refl _) fun _ => h.value.map _)
  case binaryExpression | logicalExpression =>
    exact .expression (.bind h.1.value fun _ => .bind h.2.value fun _ => .refl _)
  case conditionalExpression =>
    exact .expression (.bind h.2.2.value fun _ => .bind h.2.1.value fun _ =>
      .bind h.1.value fun _ => .refl _)
  case callExpression => exact .expression (h.2.name.map _)
  case memberExpression computed =>
    cases computed with
    | true => exact .expression (.bind h.1.value fun _ => .bind h.2.value fun _ => .refl _)
    | false => exact .expression (.bind h.1.value fun _ => .bind h.2.name fun _ => .refl _)
  case sequenceExpression =>
    exact .expression (.map (.mapM fun c hc => (h c hc).value) _)

end Semantics

namespace Tree

variable {sem : Semantics σ} {constant constant' : NodeId → Option Value} {t t' : Tree} {x : NodeId}

theorem meaning_eq (h : t.WellFormed) (x : NodeId) :
    t.meaning sem constant x = sem.step constant x ((t.node x).map (t.meaning sem constant)) :=
  attr_eq h x

/-- A meaning depends only on what is within the node. -/
theorem meaning_congr (h : t.WellFormed) (h' : t'.WellFormed)
    (hnode : ∀ y, t.Within y x → t'.node y = t.node y)
    (hconstant : ∀ y, t.Within y x → constant' y = constant y) :
    t'.meaning sem constant' x = t.meaning sem constant x :=
  attr_congr h h' hnode fun y n hy => by rw [Semantics.step, Semantics.step, hconstant y hy]

end Tree

namespace Store

variable {s : Store} {observed : Bool} {rule : Rule} {p : Path} {a x : NodeId} {n : Node NodeId}

theorem Edit.node_self (h : s.Sound) (he : s.Edit observed rule p x n) :
    (s.put x n).tree.node x = n :=
  (Tree.node_setNode (he.admissible h).1 n x).trans (if_pos rfl)

theorem Edit.node_of_ne (h : s.Sound) (he : s.Edit observed rule p x n) (ha : a ≠ x) :
    (s.put x n).tree.node a = s.tree.node a :=
  (Tree.node_setNode (he.admissible h).1 n a).trans (if_neg ha)

theorem Edit.node_apart (h : s.Sound) (he : s.Edit observed rule p x n) (ha : ¬ s.tree.Within x a)
    {y : NodeId} (hy : s.tree.Within y a) : (s.put x n).tree.node y = s.tree.node y := by
  refine he.node_of_ne h ?_
  rintro rfl
  exact ha hy

theorem Edit.value?_apart (h : s.Sound) (he : s.Edit observed rule p x n)
    (ha : ¬ s.tree.Within x a) : (s.put x n).value? a = s.value? a :=
  h.value?_congr (he.sound h) (fun _ hy => he.node_apart h ha hy) fun _ _ => rfl

end Store

end ScriptFold

import ScriptFold.Proofs.Convergence

/-!
The grammar of programs. A node is of a category by its kind, and every slot asks for one; a tree is
grammatical if each slot of the program holds what it asks for. The tree itself checks none of that.
Rules put nodes where others were, and what they put there is of every category that the others
were of (`Swap.suits`, `Splice.suits`), so no firing makes a grammatical program ungrammatical.
-/

namespace ScriptFold

open Relation

/-- What a slot asks for. -/
inductive Category where
  | statement
  | expression
  | block
  /-- The body of an arrow function: a block or an expression. -/
  | arrowBody
  /-- The start of a `for`: a declaration of variables or an expression. -/
  | head
  | switchCase
  | catchClause
  | declarator
  | property
  | identifier
  deriving DecidableEq, Repr

namespace Kind

def isStatement : Kind → Bool
  | .expressionStatement | .blockStatement | .emptyStatement | .debuggerStatement
  | .withStatement | .returnStatement | .labeledStatement | .breakStatement | .continueStatement
  | .ifStatement | .switchStatement | .throwStatement | .tryStatement | .whileStatement
  | .doWhileStatement | .forStatement | .forInStatement | .functionDeclaration
  | .variableDeclaration => true
  | _ => false

def isExpression : Kind → Bool
  | .identifier | .literal | .thisExpression | .arrayExpression | .objectExpression
  | .functionExpression | .arrowFunctionExpression | .unaryExpression | .updateExpression
  | .binaryExpression | .logicalExpression | .assignmentExpression | .conditionalExpression
  | .callExpression | .newExpression | .memberExpression | .sequenceExpression => true
  | _ => false

theorem isStatement_eq_false {k : Kind} (h : k.isExpression) : k.isStatement = false := by
  cases k <;> first | rfl | cases h

/-- What the slot of a field asks for. What may stand where a name is bound is left open. -/
def category (binding : Category) (kind : Kind) : Field → Category
  | .alternate | .consequent => if kind = .conditionalExpression then .expression else .statement
  | .block | .finalizer => .block
  | .body =>
    match kind with
    | .functionDeclaration | .functionExpression | .catchClause => .block
    | .arrowFunctionExpression => .arrowBody
    | _ => .statement
  | .cases => .switchCase
  | .declarations => .declarator
  | .handler => .catchClause
  | .id => if kind = .variableDeclarator then binding else .identifier
  | .init => if kind = .forStatement then .head else .expression
  | .label => .identifier
  | .left => if kind = .forInStatement then .head else .expression
  | .param | .params => binding
  | .properties => .property
  | .argument | .arguments | .callee | .discriminant | .elements | .expression | .expressions
  | .key | .object | .property | .right | .test | .update | .value => .expression

end Kind

namespace Category

/-- Whether a node of a given kind is of a category. -/
def admits (category : Category) (kind : Kind) : Bool :=
  match category with
  | .statement => kind.isStatement
  | .expression => kind.isExpression
  | .block => kind = .blockStatement
  | .arrowBody => kind = .blockStatement || kind.isExpression
  | .head => kind = .variableDeclaration || kind.isExpression
  | .switchCase => kind = .switchCase
  | .catchClause => kind = .catchClause
  | .declarator => kind = .variableDeclarator
  | .property => kind = .property
  | .identifier => kind = .identifier

variable {category : Category} {k k' : Kind}

/-- Where an expression other than a name may stand, every expression may. -/
theorem admits_expression (hk : k.isExpression) (hne : k ≠ .identifier) (hk' : k'.isExpression)
    (h : category.admits k) : category.admits k' := by
  cases category with
  | expression => exact hk'
  | arrowBody | head => simp [admits, hk']
  | statement => exact absurd h (by simp [admits, Kind.isStatement_eq_false hk])
  | identifier => exact absurd (of_decide_eq_true h) hne
  | block | switchCase | catchClause | declarator | property =>
    obtain rfl := of_decide_eq_true h
    cases hk

theorem admits_statement (hk : k.isStatement) (hblock : k ≠ .blockStatement)
    (hdeclaration : k ≠ .variableDeclaration) (hk' : k'.isStatement) (h : category.admits k) :
    category.admits k' := by
  have hexpression : ¬ k.isExpression := fun hexpression => by
    rw [Kind.isStatement_eq_false hexpression] at hk
    cases hk
  cases category with
  | statement => exact hk'
  | expression => exact absurd h hexpression
  | block => exact absurd (of_decide_eq_true h) hblock
  | arrowBody => simp [admits, hblock, hexpression] at h
  | head => simp [admits, hdeclaration, hexpression] at h
  | switchCase | catchClause | declarator | property | identifier =>
    obtain rfl := of_decide_eq_true h
    cases hk

end Category

namespace Tree

variable {t t' : Tree} {binding category category' : Category} {x y z : NodeId} {n : Node NodeId}

def Fits (t : Tree) (binding : Category) (x : NodeId) : Prop :=
  ∀ e ∈ (t.node x).slots, ∀ c ∈ e.2.children,
    ((t.node x).kind.category binding e.1).admits (t.node c).kind

/-- All slots of the program hold what they ask for. -/
def Grammatical (t : Tree) (binding : Category) : Prop :=
  t.Throughout (t.Fits binding) t.root

instance (t : Tree) (binding : Category) (x : NodeId) : Decidable (t.Fits binding x) :=
  inferInstanceAs (Decidable (∀ e ∈ (t.node x).slots, ∀ c ∈ e.2.children,
    ((t.node x).kind.category binding e.1).admits (t.node c).kind))

/-- A node is of a category, and all slots below it hold what they ask for. -/
structure Suits (t : Tree) (binding category : Category) (x : NodeId) : Prop where
  admits : category.admits (t.node x).kind
  fits : t.Throughout (t.Fits binding) x

/-- What a node would hold suits its slots. -/
def Produces (t : Tree) (binding : Category) (n : Node NodeId) : Prop :=
  ∀ e ∈ n.slots, ∀ c ∈ e.2.children, t.Suits binding (n.kind.category binding e.1) c

theorem Suits.as (h : t.Suits binding category x) (ha : category'.admits (t.node x).kind) :
    t.Suits binding category' x :=
  ⟨ha, h.fits⟩

theorem produces_iff : t.Produces binding (t.node x) ↔ t.Throughout (t.Fits binding) x := by
  rw [throughout_iff]
  constructor
  · intro h
    refine ⟨fun e he c hc => (h e he c hc).admits, fun c hc => ?_⟩
    obtain ⟨e, he, hce⟩ := Node.mem_children.mp hc
    exact (h e he c hce).fits
  · intro h e he c hc
    exact ⟨h.1 e he c hc, h.2 c (Node.mem_children.mpr ⟨e, he, hc⟩)⟩

theorem suits_iff : t.Suits binding category x ↔
    category.admits (t.node x).kind ∧ t.Produces binding (t.node x) := by
  rw [produces_iff]
  exact ⟨fun h => ⟨h.admits, h.fits⟩, fun h => ⟨h.1, h.2⟩⟩

theorem Suits.of_node (hn : t.node x = n) (hk : category.admits n.kind) (h : t.Produces binding n) :
    t.Suits binding category x := by
  rw [suits_iff, hn]
  exact ⟨hk, h⟩

theorem Suits.produces (h : t.Suits binding category x) (hn : t.node x = n) :
    category.admits n.kind ∧ t.Produces binding n := by
  subst hn
  exact suits_iff.mp h

theorem Suits.slot (h : t.Suits binding category x) (hn : t.node x = n) {f : Field}
    {slot : Slot NodeId} (hs : n.slot? f = some slot) (hy : y ∈ slot.children) :
    t.Suits binding (n.kind.category binding f) y :=
  (h.produces hn).2 _ (Node.mem_slots_of_slot? hs) y hy

theorem Suits.expression (h : t.Suits binding category x) (hx : (t.node x).expression? = some y) :
    t.Suits binding .expression y := by
  obtain ⟨directive, hn⟩ := Store.expression?_eq hx
  exact h.slot hn (f := .expression) rfl (List.mem_singleton_self y)

theorem Produces.setSlot {f : Field} {slot new : Slot NodeId} (h : t.Produces binding n)
    (hs : n.slot? f = some slot) (hput : slot.put new = new)
    (hnew : (∀ c ∈ slot.children, t.Suits binding (n.kind.category binding f) c) →
      ∀ c ∈ new.children, t.Suits binding (n.kind.category binding f) c) :
    t.Produces binding (n.setSlot f new) := by
  have hold := h _ (Node.mem_slots_of_slot? hs)
  obtain ⟨l, r, hslots, hset⟩ := Node.slots_split hs
  intro e he c hc
  rw [hset, hput, List.mem_append, List.mem_cons] at he
  rw [Node.kind_setSlot]
  rcases he with he | rfl | he
  · exact h e (by simp [hslots, he]) c hc
  · exact hnew hold c hc
  · exact h e (by simp [hslots, he]) c hc

theorem Grammatical.setNode (h : t.Grammatical binding) (hx : x < t.size)
    (hkind : n.kind = (t.node x).kind) (hn : t.Produces binding n) :
    (t.setNode x n).Grammatical binding := by
  have kind : ∀ c, ((t.setNode x n).node c).kind = (t.node c).kind := by
    intro c
    rw [node_setNode hx]
    split
    · subst c
      exact hkind
    · rfl
  have hold : (t.setNode x n).Throughout (t.Fits binding) t.root := by
    refine Throughout.setNode h hx fun c hc => ?_
    obtain ⟨e, he, hce⟩ := Node.mem_children.mp hc
    exact (hn e he c hce).fits
  intro y hy e he c hc
  rw [kind, kind]
  rw [node_setNode hx] at he
  split at he
  · subst y
    rw [← hkind]
    exact (hn e he c hc).admits
  · exact hold y hy e he c hc

theorem Grammatical.of_fits (h : ∀ x < t.size, t.Fits binding x) : t.Grammatical binding := by
  intro x _
  by_cases hx : x < t.size
  · exact h x hx
  · intro e he
    rw [node_of_size_le (Nat.le_of_not_lt hx)] at he
    cases he

theorem Grammatical.grows (h : t.Grammatical binding) (hg : t.Grows t') (wf : t.WellFormed)
    (hroot : t.root < t.size) : t'.Grammatical binding := by
  intro x hx
  rw [hg.root] at hx
  have hxsize := wf.within_lt_size ((hg.within wf hroot).mp hx) hroot
  intro e he c hc
  rw [hg.node hxsize] at he ⊢
  rw [hg.node (wf.closed (Node.mem_children.mpr ⟨e, he, hc⟩))]
  exact hg.throughout wf hroot h x hx e he c hc

theorem Spells.isExpression {v : Value} (h : t.Spells v x) : (t.node x).kind.isExpression := by
  have hk := h.kind
  simp only [List.mem_cons, List.not_mem_nil, or_false] at hk
  rcases hk with hk | hk | hk | hk <;> rw [hk] <;> rfl

theorem Spells.suits {v : Value} (h : t.Spells v x) : t.Suits binding .expression x := by
  refine ⟨h.isExpression, fun y hy => ?_⟩
  have hspells : ∃ w, t.Spells w y := by
    induction hy using ReflTransGen.head_induction_on with
    | refl => exact ⟨v, h⟩
    | head hc _ ih =>
      obtain ⟨w, hw⟩ := ih
      exact hw.exists_child hc
  obtain ⟨w, hw⟩ := hspells
  intro e he c hc
  obtain ⟨_, hchild⟩ := hw.exists_child (Node.mem_children.mpr ⟨e, he, hc⟩)
  -- the slots of the operators and arrays that values are written with ask for expressions
  have hfield : (t.node y).kind.category binding e.1 = .expression := by
    have hk := hw.kind
    cases hn : t.node y <;> rw [hn] at hk he <;> simp [Node.kind] at hk <;>
      simp [Node.slots] at he <;> grind [Node.kind, Kind.category]
  rw [hfield]
  exact hchild.isExpression

end Tree

namespace Path

variable {t : Tree} {p : Path} {binding : Category} {owner a b : NodeId} {n : Node NodeId}

theorem Splices.produces {old : List (Option NodeId)} {new : List NodeId}
    (h : p.Splices t owner old new n) (hn : t.Produces binding (t.node owner))
    (hnew : ∀ category, (∀ c, some c ∈ old → t.Suits binding category c) →
      ∀ c ∈ new, t.Suits binding category c) : t.Produces binding n := by
  obtain ⟨hv, hs, hi⟩ := h
  refine hn.setSlot hs (Slot.put_setItems _ _) fun hold c hc => ?_
  have hold : ∀ c, some c ∈ _ → t.Suits binding _ c := fun c hc =>
    hold c ((Slot.mem_children_of_items? hi).mpr hc)
  have hc := Slot.mem_of_mem_children_setItems hi hc
  simp only [List.mem_append, List.mem_map, Option.some.injEq, exists_eq_right] at hc
  rcases hc with (hc | hc) | hc
  · exact hold c (by simp [hc])
  · exact hnew _ (fun c hc => hold c (by simp [hc])) c hc
  · exact hold c (by simp [hc])

theorem Fills.produces (h : p.Fills t owner a b n) (hn : t.Produces binding (t.node owner))
    (hab : ∀ category, t.Suits binding category a → t.Suits binding category b) :
    t.Produces binding n := by
  cases h with
  | required _ hs =>
    refine hn.setSlot hs rfl fun hold c hc => ?_
    obtain rfl := List.mem_singleton.mp hc
    exact hab _ (hold a (by simp [Slot.children]))
  | optional _ hs =>
    refine hn.setSlot hs rfl fun hold c hc => ?_
    obtain rfl : c = b := by simpa [Slot.children] using hc
    exact hab _ (hold a (by simp [Slot.children]))
  | item h =>
    refine h.produces hn fun category hold c hc => ?_
    obtain rfl := List.mem_singleton.mp hc
    exact hab category (hold a (by simp))

end Path

namespace Store

variable {s s' : Store} {observed : Bool} {rule : Rule} {p : Path} {binding category : Category}
  {owner x a b : NodeId} {n n' : Node NodeId}

theorem Sound.suits_of_holds (h : s.Sound) {v : Value} (hb : s.Holds v b) :
    s.tree.Suits binding .expression b :=
  (h.spells hb).suits

theorem Sound.suits_emptyStatement (h : s.Sound) (hb : s.pool.emptyStatement = some b) :
    s.tree.Suits binding .statement b :=
  .of_node (h.emptyStatement hb).2 rfl fun e he => by cases he

/-- A node that is put where another was is of every category that the other was of. -/
theorem Swap.suits (h : s.Sound) (hab : s.Swap observed rule a b)
    (ha : s.tree.Suits binding category a) : s.tree.Suits binding category b := by
  have expression : ∀ {n x}, s.tree.node a = n → n.kind.isExpression → n.kind ≠ .identifier →
      s.tree.Suits binding .expression x → s.tree.Suits binding category x := fun hn hk hne hx =>
    hx.as (Category.admits_expression hk hne hx.admits (ha.produces hn).1)
  have statement : ∀ {n x}, s.tree.node a = n → n.kind.isStatement → n.kind ≠ .blockStatement →
      n.kind ≠ .variableDeclaration → s.tree.Suits binding .statement x →
      s.tree.Suits binding category x := fun hn hk hblock hdeclaration hx =>
    hx.as (Category.admits_statement hk hblock hdeclaration hx.admits (ha.produces hn).1)
  have made : ∀ {e}, s.tree.node b = .expressionStatement e none →
      s.tree.Suits binding .expression e → s.tree.Suits binding .statement b := fun hb he =>
    .of_node hb rfl (by
      simpa [Tree.Produces, Node.slots, Slot.children, Node.kind, Kind.category] using he)
  cases hab with
  | constantStatement hn _ _ hb =>
    exact statement hn rfl (by simp [Node.kind]) (by simp [Node.kind]) (h.suits_emptyStatement hb)
  | conditional hn _ =>
    refine expression hn rfl (by simp [Node.kind]) ?_
    split
    · exact ha.slot hn (f := .consequent) rfl (by simp [Slot.children])
    · exact ha.slot hn (f := .alternate) rfl (by simp [Slot.children])
  | logical hn _ =>
    refine expression hn rfl (by simp [Node.kind]) ?_
    split
    · exact ha.slot hn (f := .left) rfl (by simp [Slot.children])
    · exact ha.slot hn (f := .right) rfl (by simp [Slot.children])
  | binary hn _ _ _ _ hb | unary hn _ _ hb | member hn _ _ hb =>
    exact expression hn rfl (by simp [Node.kind]) (h.suits_of_holds hb)
  | lastItem hn _ =>
    refine expression hn rfl (by simp [Node.kind]) ?_
    exact ha.slot hn (f := .expressions) rfl (by simp [Slot.children])
  | memberOfCharacter hn _ _ _ _ hfirst hindex hb _ =>
    have hobject : s.tree.Suits binding .expression _ := h.suits_of_holds hfirst
    have hproperty : s.tree.Suits binding .expression _ := h.suits_of_holds hindex
    refine expression hn rfl (by simp [Node.kind]) (.of_node hb rfl ?_)
    simpa [Tree.Produces, Node.slots, Slot.children, Node.kind, Kind.category]
      using ⟨hobject, hproperty⟩
  | ifTest hn _ _ hb _ =>
    refine statement hn rfl (by simp [Node.kind]) (by simp [Node.kind]) (made hb ?_)
    exact ha.slot hn (f := .test) rfl (by simp [Slot.children])
  | @ifExpression _ test consequent alternate n e _ hn hexpr he hb _ _ =>
    refine statement hn rfl (by simp [Node.kind]) (by simp [Node.kind]) (made hb ?_)
    have htest := ha.slot hn (f := .test) rfl (List.mem_singleton_self test)
    have hconsequent := ha.slot hn (f := .consequent) rfl (List.mem_singleton_self consequent)
    rcases ifExpression?_cases hexpr with ⟨other, x, y, rfl, hx, hy, rfl⟩ | ⟨x, rfl, -, hx, rfl⟩
    · have halternate := ha.slot hn (f := .alternate) rfl (List.mem_singleton_self other)
      refine .of_node he rfl ?_
      simpa [Tree.Produces, Node.slots, Slot.children, Node.kind, Kind.category]
        using ⟨halternate.expression hy, hconsequent.expression hx, htest⟩
    · refine .of_node he rfl ?_
      simpa [Tree.Produces, Node.slots, Slot.children, Node.kind, Kind.category]
        using ⟨htest, hconsequent.expression hx⟩
  | ifTrue hn _ _ =>
    refine statement hn rfl (by simp [Node.kind]) (by simp [Node.kind]) ?_
    exact ha.slot hn (f := .consequent) rfl (by simp [Slot.children])
  | ifFalse hn _ _ =>
    refine statement hn rfl (by simp [Node.kind]) (by simp [Node.kind]) ?_
    exact ha.slot hn (f := .alternate) rfl (by simp [Slot.children])
  | ifNever hn _ _ hb | whileNever hn _ _ hb | forNever hn _ _ hb =>
    exact statement hn rfl (by simp [Node.kind]) (by simp [Node.kind]) (h.suits_emptyStatement hb)
  | forDeclaration hn _ _ hinit =>
    refine statement hn rfl (by simp [Node.kind]) (by simp [Node.kind]) ?_
    have hhead := ha.slot hn (f := .init) rfl (List.mem_singleton_self b)
    exact hhead.as (by rw [hinit]; rfl)
  | @forExpression _ init _ _ _ _ _ hn _ _ hinit hb _ =>
    refine statement hn rfl (by simp [Node.kind]) (by simp [Node.kind]) (made hb ?_)
    have hhead : s.tree.Suits binding .head init :=
      ha.slot hn (f := .init) rfl (List.mem_singleton_self init)
    have hkind : (s.tree.node init).kind = .variableDeclaration ∨
        (s.tree.node init).kind.isExpression := by
      simpa [Category.admits] using hhead.admits
    -- a declaration is put there as it is, by another case
    rcases hkind with hkind | hexpression
    · cases hnode : s.tree.node init <;> rw [hnode] at hkind <;> cases hkind
      exact absurd hnode (hinit _ _)
    · exact hhead.as hexpression
  | minify hv _ hb _ =>
    have hk := h.kind_of_value? hv
    simp only [List.mem_cons, List.not_mem_nil, or_false] at hk
    rcases hk with hk | hk | hk | hk <;>
      exact expression rfl (by rw [hk]; rfl) (by simp [hk]) (h.suits_of_holds hb)

theorem suits_sequenceItems {t : Tree} {e : NodeId} (h : t.Suits binding .expression e) :
    ∀ x ∈ FoldM.sequenceItems t e, t.Suits binding .expression x := by
  intro x hx
  unfold FoldM.sequenceItems at hx
  split at hx
  · rename_i expressions hn
    exact h.slot hn (f := .expressions) rfl (show x ∈ (Slot.list expressions).children from hx)
  · obtain rfl := List.mem_singleton.mp hx
    exact h

theorem Splice.suits (h : s.Sound) {old : List (Option NodeId)} {new : List NodeId}
    (hs : s.Splice observed owner rule old new)
    (hold : ∀ c, some c ∈ old → s.tree.Suits binding category c) :
    ∀ c ∈ new, s.tree.Suits binding category c := by
  intro c hc
  cases hs with
  | swap hab =>
    obtain rfl := List.mem_singleton.mp hc
    exact hab.suits h (hold _ (by simp))
  | unreachable _ _ => exact hold c (some_mem_of_mem_hoisted hc)
  | @merge statements expressions sequence statement hrun htwo hsequence hstatement _ _ _ _ =>
    obtain rfl := List.mem_singleton.mp hc
    have hexpressions : ∀ e ∈ expressions, s.tree.Suits binding .expression e := by
      intro e he
      obtain ⟨st, hst, directive, hn⟩ := exists_statement_of_run hrun he
      exact (hold st (List.mem_map_of_mem hst)).expression (by rw [hn]; rfl)
    have hitems : s.tree.Suits binding .expression sequence := by
      refine .of_node hsequence rfl ?_
      simp only [Tree.Produces, Node.slots, Slot.children, List.forall_mem_cons, List.mem_flatMap]
      refine ⟨fun x hx => ?_, by simp⟩
      obtain ⟨e, he, hx⟩ := hx
      exact suits_sequenceItems (hexpressions e he) x hx
    -- the run is not empty, and its statements are of the kind of the new one
    cases hrun with
    | nil => simp at htwo
    | @cons st e _ _ hst _ =>
      obtain ⟨directive, hn⟩ := expression?_eq hst
      refine .of_node hstatement ((hold st (by simp)).produces hn).1 ?_
      simpa [Tree.Produces, Node.slots, Slot.children, Node.kind, Kind.category] using hitems
  | constant | empty => cases hc

theorem Rewrite.produces (h : s.Sound) (hr : s.Rewrite rule n n')
    (hn : s.tree.Produces binding n) : s.tree.Produces binding n' := by
  have expression : ∀ {v b}, s.Holds v b → s.tree.Suits binding .expression b := fun hb =>
    h.suits_of_holds hb
  have statement : ∀ {b}, s.pool.emptyStatement = some b → s.tree.Suits binding .statement b :=
    fun hb => h.suits_emptyStatement hb
  cases hr with
  | name _ hkey _ =>
    have hname : s.tree.Suits binding .expression _ := .of_node hkey rfl fun e he => by cases he
    simp_all [Tree.Produces, Node.slots, Slot.children, Node.kind, Kind.category]
  | nullLeft _ _ hb | nullRight _ _ hb | forNever _ _ _ hb | firstItem _ _ hb =>
    have := expression hb
    simp_all [Tree.Produces, Node.slots, Slot.children, Node.kind, Kind.category]
  | consequent _ _ hb | whileBody _ _ hb | doWhileBody _ _ hb | forBody _ _ hb =>
    have := statement hb
    simp_all [Tree.Produces, Node.slots, Slot.children, Node.kind, Kind.category]
  | alternate _ | forInit _ | forUpdate _ | forAlways _ _ =>
    simp_all [Tree.Produces, Node.slots, Slot.children, Node.kind, Kind.category]
  | leadingItems _ _ =>
    simp only [Tree.Produces, Node.slots, Slot.children, List.forall_mem_cons, List.mem_append,
      List.mem_filter] at hn ⊢
    exact ⟨fun c hc => hn.1 c (hc.imp_left And.left), hn.2⟩

theorem Edit.produces (h : s.Sound) (he : s.Edit observed rule p x n)
    (hx : s.tree.Produces binding (s.tree.node x)) : s.tree.Produces binding n := by
  cases he with
  | fill _ _ hfill hab => exact hfill.produces hx fun _ => hab.suits h
  | splice _ _ hsplice hnew => exact hsplice.produces hx fun _ => hnew.suits h
  | rewrite _ _ hr => exact hr.produces h hx

theorem Edit.grammatical (h : s.Sound) (hp : p.Live s.tree) (he : s.Edit observed rule p x n)
    (hg : s.tree.Grammatical binding) : (s.put x n).tree.Grammatical binding := by
  obtain ⟨hsize, -, hkind, -, -⟩ := he.admissible h
  refine hg.setNode hsize hkind (he.produces h (Tree.produces_iff.mpr ?_))
  exact Tree.Throughout.within hg (he.within_root hp)

theorem Fires.grammatical (h : s.Sound) (hp : p.Live s.tree) (hleads : p.Leads s.tree owner a)
    (hfires : Fires observed rule p s s') (hg : s.tree.Grammatical binding) :
    s'.tree.Grammatical binding := by
  refine Fires.lift (R := fun s s' => s.tree.Grammatical binding → s'.tree.Grammatical binding)
    (fun h h' => h' ∘ h) ?_ h hp hleads hfires hg
  intro s s₁ x n hs hs₁ hgrows hp₁ he hg
  exact he.grammatical hs₁ hp₁ (hg.grows hgrows.tree hs.wellFormed hs.lt_size_of_root)

end Store

namespace FoldState

variable {rules : List Rule} {s s' : FoldState} {binding : Category}

theorem Firing.grammatical (h : s.Sound) (hf : Firing rules s s')
    (hg : s.tree.Grammatical binding) : s'.tree.Grammatical binding := by
  obtain ⟨rule, -, p, owner, id, hp, hopen, hfires, -⟩ := hf.cases h
  exact hfires.grammatical h hp hopen.leads hg

theorem Folds.grammatical (h : s.Sound) (hr : Folds rules s s') (hg : s.tree.Grammatical binding) :
    s'.tree.Grammatical binding := by
  induction hr with
  | refl => exact hg
  | fire hr hf ih => exact hf.grammatical (hr.sound h) ih
  | round _ ih => exact ih

end FoldState

variable {json : Json} {t : Tree} {binding : Category}

/-- A grammatical program stays grammatical with every rule that fires, in any order, and is so when
folding is over. -/
theorem Tree.grammatical_ofJson (hj : json.Finite) (ht : ofJson json = .ok t)
    (hg : t.Grammatical binding) :
    (∀ rules s, FoldState.Folds rules { tree := t } s → s.tree.Grammatical binding) ∧
    (∀ options : Options, ∀ limit, ∃ s, options.rounds limit { tree := t } = .ok () s ∧
      FoldState.Folds options.rules { tree := t } s ∧ s.tree.Grammatical binding) ∧
    ∀ options : Options, ∃ t' stats, t.fold options = .ok (t', stats) ∧ t'.Grammatical binding := by
  have hs : Store.Sound { tree := t } := (fresh_ofJson hj ht).sound
  have folds : ∀ rules s, FoldState.Folds rules { tree := t } s → s.tree.Grammatical binding :=
    fun rules s hr => hr.grammatical hs hg
  have rounds : ∀ options : Options, ∀ limit, ∃ s, options.rounds limit { tree := t } = .ok () s ∧
      FoldState.Folds options.rules { tree := t } s ∧ s.tree.Grammatical binding := by
    intro options limit
    obtain ⟨_, s, hrun, hr⟩ := options.rounds_ensures limit (s := { tree := t }) hs
    exact ⟨s, hrun, hr, folds options.rules s hr⟩
  refine ⟨folds, rounds, fun options => ?_⟩
  obtain ⟨s, hrun, -, hfinal⟩ := rounds options options.maxRounds
  refine ⟨s.tree, s.stats, ?_, hfinal⟩
  unfold fold
  rw [EStateM.run, hrun]

/-- The program `for (f(); 0; ) ;`. -/
def Json.programFor : Json :=
  .obj [("type", .str "Program"), ("body", .arr [.obj [("type", .str "ForStatement"),
    ("init", .obj [("type", .str "CallExpression"),
      ("callee", .obj [("type", .str "Identifier"), ("name", .str "f")]), ("arguments", .arr [])]),
    ("test", .obj [("type", .str "Literal"), ("value", .int 0)]), ("update", .null),
    ("body", .obj [("type", .str "EmptyStatement")])]])]

theorem Json.finite_programFor : programFor.Finite := by
  have h : (Float.ofInt 0).isFinite := by rfl
  simp [programFor, Json.Finite, Json.FiniteMembers, Json.FiniteItems, h]

theorem Tree.grammatical_ofJson_programFor :
    ∃ t, ofJson .programFor = .ok t ∧ t.Grammatical .identifier ∧
      ∃ t' stats, t.fold = .ok (t', stats) ∧ t'.Grammatical .identifier := by
  refine ⟨_, rfl, .of_fits (by decide), ?_⟩
  exact (grammatical_ofJson Json.finite_programFor rfl (.of_fits (by decide))).2.2 {}

end ScriptFold

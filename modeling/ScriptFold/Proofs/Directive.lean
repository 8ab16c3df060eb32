import ScriptFold.Proofs.Layout

/-!
Directives while a program is folded. Against the program as it was read, the lists that started
with directives still start with the same ones, whose nodes are as they were, and no other node of
the program is marked (`Tree.Keeps`). An edit at a path that is clear of directives keeps that.
-/

namespace ScriptFold

open Relation

def Kind.bodies : List Kind :=
  [.program, .blockStatement, .functionDeclaration, .functionExpression, .arrowFunctionExpression]

/-- The kinds of the nodes that a rule replaces by other nodes. Truth values, which are replaced by
their shorter form, are not among them. -/
def Rule.replaced : Rule → List Kind
  | .expressionStatements => [.expressionStatement]
  | .conditionalExpr => [.conditionalExpression]
  | .logicalExpr => [.logicalExpression]
  | .binaryExpr => [.binaryExpression]
  | .unaryExpr => [.unaryExpression]
  | .sequenceExpr => [.sequenceExpression]
  | .memberExpr => [.memberExpression]
  | .ifStatement => [.ifStatement]
  | .loops => [.whileStatement, .forStatement]
  | .unreachableTail | .emptyStatements | .booleanLiterals => []

namespace Node

variable {α : Type} {n : Node α} {b : α}

def isMarked : Node α → Bool
  | .expressionStatement _ (some _) => true
  | _ => false

def statements : Node α → List α
  | .program body | .blockStatement body => body
  | _ => []

def functionBody? : Node α → Option α
  | .functionDeclaration _ _ body _ _ | .functionExpression _ _ body _ _
  | .arrowFunctionExpression _ body _ _ => some body
  | _ => none

theorem isMarked_of_kind (h : n.kind ≠ .expressionStatement) : n.isMarked = false := by
  cases n <;> first | rfl | exact absurd rfl h

theorem isMarked_setSlot (n : Node α) (f : Field) (slot : Slot α) :
    (n.setSlot f slot).isMarked = n.isMarked := by
  cases n with
  | expressionStatement e directive => cases directive <;> rfl
  | _ => rfl

theorem statements_of_kind (h : n.kind ≠ .program) (h' : n.kind ≠ .blockStatement) :
    n.statements = [] := by
  cases n <;> first | rfl | exact absurd rfl h | exact absurd rfl h'

theorem slots_of_body (h : n.kind = .program ∨ n.kind = .blockStatement) :
    n.slots = [(.body, .list n.statements)] := by
  cases n <;> simp [kind] at h <;> rfl

theorem slot?_of_body (h : n.kind = .program ∨ n.kind = .blockStatement) :
    n.slot? .body = some (.list n.statements) := by
  rw [slot?, slots_of_body h]
  rfl

theorem slot?_body (h : n.statements ≠ []) : n.slot? .body = some (.list n.statements) := by
  cases n <;> first | rfl | exact absurd rfl h

theorem slot?_functionBody (h : n.functionBody? = some b) : n.slot? .body = some (.required b) := by
  cases n <;> cases h <;> rfl

theorem functionBody?_isSome (n : Node α) : n.functionBody?.isSome = n.isFunction := by
  cases n <;> rfl

theorem isFunction_of_kind {m : Node α} (h : n.kind = m.kind) : n.isFunction = m.isFunction := by
  cases n <;> cases m <;> first | rfl | cases h

end Node

namespace Tree

variable {t t' t'' : Tree} {x c e a b st : NodeId} {f : Field} {ds : List NodeId}
  {n : Node NodeId} {slot : Slot NodeId}

/-- The statements at the head of a program or block that are marked as directives. -/
def directives (t : Tree) (x : NodeId) : List NodeId :=
  (t.node x).statements.takeWhile fun st => (t.node st).isMarked

/-- The directives that a slot starts with. -/
def lead (t : Tree) (x : NodeId) (f : Field) : List NodeId :=
  if f = .body then t.directives x else []

/-- The directives at the head of the function body that a slot holds. -/
def inner (t : Tree) (x : NodeId) (f : Field) : List NodeId :=
  if f = .body then (t.node x).functionBody?.elim [] t.directives else []

/-- The slots of a node start with the directives that they started with. What else they hold is no
directive, and starts with those of the body that was there. -/
def Arranged (t t' : Tree) (x : NodeId) : Prop :=
  ∀ e ∈ (t'.node x).slots, ∃ rest, e.2.children = t.lead x e.1 ++ rest ∧
    ∀ c ∈ rest, (t'.node c).isMarked = false ∧ t.directives c = t.inner x e.1

/-- A node that is no directive, started with given ones, and below which all is as it should be. -/
structure Bears (t t' : Tree) (ds : List NodeId) (c : NodeId) : Prop where
  unmarked : (t'.node c).isMarked = false
  directives : t.directives c = ds
  arranged : t'.Throughout (t.Arranged t') c

/-- What a node would hold is as it should be. -/
def Arranges (t t' : Tree) (x : NodeId) (n : Node NodeId) : Prop :=
  ∀ e ∈ n.slots, ∃ rest, e.2.children = t.lead x e.1 ++ rest ∧
    (∀ c ∈ t.lead x e.1, t'.Throughout (t.Arranged t') c) ∧
    ∀ c ∈ rest, t.Bears t' (t.inner x e.1) c

/-- What folding keeps of the directives of a program. -/
structure Keeps (t t' : Tree) : Prop where
  root : t'.root = t.root
  size : t.size ≤ t'.size
  kind : ∀ {x}, x < t.size → (t'.node x).kind = (t.node x).kind
  fixed : ∀ {st}, (t.node st).isMarked → ∃ e directive text,
    t.node st = .expressionStatement e directive ∧ t.node e = .literal (.string text) ∧
      t'.node st = t.node st ∧ t'.node e = t.node e
  arranged : t'.Throughout (t.Arranged t') t'.root

theorem child_of_statements (hc : c ∈ (t.node x).statements) : t.Child c x :=
  Node.mem_children_of_slot? (Node.slot?_body (List.ne_nil_of_mem hc)) hc

theorem isMarked_of_mem_directives (h : st ∈ t.directives x) : (t.node st).isMarked := by
  unfold directives at h
  have := List.mem_takeWhile_imp h
  exact this

theorem arranges_iff : t.Arranges t' x (t'.node x) ↔ t'.Throughout (t.Arranged t') x := by
  rw [throughout_iff]
  constructor
  · intro h
    refine ⟨fun e he => ?_, fun c hc => ?_⟩
    · obtain ⟨rest, hsplit, -, hrest⟩ := h e he
      exact ⟨rest, hsplit, fun c hc => ⟨(hrest c hc).unmarked, (hrest c hc).directives⟩⟩
    · obtain ⟨e, he, hce⟩ := Node.mem_children.mp hc
      obtain ⟨rest, hsplit, hlead, hrest⟩ := h e he
      rw [hsplit, List.mem_append] at hce
      exact hce.elim (hlead c) fun hce => (hrest c hce).arranged
  · intro ⟨h, hbelow⟩ e he
    obtain ⟨rest, hsplit, hrest⟩ := h e he
    refine ⟨rest, hsplit, fun c hc => ?_, fun c hc => ⟨(hrest c hc).1, (hrest c hc).2, ?_⟩⟩
    · exact hbelow c (Node.mem_children.mpr ⟨e, he, hsplit ▸ List.mem_append_left _ hc⟩)
    · exact hbelow c (Node.mem_children.mpr ⟨e, he, hsplit ▸ List.mem_append_right _ hc⟩)

namespace Keeps

theorem directives_eq_nil (k : t.Keeps t') (h : (t'.node x).kind ≠ .program)
    (h' : (t'.node x).kind ≠ .blockStatement) : t.directives x = [] := by
  unfold directives
  by_cases hx : x < t.size
  · rw [k.kind hx] at h h'
    rw [Node.statements_of_kind h h']
    rfl
  · rw [node_of_size_le (Nat.le_of_not_lt hx)]
    rfl

theorem list_of_lead (k : t.Keeps t') (h : t.lead x f ≠ []) : f = .body ∧
    ((t'.node x).kind = .program ∨ (t'.node x).kind = .blockStatement) := by
  unfold lead at h
  split at h
  · refine ⟨‹_›, ?_⟩
    by_contra hk
    rw [not_or] at hk
    exact h (k.directives_eq_nil hk.1 hk.2)
  · exact absurd rfl h

theorem function_of_inner (k : t.Keeps t') (h : t.inner x f ≠ []) : f = .body ∧
    (t'.node x).isFunction ∧ ∃ b, (t'.node x).functionBody? = some b := by
  unfold inner at h
  split at h
  · refine ⟨‹_›, ?_⟩
    have hfunction : (t.node x).isFunction := by
      cases hb : (t.node x).functionBody? with
      | none =>
        rw [hb] at h
        exact absurd rfl h
      | some b => rw [← Node.functionBody?_isSome, hb, Option.isSome_some]
    have hx : x < t.size := lt_size_of_node fun hn => by
      rw [hn] at hfunction
      cases hfunction
    rw [← Node.isFunction_of_kind (k.kind hx)] at hfunction
    refine ⟨hfunction, Option.isSome_iff_exists.mp ?_⟩
    rw [Node.functionBody?_isSome, hfunction]
  · exact absurd rfl h

theorem lead_eq_nil (k : t.Keeps t') (h : (t'.node x).kind ∉ Kind.bodies) : t.lead x f = [] := by
  by_contra hne
  rcases (k.list_of_lead hne).2 with hk | hk <;> rw [hk] at h <;> exact h (by decide)

theorem inner_eq_nil (k : t.Keeps t') (h : (t'.node x).kind ∉ Kind.bodies) : t.inner x f = [] := by
  by_contra hne
  obtain ⟨-, hfunction, -⟩ := k.function_of_inner hne
  cases hn : t'.node x <;> rw [hn] at h hfunction <;>
    first | cases hfunction; done | simp [Node.kind, Kind.bodies] at h

theorem lead_of_items? (k : t.Keeps t') (hs : (t'.node x).slot? f = some slot)
    (hi : slot.items? = none) : t.lead x f = [] := by
  by_contra hne
  obtain ⟨rfl, hk⟩ := k.list_of_lead hne
  cases hn : t'.node x <;> rw [hn] at hs hk <;> simp [Node.kind] at hk <;> cases hs <;> cases hi

/-- The directives that a list starts with are among the entries before a place that is not inside
them. -/
theorem lead_isPrefix {l r : List (Option NodeId)} {rest : List NodeId} (k : t.Keeps t')
    (hs : (t'.node x).slot? f = some slot) (hi : slot.items? = some (l ++ r))
    (hsplit : slot.children = t.lead x f ++ rest) (hle : (t.lead x f).length ≤ l.length) :
    t.lead x f <+: l.filterMap id := by
  by_cases hnil : t.lead x f = []
  · rw [hnil]
    exact List.nil_prefix
  obtain ⟨rfl, hk⟩ := k.list_of_lead hnil
  obtain rfl := Option.some.inj ((Node.slot?_of_body hk).symm.trans hs)
  obtain ⟨l₁, r₁, hst, rfl, -⟩ := List.map_eq_append_iff.mp (Option.some.inj hi)
  rw [show (Slot.list (t'.node x).statements).children = l₁ ++ r₁ from hst] at hsplit
  rw [List.length_map] at hle
  have hfront : t.lead x .body <+: l₁ ++ r₁ := by
    rw [hsplit]
    exact List.prefix_append _ _
  have hl : t.lead x .body <+: l₁ :=
    List.prefix_of_prefix_length_le hfront (List.prefix_append _ _) hle
  rwa [List.filterMap_map, Function.id_comp, List.filterMap_some]

theorem inner_of_items? (k : t.Keeps t') (hs : (t'.node x).slot? f = some slot)
    (hi : slot.items?.isSome) : t.inner x f = [] := by
  by_contra hne
  obtain ⟨rfl, -, b, hb⟩ := k.function_of_inner hne
  obtain rfl := Option.some.inj (hs.symm.trans (Node.slot?_functionBody hb))
  cases hi

end Keeps

namespace Bears

theorem child (h : t.Bears t' ds a) (k : t.Keeps t') (hk : (t'.node a).kind ∉ Kind.bodies)
    (hc : t'.Child c a) : t.Bears t' [] c := by
  obtain ⟨e, he, hce⟩ := Node.mem_children.mp hc
  obtain ⟨rest, hsplit, -, hrest⟩ := arranges_iff.mpr h.arranged e he
  rw [k.lead_eq_nil hk, List.nil_append] at hsplit
  rw [k.inner_eq_nil hk] at hrest
  exact hrest c (hsplit ▸ hce)

theorem of_node (k : t.Keeps t') (hn : t'.node b = n) (hk : n.kind ∉ Kind.bodies)
    (hm : n.isMarked = false) (h : ∀ c ∈ n.children, t.Bears t' [] c) : t.Bears t' [] b := by
  subst hn
  refine ⟨hm, k.directives_eq_nil ?_ ?_, arranges_iff.mp fun e he => ⟨e.2.children, ?_, ?_, ?_⟩⟩
  · rintro heq
    exact hk (heq ▸ by decide)
  · rintro heq
    exact hk (heq ▸ by decide)
  · rw [k.lead_eq_nil hk, List.nil_append]
  · rw [k.lead_eq_nil hk]
    simp
  · rw [k.inner_eq_nil hk]
    exact fun c hc => h c (Node.mem_children.mpr ⟨e, he, hc⟩)

theorem of_spells (k : t.Keeps t') (wf : t'.WellFormed) {v : Value} (h : t'.Spells v b) :
    t.Bears t' [] b := by
  induction b using wf.acyclic.induction generalizing v with
  | _ b ih =>
    have hkind := h.kind
    refine .of_node k rfl (fun hk => ?_) (Node.isMarked_of_kind fun hk => ?_) fun c hc => ?_
    · simp only [List.mem_cons, List.not_mem_nil, or_false] at hkind
      rcases hkind with hkind | hkind | hkind | hkind <;> rw [hkind] at hk <;>
      simp [Kind.bodies] at hk
    · rw [hk] at hkind
      simp at hkind
    · obtain ⟨w, hw⟩ := h.exists_child hc
      exact ih c hc hw

end Bears

namespace Arranges

theorem setSlot {new : Slot NodeId} (h : t.Arranges t' x n) (hs : n.slot? f = some slot)
    (hput : slot.put new = new)
    (hnew : ∀ rest, slot.children = t.lead x f ++ rest → (∀ c ∈ rest, t.Bears t' (t.inner x f) c) →
      ∃ rest', new.children = t.lead x f ++ rest' ∧ ∀ c ∈ rest', t.Bears t' (t.inner x f) c) :
    t.Arranges t' x (n.setSlot f new) := by
  obtain ⟨l, r, hslots, hset⟩ := Node.slots_split hs
  obtain ⟨rest, hsplit, hlead, hrest⟩ := h (f, slot) (by simp [hslots])
  obtain ⟨rest', hsplit', hrest'⟩ := hnew rest hsplit hrest
  intro e he
  rw [hset, hput, List.mem_append, List.mem_cons] at he
  rcases he with he | rfl | he
  · exact h e (by simp [hslots, he])
  · exact ⟨rest', hsplit', hlead, hrest'⟩
  · exact h e (by simp [hslots, he])

/-- A slot that is no list may hold another node. -/
theorem fill {new : Slot NodeId} (h : t.Arranges t' x n) (hn : n = t'.node x) (k : t.Keeps t')
    (hs : n.slot? f = some slot) (hi : slot.items? = none) (hput : slot.put new = new)
    (hnew : ∀ ds, (∀ c ∈ slot.children, t.Bears t' ds c) → ∀ c ∈ new.children, t.Bears t' ds c) :
    t.Arranges t' x (n.setSlot f new) := by
  refine h.setSlot hs hput fun rest hsplit hrest => ⟨new.children, ?_, ?_⟩
  · rw [k.lead_of_items? (hn ▸ hs) hi, List.nil_append]
  · rw [k.lead_of_items? (hn ▸ hs) hi, List.nil_append] at hsplit
    exact hnew _ (hsplit ▸ hrest)

end Arranges

namespace Keeps

theorem grows (k : t.Keeps t') (hg : t'.Grows t'') (wf : t'.WellFormed)
    (hroot : t'.root < t'.size) : t.Keeps t'' where
  root := hg.root.trans k.root
  size := k.size.trans hg.size
  kind hx := by
    rw [hg.node (hx.trans_le k.size)]
    exact k.kind hx
  fixed hm := by
    obtain ⟨e, directive, text, hst, he, hst', he'⟩ := k.fixed hm
    refine ⟨e, directive, text, hst, he, (hg.node ?_).trans hst', (hg.node ?_).trans he'⟩
    · exact lt_size_of_node (by simp [hst', hst])
    · exact lt_size_of_node (by simp [he', he])
  arranged := by
    rw [hg.root]
    intro x hx e he
    have hxsize := wf.within_lt_size ((hg.within wf hroot).mp hx) hroot
    rw [hg.node hxsize] at he
    obtain ⟨rest, hsplit, hrest⟩ := hg.throughout wf hroot k.arranged x hx e he
    refine ⟨rest, hsplit, fun c hc => ?_⟩
    rw [hg.node (wf.closed (Node.mem_children.mpr ⟨e, he, hsplit ▸ List.mem_append_right _ hc⟩))]
    exact hrest c hc

theorem setNode (k : t.Keeps t') (hx : x < t'.size) (hkind : n.kind = (t'.node x).kind)
    (hm : n.isMarked = (t'.node x).isMarked)
    (hfixed : ∀ {st e directive text}, t'.node st = .expressionStatement e directive →
      t'.node e = .literal (.string text) → st ≠ x ∧ e ≠ x)
    (hn : t.Arranges t' x n) : t.Keeps (t'.setNode x n) where
  root := k.root
  size := by
    rw [size_setNode]
    exact k.size
  kind {y} hy := by
    rw [node_setNode hx]
    split
    · subst y
      exact hkind.trans (k.kind hy)
    · exact k.kind hy
  fixed {st} hst := by
    obtain ⟨e, directive, text, hst, he, hst', he'⟩ := k.fixed hst
    obtain ⟨hne, hne'⟩ := hfixed (hst'.trans hst) (he'.trans he)
    refine ⟨e, directive, text, hst, he, ?_, ?_⟩
    · rw [node_setNode hx, if_neg hne]
      exact hst'
    · rw [node_setNode hx, if_neg hne']
      exact he'
  arranged := by
    have marked : ∀ c, ((t'.setNode x n).node c).isMarked = (t'.node c).isMarked := by
      intro c
      rw [node_setNode hx]
      split
      · subst c
        exact hm
      · rfl
    -- all nodes are arranged as to the old tree; that tree differs from the new one in `x` alone
    have hold : (t'.setNode x n).Throughout (t.Arranged t') t'.root := by
      refine Throughout.setNode k.arranged hx fun c hc => ?_
      obtain ⟨e, he, hce⟩ := Node.mem_children.mp hc
      obtain ⟨rest, hsplit, hlead, hrest⟩ := hn e he
      rw [hsplit, List.mem_append] at hce
      exact hce.elim (hlead c) fun hce => (hrest c hce).arranged
    intro y hy e he
    have harranged : ∃ rest, e.2.children = t.lead y e.1 ++ rest ∧
        ∀ c ∈ rest, (t'.node c).isMarked = false ∧ t.directives c = t.inner y e.1 := by
      rw [node_setNode hx] at he
      split at he
      · subst y
        obtain ⟨rest, hsplit, -, hrest⟩ := hn e he
        exact ⟨rest, hsplit, fun c hc => ⟨(hrest c hc).unmarked, (hrest c hc).directives⟩⟩
      · exact hold y hy e he
    obtain ⟨rest, hsplit, hrest⟩ := harranged
    refine ⟨rest, hsplit, fun c hc => ?_⟩
    rw [marked]
    exact hrest c hc

/-- A program or block starts with its directives, and goes on with statements that are none. -/
theorem statements_eq (k : t.Keeps t') (hx : t'.Within x t'.root)
    (hk : (t'.node x).kind = .program ∨ (t'.node x).kind = .blockStatement) :
    ∃ rest, (t'.node x).statements = t.directives x ++ rest ∧
      ∀ c ∈ rest, (t'.node c).isMarked = false := by
  obtain ⟨rest, hsplit, hrest⟩ :=
    k.arranged x hx _ (Node.mem_slots_of_slot? (Node.slot?_of_body hk))
  exact ⟨rest, hsplit, fun c hc => (hrest c hc).1⟩

theorem function_of_child (k : t.Keeps t') (hx : t'.Within x t'.root)
    (hs : (t'.node x).slot? f = some slot) (hc : c ∈ slot.children) (h : t.directives c ≠ []) :
    f = .body ∧ (t'.node x).functionBody? = some c ∧ (t'.node x).isFunction := by
  obtain ⟨rest, hsplit, hrest⟩ := k.arranged x hx _ (Node.mem_slots_of_slot? hs)
  rw [hsplit, List.mem_append] at hc
  rcases hc with hc | hc
  · have hmem : c ∈ t.directives x := by
      unfold lead at hc
      split at hc
      · exact hc
      · cases hc
    obtain ⟨e, directive, _, hn, -, hn', -⟩ := k.fixed (isMarked_of_mem_directives hmem)
    refine absurd (k.directives_eq_nil ?_ ?_) h <;> rw [hn', hn] <;> simp [Node.kind]
  · obtain ⟨rfl, hfunction, b, hb⟩ := k.function_of_inner ((hrest c hc).2 ▸ h)
    obtain rfl := Option.some.inj (hs.symm.trans (Node.slot?_functionBody hb))
    have hcb : c ∈ [b] := by
      change c ∈ (Slot.required b).children
      rw [hsplit]
      exact List.mem_append_right _ hc
    obtain rfl := List.mem_singleton.mp hcb
    exact ⟨rfl, hb, hfunction⟩

end Keeps

end Tree

/-- A path leads to no directive, and to no entry before one. -/
def Path.Clear (t : Tree) (p : Path) : Prop :=
  ∀ parent i value x f, p = .child parent (.index i) value → parent.value = .list x f →
    (t.lead x f).length ≤ i

namespace Path

variable {t t' : Tree} {p : Path} {owner a b : NodeId} {n : Node NodeId}

theorem Splices.arranges {old : List (Option NodeId)} {new : List NodeId} (k : t.Keeps t')
    (h : p.Splices t' owner old new n) (hclear : p.Clear t)
    (hx : t.Arranges t' owner (t'.node owner))
    (hnew : (∀ c, some c ∈ old → t.Bears t' [] c) → ∀ c ∈ new, t.Bears t' [] c) :
    t.Arranges t' owner n := by
  obtain ⟨hv, hs, hi⟩ := h
  rename_i parent f slot l r value
  have hinner := k.inner_of_items? hs (by rw [hi]; rfl)
  refine hx.setSlot hs (Slot.put_setItems _ _) fun rest hsplit hrest => ?_
  rw [hinner] at hrest ⊢
  rw [Slot.children_of_items? hi, List.filterMap_append, List.filterMap_append] at hsplit
  rw [Slot.children_of_items? (Slot.items?_splice hi new), List.filterMap_append,
    List.filterMap_append]
  obtain ⟨l', hl'⟩ := k.lead_isPrefix hs (hi.trans (by rw [List.append_assoc]))
    (by rw [Slot.children_of_items? hi, List.filterMap_append, List.filterMap_append, hsplit])
    (hclear _ _ _ _ _ rfl hv)
  rw [← hl'] at hsplit ⊢
  rw [List.append_assoc, List.append_assoc, List.append_cancel_left_eq] at hsplit
  subst hsplit
  refine ⟨l' ++ ((new.map some).filterMap id ++ r.filterMap id), by simp, ?_⟩
  have hold := hnew fun c hc => hrest c (by simp [hc])
  intro c hc
  simp only [List.mem_append, List.filterMap_map, Function.comp_def, id, List.filterMap_some] at hc
  rcases hc with hc | hc | hc
  · exact hrest c (by simp [hc])
  · exact hold c hc
  · exact hrest c (by
      simp only [List.mem_append]
      exact .inr (.inr hc))

theorem Fills.arranges (k : t.Keeps t') (h : p.Fills t' owner a b n) (hclear : p.Clear t)
    (hx : t.Arranges t' owner (t'.node owner))
    (hab : ∀ ds, t.Bears t' ds a → t.Bears t' ds b) : t.Arranges t' owner n := by
  cases h with
  | required _ hs =>
    refine hx.fill rfl k hs rfl rfl fun ds hold c hc => ?_
    obtain rfl := List.mem_singleton.mp hc
    exact hab ds (hold a (List.mem_singleton_self a))
  | optional _ hs =>
    refine hx.fill rfl k hs rfl rfl fun ds hold c hc => ?_
    obtain rfl : c = b := by simpa [Slot.children] using hc
    exact hab ds (hold a (by simp [Slot.children]))
  | item h =>
    refine h.arranges k hclear hx fun hold c hc => ?_
    obtain rfl := List.mem_singleton.mp hc
    exact hab [] (hold a (by simp))

end Path

namespace Store

variable {s s' : Store} {t : Tree} {observed : Bool} {rule : Rule} {p : Path}
  {owner x a b e : NodeId} {n n' : Node NodeId} {directive : Option String} {text : String}
  {ds : List NodeId}

theorem Sound.bears_of_frozen (h : s.Sound) (k : t.Keeps s.tree) (hf : s.tree.isFrozen b) :
    t.Bears s.tree [] b := by
  rcases h.frozen hf with ⟨v, hv⟩ | he
  · exact .of_spells k h.wellFormed (h.spells hv)
  · exact .of_node k (h.emptyStatement he).2 (by simp [Node.kind, Kind.bodies]) rfl
      fun c hc => by cases hc

theorem Swap.kind_mem (hab : s.Swap observed rule a b) :
    (∃ v, s.value? a = some (.bool v)) ∨ (s.tree.node a).kind ∈ rule.replaced := by
  cases hab with
  | minify hv _ _ _ => exact .inl ⟨_, hv⟩
  | constantStatement hn | conditional hn | logical hn | binary hn | unary hn | lastItem hn
    | member hn | memberOfCharacter hn | ifTest hn | ifExpression hn | ifTrue hn | ifFalse hn
    | ifNever hn | whileNever hn | forNever hn | forDeclaration hn | forExpression hn =>
    right
    rw [hn]
    simp [Node.kind, Rule.replaced]

theorem Swap.kind_not_mem (h : s.Sound) (hab : s.Swap observed rule a b) :
    (s.tree.node a).kind ∉ Kind.bodies := by
  rcases hab.kind_mem with ⟨v, hv⟩ | hk
  · have hk := h.kind_of_value? hv
    simp only [List.mem_cons, List.not_mem_nil, or_false] at hk
    rcases hk with hk | hk | hk | hk <;> rw [hk] <;> decide
  · have hall : ∀ k ∈ rule.replaced, k ∉ Kind.bodies := by cases rule <;> decide
    exact hall _ hk

/-- What is put where another node was is no directive, and no body with directives. -/
theorem Swap.bears (h : s.Sound) (k : t.Keeps s.tree) (hab : s.Swap observed rule a b)
    (ha : t.Bears s.tree ds a) : t.Bears s.tree ds b := by
  have hk := hab.kind_not_mem h
  -- a node that is replaced is no list of statements, so it started with no directives
  obtain rfl : ds = [] := by
    refine ha.directives.symm.trans (k.directives_eq_nil (fun heq => ?_) fun heq => ?_) <;>
      exact hk (heq ▸ by decide)
  have child : ∀ {c m}, s.tree.node a = m → c ∈ m.children → t.Bears s.tree [] c := fun hn hc =>
    ha.child k hk (Tree.child_of_node hn hc)
  have holds : ∀ {v c}, s.Holds v c → t.Bears s.tree [] c := fun hc =>
    h.bears_of_frozen k (h.isFrozen_holds hc)
  have empty : s.pool.emptyStatement = some b → t.Bears s.tree [] b := fun hb =>
    h.bears_of_frozen k (h.emptyStatement hb).1
  have statement : ∀ {c}, s.tree.node b = .expressionStatement c none → t.Bears s.tree [] c →
      t.Bears s.tree [] b := fun hb hc =>
    .of_node k hb (by simp [Node.kind, Kind.bodies]) rfl fun d hd => by
      obtain rfl := List.mem_singleton.mp hd
      exact hc
  have expression : ∀ {c d}, t.Bears s.tree [] c → (s.tree.node c).expression? = some d →
      t.Bears s.tree [] d := by
    intro c d hc hd
    obtain ⟨directive, hn⟩ := expression?_eq hd
    refine hc.child k (by simp [hn, Node.kind, Kind.bodies]) (Tree.child_of_node hn ?_)
    exact List.mem_singleton_self d
  cases hab with
  | constantStatement _ _ _ hb | ifNever _ _ _ hb | whileNever _ _ _ hb | forNever _ _ _ hb =>
    exact empty hb
  | conditional hn _ | logical hn _ =>
    split <;> exact child hn (by simp [Node.children, Node.slots, Slot.children])
  | binary _ _ _ _ _ hb | unary _ _ _ hb | member _ _ _ hb | minify _ _ hb _ => exact holds hb
  | lastItem hn _ | ifTrue hn _ _ | ifFalse hn _ _ | forDeclaration hn _ _ _ =>
    exact child hn (by simp [Node.children, Node.slots, Slot.children])
  | memberOfCharacter _ _ _ _ _ hfirst hindex hb _ =>
    refine .of_node k hb (by simp [Node.kind, Kind.bodies]) rfl ?_
    simpa [Node.children, Node.slots, Slot.children] using ⟨holds hfirst, holds hindex⟩
  | ifTest hn _ _ hb _ | forExpression hn _ _ _ hb _ =>
    exact statement hb (child hn (by simp [Node.children, Node.slots, Slot.children]))
  | @ifExpression _ test consequent alternate n c _ hn hexpr hc hb _ _ =>
    refine statement hb ?_
    have htest : t.Bears s.tree [] test :=
      child hn (by simp [Node.children, Node.slots, Slot.children])
    have hconsequent : t.Bears s.tree [] consequent :=
      child hn (by simp [Node.children, Node.slots, Slot.children])
    rcases ifExpression?_cases hexpr with ⟨other, y, z, rfl, hy, hz, rfl⟩ | ⟨y, rfl, -, hy, rfl⟩
    · have hother : t.Bears s.tree [] other :=
        child hn (by simp [Node.children, Node.slots, Slot.children])
      refine .of_node k hc (by simp [Node.kind, Kind.bodies]) rfl ?_
      simpa [Node.children, Node.slots, Slot.children]
        using ⟨expression hother hz, expression hconsequent hy, htest⟩
    · refine .of_node k hc (by simp [Node.kind, Kind.bodies]) rfl ?_
      simpa [Node.children, Node.slots, Slot.children] using ⟨htest, expression hconsequent hy⟩

theorem Splice.bears (h : s.Sound) (k : t.Keeps s.tree) {old : List (Option NodeId)}
    {new : List NodeId} (hs : s.Splice observed owner rule old new)
    (hold : ∀ c, some c ∈ old → t.Bears s.tree [] c) : ∀ c ∈ new, t.Bears s.tree [] c := by
  intro c hc
  cases hs with
  | swap hab =>
    obtain rfl := List.mem_singleton.mp hc
    exact hab.bears h k (hold _ (by simp))
  | unreachable _ _ => exact hold c (some_mem_of_mem_hoisted hc)
  | @merge statements expressions sequence statement hrun _ hsequence hstatement _ _ _ _ =>
    obtain rfl := List.mem_singleton.mp hc
    refine .of_node k hstatement (by simp [Node.kind, Kind.bodies]) rfl fun d hd => ?_
    obtain rfl := List.mem_singleton.mp hd
    refine .of_node k hsequence (by simp [Node.kind, Kind.bodies]) rfl fun x hx => ?_
    have hx : x ∈ expressions.flatMap (FoldM.sequenceItems s.tree) := by
      simpa [Node.children, Node.slots, Slot.children] using hx
    obtain ⟨e, he, hx⟩ := List.mem_flatMap.mp hx
    obtain ⟨st, hst, directive, hn⟩ := exists_statement_of_run hrun he
    have he : t.Bears s.tree [] e := (hold st (List.mem_map_of_mem hst)).child k
      (by simp [hn, Node.kind, Kind.bodies]) (Tree.child_of_node hn (List.mem_singleton_self e))
    unfold FoldM.sequenceItems at hx
    split at hx
    · rename_i items hn
      refine he.child k (by simp [hn, Node.kind, Kind.bodies]) (Tree.child_of_node hn ?_)
      simpa [Node.children, Node.slots, Slot.children] using hx
    · obtain rfl := List.mem_singleton.mp hx
      exact he
  | constant | empty => cases hc

theorem Rewrite.kind_not_mem (hr : s.Rewrite rule n n') :
    n.kind ∉ Kind.bodies ∧ n.kind ≠ .expressionStatement ∧ n.kind ≠ .literal := by
  cases hr <;> simp [Node.kind, Kind.bodies]

theorem Rewrite.arranges (h : s.Sound) (k : t.Keeps s.tree) (hr : s.Rewrite rule (s.tree.node x) n)
    (hx : t.Arranges s.tree x (s.tree.node x)) : t.Arranges s.tree x n := by
  have hk := hr.kind_not_mem.1
  intro e he
  refine ⟨e.2.children, ?_, ?_, fun c hc => ?_⟩
  · rw [k.lead_eq_nil hk, List.nil_append]
  · rw [k.lead_eq_nil hk]
    simp
  · rw [k.inner_eq_nil hk]
    rcases hr.children h (Node.mem_children.mpr ⟨e, he, hc⟩) with hc | hf | ⟨name, hn⟩
    · obtain ⟨e, he, hce⟩ := Node.mem_children.mp hc
      obtain ⟨rest, hsplit, -, hrest⟩ := hx e he
      rw [k.lead_eq_nil hk, List.nil_append] at hsplit
      rw [k.inner_eq_nil hk] at hrest
      exact hrest c (hsplit ▸ hce)
    · exact h.bears_of_frozen k hf
    · exact .of_node k hn (by simp [Node.kind, Kind.bodies]) rfl fun d hd => by cases hd

theorem Edit.arranges (h : s.Sound) (k : t.Keeps s.tree) (he : s.Edit observed rule p x n)
    (hclear : p.Clear t) (hx : t.Arranges s.tree x (s.tree.node x)) : t.Arranges s.tree x n := by
  cases he with
  | fill _ _ hfill hab => exact hfill.arranges k hclear hx fun _ => hab.bears h k
  | splice _ _ hsplice hnew => exact hsplice.arranges k hclear hx (hnew.bears h k)
  | rewrite _ _ hr => exact hr.arranges h k hx

theorem Swap.not_string (h : s.Sound) (hab : s.Swap observed rule a b) :
    s.tree.node a ≠ .literal (.string text) := by
  intro ha
  rcases hab.kind_mem with ⟨v, hv⟩ | hk
  · rw [h.value?_literal ha] at hv
    cases hv
  · rw [ha] at hk
    cases rule <;> simp [Rule.replaced, Node.kind] at hk

theorem Edit.node_ne (h : s.Sound) (he : s.Edit observed rule p x n) {st : NodeId}
    (hst : s.tree.node st = .expressionStatement e directive)
    (htext : s.tree.node e = .literal (.string text)) : st ≠ x ∧ e ≠ x := by
  cases he with
  | @fill _ a b n hleads _ _ hab =>
    have hc := hleads.child
    refine ⟨?_, ?_⟩
    · rintro rfl
      unfold Tree.Child at hc
      rw [hst] at hc
      obtain rfl := List.mem_singleton.mp hc
      exact hab.not_string h htext
    · rintro rfl
      unfold Tree.Child at hc
      rw [htext] at hc
      cases hc
  | splice _ _ hsplice _ =>
    obtain ⟨_, hs, hi⟩ := hsplice
    have hmem := Node.mem_slots_of_slot? hs
    refine ⟨?_, ?_⟩
    · rintro rfl
      rw [hst] at hmem
      cases List.mem_singleton.mp hmem
      cases hi
    · rintro rfl
      rw [htext] at hmem
      cases hmem
  | rewrite _ _ hr =>
    obtain ⟨-, hne, hne'⟩ := hr.kind_not_mem
    refine ⟨?_, ?_⟩
    · rintro rfl
      exact hne (by rw [hst]; rfl)
    · rintro rfl
      exact hne' (by rw [htext]; rfl)

theorem Edit.isMarked (he : s.Edit observed rule p x n) :
    n.isMarked = (s.tree.node x).isMarked := by
  have splices : ∀ {old new}, p.Splices s.tree x old new n →
      n.isMarked = (s.tree.node x).isMarked := by
    intro old new hsplice
    obtain ⟨_, _, _⟩ := hsplice
    exact Node.isMarked_setSlot ..
  cases he with
  | fill _ _ hfill _ =>
    cases hfill with
    | required | optional => exact Node.isMarked_setSlot ..
    | item hsplice => exact splices hsplice
  | splice _ _ hsplice _ => exact splices hsplice
  | rewrite _ _ hr =>
    have hne := hr.kind_not_mem.2.1
    rw [Node.isMarked_of_kind hne, Node.isMarked_of_kind (hr.kind ▸ hne)]

/-- A change at a path that is clear of directives keeps them. -/
theorem Edit.keeps (h : s.Sound) (hp : p.Live s.tree) (he : s.Edit observed rule p x n)
    (k : t.Keeps s.tree) (hclear : p.Clear t) : t.Keeps (s.put x n).tree := by
  obtain ⟨hsize, -, hkind, -, -⟩ := he.admissible h
  refine k.setNode hsize hkind he.isMarked (he.node_ne h) (he.arranges h k hclear ?_)
  exact Tree.arranges_iff.mpr (Tree.Throughout.within k.arranged (he.within_root hp))

theorem Fires.keeps (h : s.Sound) (hp : p.Live s.tree) (hleads : p.Leads s.tree owner a)
    (hfires : Fires observed rule p s s') (k : t.Keeps s.tree) (hclear : p.Clear t) :
    t.Keeps s'.tree := by
  refine Fires.lift (R := fun s s' => t.Keeps s.tree → t.Keeps s'.tree) (fun h h' => h' ∘ h) ?_
    h hp hleads hfires k
  intro s s₁ x n hs hs₁ hgrows hp₁ he k
  exact he.keeps hs₁ hp₁ (k.grows hgrows.tree hs.wellFormed hs.lt_size_of_root) hclear

end Store

end ScriptFold

import ScriptFold.Proofs.Directive
import ScriptFold.Proofs.Execution
import ScriptFold.Proofs.Valuation

/-!
Folding keeps what a program does. Where operators and look-ups do to values what folding takes them
to do, a constant stands for its value by its shape. So rules on statements and rules on expressions
keep one and the same meaning, which no longer depends on the pool: every node that means something
means the same after any run, and functions keep the blocks that are their bodies.
-/

namespace ScriptFold

open Relation

variable {σ : Type} {sem : Semantics σ}

theorem Rule.onStatements_or_onExpressions (rule : Rule) :
    rule ∈ onStatements ∨ rule ∈ onExpressions := by
  cases rule <;> decide

namespace Meaning

theorem kept_of_value? {e? : Option (Comp σ Value)} {m : Meaning σ} (h : ScriptFold.Kept e? m.value?)
    (hhead : ∀ e, m.value? = some e → m.head? = some e.discard) : (expression e?).Kept m where
  value := h
  name := .none _
  declarator := .none _
  head := by
    intro d hd
    obtain ⟨e, rfl, rfl⟩ := Option.map_eq_some_iff.mp hd
    exact hhead e (h e rfl)
  statement := .none _

end Meaning

namespace Semantics

variable {x : NodeId} {n : Node (Meaning σ)}

/-- Kinds of nodes that are an expression and nothing else. -/
def valued : List Kind :=
  [.literal, .unaryExpression, .binaryExpression, .logicalExpression, .conditionalExpression,
    .sequenceExpression, .arrayExpression, .memberExpression]

theorem nodeMeaning_valued (hk : n.kind ∈ valued) :
    sem.nodeMeaning x n = .expression (sem.nodeMeaning x n).value? := by
  cases n <;> simp only [Node.kind, valued, List.mem_cons, List.not_mem_nil, reduceCtorEq, or_false,
    false_or] at hk
  case memberExpression computed => cases computed <;> rfl
  all_goals rfl

theorem nodeMeaning_head?_of_value {e : Comp σ Value} (h : (sem.nodeMeaning x n).value? = some e) :
    (sem.nodeMeaning x n).head? = some e.discard := by
  by_cases hk : n.kind = .variableDeclaration
  · cases n <;> cases hk
    rename_i kind
    cases kind <;> cases h
  · rw [nodeMeaning_head? hk, h, Option.map_some]

end Semantics

namespace Tree

/-- What a node stands for by its shape alone. -/
noncomputable def sense (t : Tree) (sem : Semantics σ) : NodeId → Meaning σ :=
  t.meaning sem fun _ => none

variable {t : Tree} {x : NodeId} {n : Node NodeId}

theorem sense_of_node (h : t.WellFormed) (hn : t.node x = n) :
    t.sense sem x = sem.nodeMeaning x (n.map (t.sense sem)) :=
  meaning_of_node h hn

theorem sense_congr {t' : Tree} (h : t.WellFormed) (h' : t'.WellFormed)
    (hnode : ∀ y, t.Within y x → t'.node y = t.node y) : t'.sense sem x = t.sense sem x :=
  meaning_congr h h' hnode fun _ _ => rfl

theorem sense_valued (h : t.WellFormed) (hk : (t.node x).kind ∈ Semantics.valued) :
    t.sense sem x = .expression (t.valuation sem x) := by
  change t.sense sem x = .expression (t.sense sem x).value?
  rw [sense_of_node h rfl]
  exact Semantics.nodeMeaning_valued (by rwa [Node.kind_map])

theorem head?_of_valuation (h : t.WellFormed) {e : Comp σ Value} (he : t.valuation sem x = some e) :
    (t.sense sem x).head? = some e.discard := by
  change (t.sense sem x).value? = some e at he
  rw [sense_of_node h rfl] at he ⊢
  exact Semantics.nodeMeaning_head?_of_value he

end Tree

namespace Store

variable {s s' : Store} {observed : Bool} {rule : Rule} {p : Path} {a b x owner : NodeId}
  {n : Node NodeId}

/-- What is constant is an expression and nothing else. -/
theorem Sound.valued (h : s.Sound) {v : Value} (hv : s.value? x = some v) :
    (s.tree.node x).kind ∈ Semantics.valued := by
  have hkinds : [Kind.literal, .unaryExpression, .binaryExpression, .arrayExpression] ⊆
      Semantics.valued := by decide
  exact hkinds (h.kind_of_value? hv)

/-- What is constant stands for its value by its shape, so that it does not matter what is known to
be constant. -/
theorem Sound.meaning_eq_sense (h : s.Sound) (hsem : sem.Faithful) (x : NodeId) :
    s.meaning sem x = s.tree.sense sem x := by
  induction x using h.wellFormed.acyclic.induction with
  | _ x ih =>
    cases hv : s.value? x with
    | some v =>
      rw [h.meaning_of_value hv, Tree.sense_valued h.wellFormed (h.valued hv),
        h.valuation_of_value hsem hv]
    | none =>
      rw [h.meaning_of_none hv, Tree.sense_of_node h.wellFormed rfl]
      exact congrArg _ (Node.map_congr fun c hc => ih c hc)

theorem Swap.valued (h : s.Sound) (hrule : rule ∈ Rule.onExpressions)
    (hab : s.Swap observed rule a b) : (s.tree.node a).kind ∈ Semantics.valued := by
  cases hab with
  | conditional hn | logical hn | binary hn | unary hn | lastItem hn | member hn
    | memberOfCharacter hn =>
    rw [hn]
    exact List.mem_of_elem_eq_true rfl
  | minify hv => exact h.valued hv
  | constantStatement | ifTest | ifExpression | ifTrue | ifFalse | ifNever | whileNever | forNever
    | forDeclaration | forExpression => exact absurd hrule (by decide)

theorem Swap.sense_kept (h : s.Sound) (hsem : sem.Faithful) (hrule : rule ∈ Rule.onExpressions)
    (hab : s.Swap observed rule a b) : (s.tree.sense sem a).Kept (s.tree.sense sem b) := by
  rw [Tree.sense_valued h.wellFormed (hab.valued h hrule)]
  exact Meaning.kept_of_value? (hab.valuation_kept h hsem hrule)
    fun e he => Tree.head?_of_valuation h.wellFormed he

theorem Rewrite.valued {n' : Node NodeId} (hrule : rule ∈ Rule.onExpressions)
    (hr : s.Rewrite rule n n') : n.kind ∈ Semantics.valued := by
  cases hr <;> first
    | exact List.mem_of_elem_eq_true rfl
    | exact absurd hrule (by decide)

theorem Edit.sense_apart (h : s.Sound) (he : s.Edit observed rule p x n)
    (ha : ¬ s.tree.Within x a) : (s.put x n).tree.sense sem a = s.tree.sense sem a :=
  Tree.sense_congr h.wellFormed (he.sound h).wellFormed fun _ hy => he.node_apart h ha hy

theorem Edit.sense_self (h : s.Sound) (hsem : sem.Faithful) (hrule : rule ∈ Rule.onExpressions)
    (he : s.Edit observed rule p x n) :
    (s.tree.sense sem x).Kept ((s.put x n).tree.sense sem x) := by
  have hs' := (he.sound h).wellFormed
  have fill : ∀ {a b}, p.Fills s.tree x a b n → s.Swap observed rule a b →
      (s.tree.sense sem x).Kept ((s.put x n).tree.sense sem x) := by
    intro a b hfill hab
    have hchildren : ∀ c ∈ n.children, (s.put x n).tree.sense sem c = s.tree.sense sem c :=
      fun c hc => he.sense_apart h ((he.admissible h).2.2.2.2 c hc).2
    rw [Tree.sense_of_node h.wellFormed rfl, Tree.sense_of_node hs' (he.node_self h),
      Node.map_congr hchildren]
    exact kept_of_pairs hfill.pairs (hab.sense_kept h hsem hrule)
  cases he with
  | fill hleads hf hfill hab => exact fill hfill hab
  | splice hleads hf hsplice hnew =>
    cases hnew with
    | swap hab => exact fill (.item hsplice) hab
    | unreachable | merge | constant | empty => exact absurd hrule (by decide)
  | rewrite hleads hf hr =>
    rw [Tree.sense_valued h.wellFormed (hr.valued hrule)]
    have hedit : s.Edit observed rule p x n := .rewrite hleads hf hr
    exact Meaning.kept_of_value? (hedit.valuation_rewrite h hsem hrule hr)
      fun e he => Tree.head?_of_valuation hs' he

/-- Through a change by any rule every node keeps what it stands for. -/
theorem Edit.sense_kept (h : s.Sound) (hsem : sem.Faithful) (he : s.Edit observed rule p x n)
    (a : NodeId) : (s.tree.sense sem a).Kept ((s.put x n).tree.sense sem a) := by
  have hs' := he.sound h
  rcases rule.onStatements_or_onExpressions with hrule | hrule
  · rw [← h.meaning_eq_sense hsem, ← hs'.meaning_eq_sense hsem]
    exact he.kept h hrule a
  · induction a using h.wellFormed.acyclic.induction with
    | _ a ih =>
      by_cases hax : a = x
      · subst hax
        exact he.sense_self h hsem hrule
      · rw [Tree.sense_of_node h.wellFormed rfl,
          Tree.sense_of_node hs'.wellFormed (he.node_of_ne h hax)]
        exact Semantics.nodeMeaning_kept fun c hc => ih c hc

theorem Grows.sense (h : s.Sound) (hs' : s'.Sound) (hg : s.Grows s') (ha : a < s.tree.size) :
    s'.tree.sense sem a = s.tree.sense sem a :=
  Tree.sense_congr h.wellFormed hs'.wellFormed fun _ hy =>
    hg.tree.node (h.wellFormed.within_lt_size hy ha)

end Store

def Tree.HasBlock (t : Tree) (f b : NodeId) : Prop :=
  (t.node f).functionBody? = some b ∧ (t.node b).kind = .blockStatement

theorem Node.functionBody?_setSlot {α : Type} (n : Node α) {f : Field} (hf : f ≠ .body)
    (slot : Slot α) : (n.setSlot f slot).functionBody? = n.functionBody? := by
  cases n <;> cases slot <;> try rfl
  all_goals exact congrArg some (if_neg hf.symm)

namespace Store

variable {s s₁ : Store} {observed : Bool} {rule : Rule} {p : Path} {a b f x owner : NodeId}
  {n : Node NodeId}

theorem Swap.functionBody?_fill (h : s.Sound) (hab : s.Swap observed rule a b)
    (hfill : p.Fills s.tree f a b n) {c : NodeId} (hc : s.tree.HasBlock f c) :
    n.functionBody? = some c := by
  have hslot := Node.slot?_functionBody hc.1
  have other : ∀ {g : Field} {slot : Slot NodeId}, s.tree.slot? f g = some slot →
      slot ≠ .required c → ∀ new, ((s.tree.node f).setSlot g new).functionBody? = some c := by
    intro g slot hg hne new
    rw [Node.functionBody?_setSlot _ ?_, hc.1]
    rintro rfl
    exact hne (Option.some.inj (hg.symm.trans hslot))
  cases hfill with
  | required _ hs =>
    refine other hs ?_ _
    rintro ⟨⟩
    exact hab.kind_not_mem h (hc.2 ▸ by decide)
  | optional _ hs => exact other hs (fun heq => by cases heq) _
  | item hsplice =>
    cases hsplice with
    | intro _ hs hi =>
      refine other hs ?_ _
      rintro rfl
      cases hi

theorem Edit.hasBlock (h : s.Sound) (he : s.Edit observed rule p x n) (hb : s.tree.HasBlock f b) :
    (s.put x n).tree.HasBlock f b := by
  have hkind : ((s.put x n).tree.node b).kind = (s.tree.node b).kind := by
    by_cases hbx : b = x
    · subst hbx
      rw [he.node_self h, (he.admissible h).2.2.1]
    · rw [he.node_of_ne h hbx]
  refine ⟨?_, hkind.trans hb.2⟩
  by_cases hfx : f = x
  · subst hfx
    rw [he.node_self h]
    cases he with
    | fill _ _ hfill hab => exact hab.functionBody?_fill h hfill hb
    | splice _ _ hsplice hnew =>
      cases hsplice with
      | @intro _ g _ slot _ _ _ _ _ _ hs hi =>
        rw [Node.functionBody?_setSlot _ ?_, hb.1]
        rintro rfl
        obtain rfl := Option.some.inj (hs.symm.trans (Node.slot?_functionBody hb.1))
        cases hi
    | rewrite _ _ hr =>
      have hfunction : (s.tree.node f).functionBody?.isSome := by rw [hb.1]; rfl
      rw [Node.functionBody?_isSome] at hfunction
      refine absurd ?_ hr.kind_not_mem.1
      cases hn : s.tree.node f <;> rw [hn] at hfunction <;> first
        | exact List.mem_of_elem_eq_true rfl
        | cases hfunction
  · rw [he.node_of_ne h hfx, hb.1]

end Store

namespace Tree

/-- Nodes are added only, and every node keeps what it stands for, and every function its body. -/
structure Extends (sem : Semantics σ) (t t' : Tree) : Prop where
  size : t.size ≤ t'.size
  sense : ∀ a < t.size, (t.sense sem a).Kept (t'.sense sem a)
  block : ∀ {f b}, t.HasBlock f b → t'.HasBlock f b

namespace Extends

variable {t t' t'' : Tree}

theorem refl (t : Tree) : t.Extends sem t :=
  ⟨le_rfl, fun _ _ => .refl _, id⟩

theorem trans (h : t.Extends sem t') (h' : t'.Extends sem t'') : t.Extends sem t'' where
  size := h.size.trans h'.size
  sense a ha := (h.sense a ha).trans (h'.sense a (ha.trans_le h.size))
  block := h'.block ∘ h.block

end Extends

end Tree

namespace Store

variable {s s' s₁ : Store} {observed : Bool} {rule : Rule} {p : Path} {x owner b : NodeId}
  {n : Node NodeId}

theorem Edit.extends (h : s.Sound) (hs₁ : s₁.Sound) (hg : s.Grows s₁) (hsem : sem.Faithful)
    (he : s₁.Edit observed rule p x n) : s.tree.Extends sem (s₁.put x n).tree where
  size := hg.tree.size.trans (s₁.tree.size_setNode x n).ge
  sense a ha := by
    rw [← hg.sense h hs₁ ha]
    exact he.sense_kept hs₁ hsem a
  block := by
    rintro f b ⟨hf, hb⟩
    refine he.hasBlock hs₁ ⟨?_, ?_⟩
    · rwa [hg.tree.node (Tree.lt_size_of_node fun hn => by rw [hn] at hf; cases hf)]
    · rwa [hg.tree.node (Tree.lt_size_of_node fun hn => by rw [hn] at hb; cases hb)]

end Store

namespace FoldState

variable {rules : List Rule} {s s' : FoldState}

theorem Firing.extends (h : s.Sound) (hsem : sem.Faithful) (hf : Firing rules s s') :
    s.tree.Extends sem s'.tree := by
  obtain ⟨rule, -, p, owner, id, hp, hopen, hfires, -⟩ := hf.cases h
  exact Store.Fires.lift (R := fun s s' => s.tree.Extends sem s'.tree) .trans
    (fun hs hs₁ hg _ he => he.extends hs hs₁ hg hsem) h hp hopen.leads hfires

theorem Folds.extends (h : s.Sound) (hsem : sem.Faithful) (hr : Folds rules s s') :
    s.tree.Extends sem s'.tree := by
  induction hr with
  | refl => exact .refl _
  | fire hr hf ih => exact ih.trans (hf.extends (hr.sound h) hsem)
  | round _ ih => exact ih

end FoldState

variable {json : Json} {t : Tree}

/-- Whatever program is folded, all that means something in it means the same when folding is over. -/
theorem Tree.fold_extends (hj : json.Finite) (ht : ofJson json = .ok t) (hsem : sem.Faithful)
    (options : Options) : ∃ t' stats, t.fold options = .ok (t', stats) ∧ t.Extends sem t' := by
  have h : Store.Sound { tree := t } := (fresh_ofJson hj ht).sound
  obtain ⟨s, hfold, hfolds⟩ := fold_folds h options
  exact ⟨s.tree, s.stats, hfold, hfolds.extends (s := { tree := t }) h hsem⟩

/-- The statement `true && a;` keeps its meaning. -/
theorem Tree.fold_extends_programAnd : ∃ t t' stats c, ofJson .programAnd = .ok t ∧
    t.fold {} = .ok (t', stats) ∧ (t.sense .folding 4).statement? = some c ∧
      (t'.sense .folding 4).statement? = some c := by
  obtain ⟨t, ht, hsize, hnode⟩ : ∃ t, ofJson .programAnd = .ok t ∧ t.size = 6 ∧
      t.node 4 = .expressionStatement 3 none := ⟨_, rfl, rfl, rfl⟩
  have h : Store.Sound { tree := t } := (fresh_ofJson Json.finite_programAnd ht).sound
  have hvalue : (t.sense .folding 3).value? = _ := valuation_programAnd ht
  have hc : (t.sense .folding 4).statement? = (t.sense .folding 3).value?.map Comp.effect := by
    rw [sense_of_node h.wellFormed hnode]
    rfl
  rw [hvalue, Option.map_some] at hc
  obtain ⟨t', stats, hfold, hextends⟩ :=
    fold_extends Json.finite_programAnd ht Semantics.folding_faithful {}
  exact ⟨t, t', stats, _, ht, hfold, hc, (hextends.sense 4 (by omega)).statement _ hc⟩

end ScriptFold

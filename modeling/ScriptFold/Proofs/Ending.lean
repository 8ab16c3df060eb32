import ScriptFold.Proofs.Solid

/-!
What a statement ends with. `Tree.Ends` says of a statement that it ends with a value whatever came
before it, and what it does, with the value given as if it were returned. A statement that does
nothing, a loop and a choice without an alternative may leave the value to what comes before them, and
are not among these.
-/

namespace ScriptFold

variable {σ : Type} {sem : Semantics σ}

theorem forall₂_of_append {α β : Type} {R : α → β → Prop} {xs ys : List α} {zs : List β}
    (h : List.Forall₂ R (xs ++ ys) zs) :
    ∃ zs₁ zs₂, zs = zs₁ ++ zs₂ ∧ List.Forall₂ R xs zs₁ ∧ List.Forall₂ R ys zs₂ := by
  exact ⟨_, _, (List.take_append_drop xs.length zs).symm,
    (List.forall₂_take_append _ _ _ h.flip).flip, (List.forall₂_drop_append _ _ _ h.flip).flip⟩

theorem Comp.run_effect_andThen (es : List (Comp σ Value)) (c : Comp σ Completion) :
    andThen (run (es.map effect)) c = es.forM discard >>= fun _ => c := by
  rw [run_effect, effect, discard_sequence]
  unfold andThen
  simp only [bind_assoc, pure_bind]

namespace Node

variable {α : Type} {n : Node α}

theorem isJump_of_kind {β : Type} {m : Node β} (h : n.kind = m.kind) : n.isJump = m.isJump := by
  cases n <;> cases m <;> first | rfl | cases h

theorem not_isJump_of_empty (h : n.isEmptyStatement) : ¬ n.isJump := by
  cases n <;> first
    | exact Bool.false_ne_true
    | exact absurd h Bool.false_ne_true

theorem kind_of_isFunction (h : n.isFunction) : n.kind ∈
    [Kind.functionDeclaration, .functionExpression, .arrowFunctionExpression] := by
  cases n <;> first
    | exact List.mem_of_elem_eq_true rfl
    | exact absurd h Bool.false_ne_true

theorem statements_setSlot (h : n.kind = .program ∨ n.kind = .blockStatement) (xs : List α) :
    (n.setSlot .body (.list xs)).statements = xs := by
  cases n <;> simp [kind] at h <;> rfl

theorem kind_of_statements {lead rest : List α} {last : α}
    (h : n.statements = lead ++ last :: rest) : n.kind ∈ [Kind.program, .blockStatement] := by
  by_contra hk
  simp only [List.mem_cons, List.not_mem_nil, or_false, not_or] at hk
  rw [statements_of_kind hk.1 hk.2] at h
  exact List.append_ne_nil_of_right_ne_nil _ (List.cons_ne_nil _ _) h.symm

end Node

namespace Tree

/-- Some statements, and what they do. -/
def Does (t : Tree) (sem : Semantics σ) : List NodeId → List (Comp σ Completion) → Prop :=
  List.Forall₂ fun x c => (t.sense sem x).statement? = some c

/-- What a statement does where it comes last in the program, with the value that it ends with given as
if it were returned. Nothing is said of a statement that may leave the value to those before it. -/
inductive Ends (t : Tree) (sem : Semantics σ) : NodeId → Comp σ Completion → Prop
  | expression {x e directive v} : t.node x = .expressionStatement e directive → t.Solid e →
      t.valuation sem e = some v → Ends t sem x (v >>= fun w => return .returned w)
  | jump {x c} : (t.node x).isJump → (t.sense sem x).statement? = some c → Ends t sem x c
  | choice {x test yes no v c d} : t.node x = .ifStatement test yes (some no) →
      t.valuation sem test = some v → Ends t sem yes c → Ends t sem no d →
      Ends t sem x (.choose v c d)
  | body {x lead last rest cs c} : (t.node x).statements = lead ++ last :: rest →
      rest = [] ∨ (t.node last).isJump → t.Does sem lead cs → Ends t sem last c →
      Ends t sem x (.andThen (.run cs) c)

variable {t t' : Tree} {x : NodeId} {c : Comp σ Completion}

theorem Does.imp {xs : List NodeId} {cs : List (Comp σ Completion)} (h : t.Does sem xs cs)
    (hkept : ∀ y ∈ xs, Kept (t.sense sem y).statement? (t'.sense sem y).statement?) :
    t'.Does sem xs cs := by
  induction h with
  | nil => exact .nil
  | cons hc _ ih =>
    exact .cons (hkept _ List.mem_cons_self _ hc) (ih fun y hy => hkept y (List.mem_cons_of_mem _ hy))

theorem Does.congr {xs : List NodeId} {cs : List (Comp σ Completion)} (h : t.Does sem xs cs)
    (wf : t.WellFormed) (wf' : t'.WellFormed)
    (hnode : ∀ y ∈ xs, ∀ z, t.Within z y → t'.node z = t.node z) : t'.Does sem xs cs :=
  h.imp fun y hy => by
    rw [sense_congr wf wf' (hnode y hy)]
    exact .refl _

namespace Ends

/-- Kinds of statements that may be known to end with a value. -/
def kinds : List Kind :=
  [.expressionStatement, .returnStatement, .breakStatement, .continueStatement, .throwStatement,
    .ifStatement, .program, .blockStatement]

theorem kind_mem (h : t.Ends sem x c) : (t.node x).kind ∈ kinds := by
  cases h with
  | expression hn | choice hn =>
    rw [hn]
    exact List.mem_of_elem_eq_true rfl
  | jump hj =>
    have hsub : Rule.unreachableTail.kinds ⊆ kinds := by decide
    exact hsub (Rule.kind_of_isJump hj)
  | body hs =>
    have hsub : [Kind.program, .blockStatement] ⊆ kinds := by decide
    exact hsub (Node.kind_of_statements hs)

theorem not_function (h : t.Ends sem x c) : ¬ (t.node x).isFunction := fun hf => by
  have hkinds : ∀ k ∈ [Kind.functionDeclaration, .functionExpression, .arrowFunctionExpression],
      k ∉ kinds := by decide
  exact hkinds _ (Node.kind_of_isFunction hf) h.kind_mem

theorem not_empty (h : t.Ends sem x c) : ¬ (t.node x).isEmptyStatement := fun he => by
  have hempty : (t.node x).kind = .blockStatement ∧ (t.node x).statements = [] := by
    have hk := h.kind_mem
    revert he hk
    generalize t.node x = n
    intro he hk
    cases n <;> first
      | exact ⟨rfl, List.isEmpty_iff.mp he⟩
      | exact absurd he Bool.false_ne_true
      | exact absurd hk (by decide)
  cases h with
  | expression hn | choice hn =>
    rw [hn] at hempty
    cases hempty.1
  | jump hj =>
    have hk := Rule.kind_of_isJump hj
    rw [hempty.1] at hk
    exact absurd hk (by decide)
  | body hs =>
    exact List.append_ne_nil_of_right_ne_nil _ (List.cons_ne_nil _ _) (hs.symm.trans hempty.2)

theorem of_jump (h : t.Ends sem x c) (hj : (t.node x).isJump) :
    (t.sense sem x).statement? = some c := by
  have hk := Rule.kind_of_isJump hj
  cases h with
  | jump _ hc => exact hc
  | expression hn | choice hn =>
    rw [hn] at hj
    exact absurd hj Bool.false_ne_true
  | body hs =>
    have hkinds : ∀ k ∈ [Kind.program, .blockStatement], k ∉ Rule.unreachableTail.kinds := by
      decide
    exact absurd hk (hkinds _ (Node.kind_of_statements hs))

theorem of_expression {e : NodeId} {directive : Option String} (h : t.Ends sem x c)
    (hn : t.node x = .expressionStatement e directive) :
    ∃ v, t.Solid e ∧ t.valuation sem e = some v ∧ c = v >>= fun w => return .returned w := by
  cases h with
  | expression hn' hsolid hv =>
    cases hn.symm.trans hn'
    exact ⟨_, hsolid, hv, rfl⟩
  | jump hj =>
    rw [hn] at hj
    exact absurd hj Bool.false_ne_true
  | choice hn' => cases hn.symm.trans hn'
  | body hs =>
    have hk := Node.kind_of_statements hs
    rw [hn] at hk
    exact absurd hk (by simp [Node.kind])

theorem of_choice {test yes : NodeId} {no : Option NodeId} (h : t.Ends sem x c)
    (hn : t.node x = .ifStatement test yes no) :
    ∃ no' v d e, no = some no' ∧ t.valuation sem test = some v ∧ t.Ends sem yes d ∧
      t.Ends sem no' e ∧ c = .choose v d e := by
  cases h with
  | choice hn' hv hyes hno =>
    cases hn.symm.trans hn'
    exact ⟨_, _, _, _, rfl, hv, hyes, hno, rfl⟩
  | expression hn' => cases hn.symm.trans hn'
  | jump hj =>
    rw [hn] at hj
    exact absurd hj Bool.false_ne_true
  | body hs =>
    have hk := Node.kind_of_statements hs
    rw [hn] at hk
    exact absurd hk (by simp [Node.kind])

theorem congr (h : t.Ends sem x c) (wf : t.WellFormed) (wf' : t'.WellFormed)
    (hnode : ∀ y, t.Within y x → t'.node y = t.node y) : t'.Ends sem x c := by
  induction h with
  | @expression x e _ v hn hsolid hv =>
    have he : ∀ y, t.Within y e → t'.node y = t.node y := fun y hy =>
      hnode y (hy.tail (Tree.child_of_node hn (List.mem_singleton_self e)))
    exact .expression ((hnode _ .refl).trans hn) (hsolid.congr he)
      ((congrArg Meaning.value? (sense_congr wf wf' he)).trans hv)
  | jump hj hc => exact .jump (by rwa [hnode _ .refl]) (by rwa [sense_congr wf wf' hnode])
  | @choice x test yes no v c d hn hv _ _ ihyes ihno =>
    have below : ∀ {y}, y ∈ (Node.ifStatement test yes (some no)).children →
        ∀ z, t.Within z y → t'.node z = t.node z := fun hy z hz =>
      hnode z (hz.tail (Tree.child_of_node hn hy))
    refine .choice ((hnode _ .refl).trans hn) ?_ (ihyes (below ?_)) (ihno (below ?_))
    · refine (congrArg Meaning.value? (sense_congr wf wf' (below ?_))).trans hv
      simp [Node.children, Node.slots, Slot.children]
    · simp [Node.children, Node.slots, Slot.children]
    · simp [Node.children, Node.slots, Slot.children]
  | @body x lead last rest cs c hs hcut hlead _ ih =>
    have below : ∀ y ∈ lead ++ last :: rest, ∀ z, t.Within z y → t'.node z = t.node z :=
      fun y hy z hz => hnode z (hz.tail (child_of_statements (hs ▸ hy)))
    have hlast := below last (by simp)
    refine .body ((congrArg Node.statements (hnode _ .refl)).trans hs) ?_
      (hlead.congr wf wf' fun y hy => below y (by simp [hy])) (ih hlast)
    rwa [hlast last .refl]

end Ends

/-- What a list of statements does that comes last, as `Ends` has it of the node that holds it. -/
def EndsIn (t : Tree) (sem : Semantics σ) (statements : List NodeId) (c : Comp σ Completion) : Prop :=
  ∃ lead last rest cs d, statements = lead ++ last :: rest ∧ (rest = [] ∨ (t.node last).isJump) ∧
    t.Does sem lead cs ∧ t.Ends sem last d ∧ c = .andThen (.run cs) d

theorem ends_body_iff (hk : (t.node x).kind = .program ∨ (t.node x).kind = .blockStatement) :
    t.Ends sem x c ↔ t.EndsIn sem (t.node x).statements c := by
  constructor
  · intro h
    cases h with
    | body hs hcut hlead hlast => exact ⟨_, _, _, _, _, hs, hcut, hlead, hlast, rfl⟩
    | expression hn | choice hn => simp [hn, Node.kind] at hk
    | jump hj =>
      have hj := Rule.kind_of_isJump hj
      rcases hk with hk | hk <;> rw [hk] at hj <;> exact absurd hj (by decide)
  · rintro ⟨_, _, _, _, _, hs, hcut, hlead, hlast, rfl⟩
    exact .body hs hcut hlead hlast

theorem jumps (wf : t.WellFormed) (hj : (t.node x).isJump)
    (hc : (t.sense sem x).statement? = some c) : c.Jumps := by
  rw [sense_of_node wf rfl] at hc
  exact Semantics.jumps_nodeMeaning (by rwa [Node.isJump_map]) hc

namespace EndsIn

variable {xs ys : List NodeId} {cs : List (Comp σ Completion)}

theorem append (hxs : t.Does sem xs cs) (h : t.EndsIn sem ys c) :
    t.EndsIn sem (xs ++ ys) (.andThen (.run cs) c) := by
  obtain ⟨lead, last, rest, ds, d, rfl, hcut, hlead, hlast, rfl⟩ := h
  refine ⟨xs ++ lead, last, rest, cs ++ ds, d, (List.append_assoc ..).symm, hcut,
    List.rel_append hxs hlead, hlast, ?_⟩
  rw [Comp.run_append, Comp.andThen_assoc]

theorem singleton (h : t.Ends sem x c) : t.EndsIn sem [x] c :=
  ⟨[], x, [], [], c, rfl, .inl rfl, .nil, h, (Comp.normal_andThen c).symm⟩

theorem of_singleton (h : t.EndsIn sem [x] c) : t.Ends sem x c := by
  obtain ⟨lead, last, rest, cs, d, hsplit, -, hlead, hlast, rfl⟩ := h
  obtain ⟨rfl, rfl, rfl⟩ : lead = [] ∧ last = x ∧ rest = [] := by
    simpa [List.append_eq_singleton_iff, eq_comm] using hsplit
  cases hlead
  rwa [Comp.run, Comp.normal_andThen]

theorem jump_iff {jump : NodeId} {rest : List NodeId} (wf : t.WellFormed) (hj : (t.node jump).isJump) :
    t.EndsIn sem (jump :: rest) c ↔ (t.sense sem jump).statement? = some c := by
  constructor
  · rintro ⟨lead, last, rest, cs, d, hsplit, -, hlead, hlast, rfl⟩
    cases lead with
    | nil =>
      cases hsplit
      cases hlead
      rw [Comp.run, Comp.normal_andThen]
      exact hlast.of_jump hj
    | cons first lead =>
      cases hsplit
      cases hlead with
      | cons hc _ =>
        have hjumps := jumps wf hj hc
        rw [Comp.run, hjumps, hjumps]
        exact hc
  · intro hc
    exact ⟨[], jump, rest, [], c, rfl, .inr hj, .nil, .jump hj hc, (Comp.normal_andThen c).symm⟩

/-- Of two parts the first holds a jump, or the second comes last. -/
theorem of_append (h : t.EndsIn sem (xs ++ ys) c) (hys : ys ≠ []) :
    ((∃ x ∈ xs, (t.node x).isJump) ∧ ∀ zs, t.EndsIn sem (xs ++ zs) c) ∨
      ∃ cs d, t.Does sem xs cs ∧ t.EndsIn sem ys d ∧ c = .andThen (.run cs) d := by
  obtain ⟨lead, last, rest, cs, d, hsplit, hcut, hlead, hlast, rfl⟩ := h
  have first : ∀ rest', xs = lead ++ last :: rest' → rest = rest' ++ ys →
      (∃ x ∈ xs, (t.node x).isJump) ∧ ∀ zs, t.EndsIn sem (xs ++ zs) (.andThen (.run cs) d) := by
    rintro rest' rfl rfl
    have hj := hcut.resolve_left (List.append_ne_nil_of_right_ne_nil _ hys)
    refine ⟨⟨last, by simp, hj⟩, fun zs => ?_⟩
    refine ⟨lead, last, rest' ++ zs, cs, d, ?_, .inr hj, hlead, hlast, rfl⟩
    rw [List.append_assoc, List.cons_append]
  rcases List.append_eq_append_iff.mp hsplit with ⟨lead', rfl, rfl⟩ | ⟨rest', hxs, hrest⟩
  · obtain ⟨cs₁, cs₂, rfl, hxs, hlead⟩ := forall₂_of_append hlead
    refine .inr ⟨cs₁, .andThen (.run cs₂) d, hxs, ⟨_, _, _, _, _, rfl, hcut, hlead, hlast, rfl⟩, ?_⟩
    rw [Comp.run_append, Comp.andThen_assoc]
  · cases rest' with
    | nil =>
      rw [List.append_nil] at hxs
      subst hxs
      refine .inr ⟨cs, d, hlead, ⟨[], last, rest, [], d, hrest.symm, hcut, .nil, hlast, ?_⟩, rfl⟩
      exact (Comp.normal_andThen d).symm
    | cons y rest' =>
      cases hrest
      exact .inl (first rest' hxs rfl)

theorem congr (h : t.EndsIn sem xs c) (wf : t.WellFormed) (wf' : t'.WellFormed)
    (hnode : ∀ y ∈ xs, ∀ z, t.Within z y → t'.node z = t.node z) : t'.EndsIn sem xs c := by
  obtain ⟨lead, last, rest, cs, d, rfl, hcut, hlead, hlast, rfl⟩ := h
  have hnode' := hnode last (by simp)
  refine ⟨lead, last, rest, cs, d, rfl, ?_, ?_, hlast.congr wf wf' hnode', rfl⟩
  · rwa [hnode' last .refl]
  · exact hlead.congr wf wf' fun y hy => hnode y (by simp [hy])

end EndsIn

end Tree

end ScriptFold

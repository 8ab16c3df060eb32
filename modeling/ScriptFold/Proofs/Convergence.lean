import ScriptFold.Proofs.Import

/-!
Folding of a program that can be read comes to rest. Every round that changes the program makes it
lighter, so after as many rounds as the program weighs there is one that changes nothing, and what is
left then is a fixed point of all rules.
-/

namespace ScriptFold

namespace Options

variable {options : Options} {limit : Nat} {s s' : FoldState}

theorem converges_of_weight (options : Options) (hs : s.Sound)
    (h : s.tree.weight s.tree.root < limit) : ∃ s', options.Converges limit s s' := by
  induction limit generalizing s with
  | zero => exact absurd h (Nat.not_lt_zero _)
  | succ limit ih =>
    obtain ⟨changed, _, hround, s₁, hreach, rfl, hchanged⟩ := options.round_ensures hs
    cases changed with
    | false => exact ⟨_, .idle hround⟩
    | true =>
      have hlt := hreach.weight_lt hs hchanged
      have hs₁ : s₁.Sound := hreach.sound hs
      have hlight : s₁.closeRound.tree.weight s₁.closeRound.tree.root < limit := by
        change s₁.tree.weight s₁.tree.root < limit
        omega
      obtain ⟨s', hs'⟩ := ih (s := s₁.closeRound) hs₁ hlight
      exact ⟨s', .busy hround hs'⟩

/-- Where rounds ended by themselves, no rule fires any more. -/
theorem Converges.silent_of_sound (h : options.Converges limit s s') (hs : s.Sound) :
    s'.Sound ∧ s'.Silent options.rules := by
  induction h with
  | @idle limit s s' hround =>
    obtain ⟨_, _, hround', s₁, -, rfl, hchanged⟩ := options.round_ensures hs
    rw [hround] at hround'
    cases hround'
    obtain ⟨rfl, hsilent⟩ := hchanged
    exact ⟨hs, hsilent.recount _⟩
  | @busy limit s s₁ s' hround _ ih =>
    obtain ⟨_, _, hround', s₂, hreach, rfl, -⟩ := options.round_ensures hs
    rw [hround] at hround'
    cases hround'
    have hs₂ : s₂.Sound := hreach.sound hs
    exact ih hs₂

end Options

/-- The program `1`. -/
def Json.programOne : Json :=
  .obj [("type", .str "Program"), ("body", .arr [.obj [("type", .str "ExpressionStatement"),
    ("expression", .obj [("type", .str "Literal"), ("value", .int 1)])]])]

theorem Json.finite_programOne : programOne.Finite := by
  have h : (Float.ofInt 1).isFinite := by rfl
  simp [programOne, Json.Finite, Json.FiniteMembers, Json.FiniteItems, h]

variable {json : Json} {t : Tree}

/-- Walks end, the rules fire no more often than the program weighs, and enough rounds end with one
that changes nothing. -/
theorem Tree.converges_ofJson (hj : json.Finite) (ht : ofJson json = .ok t) :
    (∀ rules s, FoldState.Folds rules { tree := t } s → ∀ pass : Pass, ∃ c s',
      (∀ fuel, s.tree.walkFuel ≤ fuel →
        descend pass.visit fuel (.ofNode s.tree.root) s = .ok c s') ∧ pass.run s = .ok () s') ∧
    (∀ rules s, FoldState.Folds rules { tree := t } s → s.stats.changes ≤ t.weight t.root) ∧
    (∀ options : Options, ∀ limit, ∃ s, options.rounds limit { tree := t } = .ok () s ∧
      FoldState.Folds options.rules { tree := t } s) ∧
    ∃ N, ∀ options : Options, ∀ limit, N ≤ limit → ∃ s, options.Converges limit { tree := t } s := by
  have hs : Store.Sound { tree := t } := (fresh_ofJson hj ht).sound
  refine ⟨fun rules s hr pass => pass.run_ends (hr.sound hs), fun rules s hr => ?_,
    fun options limit => ?_, t.weight t.root + 1, fun options limit hlimit => ?_⟩
  · have hle : s.stats.changes + s.tree.weight s.tree.root ≤ 0 + t.weight t.root :=
      hr.changes_le hs
    omega
  · obtain ⟨_, s, hrun, hfolds⟩ := options.rounds_ensures limit (s := { tree := t }) hs
    exact ⟨s, hrun, hfolds⟩
  · exact options.converges_of_weight hs hlimit

theorem Tree.converges_ofJson_programOne :
    ∃ t, ofJson .programOne = .ok t ∧ t.weight t.root = 12 ∧ ∃ N, ∀ options : Options, ∀ limit,
      N ≤ limit → ∃ s, options.Converges limit { tree := t } s :=
  ⟨_, rfl, by decide, (converges_ofJson Json.finite_programOne rfl).2.2.2⟩

/-- Where folding ended because a round changed nothing, no rule of any pass fires anywhere, and
another round of passes changes nothing. -/
theorem Options.Converges.silent (hj : json.Finite) (ht : Tree.ofJson json = .ok t)
    {options : Options} {s : FoldState} (h : options.Converges options.maxRounds { tree := t } s) :
    t.fold options = .ok (s.tree, s.stats) ∧
    (∀ pass ∈ options.passes, ∀ rule ∈ pass.rules, ∀ p : Path, p.Live s.tree → p.node?.isSome →
      ¬ Rule.inFrozenNode s.tree p → rule.apply p s = .ok none s) ∧
    (∀ pass ∈ options.passes, pass.run s = .ok () s) ∧ options.passes.forM Pass.run s = .ok () s := by
  obtain ⟨hs, hsilent⟩ := h.silent_of_sound (Tree.fresh_ofJson hj ht).sound
  have hpass : ∀ pass ∈ options.passes, s.Silent pass.rules := fun pass hpass rule hrule =>
    hsilent rule (Options.rules_subset hpass hrule)
  have hrun : ∀ pass ∈ options.passes, pass.run s = .ok () s := fun pass hmem =>
    pass.run_of_silent hs (hpass pass hmem)
  refine ⟨?_, hpass, hrun, ?_⟩
  · unfold Tree.fold
    rw [EStateM.run, h.rounds_eq]
  · clear hpass
    generalize options.passes = passes at hrun
    induction passes with
    | nil => rfl
    | cons pass passes ih =>
      obtain ⟨hfirst, hrest⟩ := List.forall_mem_cons.mp hrun
      change EStateM.bind _ _ _ = _
      rw [EStateM.bind, hfirst]
      exact ih hrest

/-- The program `; f(!null, true ? !null : a);`. -/
def Json.programCall : Json :=
  let name (text : String) : Json := .obj [("type", .str "Identifier"), ("name", .str text)]
  let not : Json := .obj [("type", .str "UnaryExpression"), ("operator", .str "!"),
    ("argument", .obj [("type", .str "Literal"), ("value", .null)])]
  .obj [("type", .str "Program"), ("body", .arr [.obj [("type", .str "EmptyStatement")],
    .obj [("type", .str "ExpressionStatement"), ("expression",
      .obj [("type", .str "CallExpression"), ("callee", name "f"),
        ("arguments", .arr [not, .obj [("type", .str "ConditionalExpression"),
          ("test", .obj [("type", .str "Literal"), ("value", .bool true)]),
          ("consequent", not), ("alternate", name "a")]])])]])]

theorem Json.finite_programCall : programCall.Finite := by
  simp [programCall, Json.Finite, Json.FiniteMembers, Json.FiniteItems]

def Tree.call : Tree where
  cells := #[⟨.program [], {}⟩, ⟨.emptyStatement, {}⟩, ⟨.identifier "f", {}⟩, ⟨.literal .null, {}⟩,
    ⟨.unaryExpression .not 3, {}⟩, ⟨.literal (.bool true), {}⟩, ⟨.literal .null, {}⟩,
    ⟨.unaryExpression .not 6, {}⟩, ⟨.identifier "a", {}⟩, ⟨.conditionalExpression 5 7 8, {}⟩,
    ⟨.callExpression 2 [4, 9], {}⟩, ⟨.expressionStatement 10 none, {}⟩, ⟨.program [1, 11], {}⟩]
  root := 12
  revision := 1

theorem Tree.ofJson_programCall : ofJson .programCall = .ok call :=
  rfl

theorem Store.sound_call : Store.Sound { tree := .call } :=
  (Tree.fresh_ofJson Json.finite_programCall Tree.ofJson_programCall).sound

def Tree.argumentSlot (t : Tree) (i : Nat) : Path :=
  (Path.ofNode t.root).get t
    [.field .body, .index 1, .field .expression, .field .arguments, .index i]

theorem Tree.live_argumentSlot (t : Tree) (i : Nat) : (t.argumentSlot i).Live t :=
  (Path.live_ofNode t).get _

namespace FoldState

/-- The second argument has become `!null`. -/
def callBranch : FoldState where
  tree := Tree.call.setNode 10 (.callExpression 2 [4, 7])
  stats := Stats.record {} .conditionalExpr

theorem branch_run (stats : Stats) :
    Rule.conditionalExpr.apply (Tree.call.argumentSlot 1) { tree := .call, stats } =
      .ok (some ((Tree.call.argumentSlot 1).withValue (.node 7))) { callBranch with stats } :=
  FoldM.foldConditional_run (s := { tree := .call, stats }) rfl
    (Store.sound_call.value?_literal (show Tree.call.node 5 = .literal (.bool true) from rfl)) rfl

end FoldState

theorem Options.converges_silent_programCall :
    ∃ t, Tree.ofJson .programCall = .ok t ∧
      ∃ s, Options.Converges { maxRounds := 64 } 64 { tree := t } s ∧ 0 < s.stats.changes ∧
        t.fold { maxRounds := 64 } = .ok (s.tree, s.stats) ∧
        ∀ pass ∈ ({ maxRounds := 64 } : Options).passes, pass.run s = .ok () s := by
  obtain ⟨s, h⟩ := Options.converges_of_weight { maxRounds := 64 } (s := { tree := .call })
    Store.sound_call (show _ < 64 by decide)
  obtain ⟨hfold, hsilent, hpasses, -⟩ := h.silent Json.finite_programCall Tree.ofJson_programCall
  refine ⟨_, Tree.ofJson_programCall, s, h, ?_, hfold, hpasses⟩
  obtain ⟨_, s', hrun, hfolds⟩ :=
    Options.rounds_ensures { maxRounds := 64 } 64 (s := { tree := .call }) Store.sound_call
  obtain rfl : s' = s := by
    cases hrun.symm.trans h.rounds_eq
    rfl
  rcases hfolds.changes_lt Store.sound_call with ⟨hsame, -⟩ | hlt
  · -- nothing fired, but the rule on conditional expressions does
    obtain ⟨store, stats⟩ := s'
    obtain rfl : store = { tree := .call } := hsame
    have hnone := hsilent .expressions (by decide) .conditionalExpr (by decide)
      (Tree.call.argumentSlot 1) (Tree.live_argumentSlot _ 1) rfl
      (show ¬ Rule.inFrozenNode Tree.call (Tree.call.argumentSlot 1) from by decide)
    rw [FoldState.branch_run] at hnone
    cases hnone
  · exact hlt

end ScriptFold

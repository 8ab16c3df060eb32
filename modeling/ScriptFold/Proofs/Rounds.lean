import ScriptFold.Proofs.Walk

/-!
Folding of a sound program ends and does not fail, whatever the settings.
-/

namespace ScriptFold

open Store

namespace Rule

variable {s : FoldState} {p : Path} {owner id : NodeId}

/-- A rule as a stage that applies it in a given way. -/
def stageWith (apply : Rule → Path → FoldM (Option Path)) (rule : Rule) :
    Stage FoldError FoldState where
  inward path next := do
    if path.node?.isNone || inFrozenNode (← getTree) path then next path
    else
      match ← apply rule path with
      | none => next path
      | some retry =>
        modify fun s => { s with stats := s.stats.record rule }
        return .retry retry

variable (apply : Rule → Path → FoldM (Option Path))

theorem outwardAll_stages (rules : List Rule) (p : Path) (next : Next FoldError FoldState) :
    Stage.outwardAll (rules.map (stageWith apply)) p next = next p := by
  induction rules generalizing p next with
  | nil => rfl
  | cons rule rules ih => exact ih p _

theorem inward_skip (rule : Rule) {next : Next FoldError FoldState}
    (h : p.node?.isNone || inFrozenNode s.tree p) :
    (rule.stageWith apply).inward p next s = next p s := by
  change (if p.node?.isNone || inFrozenNode s.tree p then next p else _) s = _
  rw [if_pos h]

theorem inwardAll_skip (rules : List Rule) {next : Next FoldError FoldState}
    (h : p.node?.isNone || inFrozenNode s.tree p) :
    Stage.inwardAll (rules.map (stageWith apply)) p next s = next p s := by
  induction rules with
  | nil => rfl
  | cons rule rules ih =>
    rw [List.map_cons, Stage.inwardAll, inward_skip apply rule h]
    exact ih

theorem inward_ensures (rule : Rule) {next : Next FoldError FoldState} {Q : Command → FoldState → Prop}
    (h : ¬ (p.node?.isNone || inFrozenNode s.tree p))
    (happly : Ensures (rule.apply p) s fun retry s' => match retry with
      | none => Ensures (next p) s' Q
      | some q => Q (.retry q) { s' with stats := s'.stats.record rule }) :
    Ensures (rule.stage.inward p next) s Q := by
  unfold stage
  refine .read (FoldM.getTree_run s) ?_
  rw [if_neg h]
  refine happly.bind fun retry s' hs' => ?_
  cases retry with
  | none => exact hs'
  | some q => exact ⟨_, _, rfl, hs'⟩

theorem inwardAll_slot {rules : List Rule} (tried : List Rule) (hsub : tried ⊆ rules)
    (hp : p.Live s.tree) (h : s.Open p owner id) :
    Ensures (Stage.inwardAll (tried.map stage) p fun _ => return .proceed) s fun c s' =>
      Advances rules owner s s' ∧
        (if c.isRetry then p.load s'.tree < p.load s.tree else s' = s) ∧
        (s' = s → ∀ rule ∈ tried, rule.apply p s = .ok none s) := by
  induction tried with
  | nil => exact .pure ⟨.refl h.sound, rfl, fun _ => nofun⟩
  | cons rule tried ih =>
    have hfrozen : ¬ inFrozenNode s.tree p := by
      rw [h.leads.inFrozenNode hp]
      exact h.writable
    have hnode : p.node?.isSome := by
      rw [h.node?]
      rfl
    refine inward_ensures rule ?_ ?_
    · rw [h.node?]
      simpa using hfrozen
    obtain ⟨retry, s₁, hrun, hs₁, hr⟩ := rule.apply_ensures h
    refine ⟨retry, s₁, hrun, ?_⟩
    cases retry with
    | none =>
      obtain rfl : s₁ = s := hr
      refine (ih (List.subset_of_cons_subset hsub)).mono fun c s₂ ⟨hs₂, hc, hsilent⟩ =>
        ⟨hs₂, hc, fun hback => ?_⟩
      exact List.forall_mem_cons.mpr ⟨hrun, hsilent hback⟩
    | some q =>
      obtain ⟨hevolves, hlt⟩ := Fires.evolves h.sound h.leads hr.1
      have hmem : rule ∈ rules := hsub List.mem_cons_self
      refine ⟨⟨hevolves, .single (.intro hmem hp hnode hfrozen hrun)⟩, hlt, fun hback => ?_⟩
      have hsame : s₁.toStore = s.toStore := by rw [← hback]
      rw [hsame] at hlt
      exact absurd hlt (lt_irrefl _)

theorem inwardAll_root (rules : List Rule) (hs : s.Sound) :
    Ensures (Stage.inwardAll (rules.map stage) (.root (.node s.tree.root)) fun _ => return .proceed) s
      fun _ s' => s' = s := by
  induction rules with
  | nil => exact .pure rfl
  | cons rule rules ih =>
    refine inward_ensures rule (by simp [Path.node?, Path.value, Ref.node?, inFrozenNode, Path.owner?])
      ((rule.apply_root hs).mono fun retry s₁ ⟨hr, hs₁⟩ => ?_)
    subst hr hs₁
    exact ih

end Rule

section

variable (apply : Rule → Path → FoldM (Option Path))

def Pass.visitWith (pass : Pass) : Next FoldError FoldState := fun p =>
  Stage.inwardAll (.nodesOnly :: pass.rules.map (Rule.stageWith apply)) p fun _ => return .proceed

def Pass.runWith (pass : Pass) : FoldM Unit := do
  let stage := Stage.pipe (.depthFirst :: .nodesOnly :: pass.rules.map (Rule.stageWith apply))
  let _ ← stage.walk (.ofNode (← getTree).root)

theorem Pass.visitWith_of_none (pass : Pass) {p : Path} (h : p.node? = none) :
    pass.visitWith apply p = pure .proceed := by
  change (if p.node?.isSome then _ else pure .proceed : FoldM Command) = _
  rw [h]
  rfl

theorem Pass.runWith_eq (pass : Pass) (s : FoldState) : pass.runWith apply s = (do
    let _ ← descend (pass.visitWith apply) s.tree.walkFuel (.ofNode s.tree.root)) s := by
  have hout : ∀ p, Stage.outwardAll
      (.depthFirst :: .nodesOnly :: pass.rules.map (Rule.stageWith apply)) p
      (fun _ => return .proceed) = (return .proceed : FoldM Command) := fun p =>
    Rule.outwardAll_stages apply pass.rules p _
  unfold runWith Stage.walk Stage.walkWith Stage.pipe
  simp only [hout]
  rfl

end

/-- What a pass does at a path. -/
def Pass.visit (pass : Pass) : Next FoldError FoldState := fun p =>
  Stage.inwardAll (.nodesOnly :: pass.rules.map Rule.stage) p fun _ => return .proceed

theorem Pass.visit_of_node (pass : Pass) {p : Path} (h : p.node?.isSome) :
    pass.visit p = Stage.inwardAll (pass.rules.map Rule.stage) p fun _ => return .proceed := by
  change (if p.node?.isSome then _ else pure .proceed : FoldM Command) = _
  rw [if_pos h]

/-- The rules of a pass may be walked with. -/
theorem Pass.tame (pass : Pass) : Tame pass.rules pass.visit where
  plain {s p} h := by
    exact ⟨.proceed, s, congrFun (pass.visitWith_of_none Rule.apply h) s, rfl, rfl⟩
  root hs := Rule.inwardAll_root pass.rules hs
  frozen {s p owner id} hs hp hleads hf := by
    have hnode : p.node? = some id := by cases hleads <;> rfl
    refine ⟨.proceed, s, ?_, rfl, rfl⟩
    rw [pass.visit_of_node (by rw [hnode]; rfl)]
    refine Rule.inwardAll_skip Rule.apply pass.rules ?_
    rw [hnode, hleads.inFrozenNode hp, hf]
    rfl
  slot {s p owner id} hp h := by
    rw [pass.visit_of_node (by rw [h.node?]; rfl)]
    exact (Rule.inwardAll_slot pass.rules (List.Subset.refl _) hp h).mono
      fun c s' ⟨hs', hc, _⟩ => ⟨hs', hc⟩

theorem Tree.fuel_suffices (t : Tree) (h : t.WellFormed) : 30 * t.weight t.root ≤ t.walkFuel := by
  have hweight := weight_le_span h t.root
  unfold walkFuel
  dsimp only
  have hle : t.span t.root ≤ t.size + t.span t.root := Nat.le_add_left _ _
  generalize t.size + t.span t.root = n at hle
  have hsquare : 64 * (n + 16) * 16 ≤ 64 * (n + 16) * (n + 16) :=
    Nat.mul_le_mul_left _ (by omega)
  omega

/-- A walk of a whole program ends. If it changed nothing, it found nothing to change. -/
theorem Tame.descend_root {rules : List Rule} {next : Next FoldError FoldState}
    (h : Tame rules next) {s : FoldState} (hs : s.Sound) :
    Ensures (descend next s.tree.walkFuel (.ofNode s.tree.root)) s fun _ s' =>
      s.Reaches rules s' ∧ (s' = s → Quiet next s (.ofNode s.tree.root)) := by
  have hfuel := s.tree.fuel_suffices hs.wellFormed
  have hpos := Tree.weight_pos hs.wellFormed s.tree.root
  obtain ⟨fuel, hf⟩ : ∃ k, s.tree.walkFuel = k + 1 := ⟨s.tree.walkFuel - 1, by omega⟩
  rw [hf, descend_node (p := .ofNode s.tree.root) rfl]
  have hlive : (Path.ofNode s.tree.root).Live s.tree := rfl
  refine ((h.walks fuel).fields h hs hlive rfl (by omega)).bind fun _ s₁ ⟨hs₁, hquiet⟩ => ?_
  have hroot := h.root hs₁.sound
  rw [hs₁.root] at hroot
  refine hroot.mono fun _ s₂ hs₂ => ?_
  subst hs₂
  exact ⟨hs₁.reaches, fun hback => .of_fields rfl (fun hopen => nomatch hopen.leads) (hquiet hback)⟩

theorem Pass.silent_of_quiet (pass : Pass) {s : FoldState} (hs : s.Sound)
    (h : Quiet pass.visit s (.ofNode s.tree.root)) : s.Silent pass.rules := by
  intro rule hrule p hp hnode hfrozen
  rcases FoldState.open_of_live hs hp hnode hfrozen with rfl | ⟨owner, id, hopen⟩
  · obtain ⟨r, s₁, hrun, rfl, rfl⟩ := rule.apply_root hs
    exact hrun
  · obtain ⟨c, hvisit⟩ := h p owner id hp.above_root hp hopen
    rw [pass.visit_of_node hnode] at hvisit
    obtain ⟨c', s', hrun, -, -, hsilent⟩ :=
      Rule.inwardAll_slot pass.rules (List.Subset.refl _) hp hopen
    rw [hvisit] at hrun
    cases hrun
    exact hsilent rfl rule hrule

theorem Pass.run_eq (pass : Pass) (s : FoldState) : pass.run s = (do
    let _ ← descend pass.visit s.tree.walkFuel (.ofNode s.tree.root)) s :=
  pass.runWith_eq Rule.apply s

/-- A pass ends, without an error. If it changed nothing, none of its rules fires. -/
theorem Pass.run_ensures (pass : Pass) {s : FoldState} (hs : s.Sound) :
    Ensures pass.run s fun _ s' => s.Reaches pass.rules s' ∧ (s' = s → s.Silent pass.rules) := by
  unfold Ensures
  rw [pass.run_eq]
  refine (pass.tame.descend_root hs).bind fun _ s' ⟨hreach, hquiet⟩ =>
    .pure ⟨hreach, fun hback => ?_⟩
  exact pass.silent_of_quiet hs (hquiet hback)

/-- The walk of a pass comes to an end by itself, and not for want of fuel. -/
theorem Pass.run_ends (pass : Pass) {s : FoldState} (hs : s.Sound) :
    ∃ c s', (∀ fuel, s.tree.walkFuel ≤ fuel →
      descend pass.visit fuel (.ofNode s.tree.root) s = .ok c s') ∧ pass.run s = .ok () s' := by
  obtain ⟨c, s', hrun, -⟩ := pass.tame.descend_root hs
  refine ⟨c, s', fun fuel hfuel => descend_of_le hfuel _ _ _ _ hrun, ?_⟩
  rw [pass.run_eq]
  change EStateM.bind _ _ _ = _
  rw [EStateM.bind, hrun]
  rfl

theorem Pass.run_of_silent (pass : Pass) {s : FoldState} (hs : s.Sound)
    (h : s.Silent pass.rules) : pass.run s = .ok () s := by
  obtain ⟨_, s', hrun, hreach, -⟩ := pass.run_ensures hs
  rw [hrun, h.eq_of_reaches hreach]

namespace Options

def rules (options : Options) : List Rule :=
  options.passes.flatMap Pass.rules

theorem rules_subset {options : Options} {pass : Pass} (h : pass ∈ options.passes) :
    pass.rules ⊆ options.rules := fun _ hrule =>
  List.mem_flatMap.mpr ⟨pass, h, hrule⟩

/-- A run of rounds that ended because a round left the revision as it was. -/
inductive Converges (options : Options) : Nat → FoldState → FoldState → Prop
  | idle {limit s s'} : options.round s = .ok false s' → Converges options (limit + 1) s s'
  | busy {limit s s₁ s'} : options.round s = .ok true s₁ → Converges options limit s₁ s' →
    Converges options (limit + 1) s s'

variable {options : Options} {s s' : FoldState}

theorem Converges.rounds_eq {limit : Nat} (h : options.Converges limit s s') :
    options.rounds limit s = .ok () s' := by
  induction h with
  | idle hround => 
    rw [rounds]
    change EStateM.bind _ _ _ = _
    rw [EStateM.bind, hround]
    rfl
  | busy hround _ ih => 
    rw [rounds]
    change EStateM.bind _ _ _ = _
    rw [EStateM.bind, hround]
    exact ih

theorem passes_ensures {rules : List Rule} (passes : List Pass) (hs : s.Sound)
    (hsub : ∀ pass ∈ passes, pass.rules ⊆ rules) :
    Ensures (passes.forM Pass.run) s fun _ s' => s.Reaches rules s' ∧
      (s' = s → ∀ pass ∈ passes, s.Silent pass.rules) := by
  induction passes generalizing s with
  | nil => exact .pure ⟨.refl, fun _ => nofun⟩
  | cons pass passes ih =>
    obtain ⟨hpass, hrest⟩ := List.forall_mem_cons.mp hsub
    refine (pass.run_ensures hs).bind fun _ s₁ ⟨hreach, hsilent⟩ => ?_
    replace hreach := FoldState.Reaches.mono hpass hreach
    refine (ih (hreach.sound hs) hrest).mono fun _ s₂ ⟨hreach₂, hsilent₂⟩ =>
      ⟨hreach.trans hreach₂, fun hback => ?_⟩
    obtain rfl := hreach.eq_of_trans hs (hback ▸ hreach₂)
    exact List.forall_mem_cons.mpr ⟨hsilent rfl, hsilent₂ hback⟩

theorem round_ensures (options : Options) (hs : s.Sound) :
    Ensures options.round s fun changed s' => ∃ s₁, s.Reaches options.rules s₁ ∧
      s' = s₁.closeRound ∧ (if changed then s₁.tree.revision ≠ s.tree.revision
        else s₁ = s ∧ s.Silent options.rules) := by
  unfold round
  refine .read (FoldM.getTree_run s) ?_
  refine (passes_ensures options.passes hs fun _ => rules_subset).bind fun _ s₁ ⟨hreach, hsilent⟩ => ?_
  refine Ensures.bind (Q := fun _ s' => s' = s₁.closeRound) ⟨_, _, rfl, rfl⟩ fun _ s₂ hs₂ => ?_
  subst hs₂
  refine .read (FoldM.getTree_run _) (.pure ⟨s₁, hreach, rfl, ?_⟩)
  split <;> rename_i hchanged
  · exact of_decide_eq_true hchanged
  · have heq : s₁.tree.revision = s.tree.revision :=
      of_not_not fun hne => hchanged (decide_eq_true hne)
    obtain rfl := hreach.eq_of_revision hs heq
    refine ⟨rfl, fun rule hrule => ?_⟩
    obtain ⟨pass, hpass, hmem⟩ := List.mem_flatMap.mp hrule
    exact hsilent rfl pass hpass rule hmem

theorem rounds_ensures (options : Options) (limit : Nat) (hs : s.Sound) :
    Ensures (options.rounds limit) s fun _ s' => s.Folds options.rules s' := by
  induction limit generalizing s with
  | zero => exact .pure .refl
  | succ limit ih =>
    rw [rounds]
    refine (options.round_ensures hs).bind fun changed _ ⟨s₁, hreach, hs', _⟩ => ?_
    subst hs'
    have hround : s.Folds options.rules s₁.closeRound := .round hreach.folds
    cases changed with
    | true => exact (ih (hround.sound hs)).mono fun _ s' hs' => hround.trans hs'
    | false => exact .pure hround

end Options

/-- Folding of a sound program ends, and gives the program that rounds of rules lead to. -/
theorem Tree.fold_folds {t : Tree} (h : Store.Sound { tree := t }) (options : Options) :
    ∃ s, t.fold options = .ok (s.tree, s.stats) ∧
      FoldState.Folds options.rules { tree := t } s := by
  obtain ⟨_, s, hrun, hfolds⟩ := options.rounds_ensures options.maxRounds (s := { tree := t }) h
  refine ⟨s, ?_, hfolds⟩
  unfold fold
  rw [EStateM.run, hrun]

theorem Tree.fold_ok {t : Tree} (h : Store.Sound { tree := t }) (options : Options) :
    ∃ r, t.fold options = .ok r := by
  obtain ⟨s, hfold, -⟩ := fold_folds h options
  exact ⟨_, hfold⟩

end ScriptFold

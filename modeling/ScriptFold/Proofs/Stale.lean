import ScriptFold.Proofs.Import

/-!
No rule meets a stale path. Folding may be run with checks: every path is compared with the tree,
step by step, when a rule is handed it and when a rule asks for another walk of it, and the first one
that is not true any more ends the run. A run with checks ends as the run without them.
-/

namespace ScriptFold

open Store

namespace Path

instance decidableLive (t : Tree) : (p : Path) → Decidable (p.Live t)
  | .root value => inferInstanceAs (Decidable (value = .node t.root))
  | .child parent key value =>
    have := decidableLive t parent
    inferInstanceAs (Decidable (parent.Live t ∧ value = t.read parent.value key))

/-- The slot of a path is a position past the end of its list. -/
def PastEnd (t : Tree) : Path → Prop
  | .child list (.index i) _ => list.isList ∧ (t.listLength? list.value).getD 0 ≤ i
  | _ => False

instance (t : Tree) (p : Path) : Decidable (p.PastEnd t) := by
  unfold PastEnd
  split <;> infer_instance

/-- A path is true, and finds nothing if its slot is past the end of a list. -/
def Current (t : Tree) (p : Path) : Prop :=
  p.Live t ∧ (p.PastEnd t → p.value = .null)

instance (t : Tree) (p : Path) : Decidable (p.Current t) :=
  inferInstanceAs (Decidable (_ ∧ _))

variable {t : Tree} {p : Path}

theorem Live.current (h : p.Live t) : p.Current t := by
  refine ⟨h, fun hend => ?_⟩
  unfold PastEnd at hend
  split at hend
  · obtain ⟨-, hlength⟩ := hend
    obtain ⟨-, rfl⟩ := h
    exact Tree.read_of_length_le hlength
  · exact hend.elim

end Path

def FoldM.require (condition : Bool) : FoldM Unit :=
  unless condition do throw (.error (.tree .detached))

namespace Rule

/-- Applies a rule, with checks of the path that it is handed and of the one that it gives. -/
def applyChecked (rule : Rule) (p : Path) : FoldM (Option Path) := do
  FoldM.require (decide (p.Live (← getTree)))
  let retry ← rule.apply p
  let tree ← getTree
  FoldM.require (retry.all fun q => decide (q.Current tree))
  return retry

end Rule

section

variable (apply : Rule → Path → FoldM (Option Path))

def Options.roundWith (options : Options) : FoldM Bool := do
  let before := (← getTree).revision
  options.passes.forM (Pass.runWith apply)
  modify fun s => { s with stats := { s.stats with rounds := s.stats.rounds + 1 } }
  return (← getTree).revision ≠ before

def Options.roundsWith (options : Options) : Nat → FoldM Unit
  | 0 => return
  | limit + 1 => do
    if ← options.roundWith apply then options.roundsWith limit

end

variable {apply apply' : Rule → Path → FoldM (Option Path)}

theorem Options.roundsWith_apply (options : Options) (limit : Nat) :
    options.roundsWith Rule.apply limit = options.rounds limit := by
  induction limit with
  | zero => rfl
  | succ limit ih =>
    rw [roundsWith, rounds, ih]
    rfl

section Extends

/-- A way to apply rules that answers less makes a run that answers less. -/
theorem Rule.inwardAll_extends (h : ∀ rule p, Extends (apply rule p) (apply' rule p))
    (rules : List Rule) (p : Path) {next : Next FoldError FoldState} :
    Extends (Stage.inwardAll (rules.map (stageWith apply)) p next)
      (Stage.inwardAll (rules.map (stageWith apply')) p next) := by
  induction rules with
  | nil => exact .refl _
  | cons rule rules ih =>
    refine Extends.bind (.refl _) fun t => ?_
    split
    · exact ih
    · refine (h rule p).bind fun retry => ?_
      cases retry with
      | none => exact ih
      | some q => exact .refl _

theorem Pass.visitWith_extends (h : ∀ rule p, Extends (apply rule p) (apply' rule p)) (pass : Pass)
    (p : Path) : Extends (pass.visitWith apply p) (pass.visitWith apply' p) := by
  unfold visitWith
  rw [Stage.inwardAll, Stage.inwardAll]
  unfold Stage.nodesOnly
  dsimp only
  split
  · exact Rule.inwardAll_extends h _ _
  · exact .refl _

theorem Pass.runWith_extends (h : ∀ rule p, Extends (apply rule p) (apply' rule p)) (pass : Pass) :
    Extends (pass.runWith apply) (pass.runWith apply') := by
  intro s a s' hrun
  rw [runWith_eq] at hrun ⊢
  generalize s.tree.walkFuel = fuel at hrun ⊢
  have hwalk := (descend_extends (pass.visitWith_extends h) fuel 0).1 (.ofNode s.tree.root)
  exact hwalk.bind (fun _ => .refl _) s a s' hrun

theorem Options.roundWith_extends (h : ∀ rule p, Extends (apply rule p) (apply' rule p))
    (options : Options) : Extends (options.roundWith apply) (options.roundWith apply') := by
  unfold roundWith
  refine Extends.bind (.refl _) fun tree => ?_
  dsimp only
  refine Extends.bind ?_ fun _ => .refl _
  exact Extends.forM (fun pass => pass.runWith_extends h) _

theorem Options.roundsWith_extends (h : ∀ rule p, Extends (apply rule p) (apply' rule p))
    (options : Options) (limit : Nat) :
    Extends (options.roundsWith apply limit) (options.roundsWith apply' limit) := by
  induction limit with
  | zero =>
    rw [roundsWith, roundsWith]
    exact .refl _
  | succ limit ih =>
    rw [roundsWith, roundsWith]
    refine (options.roundWith_extends h).bind fun changed => ?_
    split
    · exact ih
    · exact .refl _

end Extends

namespace FoldM

theorem require_run (s : FoldState) : require true s = .ok () s := rfl

theorem require_ok {condition : Bool} {s s' : FoldState} {u : Unit}
    (h : require condition s = .ok u s') : condition = true ∧ s' = s := by
  unfold require at h
  cases condition with
  | true =>
    cases h
    exact ⟨rfl, rfl⟩
  | false => cases h

end FoldM

namespace Rule

variable {s s' : FoldState} {p : Path} {rule : Rule} {retry : Option Path}

/-- A rule with checks answers as the rule does, where the path is true and so is the one it gives. -/
theorem applyChecked_ok : rule.applyChecked p s = .ok retry s' ↔
    p.Live s.tree ∧ rule.apply p s = .ok retry s' ∧ ∀ q ∈ retry, q.Current s'.tree := by
  unfold applyChecked
  constructor
  · intro h
    obtain ⟨tree, s₁, htree, h₁⟩ := exists_run_of_bind h
    obtain ⟨u, s₂, hrequire, h₂⟩ := exists_run_of_bind h₁
    obtain ⟨retry', s₃, happly, h₃⟩ := exists_run_of_bind h₂
    obtain ⟨tree', s₄, htree', h₄⟩ := exists_run_of_bind h₃
    obtain ⟨u', s₅, hrequire', h₅⟩ := exists_run_of_bind h₄
    cases htree
    cases htree'
    obtain ⟨hp, rfl⟩ := FoldM.require_ok hrequire
    obtain ⟨hretry, rfl⟩ := FoldM.require_ok hrequire'
    obtain ⟨rfl, rfl⟩ := EStateM.Result.ok.inj h₅
    rw [Option.all_eq_true] at hretry
    exact ⟨of_decide_eq_true hp, happly, fun q hq => of_decide_eq_true (hretry q hq)⟩
  · rintro ⟨hp, happly, hretry⟩
    have hcurrent : (retry.all fun q => decide (q.Current s'.tree)) = true := by
      rw [Option.all_eq_true]
      exact fun q hq => decide_eq_true (hretry q hq)
    have hanswer : Ensures (rule.apply p) s fun r s₁ => r = retry ∧ s₁ = s' :=
      ⟨retry, s', happly, rfl, rfl⟩
    refine Ensures.run_eq (.read (FoldM.getTree_run s) ?_)
    rw [decide_eq_true hp]
    refine .read (FoldM.require_run s) (hanswer.bind fun r s₁ ⟨hr, hs₁⟩ => ?_)
    subst hr hs₁
    refine .read (FoldM.getTree_run s₁) ?_
    rw [hcurrent]
    exact .read (FoldM.require_run s₁) (.pure ⟨rfl, rfl⟩)

/-- At a slot that rules are applied to, a rule that leaves the tree alone leaves everything alone, and
one that asks for another walk gives a path that is true of the tree it made. -/
theorem apply_live (hs : s.Sound) (hp : p.Live s.tree) (hnode : p.node?.isSome)
    (hfrozen : ¬ inFrozenNode s.tree p) (rule : Rule) :
    Ensures (rule.apply p) s fun retry s' => (retry = none → s' = s) ∧
      ∀ q ∈ retry, q.Live s'.tree := by
  rcases FoldState.open_of_live hs hp hnode hfrozen with rfl | ⟨owner, id, hopen⟩
  · refine (rule.apply_root hs).mono fun retry s' ⟨hretry, hs'⟩ => ⟨fun _ => hs', ?_⟩
    rw [hretry]
    exact fun q hq => by cases hq
  · refine (rule.apply_ensures hopen).mono fun retry s' ⟨hs', hr⟩ => ?_
    cases retry with
    | none => exact ⟨fun _ => hr, fun q hq => by cases hq⟩
    | some q =>
      obtain ⟨hfires, rfl⟩ := hr
      refine ⟨fun hnone => (by cases hnone), fun q hq => ?_⟩
      obtain rfl := Option.some.inj hq
      -- the slot is read anew, and nothing above it has changed
      cases p with
      | root value => cases hopen.leads
      | child parent key value =>
        obtain ⟨hevolves, -⟩ := Fires.evolves hs hopen.leads hfires
        exact ⟨hevolves.live hp.1 hopen.leads.owner? .refl, rfl⟩

theorem inward_of_apply {next : Next FoldError FoldState}
    (h : ¬ (p.node?.isNone || inFrozenNode s.tree p))
    (happly : apply rule p s = .ok retry s') :
    (rule.stageWith apply).inward p next s = retry.elim (next p) (fun q => do
      modify fun s => { s with stats := s.stats.record rule }
      return .retry q) s' := by
  change (if p.node?.isNone || inFrozenNode s.tree p then next p else _) s = _
  rw [if_neg h]
  change EStateM.bind _ _ s = _
  rw [EStateM.bind, happly]
  cases retry <;> rfl

theorem inwardAll_checked (hs : s.Sound) (hp : p.Live s.tree) (rules : List Rule)
    {next : Next FoldError FoldState} :
    Stage.inwardAll (rules.map (stageWith applyChecked)) p next s =
      Stage.inwardAll (rules.map (stageWith Rule.apply)) p next s := by
  induction rules with
  | nil => rfl
  | cons rule rules ih =>
    rw [List.map_cons, List.map_cons, Stage.inwardAll, Stage.inwardAll]
    by_cases hskip : p.node?.isNone || inFrozenNode s.tree p
    · rw [inward_skip _ rule hskip, inward_skip _ rule hskip]
      exact ih
    · obtain ⟨hnode, hfrozen⟩ : p.node?.isSome ∧ ¬ inFrozenNode s.tree p := by
        simpa [Option.isNone_iff_eq_none, Option.isSome_iff_ne_none] using hskip
      obtain ⟨retry, s', happly, hsame, hlive⟩ := rule.apply_live hs hp hnode hfrozen
      have hchecked := applyChecked_ok.mpr ⟨hp, happly, fun q hq => (hlive q hq).current⟩
      rw [inward_of_apply hskip hchecked, inward_of_apply hskip happly]
      cases retry with
      | none =>
        obtain rfl := hsame rfl
        exact ih
      | some q => rfl

end Rule

namespace Pass

variable {s : FoldState} {p : Path}

theorem visit_checked (pass : Pass) (hs : s.Sound) (hp : p.Live s.tree) :
    pass.visitWith Rule.applyChecked p s = pass.visit p s := by
  change (if p.node?.isSome then _ else pure .proceed : FoldM Command) s =
    (if p.node?.isSome then _ else pure .proceed : FoldM Command) s
  split
  · exact Rule.inwardAll_checked hs hp pass.rules
  · rfl

theorem tame_checked (pass : Pass) : Tame pass.rules (pass.visitWith Rule.applyChecked) where
  plain {s p} h := by
    rw [pass.visitWith_of_none _ h]
    exact .pure ⟨rfl, rfl⟩
  root {s} hs := by
    refine (pass.tame.root hs).congr (pass.visit_checked hs ?_)
    rfl
  frozen hs hp hleads hf := (pass.tame.frozen hs hp hleads hf).congr (pass.visit_checked hs hp)
  slot hp hopen := (pass.tame.slot hp hopen).congr (pass.visit_checked hopen.sound hp)

theorem runWith_checked (pass : Pass) (hs : s.Sound) :
    Ensures (pass.runWith Rule.applyChecked) s fun _ s' => s'.Sound := by
  refine Ensures.congr ?_ (pass.runWith_eq _ s)
  exact (pass.tame_checked.descend_root hs).bind fun _ s' ⟨hreach, _⟩ => .pure (hreach.sound hs)

end Pass

namespace Options

variable {s : FoldState}

theorem roundWith_checked (options : Options) (hs : s.Sound) :
    Ensures (options.roundWith Rule.applyChecked) s fun _ s' => s'.Sound := by
  unfold roundWith
  refine .read (FoldM.getTree_run s) ?_
  have hpasses : Ensures (options.passes.forM (Pass.runWith Rule.applyChecked)) s fun _ s' =>
      s'.Sound := .forM (P := fun s : FoldState => s.Sound) hs fun pass _ _ hs' =>
    pass.runWith_checked hs'
  exact hpasses.bind fun _ s₁ hs₁ => ⟨_, _, rfl, hs₁⟩

theorem roundsWith_checked (options : Options) (limit : Nat) (hs : s.Sound) :
    Ensures (options.roundsWith Rule.applyChecked limit) s fun _ s' => s'.Sound := by
  induction limit generalizing s with
  | zero => exact .pure hs
  | succ limit ih =>
    rw [roundsWith]
    refine (options.roundWith_checked hs).bind fun changed s₁ hs₁ => ?_
    split
    · exact ih hs₁
    · exact .pure hs₁

end Options

/-- The program `;`. Its only statement goes, and the path that is walked again is past the end of the
list. -/
def Json.programNothing : Json :=
  .obj [("type", .str "Program"), ("body", .arr [.obj [("type", .str "EmptyStatement")]])]

theorem Json.finite_programNothing : programNothing.Finite := by
  simp [programNothing, Json.Finite, Json.FiniteMembers, Json.FiniteItems]

/-- Folding a program with checks ends as folding it without: whenever a rule is handed a path, and
whenever it asks for another walk, the path is true from the program down, and finds nothing past the
end of a list. -/
theorem Tree.checked_ofJson {json : Json} {t : Tree} (hj : json.Finite) (ht : ofJson json = .ok t)
    (options : Options) (limit : Nat) : ∃ s, options.rounds limit { tree := t } = .ok () s ∧
      options.roundsWith Rule.applyChecked limit { tree := t } = .ok () s := by
  have hs : Store.Sound { tree := t } := (fresh_ofJson hj ht).sound
  obtain ⟨_, s, hchecked, -⟩ := options.roundsWith_checked limit (s := { tree := t }) hs
  refine ⟨s, ?_, hchecked⟩
  rw [← options.roundsWith_apply]
  refine options.roundsWith_extends (fun rule p s retry s' h => ?_) limit _ _ _ hchecked
  exact (Rule.applyChecked_ok.mp h).2.1

theorem Tree.checked_ofJson_programNothing : ∃ t, ofJson .programNothing = .ok t ∧ ∃ s,
    Options.rounds {} 16 { tree := t } = .ok () s ∧
      Options.roundsWith Rule.applyChecked {} 16 { tree := t } = .ok () s :=
  ⟨_, rfl, checked_ofJson Json.finite_programNothing rfl {} 16⟩

end ScriptFold

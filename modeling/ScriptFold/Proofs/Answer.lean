import ScriptFold.Proofs.Stale

/-!
The answer of a rule tells whether it changed the tree. A walk asks for another look at a slot only
where a rule answers with a path, and a round is the last if the revision stands: neither a change
that goes unreported nor a report without one may come of any rule, in any state of a run.
-/

namespace ScriptFold

variable {s : FoldState} {p : Path}

open FoldM in
theorem Rule.apply_plain (hp : p.node? = none) (rule : Rule) (s : FoldState) :
    Ensures (rule.apply p) s fun retry s' => retry = none ∧ s' = s := by
  have hat : s.tree.nodeAt? p = none := by
    unfold Tree.nodeAt?
    rw [hp]
    rfl
  cases rule with
  | unreachableTail | expressionStatements | conditionalExpr | logicalExpr | emptyStatements
    | ifStatement | loops =>
    simp only [apply, dropUnreachable, foldExpressionStatement, foldConditional, foldLogical,
      dropEmptyStatement, foldIf, foldLoop]
    refine .read (getTree_run s) ?_
    rw [hat]
    exact .pure ⟨rfl, rfl⟩
  | binaryExpr | memberExpr | booleanLiterals =>
    simp only [apply, foldBinary, foldMember, minifyBoolean, hp]
    exact ⟨none, s, rfl, rfl, rfl⟩
  | sequenceExpr | unaryExpr =>
    simp only [apply, foldSequence, foldUnary, hp]
    exact ⟨none, s, rfl, rfl, rfl⟩

namespace FoldState

/-- A rule answers with a path exactly if it has changed the tree; if not, it has changed nothing. -/
def Answers (s : FoldState) (retry : Option Path) (s' : FoldState) : Prop :=
  (retry.isSome ↔ s.tree.revision < s'.tree.revision) ∧ (retry = none → s' = s)

theorem Answers.none (s : FoldState) : s.Answers none s :=
  ⟨by simp, fun _ => rfl⟩

theorem Answers.some (s : FoldState) (q : Path) {s' : FoldState}
    (h : s.tree.revision < s'.tree.revision) : s.Answers (some q) s' :=
  ⟨by simp [h], fun hq => by cases hq⟩

end FoldState

/-- Wherever a path that is still true leads, but for slots of frozen nodes, no rule fails, and its
answer tells whether it has changed the tree. -/
theorem Rule.apply_answers (h : s.Sound) (hp : p.Live s.tree) (hf : ¬ inFrozenNode s.tree p)
    (rule : Rule) : Ensures (rule.apply p) s s.Answers := by
  cases hnode : p.node? with
  | none =>
    refine (rule.apply_plain hnode s).mono fun retry s' hr => ?_
    obtain ⟨rfl, rfl⟩ := hr
    exact .none s'
  | some id =>
    rcases FoldState.open_of_live h hp (by rw [hnode]; rfl) hf with rfl | ⟨owner, a, hopen⟩
    · refine (rule.apply_root h).mono fun retry s' hr => ?_
      obtain ⟨rfl, rfl⟩ := hr
      exact .none s'
    · refine (rule.apply_ensures hopen).mono fun retry s' ho => ?_
      cases retry with
      | none =>
        obtain rfl : s' = s := ho.2
        exact .none s'
      | some q => exact .some s q (ho.2.1.progress h hp hopen.leads).1

/-- In every state of a run over a program that was read, and for every path that is still true and
leads to no slot of a frozen node, a rule succeeds, and answers with a path exactly if it has changed
the tree: without an answer it has changed nothing, neither nodes nor flags nor counts. -/
theorem Tree.answers_ofJson {json : Json} {t : Tree} (hj : json.Finite) (ht : ofJson json = .ok t) :
    (∀ rules s, FoldState.Folds rules { tree := t } s → ∀ (rule : Rule) (p : Path), p.Live s.tree →
      ¬ Rule.inFrozenNode s.tree p → ∃ retry s', rule.apply p s = .ok retry s' ∧
        s.Answers retry s') ∧
    ∀ options : Options, ∀ limit, ∃ s, options.rounds limit { tree := t } = .ok () s ∧
      FoldState.Folds options.rules { tree := t } s := by
  have hs : Store.Sound { tree := t } := (fresh_ofJson hj ht).sound
  refine ⟨fun rules s hr rule p hp hf => Rule.apply_answers (hr.sound hs) hp hf rule,
    fun options limit => ?_⟩
  obtain ⟨_, s, hrun, hfolds⟩ := options.rounds_ensures limit (s := { tree := t }) hs
  exact ⟨s, hrun, hfolds⟩

theorem Tree.answers_ofJson_programNothing : ∃ t, ofJson .programNothing = .ok t ∧ ∃ retry s',
    Rule.emptyStatements.apply ((Path.ofNode t.root).get t [.field .body, .index 0])
      { tree := t } = .ok (some retry) s' ∧ t.revision < s'.tree.revision := by
  refine ⟨_, rfl, ?_⟩
  obtain ⟨retry, s', hrun, hchanged, -⟩ := (answers_ofJson Json.finite_programNothing rfl).1 [] _
    .refl .emptyStatements ((Path.ofNode _).get _ [.field .body, .index 0])
    ⟨⟨rfl, rfl⟩, rfl⟩ (by decide)
  refine ⟨_, _, rfl, ?_⟩
  cases hrun
  exact hchanged.mp rfl

end ScriptFold

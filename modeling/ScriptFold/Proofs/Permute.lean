import ScriptFold.Proofs.Answer
import ScriptFold.Proofs.Failure
import ScriptFold.Proofs.Nesting

/-!
The order of the rules in a pass does not matter. No kind of node is looked at by two rules of one pass:
where one of them acts, the others leave everything as it is, and they still do after it has looked in
vain.
-/

namespace ScriptFold

namespace Rule

variable {rule a b : Rule} {p : Path} {s s' : FoldState} {id : NodeId}

open FoldM in
theorem dropEmptyStatement_of_none (h : dropEmptyStatement p s = .ok none s') : s' = s := by
  have hends : Ends (dropEmptyStatement p) s (fun retry s' => retry = none → s' = s)
      fun _ => True := by
    unfold dropEmptyStatement
    refine .read rfl ?_
    split
    · split
      · exact Ends.bind (.always _ s) fun q s₁ _ => .pure fun h => by cases h
      · exact .pure fun _ => rfl
    · exact .pure fun _ => rfl
  exact hends.of_ok h rfl

/-- A rule that looks at a node in vain leaves it a node of its kind. -/
theorem kind_of_none (hne : rule ≠ .booleanLiterals) (hid : p.node? = some id)
    (h : rule.apply p s = .ok none s') : (s'.tree.node id).kind = (s.tree.node id).kind := by
  by_cases hsize : id < s.tree.size
  · exact congrArg Node.kind (((rule.apply_ends p s).of_ok h rfl).tree.node hsize)
  · -- where there is no node, an empty statement is read
    have hempty : (s.tree.node id).kind = .emptyStatement := by
      rw [Tree.node_of_size_le (Nat.le_of_not_lt hsize)]
      rfl
    suffices hsame : s' = s by rw [hsame]
    by_cases hmem : (s.tree.node id).kind ∈ rule.kinds
    · rw [hempty] at hmem
      cases rule with
      | emptyStatements => exact dropEmptyStatement_of_none h
      | booleanLiterals => exact absurd rfl hne
      | _ => simp [kinds] at hmem
    · rw [apply_of_kind hid hmem] at h
      cases h
      rfl

theorem inward_of_kind {next : Next FoldError FoldState}
    (h : ∀ id, p.node? = some id → (s.tree.node id).kind ∉ rule.kinds) :
    rule.stage.inward p next s = next p s := by
  by_cases hskip : p.node?.isNone || inFrozenNode s.tree p
  · exact inward_skip Rule.apply rule hskip
  · cases hid : p.node? with
    | none =>
      rw [hid] at hskip
      exact absurd rfl hskip
    | some id => exact inward_of_apply hskip (apply_of_kind hid (h id hid))

theorem inward_of_error {next : Next FoldError FoldState} {e : Halt FoldError}
    (h : ¬ (p.node?.isNone || inFrozenNode s.tree p)) (happly : rule.apply p s = .error e s') :
    rule.stage.inward p next s = .error e s' := by
  change (if p.node?.isNone || inFrozenNode s.tree p then next p else _) s = _
  rw [if_neg h]
  change EStateM.bind _ _ s = _
  rw [EStateM.bind, happly]

/-- Two stages do not answer differently if what comes after them does so nowhere where the rule has
looked in vain. -/
theorem inward_congr {next next' : Next FoldError FoldState} (hskip : next p s = next' p s)
    (hnone : ∀ s', rule.apply p s = .ok none s' → next p s' = next' p s') :
    rule.stage.inward p next s = rule.stage.inward p next' s := by
  by_cases h : p.node?.isNone || inFrozenNode s.tree p
  · exact (inward_skip Rule.apply rule h).trans (hskip.trans (inward_skip Rule.apply rule h).symm)
  · cases happly : rule.apply p s with
    | error e s' => rw [inward_of_error h happly, inward_of_error h happly]
    | ok retry s' =>
      refine (inward_of_apply h happly).trans (Eq.trans ?_ (inward_of_apply h happly).symm)
      cases retry with
      | none => exact hnone s' happly
      | some q => rfl

/-- Where one of two rules has no business, it does not matter which comes first. -/
theorem inward_swap (hb : b ≠ .booleanLiterals) {next : Next FoldError FoldState}
    (h : ∀ id, p.node? = some id → (s.tree.node id).kind ∉ a.kinds) :
    a.stage.inward p (fun q => b.stage.inward q next) s =
      b.stage.inward p (fun q => a.stage.inward q next) s := by
  rw [inward_of_kind h]
  refine inward_congr (inward_of_kind h).symm fun s' happly => (inward_of_kind fun id hid => ?_).symm
  rw [kind_of_none hb hid happly]
  exact h id hid

/-- No kind of node is looked at by both of two rules. -/
def Separate (a b : Rule) : Prop :=
  a.kinds.Disjoint b.kinds

theorem Separate.symm (h : a.Separate b) : b.Separate a :=
  List.Disjoint.symm h

theorem Separate.ne_booleanLiterals (h : a.Separate b) : b ≠ .booleanLiterals := by
  rintro rfl
  obtain ⟨k, hk⟩ : ∃ k, k ∈ a.kinds := List.exists_mem_of_ne_nil _ (by cases a <;> decide)
  exact h hk (LawfulVocabulary.mem_all k)

theorem inward_comm (h : a.Separate b) (p : Path) (next : Next FoldError FoldState) (s : FoldState) :
    a.stage.inward p (fun q => b.stage.inward q next) s =
      b.stage.inward p (fun q => a.stage.inward q next) s := by
  by_cases ha : ∀ id, p.node? = some id → (s.tree.node id).kind ∉ a.kinds
  · exact inward_swap h.ne_booleanLiterals ha
  · refine (inward_swap h.symm.ne_booleanLiterals fun id hid hb => ha fun id' hid' ha => ?_).symm
    rw [hid] at hid'
    cases hid'
    exact h ha hb

theorem inwardAll_perm {rules order : List Rule} (h : order.Perm rules)
    (hseparate : order.Pairwise Separate) : Stage.inwardAll (order.map stage) =
      Stage.inwardAll (rules.map stage) := by
  induction h with
  | nil => rfl
  | cons rule _ ih =>
    rw [List.map_cons, List.map_cons]
    funext p next
    rw [Stage.inwardAll, Stage.inwardAll, ih (List.pairwise_cons.mp hseparate).2]
  | swap a b rest =>
    rw [List.map_cons, List.map_cons, List.map_cons, List.map_cons]
    funext p next s
    have hba : b.Separate a := (List.pairwise_cons.mp hseparate).1 a List.mem_cons_self
    exact inward_comm hba p (fun q => Stage.inwardAll (rest.map stage) q next) s
  | trans hleft _ ihl ihr =>
    exact (ihl hseparate).trans (ihr (hleft.pairwise hseparate fun h => h.symm))

end Rule

namespace Pass

/-- No two rules of a pass look at the same kind of nodes. -/
theorem pairwise_separate (pass : Pass) : pass.rules.Pairwise Rule.Separate := by
  cases pass <;> simp [rules, Rule.Separate, Rule.kinds, List.disjoint_left]

theorem stage_of_perm {pass : Pass} {order : List Rule} (h : order.Perm pass.rules) :
    Stage.pipe (.depthFirst :: .nodesOnly :: order.map Rule.stage) = pass.stage := by
  have hin := Rule.inwardAll_perm h (h.symm.pairwise pass.pairwise_separate fun h => h.symm)
  have hout : ∀ rules : List Rule, Stage.outwardAll (rules.map Rule.stage) = fun p next => next p :=
    fun rules => funext fun p => funext fun next => Rule.outwardAll_stages Rule.apply rules p next
  have hpipe : Stage.pipe (order.map Rule.stage) = Stage.pipe (pass.rules.map Rule.stage) := by
    rw [Stage.pipe, Stage.pipe, hin, hout, hout]
  rw [Pass.stage, Stage.pipe_cons, Stage.pipe_cons, hpipe]
  rfl

end Pass

/-- In every state of a run over a program that was read, the walk of a pass ends with the same answer
and in the same state, in whatever order its rules stand. -/
theorem Tree.order_ofJson {json : Json} {t : Tree} (hj : json.Finite) (ht : ofJson json = .ok t) :
    ∀ rules s, FoldState.Folds rules { tree := t } s → ∀ (pass : Pass) (order : List Rule),
      order.Perm pass.rules → ∃ answer s',
        (Stage.pipe (.depthFirst :: .nodesOnly :: order.map Rule.stage)).walk
          (.ofNode s.tree.root) s = .ok answer s' ∧
        pass.stage.walk (.ofNode s.tree.root) s = .ok answer s' := by
  intro rules s hs pass order horder
  have hsound : s.Sound := hs.sound (fresh_ofJson hj ht).sound
  obtain ⟨_, s₁, hrun, -⟩ := pass.run_ensures hsound
  obtain ⟨tree, s₂, htree, hrest⟩ := exists_run_of_bind hrun
  cases htree
  obtain ⟨answer, s', hwalk, -⟩ := exists_run_of_bind hrest
  refine ⟨answer, s', ?_, hwalk⟩
  rw [Pass.stage_of_perm horder]
  exact hwalk

theorem Tree.order_ofJson_programNothing : ∃ t, ofJson .programNothing = .ok t ∧ ∃ answer s',
    (Stage.pipe (.depthFirst :: .nodesOnly :: [Rule.loops, .ifStatement, .emptyStatements].map
      Rule.stage)).walk (.ofNode t.root) { tree := t } = .ok answer s' ∧
    Pass.statements.stage.walk (.ofNode t.root) { tree := t } = .ok answer s' :=
  ⟨_, rfl, order_ofJson Json.finite_programNothing rfl [] _ .refl .statements
    [.loops, .ifStatement, .emptyStatements] (by decide)⟩

end ScriptFold

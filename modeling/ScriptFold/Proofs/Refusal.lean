import ScriptFold.Fold.Rule
import ScriptFold.Proofs.Gains

/-!
Rules that make one edit, and make it last. What they do before is to look and to add nodes; if the edit is
refused, nothing else has been edited.
-/

namespace ScriptFold

/-- What a rule leaves behind if it fails: all that was in an earlier state is as it was. -/
abbrev Spares {α : Type} (s₀ : FoldState) (m : FoldM α) (s : FoldState) (Q : α → FoldState → Prop) :
    Prop :=
  Ends m s Q s₀.Gains

namespace FoldM

variable {s₀ s : FoldState} {p : Path}

theorem store_ends {α : Type} {f : Store → α × Store} (h : ∀ s : Store, s.Gains (f s).2) :
    Spares s₀ (store f) s fun _ s' => s.Gains s' :=
  ⟨h s.toStore, rfl⟩

theorem alloc_ends (n : Node NodeId) : Spares s₀ (alloc n) s fun _ s' => s.Gains s' :=
  ⟨Store.Gains.alloc s.toStore n _, rfl⟩

theorem constant?_ends (h : s₀.Gains s) (id : NodeId) :
    Spares s₀ (constant? id) s fun _ s' => s' = s := by
  unfold constant?
  refine .read rfl ?_
  split
  · split
    · exact .pure rfl
    · exact .throw _ h
  · exact .pure rfl

theorem toConst_ends (h : s₀.Gains s) (v : Value) :
    Spares s₀ (toConst v) s fun _ s' => s₀.Gains s' := by
  have hv := v.toNode_adding s.toStore
  unfold Ends at hv
  unfold Spares Ends toConst tryStore
  split at hv
  · rename_i a s' hrun
    rw [hrun]
    exact h.trans ⟨hv, rfl⟩
  · rename_i e s' hrun
    rw [hrun]
    exact h.trans ⟨hv, rfl⟩

theorem edit_ends {α : Type} {f : Tree → Except TreeError (α × Tree)} (h : s₀.Gains s)
    {Q : α → FoldState → Prop} (hQ : ∀ a t, f s.tree = .ok (a, t) → Q a { s with tree := t }) :
    Spares s₀ (edit f) s Q := by
  unfold Spares Ends edit
  cases hf : f s.tree with
  | ok r => exact hQ r.1 r.2 hf
  | error e => exact h

/-- The answer of a rule: without one, all that was in an earlier state is as it was. -/
def Declines (s₀ : FoldState) (retry : Option Path) (s : FoldState) : Prop :=
  retry = none → s₀.Gains s

theorem Declines.some (s₀ s : FoldState) (q : Path) : Declines s₀ (some q) s := fun h => by
  cases h

theorem Declines.none (h : s₀.Gains s) : Declines s₀ none s := fun _ => h

theorem none_ends (h : s₀.Gains s) : Spares s₀ (pure none) s (Declines s₀) :=
  .pure (.none h)

theorem edit_declines (h : s₀.Gains s) (f : Tree → Except TreeError (Path × Tree)) :
    Spares s₀ (do return some (← edit f)) s (Declines s₀) :=
  (edit_ends h (Q := fun _ _ => True) fun _ _ _ => trivial).bind fun q s' _ => .pure (.some s₀ s' q)

theorem edit_then {f : Tree → Except TreeError (Unit × Tree)} (h : s₀.Gains s)
    {m : FoldM (Option Path)} (hm : ∀ s', ∃ q, m s' = .ok (some q) s') :
    Spares s₀ (do edit f; m) s (Declines s₀) := by
  refine (edit_ends h (Q := fun _ _ => True) fun _ _ _ => trivial).bind fun _ s' _ => ?_
  obtain ⟨q, hq⟩ := hm s'
  unfold Ends
  rw [hq]
  exact .some s₀ s' q

theorem removeFromList_declines (h : s₀.Gains s) :
    Spares s₀ (do return some (← removeFromList p)) s (Declines s₀) := by
  unfold removeFromList
  rw [bind_assoc]
  exact edit_then h fun s' => ⟨p.refresh s'.tree, rfl⟩

theorem toConst_declines (h : s₀.Gains s) (v : Value) :
    Spares s₀ (do return some (← replace p (← toConst v))) s (Declines s₀) :=
  (toConst_ends h v).bind fun _ _ hs => edit_declines hs _

theorem dropUnreachable_ends : Spares s (dropUnreachable p) s (Declines s) := by
  unfold dropUnreachable
  refine .read rfl ?_
  split
  · split
    · split
      · split
        · dsimp only
          split
          · exact none_ends (.refl _)
          · exact edit_then (.refl s) fun s' => ⟨p, rfl⟩
        · exact none_ends (.refl _)
      · exact none_ends (.refl _)
    · exact none_ends (.refl _)
  · exact none_ends (.refl _)

theorem mergeRun_ends : Spares s (mergeRun p) s (Declines s) := by
  unfold mergeRun
  refine .read rfl ?_
  split
  · split
    · dsimp only
      split
      · exact none_ends (.refl _)
      · refine (alloc_ends _).bind fun sequence s₁ hs₁ => ?_
        refine (alloc_ends _).bind fun statement s₂ hs₂ => ?_
        exact edit_then (hs₁.trans hs₂) fun s' => ⟨_, rfl⟩
    · exact none_ends (.refl _)
  · exact none_ends (.refl _)

theorem foldExpressionStatement_ends : Spares s (foldExpressionStatement p) s (Declines s) := by
  unfold foldExpressionStatement
  refine .read rfl ?_
  split
  · split
    · exact none_ends (.refl _)
    · refine mergeRun_ends.bind fun retry s₁ hs₁ => ?_
      cases retry with
      | some q => exact .pure (.some s s₁ q)
      | none =>
        have hs₁ := hs₁ rfl
        dsimp only
        split
        · exact none_ends hs₁
        · refine .read rfl ?_
          split
          · split
            · exact removeFromList_declines hs₁
            · refine (store_ends Store.Gains.emptyStatementNode).bind fun id s₂ hs₂ => ?_
              exact edit_declines (hs₁.trans hs₂) _
          · exact none_ends hs₁
  · exact none_ends (.refl _)

theorem foldConditional_ends : Spares s (foldConditional p) s (Declines s) := by
  unfold foldConditional
  refine .read rfl ?_
  split
  · refine (constant?_ends (.refl s) _).bind fun value s₁ hs₁ => ?_
    subst hs₁
    split
    · exact edit_declines (.refl _) _
    · exact none_ends (.refl _)
  · exact none_ends (.refl _)

theorem foldLogical_ends : Spares s (foldLogical p) s (Declines s) := by
  unfold foldLogical
  refine .read rfl ?_
  split
  · refine (constant?_ends (.refl s) _).bind fun value s₁ hs₁ => ?_
    subst hs₁
    split
    · exact edit_declines (.refl _) _
    · exact none_ends (.refl _)
  · exact none_ends (.refl _)

theorem foldUnary_ends : Spares s (foldUnary p) s (Declines s) := by
  unfold foldUnary
  split
  · refine .read rfl ?_
    split
    · refine .read rfl ?_
      split
      · exact none_ends (.refl _)
      · refine (constant?_ends (.refl s) _).bind fun value s₁ hs₁ => ?_
        subst hs₁
        split
        · dsimp only
          split
          · exact none_ends (.refl _)
          · exact toConst_declines (.refl _) _
        · exact none_ends (.refl _)
    · exact none_ends (.refl _)
  · exact none_ends (.refl _)

theorem minifyBoolean_ends : Spares s (minifyBoolean p) s (Declines s) := by
  unfold minifyBoolean
  split
  · refine .read rfl ?_
    split
    · exact none_ends (.refl _)
    · refine (constant?_ends (.refl s) _).bind fun value s₁ hs₁ => ?_
      subst hs₁
      split
      · refine (store_ends fun s => Store.Gains.minifiedBool s _).bind fun id s₂ hs₂ => ?_
        exact edit_declines hs₂ _
      · exact none_ends (.refl _)
  · exact none_ends (.refl _)

theorem foldSequence_ends : Spares s (foldSequence p) s (Declines s) := by
  unfold foldSequence
  refine .read rfl ?_
  split
  · split
    · split
      · dsimp only
        split
        · exact edit_declines (.refl s) _
        · split
          · split
            · exact none_ends (.refl _)
            · refine (toConst_ends (.refl s) _).bind fun id s₁ hs₁ => ?_
              exact edit_then hs₁ fun s' => ⟨p, rfl⟩
          · split
            · exact none_ends (.refl _)
            · split
              · exact edit_declines (.refl s) _
              · exact edit_then (.refl s) fun s' => ⟨p, rfl⟩
      · exact none_ends (.refl _)
    · exact none_ends (.refl _)
  · exact none_ends (.refl _)

theorem dropEmptyStatement_ends : Spares s (dropEmptyStatement p) s (Declines s) := by
  unfold dropEmptyStatement
  refine .read rfl ?_
  split
  · split
    · exact removeFromList_declines (.refl s)
    · exact none_ends (.refl _)
  · exact none_ends (.refl _)

theorem memberValue?_ends (object : Value) (prop : NodeId) (computed : Bool) :
    Spares s (memberValue? object prop computed) s fun _ s' => s' = s := by
  unfold memberValue?
  split
  · refine (constant?_ends (.refl s) prop).bind fun value s₁ hs₁ => ?_
    exact .pure hs₁
  · refine .read rfl ?_
    split
    · exact .pure rfl
    · exact .pure rfl

theorem foldOutsidePrologue_ends (object result : Value) :
    Spares s (foldOutsidePrologue p object result) s (Declines s) := by
  unfold foldOutsidePrologue
  split
  · split
    · exact none_ends (.refl s)
    · refine (toConst_ends (.refl s) _).bind fun first s₁ hs₁ => ?_
      refine (toConst_ends hs₁ _).bind fun index s₂ hs₂ => ?_
      refine (alloc_ends _).bind fun member s₃ hs₃ => ?_
      exact edit_declines (hs₂.trans hs₃) _
  · exact toConst_declines (.refl s) _

theorem foldMember_ends : Spares s (foldMember p) s (Declines s) := by
  unfold foldMember
  refine .read rfl ?_
  split
  · split
    · rename_i object prop computed hn
      dsimp only
      -- what is done with a key that is no name
      generalize hrest : (if (HasTree.tree s).isReferenceTarget p then _ else _) = rest
      have hlookup : Spares s rest s (Declines s) := by
        subst hrest
        split
        · exact none_ends (.refl s)
        · refine (constant?_ends (.refl s) _).bind fun value s₁ hs₁ => ?_
          subst hs₁
          split
          · refine (memberValue?_ends _ _ _).bind fun result s₂ hs₂ => ?_
            subst hs₂
            split
            · split
              · exact foldOutsidePrologue_ends _ _
              · exact toConst_declines (.refl _) _
            · exact none_ends (.refl _)
          · exact none_ends (.refl _)
      split
      · split
        · refine (alloc_ends _).bind fun key s₁ hs₁ => ?_
          exact edit_then hs₁ fun s' => ⟨p, rfl⟩
        · exact hlookup
      · exact hlookup
    · exact none_ends (.refl s)
  · exact none_ends (.refl s)

end FoldM

end ScriptFold

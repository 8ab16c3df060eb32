import ScriptFold.Proofs.Evaluation
import ScriptFold.Proofs.Kinds

/-!
Rules on statements: where one applies it fires, and none of them fails.
-/

namespace ScriptFold

/-- A path leads to an entry of a list, with what is before and after it. -/
structure Path.Entry (t : Tree) (p parent : Path) (owner id : NodeId) (f : Field)
    (slot : Slot NodeId) (l r : List (Option NodeId)) : Prop where
  path : p = .child parent (.index l.length) (.node id)
  value : parent.value = .list owner f
  found : t.slot? owner f = some slot
  items : slot.items? = some (l ++ some id :: r)

namespace Path.Entry

variable {t t' : Tree} {p parent : Path} {owner id : NodeId} {f : Field} {slot : Slot NodeId}
  {l r : List (Option NodeId)}

theorem listSlot? (h : p.Entry t parent owner id f slot l r) :
    p.listSlot? = some (parent, l.length) := by
  rw [h.path]
  change (if parent.isList then some (parent, l.length) else none) = _
  rw [isList, h.value]
  rfl

theorem listItems? (h : p.Entry t parent owner id f slot l r) :
    t.listItems? parent.value = some (l ++ some id :: r) := by
  rw [h.value]
  simp only [Tree.listItems?, h.found, Option.bind_some, h.items]

theorem congr (h : p.Entry t parent owner id f slot l r) (hn : t'.node owner = t.node owner) :
    p.Entry t' parent owner id f slot l r where
  path := h.path
  value := h.value
  found := by
    unfold Tree.slot?
    rw [hn]
    exact h.found
  items := h.items

end Path.Entry

/-- A path that leads to a node leads to an entry of a list or to no list at all. -/
theorem Store.Open.entry {s : Store} {p : Path} {owner id : NodeId} (h : s.Open p owner id) :
    p.listSlot? = none ∨ ∃ parent f slot l r, p.Entry s.tree parent owner id f slot l r := by
  cases hp : p.listSlot? with
  | none => exact .inl rfl
  | some _ =>
    obtain ⟨parent, f, slot, l, r, hpath, hv, hs, hi⟩ := h.leads.item_cases (by rw [hp]; rfl)
    exact .inr ⟨parent, f, slot, l, r, hpath, hv, hs, hi⟩

namespace FoldM

open Store

variable {s s₁ : FoldState} {p : Path} {owner id : NodeId} {rule : Rule}

theorem splice_ensures (h : s.Open p owner id) {parent : Path} {f : Field} {slot : Slot NodeId}
    {l tail : List (Option NodeId)} (kept old r : List (Option NodeId)) {new : List NodeId}
    (hp : p.Entry s.tree parent owner id f slot l tail)
    (hsplit : some id :: tail = kept ++ old ++ r) (hold : old ≠ []) {start stop : Nat}
    (hstart : start = (l ++ kept).length) (hstop : stop = start + old.length) :
    Ensures (splice parent.value start stop new) s fun _ s' =>
      ∃ n, (∀ new', kept ++ new.map some = new'.map some →
        p.Splices s.tree owner (kept ++ old) new' n) ∧ s'.toStore = s.put owner n := by
  subst hstart hstop
  have hi : slot.items? = some (l ++ (kept ++ old) ++ r) := by
    rw [hp.items, hsplit, List.append_assoc l]
  have hrun := Path.splice_ok hp.value h.writable hp.found
    (hi.trans (by rw [← List.append_assoc l])) hold new
  refine (edit_ensures (f := fun tree => (tree.splice _ _ _ new).map fun tree => ((), tree))
    (r := ()) (by rw [hrun]; rfl)).mono fun _ s' hs' => ⟨_, fun new' hnew => ?_, hs'.2⟩
  rw [hp.path, List.append_assoc l, hnew]
  exact .intro hp.value hp.found hi

theorem dropUnreachable_ensures (h : s.Open p owner id) :
    Ensures (dropUnreachable p) s (Rule.unreachableTail.Outcome p s) := by
  unfold dropUnreachable
  refine .read (getTree_run s) ?_
  rw [h.nodeAt?]
  dsimp only
  split
  · rename_i hjump
    rcases h.entry with hp | ⟨parent, f, slot, l, tail, hp⟩
    · rw [hp]
      exact .pure (.unchanged h.sound)
    · have htail : (l ++ some id :: tail).drop (l.length + 1) = tail := by
        rw [← List.drop_drop, List.drop_left]
        rfl
      rw [hp.listSlot?]
      dsimp only
      rw [hp.listItems?]
      dsimp only
      rw [htail]
      split
      · exact .pure (.unchanged h.sound)
      · rename_i hne
        have hold : tail ≠ [] := by
          rintro rfl
          exact hne rfl
        refine (splice_ensures h [some id] tail [] hp (by simp) hold
          (by simp) (by simp; omega)).bind fun _ s₁ ⟨n, hn, hs₁⟩ => .pure ?_
        have hspliced := hn (id :: _) rfl
        have howner : s₁.tree.node owner = n := by
          rw [hs₁]
          exact (Tree.node_setNode (Tree.lt_size_of_child h.leads.child) n owner).trans (if_pos rfl)
        refine .edited h.sound (.refl _) (.splice h.leads h.writable hspliced ?_) hs₁ ?_
        · exact .unreachable hjump hne
        · rw [hp.path] at hspliced ⊢
          exact (hspliced.leads_new howner).refresh_eq.symm
  · exact .pure (.unchanged h.sound)

theorem expressionRun_split (t : Tree) (items : List (Option NodeId)) :
    ∃ statements rest, items = statements.map some ++ rest ∧
      List.Forall₂ (fun st e => (t.node st).expression? = some e) statements
        (expressionRun t items) := by
  induction items with
  | nil => exact ⟨[], [], rfl, .nil⟩
  | cons item items ih =>
    cases item with
    | none => exact ⟨[], _, rfl, .nil⟩
    | some st =>
      obtain ⟨statements, rest, hsplit, hrun⟩ := ih
      rw [expressionRun]
      cases he : (t.node st).expression? with
      | none => exact ⟨[], _, rfl, .nil⟩
      | some e => exact ⟨st :: statements, rest, by rw [hsplit]; rfl, .cons he hrun⟩

theorem sequenceItems_of_node {t t' : Tree} {e : NodeId} (h : t'.node e = t.node e) :
    sequenceItems t' e = sequenceItems t e := by
  unfold sequenceItems
  rw [h]

theorem run_grows {s s' : Store} (h : s.Sound) (hg : s.Grows s') {statements expressions : List NodeId}
    (hrun : List.Forall₂ (fun st e => (s.tree.node st).expression? = some e) statements expressions)
    (hsize : ∀ st ∈ statements, st < s.tree.size) :
    List.Forall₂ (fun st e => (s'.tree.node st).expression? = some e) statements expressions ∧
      expressions.flatMap (sequenceItems s'.tree) = expressions.flatMap (sequenceItems s.tree) := by
  induction hrun with
  | nil => exact ⟨.nil, rfl⟩
  | @cons st e statements expressions hst _ ih =>
    obtain ⟨hrun, hitems⟩ := ih fun st hst => hsize st (List.mem_cons_of_mem _ hst)
    obtain ⟨directive, hn⟩ := expression?_eq hst
    have he : s.tree.Child e st :=
      Tree.child_of_node hn (by simp [Node.children, Node.slots, Slot.children])
    refine ⟨.cons ?_ hrun, ?_⟩
    · rw [hg.tree.node (hsize st (List.mem_cons_self ..))]
      exact hst
    · rw [List.flatMap_cons, List.flatMap_cons, hitems,
        sequenceItems_of_node (hg.tree.node (h.wellFormed.closed he))]

theorem expressionStatement_ensures (h : s.Sound) {e : NodeId} (he : e < s.tree.size) :
    Ensures (expressionStatement e) s fun id s' => id = s.tree.size ∧ s'.Sound ∧
      s.Grows s'.toStore ∧ s'.tree.node id = .expressionStatement e none ∧ s'.tree.Unused id := by
  refine alloc_ensures h (fun _ hx => by cases hx) fun c hc => ?_
  obtain rfl := List.mem_singleton.mp hc
  exact he

/-- A run is merged, or nothing is done. -/
theorem mergeRun_ensures (h : s.Open p owner id) :
    Ensures (mergeRun p) s (Rule.expressionStatements.Once p s) := by
  unfold mergeRun
  refine .read (getTree_run s) ?_
  rcases h.entry with hp | ⟨parent, f, slot, l, tail, hp⟩
  · rw [hp]
    exact .pure (.unchanged h.sound)
  · rw [hp.listSlot?]
    dsimp only
    rw [hp.listItems?]
    dsimp only
    rw [List.drop_left]
    obtain ⟨statements, rest, hsplit, hrun⟩ := expressionRun_split s.tree (some id :: tail)
    generalize expressionRun s.tree (some id :: tail) = expressions at hrun
    have hlen := hrun.length_eq
    split
    · exact .pure (.unchanged h.sound)
    · rename_i htwo
      have hstatements : ∀ st ∈ statements, s.tree.Child st owner := fun st hst =>
        Node.mem_children_of_slot? hp.found ((Slot.mem_children_of_items? hp.items).mpr (by
          rw [hsplit]
          simp [hst]))
      have hsize : ∀ st ∈ statements, st < s.tree.size := fun st hst =>
        h.sound.wellFormed.closed (hstatements st hst)
      have hne : statements ≠ [] := by
        rintro rfl
        rw [List.length_nil] at hlen
        omega
      refine (alloc_ensures h.sound (fun _ hx => by cases hx) fun c hc => ?_).bind
        fun sequence s₁ hadd => ?_
      · have hc : c ∈ expressions.flatMap (sequenceItems s.tree) := by
          simpa [Node.children, Node.slots, Slot.children] using hc
        exact h.sound.wellFormed.lt_size_of_below (below_of_merge hrun hstatements hc)
      obtain ⟨hsequence, hs₁, hg₁, hseq, hunused⟩ := hadd
      refine (expressionStatement_ensures hs₁ (Tree.lt_size_of_node (by simp [hseq]))).bind
        fun statement s₂ hadd => ?_
      obtain ⟨hstatement, hs₂, hg₂, hst, hunused'⟩ := hadd
      have hg := hg₁.trans hg₂
      have howner := Tree.lt_size_of_child h.leads.child
      have hp₂ := hp.congr (hg.tree.node howner)
      have h₂ := h.grows hs₂ hg
      -- the splice happens after two nodes were added, where the run has to be found again
      obtain ⟨hrun₂, hitems₂⟩ := run_grows h.sound hg hrun hsize
      refine (splice_ensures h₂ [] (statements.map some) rest hp₂ hsplit
        (by simpa using hne) (by simp) (by simp [hlen])).bind
        fun _ s₃ hspliced => .read (getTree_run s₃) (.pure ?_)
      obtain ⟨n, hn, hs₃⟩ := hspliced
      refine .edited hs₂ hg (.splice h₂.leads h₂.writable (hn [statement] rfl) ?_) hs₃ rfl
      refine .merge hrun₂ (by omega) ?_ hst ?_ ?_
        (hunused.grows hg₂.tree hs₁.wellFormed hs₁.lt_size_of_root) hunused'
      · rw [hitems₂, hg₂.tree.node (Tree.lt_size_of_node (by simp [hseq])), hseq]
      · rw [hsequence]
        exact howner.ne
      · rw [hstatement]
        exact (howner.trans_le hg₁.tree.size).ne

/-- A directive is left alone, and so is, where nothing can be merged, a statement that supplies the
completion value or is not constant. What is done is one change. -/
theorem foldExpressionStatement_applies (h : s.Open p owner id) :
    Ensures (foldExpressionStatement p) s fun retry s' =>
      Rule.expressionStatements.Once p s retry s' ∧ (retry.isSome → ¬ s.tree.isDirective p) ∧
        (retry = none → s.tree.isDirective p ∨ s.tree.isCompletion p ∨
          ∀ e, (s.tree.node id).expression? = some e → s.value? e = none) := by
  have unchanged : Rule.expressionStatements.Once p s none s := .unchanged h.sound
  unfold foldExpressionStatement
  refine .read (getTree_run s) ?_
  rw [h.nodeAt?, Option.bind_some]
  split
  · rename_i expression hexpression
    obtain ⟨directive, hn⟩ := expression?_eq hexpression
    split
    · rename_i hdirective
      exact .pure ⟨unchanged, fun hsome => (by cases hsome), fun _ => .inl hdirective⟩
    rename_i hdirective
    refine (mergeRun_ensures h).bind fun retry s₁ hout => ?_
    cases retry with
    | some q => exact .pure ⟨hout, fun _ => hdirective, fun hnone => by cases hnone⟩
    | none =>
      obtain rfl : s₁ = s := hout.2
      dsimp only
      split
      · rename_i hobserved
        exact .pure ⟨unchanged, fun hsome => (by cases hsome), fun _ => .inr (.inl hobserved)⟩
      rename_i hobserved
      have hobserved : s₁.tree.isCompletion p = false := Bool.eq_false_of_not_eq_true hobserved
      refine .read (isConstant_run s₁ expression) ?_
      split
      · rename_i hconstant
        obtain ⟨v, hv⟩ := Option.isSome_iff_exists.mp hconstant
        -- in a list the statement goes, and elsewhere an empty one takes its place
        split
        · rename_i hlist
          refine (removeFromList_ensures h hlist
            (.constant hn hv hobserved)).bind fun q s₂ ⟨hq, n, he, hs₂⟩ => .pure ?_
          exact ⟨.edited h.sound (.refl _) he hs₂ hq, fun _ => hdirective,
            fun hnone => by cases hnone⟩
        · refine (emptyStatement_ensures h.sound).bind fun b s₂ ⟨hs₂, hg, hb⟩ => ?_
          refine (swap_fires h hs₂ hg (.constantStatement (h.node_of_grows hg hn)
            (h.sound.value?_of_grows hs₂ hg hv) hobserved hb)).mono fun retry s₃ ⟨hsome, hs₃⟩ => ?_
          refine ⟨hs₃, fun _ => hdirective, fun hnone => ?_⟩
          rw [hnone] at hsome
          cases hsome
      · rename_i hconstant
        refine .pure ⟨unchanged, fun hsome => (by cases hsome), fun _ => .inr (.inr fun e he => ?_)⟩
        obtain rfl : expression = e := Option.some.inj (hexpression.symm.trans he)
        simpa using hconstant
  · rename_i hexpression
    refine .pure ⟨unchanged, fun hsome => (by cases hsome), fun _ => .inr (.inr fun e he => ?_)⟩
    exact (hexpression e he).elim

theorem foldExpressionStatement_ensures (h : s.Open p owner id) :
    Ensures (foldExpressionStatement p) s (Rule.expressionStatements.Outcome p s) :=
  (foldExpressionStatement_applies h).mono fun _ _ hs' => hs'.1.outcome

theorem dropEmptyStatement_ensures (h : s.Open p owner id) :
    Ensures (dropEmptyStatement p) s (Rule.emptyStatements.Outcome p s) := by
  unfold dropEmptyStatement
  refine .read (getTree_run s) ?_
  rw [h.nodeAt?]
  dsimp only
  split
  · rename_i hempty
    rw [Bool.and_eq_true] at hempty
    have hsplice : s.Splice (s.tree.isCompletion p) owner .emptyStatements [some id] [] :=
      .empty hempty.1
    refine (removeFromList_ensures h hempty.2 hsplice).bind fun q s₁ ⟨hq, n, he, hs₁⟩ => .pure ?_
    exact .edited h.sound (.refl _) he hs₁ hq
  · exact .pure (.unchanged h.sound)

theorem shareEmpty_ensures (observed : Bool) {n : Node NodeId} {f : Field} {old : NodeId}
    (h : s.Owns p owner id n) (hslot : n.slot? f = some (.required old))
    (hr : ∀ {s' : Store} {b}, (s'.tree.node old).isEmptyStatement → old ≠ b →
      s'.pool.emptyStatement = some b → s'.Rewrite rule n (n.setSlot f (.required b)))
    (hempty : ¬ (s.isEmptyStatement old || !(s.tree.node old).isEmptyStatement)) :
    Ensures (do write p.value (.field f) (some (← emptyStatement))) s fun changed s' =>
      rule.Tidies observed p s changed s' ∧ changed = true ∧
        ∃ b, s'.Owns p owner id (n.setSlot f (.required b)) ∧
          ∀ c ∈ n.children, s'.value? c = s.value? c := by
  simp only [Store.isEmptyStatement, Bool.or_eq_true, not_or, decide_eq_true_eq,
    Bool.not_eq_true', Bool.not_eq_false] at hempty
  refine (emptyStatement_ensures h.sound).bind fun b s₁ ⟨hs₁, hg, hb⟩ => ?_
  have hold : old < s.tree.size :=
    h.sound.wellFormed.closed (Tree.child_of_node h.node
      (Node.mem_children_of_slot? hslot (by simp [Slot.children])))
  have hempty₁ : (s₁.tree.node old).isEmptyStatement := by
    rw [hg.tree.node hold]
    exact hempty.2
  have hne : old ≠ b := by
    rintro rfl
    -- it would have been the shared one before
    have hf := (hs₁.emptyStatement hb).1
    rw [hg.tree.isFrozen hold] at hf
    exact hempty.1 (h.sound.isEmptyStatement_of_frozen hf hempty.2)
  refine (writeRequired_ensures observed h hs₁ hg hslot hne (hr hempty₁ hne hb)).mono
    fun changed s' hs' => ?_
  exact ⟨hs'.2.1, hs'.1, b, hs'.2.2.1, hs'.2.2.2⟩

theorem normalizeConsequent_ensures (observed : Bool) {test consequent : NodeId}
    {alternate : Option NodeId} (h : s.Owns p owner id (.ifStatement test consequent alternate)) :
    Ensures (normalizeConsequent p consequent) s fun changed s' =>
      Rule.ifStatement.Tidies observed p s changed s' ∧
        changed = !(s.isEmptyStatement consequent || !(s.tree.node consequent).isEmptyStatement) ∧
        ∃ b, s'.Owns p owner id (.ifStatement test b alternate) := by
  unfold normalizeConsequent
  refine .read (a := s) rfl ?_
  split
  · rename_i hempty
    exact .pure ⟨.refl h.sound, by rw [hempty]; rfl, consequent, h⟩
  · rename_i hempty
    refine (shareEmpty_ensures observed h (f := .consequent) rfl .consequent hempty).mono
      fun changed s' ⟨ht, hc, b, hb, _⟩ => ?_
    exact ⟨ht, by rw [hc, Bool.eq_false_of_not_eq_true hempty]; rfl, b, hb⟩

theorem dropEmptyAlternate_ensures (observed : Bool) {test consequent : NodeId}
    {alternate : Option NodeId} (h : s.Owns p owner id (.ifStatement test consequent alternate)) :
    Ensures (dropEmptyAlternate p alternate) s fun changed s' =>
      Rule.ifStatement.Tidies observed p s changed s' ∧
        changed = alternate.any fun alternate => (s.tree.node alternate).isEmptyStatement := by
  unfold dropEmptyAlternate
  refine .read (getTree_run s) ?_
  cases alternate with
  | none => exact .pure ⟨.refl h.sound, rfl⟩
  | some alternate =>
    rw [Option.any_some]
    split
    · rename_i hempty
      refine (writeOptional_ensures observed h h.sound (.refl _) (f := .alternate) none rfl
        nofun (.alternate hempty)).mono fun changed s' hs' => ?_
      exact ⟨hs'.2.1, hs'.1.trans hempty.symm⟩
    · rename_i hempty
      exact .pure ⟨.refl h.sound, (Bool.eq_false_of_not_eq_true hempty).symm⟩

theorem ifExpression?_grows {t t' : Tree} (hg : t.Grows t') {observed : Bool} {test consequent : NodeId}
    {alternate : Option NodeId} (hc : consequent < t.size) (ha : ∀ a ∈ alternate, a < t.size) :
    ifExpression? t' observed test consequent alternate =
      ifExpression? t observed test consequent alternate := by
  unfold ifExpression?
  rw [hg.node hc]
  cases alternate with
  | none => rfl
  | some alternate =>
    dsimp only
    rw [hg.node (ha alternate rfl)]

theorem foldIf_ensures (h : s.Open p owner id) :
    Ensures (foldIf p) s (Rule.ifStatement.Outcome p s) := by
  unfold foldIf
  refine .read (getTree_run s) ?_
  rw [h.nodeAt?]
  dsimp only
  split
  · rename_i test consequent alternate hn
    have hn := Option.some.inj hn
    have hsize : ∀ {c}, c ∈ (Node.ifStatement test consequent alternate).children →
        c < s.tree.size := fun hc => h.sound.wellFormed.closed (Tree.child_of_node hn hc)
    have htest : test < s.tree.size := hsize (by simp [Node.children, Node.slots, Slot.children])
    have hconsequent : consequent < s.tree.size :=
      hsize (by simp [Node.children, Node.slots, Slot.children])
    split
    · rename_i hdead
      simp only [Bool.and_eq_true, Bool.not_eq_true', Option.isNone_iff_eq_none] at hdead
      obtain ⟨⟨hobserved, rfl⟩, hempty⟩ := hdead
      refine (expressionStatement_ensures h.sound htest).bind fun b s₁ hadd => ?_
      obtain ⟨-, hs₁, hg, hb, hunused⟩ := hadd
      refine swap_ensures h hs₁ hg (.ifTest (h.node_of_grows hg hn) ?_ hobserved hb hunused)
      rw [hg.tree.node hconsequent]
      exact hempty
    split
    · rename_i n hexpr
      -- the expression and its statement are added one after the other, so what is known of the
      -- `if` passes two growths
      refine (alloc_ensures h.sound ?_ fun c hc => ?_).bind fun e s₁ hadd => ?_
      · rcases ifExpression?_cases hexpr with ⟨_, _, _, _, _, _, rfl⟩ | ⟨_, _, _, _, rfl⟩ <;>
          exact fun _ hx => by cases hx
      · exact h.sound.wellFormed.lt_size_of_below (below_of_ifExpression hn hexpr hc)
      obtain ⟨-, hs₁, hg₁, he, hunused⟩ := hadd
      have hene : n ≠ .emptyStatement := by
        rcases ifExpression?_cases hexpr with ⟨_, _, _, _, _, _, rfl⟩ | ⟨_, _, _, _, rfl⟩ <;> simp
      have hesize := Tree.lt_size_of_node (by rwa [he])
      refine (expressionStatement_ensures hs₁ hesize).bind fun b s₂ hadd => ?_
      obtain ⟨-, hs₂, hg₂, hb, hunused'⟩ := hadd
      have hg := hg₁.trans hg₂
      refine swap_ensures h hs₂ hg (.ifExpression (h.node_of_grows hg hn) ?_
        ((hg₂.tree.node hesize).trans he) hb
        (hunused.grows hg₂.tree hs₁.wellFormed hs₁.lt_size_of_root) hunused')
      rw [ifExpression?_grows hg.tree hconsequent fun a ha => hsize ?_]
      · exact hexpr
      · simp [Node.children, Node.slots, Slot.children, Option.mem_def.mp ha]
    refine .read (constant?_run s test) ?_
    split
    · rename_i v hv
      split
      · exact swap_ensures h h.sound (.refl _) (.ifTrue hn hv ‹_›)
      · rename_i hfalsy
        cases alternate with
        | some alternate =>
          exact .read rfl (swap_ensures h h.sound (.refl _) (.ifFalse hn hv hfalsy))
        | none =>
          refine (emptyStatement_ensures h.sound).bind fun b s₁ hempty => ?_
          obtain ⟨hs₁, hg, hb⟩ := hempty
          exact swap_ensures h hs₁ hg
            (.ifNever (h.node_of_grows hg hn) (h.sound.value?_of_grows hs₁ hg hv) hfalsy hb)
    · have howns := h.owns hn (by simp [Node.kind])
      refine (normalizeConsequent_ensures (s.tree.isCompletion p) howns).bind fun a s₁ htidied => ?_
      obtain ⟨ha, -, b, hb⟩ := htidied
      refine (dropEmptyAlternate_ensures (s.tree.isCompletion p) hb).bind fun c s₂ hc => .pure ?_
      exact (ha.trans hc.1).outcome h.leads
  · exact .pure (.unchanged h.sound)

theorem normalizeBody_ensures (observed : Bool) {n : Node NodeId} {body : NodeId}
    (h : s.Owns p owner id n) (hslot : n.slot? .body = some (.required body))
    (hr : ∀ {s' : Store} {b}, (s'.tree.node body).isEmptyStatement → body ≠ b →
      s'.pool.emptyStatement = some b → s'.Rewrite .loops n (n.setSlot .body (.required b))) :
    Ensures (normalizeBody p body) s fun changed s' =>
      Rule.loops.Tidies observed p s changed s' ∧
        changed = !(s.isEmptyStatement body || !(s.tree.node body).isEmptyStatement) ∧
        ∃ b, s'.Owns p owner id (n.setSlot .body (.required b)) ∧
          ∀ c ∈ n.children, s'.value? c = s.value? c := by
  unfold normalizeBody
  refine .read (a := s) rfl ?_
  split
  · rename_i hempty
    refine .pure ⟨.refl h.sound, by rw [hempty]; rfl, body, ?_, fun _ _ => rfl⟩
    rw [Node.setSlot_self hslot]
    exact h
  · rename_i hempty
    rw [Bool.eq_false_of_not_eq_true hempty]
    exact shareEmpty_ensures observed h hslot hr hempty

theorem clearConstant_ensures (observed : Bool) {n : Node NodeId} {f : Field} {child : Option NodeId}
    (h : s.Owns p owner id n) (hslot : n.slot? f = some (.optional child))
    (hr : ∀ {c v}, child = some c → s.value? c = some v →
      s.Rewrite .loops n (n.setSlot f (.optional none))) :
    Ensures (clearConstant p f child) s fun changed s' =>
      Rule.loops.Tidies observed p s changed s' ∧
        changed = (child.any fun c => (s.value? c).isSome) ∧
        ∃ child', s'.Owns p owner id (n.setSlot f (.optional child')) ∧
          ∀ c ∈ n.children, s'.value? c = s.value? c := by
  have unchanged : Rule.loops.Tidies observed p s false s ∧
      ∃ child', s.Owns p owner id (n.setSlot f (.optional child')) ∧
        ∀ c ∈ n.children, s.value? c = s.value? c := by
    refine ⟨.refl h.sound, child, ?_, fun _ _ => rfl⟩
    rw [Node.setSlot_self hslot]
    exact h
  unfold clearConstant
  cases child with
  | none => exact .pure ⟨unchanged.1, rfl, unchanged.2⟩
  | some c =>
    refine .read (isConstant_run s c) ?_
    rw [Option.any_some]
    split
    · rename_i hc
      obtain ⟨v, hv⟩ := Option.isSome_iff_exists.mp hc
      refine (writeOptional_ensures observed h h.sound (.refl _) none hslot nofun (hr rfl hv)).mono
        fun changed s' hs' => ?_
      exact ⟨hs'.2.1, hs'.1.trans hc.symm, none, hs'.2.2⟩
    · rename_i hc
      exact .pure ⟨unchanged.1, (Bool.eq_false_of_not_eq_true hc).symm, unchanged.2⟩

theorem normalizeTest_ensures (observed : Bool) {init test update : Option NodeId} {body : NodeId}
    (h : s.Owns p owner id (.forStatement init test update body)) :
    Ensures (normalizeTest p (test.bind s.value?)) s fun changed s' =>
      Rule.loops.Tidies observed p s changed s' ∧
        (changed ↔ ∃ v ∈ test.bind s.value?, v ≠ .bool false) ∧
        ∃ test', s'.Owns p owner id (.forStatement init test' update body) := by
  unfold normalizeTest
  split
  · rename_i hv
    exact .pure ⟨.refl h.sound, by simp [hv], test, h⟩
  · rename_i hv
    exact .pure ⟨.refl h.sound, by simp [hv], test, h⟩
  · rename_i v hne hv
    have hne : v ≠ .bool false := fun hv => hne (by rw [hv])
    have hchanged : ∃ w ∈ test.bind s.value?, w ≠ .bool false := ⟨v, hv, hne⟩
    obtain ⟨c, rfl, hc⟩ := Option.bind_eq_some_iff.mp hv
    split
    · refine (writeOptional_ensures observed h h.sound (.refl _) (f := .test) none rfl nofun
        (.forAlways hc ‹_›)).mono fun changed s' hs' => ?_
      exact ⟨hs'.2.1, iff_of_true hs'.1 hchanged, none, hs'.2.2.1⟩
    · rename_i hfalsy
      have hfalse : (Value.bool false).Representable := by simp only [Value.Representable]
      refine (toConst_ensures h.sound hfalse).bind fun b s₁ ⟨hs₁, hg, hb⟩ => ?_
      have hc₁ := h.sound.value?_of_grows hs₁ hg hc
      have hcb : some c ≠ some b := by
        intro hcb
        obtain rfl := Option.some.inj hcb
        rw [hs₁.value?_of_values hb] at hc₁
        exact hne (Option.some.inj hc₁).symm
      refine (writeOptional_ensures observed h hs₁ hg (f := .test) (some b) rfl hcb
        (.forNever hc₁ hfalsy hne hb)).mono fun changed s' hs' => ?_
      exact ⟨hs'.2.1, iff_of_true hs'.1 hchanged, some b, hs'.2.2.1⟩

theorem headStatement?_ensures (observed : Bool) {init update : Option NodeId} {test body : NodeId}
    {v : Value} (h : s.Owns p owner id (.forStatement init (some test) update body))
    (hv : s.value? test = some v) (hfalsy : ¬ v.toBoolean) :
    Ensures (headStatement? init) s fun b s' => s'.Sound ∧ s.Grows s'.toStore ∧
      match b with
      | none => s' = s
      | some b => s'.Swap observed .loops id b := by
  unfold headStatement?
  cases init with
  | none =>
    refine (emptyStatement_ensures h.sound).bind fun b s₁ hempty => .pure ?_
    obtain ⟨hs₁, hg, hb⟩ := hempty
    refine ⟨hs₁, hg, ?_⟩
    exact .forNever (h.node_of_grows hg h.node) (h.sound.value?_of_grows hs₁ hg hv) hfalsy hb
  | some init =>
    have hinit : init < s.tree.size := h.sound.wellFormed.closed
      (Tree.child_of_node h.node (by simp [Node.children, Node.slots, Slot.children]))
    refine .read (a := s.tree.node init) rfl ?_
    split
    · rename_i declarations hdecl
      exact .pure ⟨h.sound, .refl _, .forDeclaration h.node hv hfalsy hdecl⟩
    · exact .pure ⟨h.sound, .refl _, rfl⟩
    · rename_i hvar hdecl
      refine (expressionStatement_ensures h.sound hinit).bind fun b s₁ hadd => .pure ?_
      obtain ⟨-, hs₁, hg, hb, hunused⟩ := hadd
      refine ⟨hs₁, hg, ?_⟩
      refine .forExpression (h.node_of_grows hg h.node) (h.sound.value?_of_grows hs₁ hg hv) hfalsy
        (fun declarations kind hn => ?_) hb hunused
      rw [hg.tree.node hinit] at hn
      exact hdecl declarations kind hn

theorem foldFor_ensures {init test update : Option NodeId} {body : NodeId}
    (h : s.Owns p owner id (.forStatement init test update body)) :
    Ensures (foldFor p init test update body) s (Rule.loops.Outcome p s) := by
  have hvalue : test.elim (pure none) constant? s = .ok (test.bind s.value?) s := by
    cases test with
    | none => rfl
    | some test => exact constant?_run s test
  let observed := s.tree.isCompletion p
  unfold foldFor
  refine .read hvalue ?_
  -- the loop is tidied from two places: where it may run, and where its head leaves no statement
  generalize hrest : (normalizeBody p body >>= _) = rest
  have tidy : Ensures rest s (Rule.loops.Outcome p s) := by
    subst hrest
    refine (normalizeBody_ensures observed h rfl .forBody).bind fun a s₁ ha => ?_
    obtain ⟨ha, -, body', h₁, hv₁⟩ := ha
    refine (clearConstant_ensures observed h₁ (f := .init) rfl (by
      rintro c v rfl hv
      exact .forInit hv)).bind fun b s₂ hb => ?_
    obtain ⟨hb, -, init', h₂, hv₂⟩ := hb
    -- the value of the test was looked up before the body and the head were tidied
    have htest : test.bind s₂.value? = test.bind s.value? := by
      cases test with
      | none => rfl
      | some test =>
        refine (hv₂ test ?_).trans (hv₁ test ?_)
        · change test ∈ (Node.forStatement init (some test) update body').children
          simp [Node.children, Node.slots, Slot.children]
        · simp [Node.children, Node.slots, Slot.children]
    rw [← htest]
    refine (normalizeTest_ensures observed h₂).bind fun c s₃ hc => ?_
    obtain ⟨hc, -, test', h₃⟩ := hc
    refine (clearConstant_ensures observed h₃ (f := .update) rfl (by
      rintro c v rfl hv
      exact .forUpdate hv)).bind fun d s₄ hd => .pure ?_
    exact (((ha.trans hb).trans hc).trans hd.1).outcome h.leads
  split
  · rename_i hnever
    cases hv : test.bind s.value? with
    | none =>
      rw [hv] at hnever
      cases hnever
    | some v =>
      rw [hv] at hnever
      obtain ⟨c, rfl, hc⟩ := Option.bind_eq_some_iff.mp hv
      have hfalsy : ¬ v.toBoolean := by simpa using hnever
      refine (headStatement?_ensures observed h hc hfalsy).bind fun b s₁ hhead => ?_
      obtain ⟨hs₁, hg, hb⟩ := hhead
      cases b with
      | none =>
        have hb : s₁ = s := hb
        rw [hb]
        exact tidy
      | some b => exact swap_ensures h.toOpen hs₁ hg hb
  · exact tidy

theorem foldLoop_ensures (h : s.Open p owner id) :
    Ensures (foldLoop p) s (Rule.loops.Outcome p s) := by
  unfold foldLoop
  refine .read (getTree_run s) ?_
  rw [h.nodeAt?]
  split
  · rename_i body test hn
    have howns := h.owns (Option.some.inj hn) (by simp [Node.kind])
    refine (normalizeBody_ensures (s.tree.isCompletion p) howns rfl .doWhileBody).bind
      fun a s₁ htidied => ?_
    have := htidied.1.outcome h.leads
    cases a <;> exact .pure this
  · rename_i test body hn
    have howns := h.owns (Option.some.inj hn) (by simp [Node.kind])
    refine .read (constant?_run s test) ?_
    split
    · rename_i hnever
      cases hv : s.value? test with
      | none =>
        rw [hv] at hnever
        cases hnever
      | some v =>
        rw [hv] at hnever
        refine (emptyStatement_ensures h.sound).bind fun b s₁ hempty => ?_
        obtain ⟨hs₁, hg, hb⟩ := hempty
        exact swap_ensures h hs₁ hg (.whileNever (h.node_of_grows hg (Option.some.inj hn))
          (h.sound.value?_of_grows hs₁ hg hv) (by simpa using hnever) hb)
    · refine (normalizeBody_ensures (s.tree.isCompletion p) howns rfl .whileBody).bind
        fun a s₁ htidied => ?_
      have := htidied.1.outcome h.leads
      cases a <;> exact .pure this
  · exact foldFor_ensures (h.owns (Option.some.inj ‹_›) (by simp [Node.kind]))
  · exact .pure (.unchanged h.sound)

end FoldM

/-- At a slot that may be edited no rule fails, and where one applies it fires. -/
theorem Rule.apply_ensures {s : FoldState} {p : Path} {owner id : NodeId} (h : s.Open p owner id)
    (rule : Rule) : Ensures (rule.apply p) s (rule.Outcome p s) := by
  cases rule with
  | unreachableTail => exact FoldM.dropUnreachable_ensures h
  | expressionStatements => exact FoldM.foldExpressionStatement_ensures h
  | conditionalExpr => exact FoldM.foldConditional_ensures h
  | logicalExpr => exact FoldM.foldLogical_ensures h
  | binaryExpr => exact FoldM.foldBinary_ensures h
  | unaryExpr => exact FoldM.foldUnary_ensures h
  | sequenceExpr => exact FoldM.foldSequence_ensures h
  | memberExpr => exact FoldM.foldMember_ensures h
  | emptyStatements => exact FoldM.dropEmptyStatement_ensures h
  | ifStatement => exact FoldM.foldIf_ensures h
  | loops => exact FoldM.foldLoop_ensures h
  | booleanLiterals => exact FoldM.minifyBoolean_ensures h

open FoldM in
theorem Rule.apply_root {s : FoldState} (h : s.Sound) (rule : Rule) :
    Ensures (rule.apply (.root (.node s.tree.root))) s fun r s' => r = none ∧ s' = s := by
  by_cases hk : (s.tree.node s.tree.root).kind ∈ rule.kinds
  · rw [h.program] at hk
    obtain rfl := eq_booleanLiterals_of_program hk
    simp only [apply, minifyBoolean, Path.node?, Path.value, Ref.node?]
    refine .read (getTree_run s) ?_
    split
    · exact .pure ⟨rfl, rfl⟩
    · refine .read (constant?_run s s.tree.root) ?_
      rw [h.value?_root]
      exact .pure ⟨rfl, rfl⟩
  · exact ⟨none, s, apply_of_kind rfl hk, rfl, rfl⟩

end ScriptFold

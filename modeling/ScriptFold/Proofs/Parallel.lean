import ScriptFold.Proofs.Rounds
import ScriptFold.Proofs.Unison

/-!
Two coupled runs walk alike. Both walks take the same steps at coupled nodes, each with its own
fuel. Constants are walked apart, since their nodes may differ, but nothing is changed below them.
-/

namespace ScriptFold

section Alone

variable {rules : List Rule} {next : Next FoldError FoldState} {s s' : FoldState} {p : Path}
  {id : NodeId} {key : Key} {fuel : Nat}

/-- What a walk of a slot comes to does not depend on whether its fuel was enough for it. -/
theorem Tame.once_advances (h : Tame rules next) (hs : s.Sound) (hp : p.Live s.tree)
    (hid : p.value.owner? = some id) (hf : ¬ s.tree.isFrozen id) {c : Command}
    (hrun : descend next fuel (p.step s.tree key) s = .ok c s') : Advances rules id s s' := by
  let cost := 30 * s.tree.loadAt s.tree.weight p.value key + key.slack
  have hall : ∀ m < fuel + cost + 2, Walks rules next m := fun m _ => h.walks m
  obtain ⟨_, _, hrun', hadvances, -⟩ := Walks.once h hall hs hp hid hf
    (show cost ≤ fuel + cost + 2 by omega)
  have hle : fuel ≤ fuel + cost + 1 := by omega
  cases (descend_of_le hle _ s c s' hrun).symm.trans hrun'
  exact hadvances

theorem walkFields_extends (more : Nat) :
    Extends (walkFields next fuel p id) (walkFields next (fuel + more) p id) :=
  Extends.bind (.refl _) fun _ =>
    Extends.forM (fun f => (descend_extends (fun _ => .refl _) fuel more).2.1 p (.field f)) _

/-- Below frozen nodes, and nodes with nothing below, a walk changes nothing. -/
theorem Tame.fields_idle (h : Tame rules next) (hs : s.Sound) (hp : p.Live s.tree)
    (hv : p.value = .node id) (hidle : s.tree.isFrozen id ∨ (s.tree.node id).fields = [])
    (hrun : walkFields next fuel p id s = .ok () s') : s' = s := by
  rcases hidle with hf | hfields
  · let cost := 6 * s.tree.extent id
    obtain ⟨_, _, hrun', hs'⟩ := (h.walksFrozen hs (fuel + cost)).fields hs hp hv hf
      (show cost ≤ fuel + cost + 1 by omega)
    cases (walkFields_extends cost s () s' hrun).symm.trans hrun'
    exact hs'
  · have hidle : walkFields next fuel p id s = .ok () s := by
      change ((s.tree.node id).fields.forM fun field => settle next fuel p (.field field)) s = _
      rw [hfields]
      rfl
    cases hrun.symm.trans hidle
    rfl

end Alone

theorem Stats.hits_record (s : Stats) (rule other : Rule) :
    (s.record rule).hits other = s.hits other + if other = rule then 1 else 0 := by
  have hbump : ∀ counts : List (Rule × Nat), ((Stats.bump rule counts).lookup other).getD 0 =
      (counts.lookup other).getD 0 + if other = rule then 1 else 0 := by
    intro counts
    induction counts with
    | nil =>
      rw [Stats.bump, List.lookup_cons, List.lookup_nil]
      by_cases hother : other = rule
      · simp [hother]
      · simp [hother, beq_eq_false_iff_ne.mpr hother]
    | cons e rest ih =>
      obtain ⟨r, n⟩ := e
      rw [Stats.bump]
      by_cases hr : r = rule
      · rw [if_pos hr, List.lookup_cons, List.lookup_cons]
        by_cases hother : other = r
        · simp [hother, hr]
        · simp [beq_eq_false_iff_ne.mpr hother, hr ▸ hother]
      · rw [if_neg hr, List.lookup_cons, List.lookup_cons]
        by_cases hother : other = r
        · simp [hother, hr]
        · simp only [beq_eq_false_iff_ne.mpr hother]
          exact ih
  exact hbump s.counts

namespace Coupling

variable {X Y : Coupling} {p p' : Path}

/-- Coupled runs in which every rule but the one on booleans fired equally often. -/
structure Even (X : Coupling) : Prop extends X.Sound where
  hits : ∀ rule ≠ Rule.booleanLiterals, X.short.stats.hits rule = X.plain.stats.hits rule

/-- Paths that are abreast and read off the trees. -/
structure Beside (X : Coupling) (p p' : Path) : Prop extends X.Even where
  abreast : X.Abreast p p'
  plain_live : p.Live X.plain.tree
  short_live : p'.Live X.short.tree

def withStats (X : Coupling) (stats stats' : Stats) : Coupling where
  plain := { X.plain with stats := stats }
  short := { X.short with stats := stats' }
  pairs := X.pairs

theorem Sound.withStats (h : X.Sound) (stats stats' : Stats) :
    X.Keeps (X.withStats stats stats') ∧ (X.withStats stats stats').Sound := by
  have hkeeps : X.Keeps (X.withStats stats stats') := ⟨id, .refl _, .refl _⟩
  exact ⟨hkeeps, ⟨h.root, fun hc => (h.nodes hc).mono fun htwin => htwin.mono hkeeps, h.plain_open,
    h.short_open, h.unique, h.plain_canonical, h.short_canonical⟩, h.plain, h.short⟩

theorem Owners.owner? {r r' : Ref} (h : X.Owners r r') :
    ∃ c c', X.pairs c c' ∧ r.owner? = some c ∧ r'.owner? = some c' := by
  cases h with
  | node hc => exact ⟨_, _, hc, rfl, rfl⟩
  | list hc => exact ⟨_, _, hc, rfl, rfl⟩

namespace Both

variable {α β : Type} {m : FoldM α} {m' : FoldM β} {Q : α → β → Coupling → Prop}

theorem congr {n : FoldM α} {n' : FoldM β} (hm : m X.plain = n X.plain)
    (hm' : m' X.short = n' X.short) (h : X.Both n n' Q) : X.Both m m' Q := by
  intro a s b s' hrun hrun'
  exact h a s b s' (hm ▸ hrun) (hm' ▸ hrun')

theorem halt (e : Halt FoldError) : X.Both (throw e : FoldM α) m' Q := by
  intro a s b s' hrun _
  cases hrun

theorem halt_right (e : Halt FoldError) : X.Both m (throw e : FoldM β) Q := by
  intro a s b s' _ hrun
  cases hrun

theorem idle (h : ∀ a s b s', m X.plain = .ok a s → m' X.short = .ok b s' →
    s = X.plain ∧ s' = X.short ∧ Q a b X) : X.Both m m' Q := by
  intro a s b s' hrun hrun'
  obtain ⟨rfl, rfl, hq⟩ := h a s b s' hrun hrun'
  exact ⟨X.pairs, .refl X, hq⟩

theorem forM {ι : Type} {xs : List ι} {f f' : ι → FoldM Unit} {I : Coupling → Prop} (h : I X)
    (hf : ∀ x ∈ xs, ∀ Y, X.Keeps Y → I Y → Y.Both (f x) (f' x) fun _ _ Z => I Z) :
    X.Both (xs.forM f) (xs.forM f') fun _ _ Y => I Y := by
  induction xs generalizing X with
  | nil => exact pure h
  | cons x xs ih =>
    refine (hf x (List.mem_cons_self ..) X (.refl X) h).bind fun _ _ Y hk hY => ih hY ?_
    exact fun y hy Z hk' => hf y (List.mem_cons_of_mem _ hy) Z (hk.trans hk')

end Both

theorem Beside.inward (h : X.Beside p p') {owner owner' a a' : NodeId}
    (hplain : X.plain.Open p owner a) (hshort : X.short.Open p' owner' a') {rule : Rule}
    (hrule : rule ≠ .booleanLiterals) {next next' : Next FoldError FoldState}
    (hnext : ∀ {Y : Coupling}, Y.Beside p p' → Y.plain = X.plain → Y.short = X.short →
      Y.Both (next p) (next' p') fun c c' Z => c'.isRetry = c.isRetry ∧ Z.Even) :
    X.Both (rule.stage.inward p next) (rule.stage.inward p' next')
      fun c c' Y => c'.isRetry = c.isRetry ∧ Y.Even := by
  have hopen : ¬ (p.node?.isNone || Rule.inFrozenNode X.plain.tree p) := by
    rw [hplain.node?, hplain.leads.inFrozenNode h.plain_live]
    simpa using hplain.writable
  have hopen' : ¬ (p'.node?.isNone || Rule.inFrozenNode X.short.tree p') := by
    rw [hshort.node?, hshort.leads.inFrozenNode h.short_live]
    simpa using hshort.writable
  unfold Rule.stage
  refine .read (FoldM.getTree_run _) (FoldM.getTree_run _) ?_
  rw [if_neg hopen, if_neg hopen']
  refine (((h.toSound.apply h.abreast hplain hshort hrule).and_ensures
    (rule.apply_ensures hplain) (rule.apply_ensures hshort)).and_runs
    (fun _ _ => (FoldM.uncounted_apply rule p).stats_eq)
    fun _ _ => (FoldM.uncounted_apply rule p').stats_eq).bind fun r r' Y hk hY => ?_
  obtain ⟨⟨⟨hretries, hlinked⟩, hr, hr'⟩, hstats, hstats'⟩ := hY
  have hsound : Y.Sound := ⟨hlinked, hr.1, hr'.1⟩
  cases r with
  | none =>
    cases r' with
    | some q' => cases hretries
    | none =>
      refine hnext ⟨⟨hsound, ?_⟩, h.abreast.mono hk, ?_, ?_⟩ hr.2 hr'.2
      · rw [hstats, hstats']
        exact h.hits
      · rw [hr.2]
        exact h.plain_live
      · rw [hr'.2]
        exact h.short_live
  | some q =>
    cases r' with
    | none => cases hretries
    | some q' =>
      intro c s c' s' hrun hrun'
      cases hrun
      cases hrun'
      obtain ⟨hkeeps, hsound⟩ := hsound.withStats (Y.plain.stats.record rule)
        (Y.short.stats.record rule)
      refine ⟨Y.pairs, hkeeps, rfl, hsound, fun other hother => ?_⟩
      change (Y.short.stats.record rule).hits other = (Y.plain.stats.record rule).hits other
      rw [Stats.hits_record, Stats.hits_record, hstats, hstats', h.hits other hother]

theorem Beside.inwardAll {rules : List Rule} (h : X.Beside p p') {owner owner' a a' : NodeId}
    (hplain : X.plain.Open p owner a) (hshort : X.short.Open p' owner' a')
    (hrules : Rule.booleanLiterals ∉ rules) :
    X.Both (Stage.inwardAll (rules.map Rule.stage) p fun _ => return .proceed)
      (Stage.inwardAll (rules.map Rule.stage) p' fun _ => return .proceed)
      fun c c' Y => c'.isRetry = c.isRetry ∧ Y.Even := by
  induction rules generalizing X with
  | nil => exact .pure ⟨rfl, h.toEven⟩
  | cons rule rules ih =>
    have hrule := (List.ne_of_not_mem_cons hrules).symm
    refine h.inward hplain hshort hrule fun hY hs hs' => ?_
    exact ih hY (hs ▸ hplain) (hs' ▸ hshort) (List.not_mem_of_not_mem_cons hrules)

/-- What two walkers may expect of the stages behind them. -/
def Pairs (next : Next FoldError FoldState) : Prop :=
  ∀ {X : Coupling} {p p' : Path} {owner owner' a a' : NodeId}, X.Beside p p' →
    X.plain.Open p owner a → X.short.Open p' owner' a' →
    X.Both (next p) (next p') fun c c' Y => c'.isRetry = c.isRetry ∧ Y.Even

theorem pairs_visit {pass : Pass} (hpass : pass ≠ .minify) : Pairs pass.visit := by
  intro X p p' owner owner' a a' h hplain hshort
  rw [pass.visit_of_node (by rw [hplain.node?]; rfl), pass.visit_of_node (by rw [hshort.node?]; rfl)]
  refine h.inwardAll hplain hshort ?_
  cases pass with
  | expressions | statements => decide
  | minify => exact absurd rfl hpass

variable {rules : List Rule} {next : Next FoldError FoldState} {fuel : Nat}

/-- With a given fuel of the one walk and any of the other, slots of coupled nodes are walked
alike. -/
structure WalksAlike (next : Next FoldError FoldState) (fuel : Nat) : Prop where
  once : ∀ {X : Coupling} {p p' : Path} {key : Key} (fuel' : Nat), X.Beside p p' →
    X.Owners p.value p'.value → X.Both (descend next fuel (p.step X.plain.tree key))
      (descend next fuel' (p'.step X.short.tree key))
      fun c c' Y => c'.isRetry = c.isRetry ∧ Y.Beside p p'
  settle : ∀ {X : Coupling} {p p' : Path} {key : Key} (fuel' : Nat), X.Beside p p' →
    X.Owners p.value p'.value →
    X.Both (settle next fuel p key) (settle next fuel' p' key) fun _ _ Y => Y.Beside p p'
  items : ∀ {X : Coupling} {p p' : Path} {i : Nat} (fuel' : Nat), X.Beside p p' →
    X.Owners p.value p'.value →
    X.Both (settleItems next fuel p i) (settleItems next fuel' p' i) fun _ _ Y => Y.Beside p p'

theorem WalksAlike.fields (hw : WalksAlike next fuel) (fuel' : Nat) (h : X.Beside p p')
    {a a' : NodeId} (hp : p.value = .node a) (hp' : p'.value = .node a') (ha : X.pairs a a') :
    X.Both (walkFields next fuel p a) (walkFields next fuel' p' a') fun _ _ Y => Y.Beside p p' := by
  refine .read (FoldM.getTree_run _) (FoldM.getTree_run _) ?_
  rw [(h.nodes ha).fields_eq]
  refine .forM h fun f _ Y hk hY => hw.settle fuel' hY ?_
  rw [hp, hp']
  exact .node (hk.pairs ha)

theorem Beside.opens {key : Key} {c c' : NodeId}
    (h : X.Beside (.child p key (.node c)) (.child p' key (.node c'))) :
    ∃ owner owner', X.plain.Open (.child p key (.node c)) owner c ∧
      X.short.Open (.child p' key (.node c')) owner' c' := by
  cases h.abreast with
  | child _ hr _ =>
    obtain ⟨o, o', ho, hp, hp'⟩ := hr.owner?
    obtain ⟨owner, hleads⟩ := Path.leads_of_read h.plain_live.2.symm
    obtain ⟨owner', hleads'⟩ := Path.leads_of_read h.short_live.2.symm
    obtain rfl : owner = o := Option.some.inj (hleads.owner?.symm.trans hp)
    obtain rfl : owner' = o' := Option.some.inj (hleads'.owner?.symm.trans hp')
    exact ⟨owner, owner', ⟨h.plain, hleads, (h.plain_open ho).2⟩,
      h.short, hleads', (h.short_open ho).2⟩

/-- Below twins that are not coupled nothing is changed, and below coupled nodes the same. -/
theorem Beside.fields (ht : Tame rules next) (hw : WalksAlike next fuel) (fuel' : Nat) {key : Key}
    {c c' : NodeId} (h : X.Beside (.child p key (.node c)) (.child p' key (.node c'))) :
    X.Both (walkFields next fuel (.child p key (.node c)) c)
      (walkFields next fuel' (.child p' key (.node c')) c')
      fun _ _ Y => Y.Beside (.child p key (.node c)) (.child p' key (.node c')) := by
  have idle (hc : X.plain.tree.isFrozen c ∨ (X.plain.tree.node c).fields = [])
      (hc' : X.short.tree.isFrozen c' ∨ (X.short.tree.node c').fields = []) :
      X.Both (walkFields next fuel (.child p key (.node c)) c)
        (walkFields next fuel' (.child p' key (.node c')) c')
        fun _ _ Y => Y.Beside (.child p key (.node c)) (.child p' key (.node c')) :=
    .idle fun _ _ _ _ hrun hrun' => ⟨ht.fields_idle h.plain h.plain_live rfl hc hrun,
      ht.fields_idle h.short h.short_live rfl hc' hrun', h⟩
  have htwin : X.Twin c c' := by
    cases h.abreast.sights with
    | node hc => exact hc
  cases htwin with
  | pair hc => exact hw.fields fuel' h rfl rfl hc
  | value hv hv' =>
    exact idle (.inl (h.plain.spells hv).isFrozen) (.inl (h.short.spells hv').isFrozen)
  | truth hn hv' =>
    refine idle (.inr ?_) (.inl (h.short.spells hv').isFrozen)
    rw [hn]
    rfl
  | empty hf _ hf' _ => exact idle (.inl hf) (.inl hf')

theorem Beside.descend (ht : Tame rules next) (hpairs : Pairs next) (hw : WalksAlike next fuel)
    (fuel' : Nat) {key : Key} {v v' : Ref} (h : X.Beside (.child p key v) (.child p' key v')) :
    X.Both (descend next (fuel + 1) (.child p key v)) (descend next (fuel' + 1) (.child p' key v'))
      fun c c' Y => c'.isRetry = c.isRetry ∧ Y.Even := by
  have hv := h.abreast.sights
  cases hv with
  | null =>
    rw [descend_null rfl, descend_null rfl]
    exact .pure ⟨rfl, h.toEven⟩
  | list hc =>
    rw [descend_list rfl, descend_list rfl]
    refine (hw.items fuel' h (.list hc)).bind fun _ _ Y _ hY => .idle fun c s c' s' hrun hrun' => ?_
    obtain ⟨hretry, rfl⟩ := Ensures.of_ok (ht.plain rfl) hrun
    obtain ⟨hretry', rfl⟩ := Ensures.of_ok (ht.plain rfl) hrun'
    exact ⟨rfl, rfl, hretry'.trans hretry.symm, hY.toEven⟩
  | node hc =>
    rw [descend_node rfl, descend_node rfl]
    refine (h.fields ht hw fuel').bind fun _ _ Y _ hY => ?_
    obtain ⟨owner, owner', hplain, hshort⟩ := hY.opens
    exact hpairs hY hplain hshort

theorem walksAlike (ht : Tame rules next) (hpairs : Pairs next) (fuel : Nat) :
    WalksAlike next fuel := by
  induction fuel with
  | zero =>
    refine ⟨fun fuel' h hr => ?_, fun fuel' h hr => ?_, fun fuel' h hr => ?_⟩
    · rw [descend]
      exact .halt _
    · rw [settle]
      exact .halt _
    · rw [settleItems]
      exact .halt _
  | succ fuel ih =>
    refine ⟨fun {X p p' key} fuel' h hr => ?_, fun {X p p' key} fuel' h hr => ?_,
      fun {X p p' i} fuel' h hr => ?_⟩
    · cases fuel' with
      | zero =>
        simp only [descend]
        exact .halt_right _
      | succ fuel' =>
        have hq : X.Beside (p.step X.plain.tree key) (p'.step X.short.tree key) :=
          ⟨h.toEven, .child h.abreast hr (h.read hr key), ⟨h.plain_live, rfl⟩, h.short_live, rfl⟩
        obtain ⟨o, o', ho, hp, hp'⟩ := hr.owner?
        -- each run by itself leaves the path to the slot true
        refine ((hq.descend ht hpairs ih fuel').and_runs
          (fun c s hrun => ht.once_advances h.plain h.plain_live hp (h.plain_open ho).2 hrun)
          fun c s hrun => ht.once_advances h.short h.short_live hp' (h.short_open ho).2 hrun).mono
          fun c c' Y hk hY => ?_
        obtain ⟨⟨hc, heven⟩, hadvances, hadvances'⟩ := hY
        exact ⟨hc, heven, h.abreast.mono hk, hadvances.toEvolves.live h.plain_live hp .refl,
          hadvances'.toEvolves.live h.short_live hp' .refl⟩
    · cases fuel' with
      | zero =>
        simp only [settle]
        exact .halt_right _
      | succ fuel' =>
        rw [settle, settle]
        refine .read (FoldM.getTree_run _) (FoldM.getTree_run _) ?_
        refine (ih.once fuel' h hr).bind fun c c' Y hk hY => ?_
        rw [hY.1]
        split
        · exact ih.settle fuel' hY.2 (hr.mono hk)
        · exact .pure hY.2
    · cases fuel' with
      | zero =>
        simp only [settleItems]
        exact .halt_right _
      | succ fuel' =>
        rw [settleItems, settleItems]
        refine .read (FoldM.getTree_run _) (FoldM.getTree_run _) ?_
        rw [h.listLength?_eq hr]
        split
        · refine (ih.settle fuel' h hr).bind fun _ _ Y hk hY => ?_
          exact ih.items fuel' hY (hr.mono hk)
        · exact .pure h

theorem Even.run (h : X.Even) {pass : Pass} (hpass : pass ≠ .minify) :
    X.Both pass.run pass.run fun _ _ Y => Y.Even := by
  have hw := walksAlike pass.tame (pairs_visit hpass)
  have hbeside : X.Beside (.ofNode X.plain.tree.root) (.ofNode X.short.tree.root) :=
    ⟨h, .root h.root, rfl, rfl⟩
  refine .congr (pass.run_eq X.plain) (pass.run_eq X.short) ?_
  generalize X.plain.tree.walkFuel = fuel, X.short.tree.walkFuel = fuel'
  cases fuel with
  | zero =>
    simp only [descend]
    exact .halt _
  | succ fuel =>
    cases fuel' with
    | zero =>
      simp only [descend]
      exact .halt_right _
    | succ fuel' =>
      rw [descend_node rfl, descend_node rfl]
      refine .bind (((hw fuel).fields fuel' hbeside rfl rfl h.root).bind
        fun _ _ Y _ hY => .idle fun _ s _ s' hrun hrun' => ?_) fun _ _ Y _ hY => .pure hY
      -- no rule applies to the program itself
      have hroot : Path.ofNode X.plain.tree.root = .root (.node Y.plain.tree.root) :=
        congrArg Path.root hY.plain_live
      have hroot' : Path.ofNode X.short.tree.root = .root (.node Y.short.tree.root) :=
        congrArg Path.root hY.short_live
      rw [hroot] at hrun
      rw [hroot'] at hrun'
      have hs := Ensures.of_ok (pass.tame.root hY.plain) hrun
      have hs' := Ensures.of_ok (pass.tame.root hY.short) hrun'
      exact ⟨hs, hs', hY.toEven⟩

end Coupling

end ScriptFold

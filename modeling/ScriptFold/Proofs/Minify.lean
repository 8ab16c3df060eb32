import ScriptFold.Proofs.Parallel

/-!
Writing booleans shorter keeps two runs coupled. What the pass of one run puts in the place of a
boolean is a twin of what stands there in the other run, so rounds with and without that pass come
to coupled results, however many of them each run takes.
-/

namespace ScriptFold

namespace Slot

variable {α β : Type} {b : β}

/-- A child that takes the place of its twin, where it stands already, leaves the slot as it is. -/
theorem exists_child_self {slot : Slot (α × β)}
    (h : slot.map Prod.snd = .required b ∨ slot.map Prod.snd = .optional (some b)) :
    ∃ e ∈ slot.children, e.2 = b ∧
      (slot.map Prod.fst).change? (.child (some e.1)) = some (slot.map Prod.fst) := by
  cases slot with
  | required e =>
    rcases h with h | h
    · exact ⟨e, List.mem_singleton_self e, Slot.required.inj h, rfl⟩
    · cases h
  | optional o =>
    rcases h with h | h
    · cases h
    · obtain ⟨e, rfl, hb⟩ := Option.map_eq_some_iff.mp (Slot.optional.inj h)
      exact ⟨e, List.mem_singleton_self e, hb, rfl⟩
  | list _ | holey _ => rcases h with h | h <;> cases h

theorem exists_item_self {slot : Slot (α × β)} {items : List (Option β)} {i : Nat}
    (h : (slot.map Prod.snd).items? = some items) (hi : items[i]? = some (some b)) :
    ∃ e ∈ slot.children, e.2 = b ∧
      (slot.map Prod.fst).change? (.item i (some e.1)) = some (slot.map Prod.fst) := by
  rw [items?_map] at h
  obtain ⟨entries, hentries, rfl⟩ := Option.map_eq_some_iff.mp h
  rw [List.getElem?_map, Option.map_eq_some_iff] at hi
  obtain ⟨_, hi, hmap⟩ := hi
  obtain ⟨e, rfl, hb⟩ := Option.map_eq_some_iff.mp hmap
  refine ⟨e, (mem_children_of_items? hentries).mpr (List.mem_of_getElem? hi), hb, ?_⟩
  obtain ⟨hlt, hget⟩ := List.getElem?_eq_some_iff.mp hi
  have hfst : (slot.map Prod.fst).items? = some (entries.map (Option.map Prod.fst)) := by
    rw [items?_map, hentries]
    rfl
  rw [change?_eq_bind hfst, changeItems?, if_pos (by rwa [List.length_map]), Option.map_some]
  refine congrArg some ?_
  have hset : (entries.map (Option.map Prod.fst)).set i (some e.1) =
      entries.map (Option.map Prod.fst) := by
    rw [← Option.map_some (f := Prod.fst) (a := e), ← List.map_set, ← hget, List.set_getElem_self]
  rw [Option.elim_some, hset, setItems_self hfst]

end Slot

namespace Coupling

variable {X Y : Coupling} {c c' : NodeId} {p p' : Path}

theorem Linked.exists_twin (h : X.Linked) (hc : X.pairs c c') {d' : NodeId}
    (hd : X.short.tree.Child d' c') : ∃ d, X.Twin d d' := by
  obtain ⟨m, -, hn', hm⟩ := h.nodes hc
  rw [Tree.Child, ← hn', Node.children_map] at hd
  obtain ⟨e, he, rfl⟩ := List.mem_map.mp hd
  exact ⟨e.1, hm e he⟩

theorem Sound.exists_pair (h : X.Sound) (hw : X.short.tree.Within c' X.short.tree.root)
    (hf : ¬ X.short.tree.isFrozen c') : ∃ c, X.pairs c c' := by
  induction hw using Relation.ReflTransGen.head_induction_on with
  | refl => exact ⟨_, h.root⟩
  | @head c' d' hchild _ ih =>
    obtain ⟨d, hd⟩ := ih fun hfd => hf (h.short.isFrozen_child hfd hchild)
    obtain ⟨c, hc⟩ := h.exists_twin hd hchild
    cases hc with
    | pair hc => exact ⟨c, hc⟩
    | value _ hv => exact absurd (h.short.spells hv).isFrozen hf
    | truth _ hv => exact absurd (h.short.spells hv).isFrozen hf
    | empty _ _ hf' _ => exact absurd hf' hf

theorem Sound.twin_bool (h : X.Sound) {b : Bool} (hv : X.plain.value? c = some (.bool b))
    (hb : X.short.Holds (.bool b) c') : X.Twin c c' := by
  rcases h.plain.value?_cases hv with hp | ⟨-, ⟨l, hn, hl⟩ | ⟨_, _, -, -, hx⟩ | ⟨_, _, -, hx, -⟩⟩
  · exact .value hp hb
  · cases l <;> cases hl
    exact .truth hn hb
  · cases hx
  · cases hx

theorem Linked.slot?_of_short (h : X.Linked) {owner owner' : NodeId} (ho : X.pairs owner owner')
    {f : Field} {slot' : Slot NodeId} (hs' : X.short.tree.slot? owner' f = some slot') :
    ∃ slot : Slot (NodeId × NodeId), X.plain.tree.slot? owner f = some (slot.map Prod.fst) ∧
      slot.map Prod.snd = slot' ∧ ∀ e ∈ slot.children, X.Twin e.1 e.2 := by
  obtain ⟨slot, hslot, hslot', hm⟩ := (h.nodes ho).slot?_eq f
  obtain ⟨slot, rfl, hmap⟩ := Option.map_eq_some_iff.mp (hslot'.symm.trans hs')
  exact ⟨slot, hslot, hmap, hm slot rfl⟩

/-- A constant of the second run takes the place of a boolean there. The first run has a twin of it
in that place already. -/
theorem Sound.putBool (h : X.Sound) {owner owner' b' : NodeId} {b : Bool} (ho : X.pairs owner owner')
    (hb : X.short.Holds (.bool b) b') (hc : X.Twin c c') (hv : X.short.value? c' = some (.bool b))
    {f : Field} {slot : Slot NodeId} (hslot : X.plain.tree.slot? owner f = some slot)
    (ch : Slot.Change (NodeId × NodeId)) (hch : ch.children = [(c, b')])
    (hself : slot.change? (ch.map Prod.fst) = some slot) {t' : Tree}
    (ht' : X.short.tree.Changes owner' f (ch.map Prod.snd) t') :
    X.Keeps (X.withTrees X.plain.tree t') ∧ (X.withTrees X.plain.tree t').Linked := by
  have htwin : X.Twin c b' := h.twin_bool ((h.value?_eq hc).symm.trans hv) hb
  refine h.change ho ch (fun e he => ?_) ⟨slot, slot, hslot, hself, ?_⟩ ht'
  · rw [hch, List.mem_singleton] at he
    rwa [he]
  · rw [Node.setSlot_self hslot]
    exact Tree.sets_self (h.plain_open ho).2

theorem Sound.replaceBool (h : X.Sound) {owner owner' a' b' : NodeId} {b : Bool}
    (ho : X.pairs owner owner') (hp : p'.Leads X.short.tree owner' a')
    (hv : X.short.value? a' = some (.bool b)) (hb : X.short.Holds (.bool b) b') {q : Path} {t' : Tree}
    (hrun : X.short.tree.replace p' b' = .ok (q, t')) :
    X.Keeps (X.withTrees X.plain.tree t') ∧ (X.withTrees X.plain.tree t').Linked := by
  obtain ⟨parent, key, v, rfl⟩ : ∃ parent key v, p' = .child parent key v := by
    cases hp <;> exact ⟨_, _, _, rfl⟩
  obtain ⟨⟨changed, t₁⟩, hwrite, hpair⟩ := Tree.exists_of_bind hrun
  cases hpair
  cases hp with
  | required hparent hs' =>
    obtain ⟨slot, hslot, hmap, hm⟩ := h.slot?_of_short ho hs'
    obtain ⟨e, he, rfl, hself⟩ := Slot.exists_child_self (.inl hmap)
    rw [hparent] at hwrite
    exact h.putBool ho hb (hm e he) hv hslot (.child (some (e.1, b'))) rfl hself
      (Tree.write_field_changes hwrite)
  | optional hparent hs' =>
    obtain ⟨slot, hslot, hmap, hm⟩ := h.slot?_of_short ho hs'
    obtain ⟨e, he, rfl, hself⟩ := Slot.exists_child_self (.inr hmap)
    rw [hparent] at hwrite
    exact h.putBool ho hb (hm e he) hv hslot (.child (some (e.1, b'))) rfl hself
      (Tree.write_field_changes hwrite)
  | item hparent hs' hi' hget =>
    obtain ⟨slot, hslot, rfl, hm⟩ := h.slot?_of_short ho hs'
    obtain ⟨e, he, rfl, hself⟩ := Slot.exists_item_self hi' hget
    rw [hparent] at hwrite
    exact h.putBool ho hb (hm e he) hv hslot (.item _ (some (e.1, b'))) rfl hself
      (Tree.write_item_changes hwrite)

/-- What the rule on booleans does where it fires. -/
theorem minifyBoolean_fires {s s' : FoldState} {owner a : NodeId} (h : s.Open p owner a) {q : Path}
    (hrun : FoldM.minifyBoolean p s = .ok (some q) s') : ∃ b b' s₁ t',
    s.value? a = some (.bool b) ∧ FoldM.store (fun s => s.minifiedBool b) s = .ok b' s₁ ∧
      s₁.tree.replace p b' = .ok (q, t') ∧ s' = { s₁ with tree := t' } := by
  unfold FoldM.minifyBoolean at hrun
  rw [h.node?] at hrun
  obtain ⟨_, _, hget, hrun⟩ := exists_run_of_bind hrun
  cases hget
  by_cases hm : ((HasTree.tree s).flags a).minified
  · rw [if_pos hm] at hrun
    cases hrun
  rw [if_neg hm] at hrun
  obtain ⟨_, _, hconstant, hrun⟩ := exists_run_of_bind hrun
  rw [FoldM.constant?_run] at hconstant
  cases hconstant
  cases hv : s.value? a with
  | none =>
    rw [hv] at hrun
    cases hrun
  | some v =>
    rw [hv] at hrun
    cases v with
    | bool b =>
      obtain ⟨b', s₁, hstore, hrun⟩ := exists_run_of_bind hrun
      obtain ⟨q', s₂, hreplace, hrun⟩ := exists_run_of_bind hrun
      obtain ⟨t', hwritten, rfl⟩ := edit_ok hreplace
      cases hrun
      exact ⟨b, b', s₁, t', rfl, hstore, hwritten, rfl⟩
    | _ => cases hrun

theorem Even.fire (h : X.Even) {s' : FoldState}
    (hf : FoldState.Firing [.booleanLiterals] X.short s') : Even ⟨X.plain, s', X.pairs⟩ := by
  cases hf with
  | @intro rule p q s₁ hrule hp hnode hfrozen hrun =>
    obtain rfl := List.mem_singleton.mp hrule
    rcases FoldState.open_of_live h.short hp hnode hfrozen with rfl | ⟨owner, a, hopen⟩
    · cases (Ensures.of_ok (Rule.apply_root h.short .booleanLiterals) hrun).1
    have hsound := (Ensures.of_ok (Rule.booleanLiterals.apply_ensures hopen) hrun).1
    obtain ⟨o, ho⟩ := h.toSound.exists_pair (hp.owner_within_root hopen.leads) hopen.writable
    obtain ⟨b, b', s₂, t', hv, hstore, hwritten, rfl⟩ := minifyBoolean_fires hopen hrun
    obtain ⟨hs₂, hg, hb, -⟩ := Ensures.of_ok (FoldM.minifiedBool_ensures h.short b) hstore
    cases hstore
    obtain ⟨hkeeps, hgrown⟩ := h.toSound.grow h.plain hs₂ (.refl _) hg h.plain_canonical
      (h.short_canonical.minifiedBool b)
    obtain ⟨-, hlinked⟩ := hgrown.replaceBool (hkeeps.pairs ho) (hopen.grows hs₂ hg).leads
      (h.short.value?_of_grows hs₂ hg hv) hb hwritten
    have hsound : Sound ⟨X.plain, _, X.pairs⟩ := ⟨hlinked, h.plain, hsound⟩
    refine ⟨(hsound.withStats X.plain.stats (X.short.stats.record .booleanLiterals)).2,
      fun other hother => ?_⟩
    change (X.short.stats.record .booleanLiterals).hits other = X.plain.stats.hits other
    rw [Stats.hits_record, if_neg hother, Nat.add_zero, h.hits other hother]

theorem Even.reach (h : X.Even) {s' : FoldState}
    (hr : FoldState.Reaches [.booleanLiterals] X.short s') : Even ⟨X.plain, s', X.pairs⟩ := by
  induction hr with
  | refl => exact h
  | tail _ hf ih => exact ih.fire hf

theorem Even.closePlain (h : X.Even) : Even ⟨X.plain.closeRound, X.short, X.pairs⟩ :=
  ⟨(h.toSound.withStats _ _).2, h.hits⟩

theorem Even.closeShort (h : X.Even) : Even ⟨X.plain, X.short.closeRound, X.pairs⟩ :=
  ⟨(h.toSound.withStats _ _).2, h.hits⟩

end Coupling

section Rounds

def Pass.shared : List Pass :=
  [.expressions, .statements]

/-- A state that the passes of every round leave as it is. -/
def FoldState.Still (s : FoldState) : Prop :=
  Pass.shared.forM Pass.run s = .ok () s

variable {options : Options} {s s' : FoldState} {changed : Bool}

theorem FoldState.still_of_silent (hs : s.Sound) (h : s.Silent options.rules) : s.Still := by
  have hmem : ∀ pass ∈ Pass.shared, pass ∈ options.passes := by
    unfold Pass.shared Options.passes
    split <;> simp
  have hrun : ∀ pass ∈ Pass.shared, pass.run s = .ok () s := fun pass hpass =>
    pass.run_of_silent hs fun rule hrule => h rule (Options.rules_subset (hmem pass hpass) hrule)
  change EStateM.bind (Pass.expressions.run) _ s = _
  rw [EStateM.bind, hrun .expressions (by decide)]
  change EStateM.bind (Pass.statements.run) _ s = _
  rw [EStateM.bind, hrun .statements (by decide)]
  rfl

/-- A round that changes nothing is the last one of a run that has come to rest. -/
theorem Options.still_of_idle (hs : s.Sound) (hrun : options.round s = .ok false s') :
    s' = s.closeRound ∧ s'.Still := by
  obtain ⟨_, _, hrun', s₁, -, rfl, hback⟩ := options.round_ensures hs
  cases hrun.symm.trans hrun'
  obtain ⟨rfl, hsilent⟩ := hback
  have hsound : s₁.closeRound.Sound := hs
  exact ⟨rfl, FoldState.still_of_silent hsound (hsilent.recount _)⟩

theorem Options.round_cases (hs : s.Sound) (hrun : options.round s = .ok changed s') :
    ∃ s₁ s₂, Pass.shared.forM Pass.run s = .ok () s₁ ∧ s₁.Reaches [.booleanLiterals] s₂ ∧
      (options.minifyBooleans = false → s₂ = s₁) ∧ s' = s₂.closeRound := by
  unfold round at hrun
  obtain ⟨_, _, hget, hrun⟩ := exists_run_of_bind hrun
  cases hget
  obtain ⟨_, s₂, hpasses, hrun⟩ := exists_run_of_bind hrun
  cases hrun
  cases hm : options.minifyBooleans with
  | false =>
    rw [passes, hm] at hpasses
    exact ⟨s₂, s₂, hpasses, .refl, fun _ => rfl, rfl⟩
  | true =>
    have hsplit : options.passes = Pass.shared ++ [Pass.minify] := by
      rw [passes, hm]
      rfl
    rw [hsplit] at hpasses
    change forM (Pass.shared ++ [Pass.minify]) Pass.run s = _ at hpasses
    rw [List.forM_append] at hpasses
    obtain ⟨_, s₁, hshared, hpasses⟩ := exists_run_of_bind hpasses
    obtain ⟨_, _, hminify, hpasses⟩ := exists_run_of_bind hpasses
    cases hpasses
    have hs₁ : s₁.Sound := by
      have hsub : ∀ pass ∈ Pass.shared, pass.rules ⊆ Pass.shared.flatMap Pass.rules :=
        fun pass hpass rule hrule => List.mem_flatMap.mpr ⟨pass, hpass, hrule⟩
      exact (Ensures.of_ok (passes_ensures Pass.shared hs hsub) hshared).1.sound hs
    have hreach := Ensures.of_ok (Pass.minify.run_ensures hs₁) hminify
    exact ⟨s₁, s₂, hshared, hreach.1, fun hx => (by cases hx), rfl⟩

end Rounds

namespace Coupling

variable {X : Coupling} {options options' : Options} {s s' : FoldState} {changed changed' : Bool}
  {limit limit' : Nat}

theorem Even.shared (h : X.Even) (hrun : Pass.shared.forM Pass.run X.plain = .ok () s)
    (hrun' : Pass.shared.forM Pass.run X.short = .ok () s') : ∃ pairs, Even ⟨s, s', pairs⟩ := by
  have hboth : X.Both (Pass.shared.forM Pass.run) (Pass.shared.forM Pass.run) fun _ _ Y => Y.Even :=
    .forM h fun pass hpass Y _ hY => hY.run (by rintro rfl; revert hpass; decide)
  obtain ⟨pairs, -, heven⟩ := hboth () s () s' hrun hrun'
  exact ⟨pairs, heven⟩

theorem Even.round (h : X.Even) (hm : options.minifyBooleans = false)
    (hrun : options.round X.plain = .ok changed s)
    (hrun' : options'.round X.short = .ok changed' s') : ∃ pairs, Even ⟨s, s', pairs⟩ := by
  obtain ⟨s₁, s₂, hshared, -, hskip, rfl⟩ := Options.round_cases h.plain hrun
  obtain ⟨s₁', s₂', hshared', hreach', -, rfl⟩ := Options.round_cases h.short hrun'
  obtain ⟨pairs, heven⟩ := h.shared hshared hshared'
  obtain rfl := hskip hm
  exact ⟨pairs, (heven.reach hreach').closeShort.closePlain⟩

/-- A round of the second run, when the first has come to rest. -/
theorem Even.round_short (h : X.Even) (hstill : X.plain.Still)
    (hrun' : options'.round X.short = .ok changed' s') : ∃ pairs, Even ⟨X.plain, s', pairs⟩ := by
  obtain ⟨s₁', s₂', hshared', hreach', -, rfl⟩ := Options.round_cases h.short hrun'
  obtain ⟨pairs, heven⟩ := h.shared hstill hshared'
  exact ⟨pairs, (heven.reach hreach').closeShort⟩

theorem Even.round_plain (h : X.Even) (hm : options.minifyBooleans = false)
    (hstill : X.short.Still) (hrun : options.round X.plain = .ok changed s) :
    ∃ pairs, Even ⟨s, X.short, pairs⟩ := by
  obtain ⟨s₁, s₂, hshared, -, hskip, rfl⟩ := Options.round_cases h.plain hrun
  obtain ⟨pairs, heven⟩ := h.shared hshared hstill
  obtain rfl := hskip hm
  exact ⟨pairs, heven.closePlain⟩

theorem Even.converge_short (hplain : s.Still) {t t' : FoldState}
    (hc : options'.Converges limit' t t') {pairs : NodeId → NodeId → Prop}
    (h : Even ⟨s, t, pairs⟩) : ∃ pairs, Even ⟨s, t', pairs⟩ := by
  induction hc generalizing pairs with
  | idle hround => exact h.round_short hplain hround
  | busy hround _ ih =>
    obtain ⟨_, heven⟩ := h.round_short hplain hround
    exact ih heven

theorem Even.converge_plain (hm : options.minifyBooleans = false) (hshort : s'.Still)
    {t t' : FoldState} (hc : options.Converges limit t t') {pairs : NodeId → NodeId → Prop}
    (h : Even ⟨t, s', pairs⟩) : ∃ pairs, Even ⟨t', s', pairs⟩ := by
  induction hc generalizing pairs with
  | idle hround => exact h.round_plain hm hshort hround
  | busy hround _ ih =>
    obtain ⟨_, heven⟩ := h.round_plain hm hshort hround
    exact ih heven

/-- Two runs that both come to rest are coupled at the end, however many rounds each took. -/
theorem Even.converge (hm : options.minifyBooleans = false) {s₁ s₁' : FoldState}
    (hc : options.Converges limit s s₁) (hc' : options'.Converges limit' s' s₁')
    {pairs : NodeId → NodeId → Prop} (h : Even ⟨s, s', pairs⟩) :
    ∃ pairs, Even ⟨s₁, s₁', pairs⟩ := by
  -- on the rounds of the first run; the second may come to rest before it or after it
  induction hc generalizing limit' s' pairs with
  | idle hround =>
    obtain ⟨rfl, hstill⟩ := Options.still_of_idle h.plain hround
    exact h.closePlain.converge_short hstill hc'
  | busy hround hrest ih =>
    cases hc' with
    | idle hround' =>
      obtain ⟨rfl, hstill⟩ := Options.still_of_idle h.short hround'
      exact h.closeShort.converge_plain hm hstill (.busy hround hrest)
    | busy hround' hrest' =>
      obtain ⟨_, heven⟩ := h.round hm hround hround'
      exact ih hrest' heven

end Coupling

end ScriptFold

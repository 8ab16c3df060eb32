import ScriptFold.Proofs.Lockstep

/-!
The rules on statements do the same to coupled nodes, and so does every rule but the one on
booleans wherever two paths are abreast.
-/

namespace ScriptFold

namespace Coupling

variable {X Y : Coupling} {c c' : NodeId} {p p' : Path}

open FoldM

theorem Sound.isHoisted_eq (h : X.Sound) (hc : X.Twin c c') :
    (X.short.tree.node c').isHoisted = (X.plain.tree.node c).isHoisted :=
  h.view hc Node.isHoisted false
    (fun m => by
      cases m <;> try rfl
      case variableDeclaration declarations kind => cases kind <;> rfl)
    fun n hn => by cases n <;> simp [Node.kind] at hn <;> rfl

theorem Sound.hoisted_cases (h : X.Sound) (items : List (Option (NodeId × NodeId)))
    (hm : ∀ e, some e ∈ items → X.Twin e.1 e.2) : ∃ kept : List (NodeId × NodeId),
    (((items.map (Option.map Prod.fst)).filterMap id).filter fun c =>
      (X.plain.tree.node c).isHoisted) = kept.map Prod.fst ∧
    (((items.map (Option.map Prod.snd)).filterMap id).filter fun c =>
      (X.short.tree.node c).isHoisted) = kept.map Prod.snd ∧ ∀ e ∈ kept, X.Twin e.1 e.2 := by
  have hitems : ∀ e ∈ items.filterMap id, X.Twin e.1 e.2 := fun e he => by
    obtain ⟨_, he, rfl⟩ := List.mem_filterMap.mp he
    exact hm e he
  refine ⟨(items.filterMap id).filter fun e => (X.plain.tree.node e.1).isHoisted, ?_, ?_, ?_⟩
  · exact (congrArg _ (List.reduceOption_map ..)).trans (List.filter_map ..)
  · refine ((congrArg _ (List.reduceOption_map ..)).trans (List.filter_map ..)).trans ?_
    exact congrArg _ (List.filter_congr fun e he => h.isHoisted_eq (hitems e he))
  · exact fun e he => hitems e (List.mem_filter.mp he).1

theorem Sound.expression?_cases (h : X.Sound) (hc : X.Twin c c') :
    ∃ e : Option (NodeId × NodeId), (X.plain.tree.node c).expression? = e.map Prod.fst ∧
      (X.short.tree.node c').expression? = e.map Prod.snd ∧ ∀ x ∈ e, X.Twin x.1 x.2 := by
  rcases h.matches_or_value hc with ⟨m, hn, hn', hm⟩ | ⟨v, hv, hv'⟩
  · rw [← hn, ← hn']
    refine ⟨m.expression?, ?_, ?_, fun x hx => ?_⟩
    · cases m <;> rfl
    · cases m <;> rfl
    · cases m <;> cases hx
      exact hm _ (by simp [Node.children, Node.slots, Slot.children])
  · refine ⟨none, ?_, ?_, fun x hx => by cases hx⟩
    · have hk := h.plain.kind_of_value? hv
      cases hn : X.plain.tree.node c <;> rw [hn] at hk <;> simp [Node.kind] at hk <;> rfl
    · have hk := h.short.kind_of_value? hv'
      cases hn : X.short.tree.node c' <;> rw [hn] at hk <;> simp [Node.kind] at hk <;> rfl

theorem Sound.sequenceItems_cases (h : X.Sound) (hc : X.Twin c c') :
    ∃ es : List (NodeId × NodeId), sequenceItems X.plain.tree c = es.map Prod.fst ∧
      sequenceItems X.short.tree c' = es.map Prod.snd ∧ ∀ e ∈ es, X.Twin e.1 e.2 := by
  have single : ∃ es : List (NodeId × NodeId), [c] = es.map Prod.fst ∧ [c'] = es.map Prod.snd ∧
      ∀ e ∈ es, X.Twin e.1 e.2 := by
    refine ⟨[(c, c')], rfl, rfl, fun e he => ?_⟩
    obtain rfl := List.mem_singleton.mp he
    exact hc
  unfold sequenceItems
  rcases h.matches_or_value hc with ⟨m, hn, hn', hm⟩ | ⟨v, hv, hv'⟩
  · rw [← hn, ← hn']
    cases m
    case sequenceExpression es =>
      exact ⟨es, rfl, rfl, fun e he => hm e (by simpa [Node.children, Node.slots, Slot.children] using he)⟩
    all_goals exact single
  · have hk := h.plain.kind_of_value? hv
    have hk' := h.short.kind_of_value? hv'
    split
    · rename_i hn
      rw [hn] at hk
      simp [Node.kind] at hk
    · split
      · rename_i hn
        rw [hn] at hk'
        simp [Node.kind] at hk'
      · exact single

theorem Sound.expressionRun_cases (h : X.Sound) (items : List (Option (NodeId × NodeId)))
    (hm : ∀ e, some e ∈ items → X.Twin e.1 e.2) : ∃ run : List (NodeId × NodeId),
    expressionRun X.plain.tree (items.map (Option.map Prod.fst)) = run.map Prod.fst ∧
    expressionRun X.short.tree (items.map (Option.map Prod.snd)) = run.map Prod.snd ∧
      ∀ e ∈ run, X.Twin e.1 e.2 := by
  have empty : ∃ run : List (NodeId × NodeId), ([] : List NodeId) = run.map Prod.fst ∧
      ([] : List NodeId) = run.map Prod.snd ∧ ∀ e ∈ run, X.Twin e.1 e.2 :=
    ⟨[], rfl, rfl, fun e he => by cases he⟩
  induction items with
  | nil => exact empty
  | cons item items ih =>
    cases item with
    | none => exact empty
    | some st =>
      obtain ⟨e, he, he', htwin⟩ := h.expression?_cases (hm st (List.mem_cons_self ..))
      simp only [List.map_cons, Option.map_some, expressionRun, he, he']
      cases e with
      | none => exact empty
      | some e =>
        obtain ⟨run, hrun, hrun', htwins⟩ := ih fun e he => hm e (List.mem_cons_of_mem _ he)
        refine ⟨e :: run, congrArg _ hrun, congrArg _ hrun', fun x hx => ?_⟩
        rcases List.mem_cons.mp hx with rfl | hx
        · exact htwin _ rfl
        · exact htwins x hx

theorem Sound.merge_cases (h : X.Sound) {run : List (NodeId × NodeId)}
    (hm : ∀ e ∈ run, X.Twin e.1 e.2) : ∃ es : List (NodeId × NodeId),
    (run.map Prod.fst).flatMap (sequenceItems X.plain.tree) = es.map Prod.fst ∧
    (run.map Prod.snd).flatMap (sequenceItems X.short.tree) = es.map Prod.snd ∧
      ∀ e ∈ es, X.Twin e.1 e.2 := by
  induction run with
  | nil => exact ⟨[], rfl, rfl, fun e he => by cases he⟩
  | cons e run ih =>
    obtain ⟨fs, hfs, hfs', hf⟩ := h.sequenceItems_cases (hm e (List.mem_cons_self ..))
    obtain ⟨es, hes, hes', he⟩ := ih fun e he => hm e (List.mem_cons_of_mem _ he)
    refine ⟨fs ++ es, ?_, ?_, fun x hx => ?_⟩
    · rw [List.map_cons, List.flatMap_cons, hfs, hes, List.map_append]
    · rw [List.map_cons, List.flatMap_cons, hfs', hes', List.map_append]
    · rcases List.mem_append.mp hx with hx | hx
      · exact hf x hx
      · exact he x hx

theorem Sound.isUnshared_eq (h : X.Sound) (hc : X.Twin c c') :
    (X.short.toStore.isEmptyStatement c' || !(X.short.tree.node c').isEmptyStatement) =
      (X.plain.toStore.isEmptyStatement c || !(X.plain.tree.node c).isEmptyStatement) := by
  rw [h.isShared_eq hc, h.isEmptyStatement_eq hc]

theorem Sound.ifExpression?_cases (h : X.Sound) (observed : Bool) {test consequent : NodeId × NodeId}
    {alternate : Option (NodeId × NodeId)} (htest : X.Twin test.1 test.2)
    (hconsequent : X.Twin consequent.1 consequent.2) (halternate : ∀ e ∈ alternate, X.Twin e.1 e.2) :
    ∃ n : Option (Node (NodeId × NodeId)),
      ifExpression? X.plain.tree observed test.1 consequent.1 (alternate.map Prod.fst) =
        n.map (Node.map Prod.fst) ∧
      ifExpression? X.short.tree observed test.2 consequent.2 (alternate.map Prod.snd) =
        n.map (Node.map Prod.snd) ∧
      ∀ m ∈ n, (∀ l, m ≠ .literal l) ∧ ∀ e ∈ m.children, X.Twin e.1 e.2 := by
  obtain ⟨e, he, he', htwin⟩ := h.expression?_cases hconsequent
  unfold ifExpression?
  rw [he, he']
  have undecided : ∃ n : Option (Node (NodeId × NodeId)),
      (none : Option (Node NodeId)) = n.map (Node.map Prod.fst) ∧
      (none : Option (Node NodeId)) = n.map (Node.map Prod.snd) ∧
      ∀ m ∈ n, (∀ l, m ≠ .literal l) ∧ ∀ e ∈ m.children, X.Twin e.1 e.2 :=
    ⟨none, rfl, rfl, fun m hm => by cases hm⟩
  cases e with
  | none => exact undecided
  | some e =>
    cases alternate with
    | none =>
      cases observed with
      | true => exact undecided
      | false =>
        refine ⟨some (.logicalExpression .and test e), rfl, rfl, fun m hm => ?_⟩
        cases hm
        refine ⟨fun l hl => (by cases hl), fun x hx => ?_⟩
        obtain rfl | rfl : x = test ∨ x = e := by
          simpa [Node.children, Node.slots, Slot.children] using hx
        · exact htest
        · exact htwin _ rfl
    | some a =>
      obtain ⟨f, hf, hf', htwin'⟩ := h.expression?_cases (halternate a rfl)
      dsimp only [Option.map_some]
      rw [hf, hf']
      cases f with
      | none => exact undecided
      | some f =>
        refine ⟨some (.conditionalExpression test e f), rfl, rfl, fun m hm => ?_⟩
        cases hm
        refine ⟨fun l hl => (by cases hl), fun x hx => ?_⟩
        have hx : x = test ∨ x = e ∨ x = f := by
          simp [Node.children, Node.slots, Slot.children] at hx
          tauto
        rcases hx with rfl | rfl | rfl
        · exact htest
        · exact htwin _ rfl
        · exact htwin' _ rfl

theorem Sound.bind_value?_eq (h : X.Sound) {test : Option (NodeId × NodeId)}
    (hm : ∀ e ∈ test, X.Twin e.1 e.2) :
    (test.map Prod.snd).bind X.short.value? = (test.map Prod.fst).bind X.plain.value? := by
  cases test with
  | none => rfl
  | some e => exact h.value?_eq (hm e rfl)

theorem Sound.isSome_value?_eq (h : X.Sound) {child : Option (NodeId × NodeId)}
    (hm : ∀ e ∈ child, X.Twin e.1 e.2) :
    ((child.map Prod.snd).any fun c => (X.short.value? c).isSome) =
      (child.map Prod.fst).any fun c => (X.plain.value? c).isSome := by
  cases child with
  | none => rfl
  | some e => exact congrArg Option.isSome (h.value?_eq (hm e rfl))

theorem testValue_run (s : FoldState) (test : Option NodeId) :
    test.elim (pure none) constant? s = .ok (test.bind s.value?) s := by
  cases test with
  | none => rfl
  | some test => exact constant?_run s test

/-- What is left of both loops, if anything is. -/
inductive Heads (X : Coupling) : Option NodeId → Option NodeId → Coupling → Prop
  | none : Heads X none none X
  | some {b b' : NodeId} {Y} : Y.Linked → Y.Twin b b' → Heads X (some b) (some b') Y

namespace Both

theorem shareEmpty (h : X.Sound) (hr : X.Owners p.value p'.value) (f : Field) :
    X.Both (do FoldM.write p.value (.field f) (some (← FoldM.emptyStatement)))
      (do FoldM.write p'.value (.field f) (some (← FoldM.emptyStatement))) fun _ _ Y => Y.Linked := by
  refine (emptyStatement h).bind fun b b' Y hk hY => ?_
  obtain ⟨hgrown, hb, hb'⟩ := hY
  exact write hgrown.sound.toLinked (hr.mono hk) (some (b, b')) fun e he => by
    cases he
    exact hgrown.sound.twin_empty hb hb'

theorem normalizeConsequent (h : X.Sound) (hr : X.Owners p.value p'.value) (hc : X.Twin c c') :
    X.Both (FoldM.normalizeConsequent p c) (FoldM.normalizeConsequent p' c')
      fun _ _ Y => Y.Linked := by
  unfold FoldM.normalizeConsequent
  refine .read (a := X.plain) (b := X.short) rfl rfl ?_
  rw [h.isUnshared_eq hc]
  split
  · exact pure h.toLinked
  · exact shareEmpty h hr .consequent

theorem dropEmptyAlternate (h : X.Sound) (hr : X.Owners p.value p'.value)
    {alternate : Option (NodeId × NodeId)} (hm : ∀ e ∈ alternate, X.Twin e.1 e.2) :
    X.Both (FoldM.dropEmptyAlternate p (alternate.map Prod.fst))
      (FoldM.dropEmptyAlternate p' (alternate.map Prod.snd)) fun _ _ Y => Y.Linked := by
  unfold FoldM.dropEmptyAlternate
  refine .read (getTree_run _) (getTree_run _) ?_
  cases alternate with
  | none => exact pure h.toLinked
  | some e =>
    simp only [Option.map_some, Option.any_some, h.isEmptyStatement_eq (hm e rfl)]
    split
    · exact write h.toLinked hr none fun e he => by cases he
    · exact pure h.toLinked

theorem normalizeBody (h : X.Sound) (hr : X.Owners p.value p'.value) (hc : X.Twin c c') :
    X.Both (FoldM.normalizeBody p c) (FoldM.normalizeBody p' c') fun _ _ Y => Y.Linked := by
  unfold FoldM.normalizeBody
  refine .read (a := X.plain) (b := X.short) rfl rfl ?_
  rw [h.isUnshared_eq hc]
  split
  · exact pure h.toLinked
  · exact shareEmpty h hr .body

theorem clearConstant (h : X.Sound) (hr : X.Owners p.value p'.value) (f : Field)
    {child : Option (NodeId × NodeId)} (hm : ∀ e ∈ child, X.Twin e.1 e.2) :
    X.Both (FoldM.clearConstant p f (child.map Prod.fst))
      (FoldM.clearConstant p' f (child.map Prod.snd)) fun _ _ Y => Y.Linked := by
  unfold FoldM.clearConstant
  cases child with
  | none => exact pure h.toLinked
  | some e =>
    refine .isConstant h (hm e rfl) ?_
    split
    · exact write h.toLinked hr none fun e he => by cases he
    · exact pure h.toLinked

theorem normalizeTest (h : X.Sound) (hr : X.Owners p.value p'.value) (value : Option Value) :
    X.Both (FoldM.normalizeTest p value) (FoldM.normalizeTest p' value)
      fun _ _ Y => Y.Linked := by
  unfold FoldM.normalizeTest
  split
  · exact pure h.toLinked
  · exact pure h.toLinked
  · split
    · exact write h.toLinked hr none fun e he => by cases he
    · refine (toConst h (by simp only [Value.Representable])).bind fun b b' Y hk hY => ?_
      obtain ⟨hgrown, hb, hb'⟩ := hY
      exact write hgrown.sound.toLinked (hr.mono hk) (some (b, b')) fun e he => by
        cases he
        exact .value hb hb'

theorem headStatement? (h : X.Sound) {init : Option (NodeId × NodeId)}
    (hm : ∀ e ∈ init, X.Twin e.1 e.2) :
    X.Both (FoldM.headStatement? (init.map Prod.fst)) (FoldM.headStatement? (init.map Prod.snd))
      X.Heads := by
  unfold FoldM.headStatement?
  cases init with
  | none =>
    refine (emptyStatement h).bind fun b b' Y hk hY => .pure ?_
    obtain ⟨hgrown, hb, hb'⟩ := hY
    exact .some hgrown.sound.toLinked (hgrown.sound.twin_empty hb hb')
  | some init =>
    have hc := hm init rfl
    have expression : X.Both (do return some (← FoldM.expressionStatement init.1))
        (do return some (← FoldM.expressionStatement init.2)) X.Heads :=
      (expressionStatement h hc).bind fun b b' Y hk hY =>
        .pure (.some hY.1.sound.toLinked (.pair hY.2))
    refine .read (a := X.plain.tree.node init.1) (b := X.short.tree.node init.2) rfl rfl ?_
    rcases h.matches_or_value hc with ⟨m, hn, hn', -⟩ | ⟨v, hv, hv'⟩
    · rw [← hn, ← hn']
      cases m
      case variableDeclaration declarations kind =>
        cases kind
        case var => exact pure (.some h.toLinked hc)
        all_goals exact pure .none
      all_goals exact expression
    · have hk := h.plain.kind_of_value? hv
      have hk' := h.short.kind_of_value? hv'
      cases hn : X.plain.tree.node init.1 <;> rw [hn] at hk <;> simp [Node.kind] at hk <;>
        cases hn' : X.short.tree.node init.2 <;> rw [hn'] at hk' <;> simp [Node.kind] at hk' <;>
        exact expression

end Both

section Steps

variable {owner owner' id id' : NodeId} {n n' : Node NodeId}

/-- A constant before or after the rounds of a `for` may go. -/
theorem rewrite_forInit {s : Store} {init test update : Option NodeId} {v : Value} {a : NodeId}
    (hi : init = some a) (hv : s.value? a = some v) :
    s.Rewrite .loops (.forStatement init test update c)
      ((Node.forStatement init test update c).setSlot .init (.optional none)) := by
  subst hi
  exact .forInit hv

theorem rewrite_forUpdate {s : Store} {init test update : Option NodeId} {v : Value} {a : NodeId}
    (hu : update = some a) (hv : s.value? a = some v) :
    s.Rewrite .loops (.forStatement init test update c)
      ((Node.forStatement init test update c).setSlot .update (.optional none)) := by
  subst hu
  exact .forUpdate hv

namespace Owned

theorem normalizeConsequent {test test' : NodeId} {alternate alternate' : Option NodeId}
    (h : X.Owned p p' owner owner' id id' (.ifStatement test c alternate)
      (.ifStatement test' c' alternate')) (hc : X.Twin c c') :
    X.Both (FoldM.normalizeConsequent p c) (FoldM.normalizeConsequent p' c') fun a a' Y => a' = a ∧
      ∃ b b', Y.Owned p p' owner owner' id id' (.ifStatement test b alternate)
        (.ifStatement test' b' alternate') := by
  refine ((Both.normalizeConsequent h.sound h.owners hc).and_ensures
    (normalizeConsequent_ensures false h.plain)
    (normalizeConsequent_ensures false h.short)).mono fun a a' Y hk hY => ?_
  obtain ⟨hlinked, ⟨ht, ha, b, hb⟩, ht', ha', b', hb'⟩ := hY
  refine ⟨by rw [ha, ha', h.sound.isUnshared_eq hc], b, b', ?_⟩
  exact ⟨⟨hlinked, ht.sound, ht'.sound⟩, h.owners.mono hk, hb, hb'⟩

theorem dropEmptyAlternate {test test' consequent consequent' : NodeId}
    {alternate : Option (NodeId × NodeId)}
    (h : X.Owned p p' owner owner' id id' (.ifStatement test consequent (alternate.map Prod.fst))
      (.ifStatement test' consequent' (alternate.map Prod.snd)))
    (hm : ∀ e ∈ alternate, X.Twin e.1 e.2) :
    X.Both (FoldM.dropEmptyAlternate p (alternate.map Prod.fst))
      (FoldM.dropEmptyAlternate p' (alternate.map Prod.snd)) fun a a' Y => a' = a ∧ Y.Linked := by
  refine ((Both.dropEmptyAlternate h.sound h.owners hm).and_ensures
    (dropEmptyAlternate_ensures false h.plain)
    (dropEmptyAlternate_ensures false h.short)).mono fun a a' Y hk hY => ?_
  obtain ⟨hlinked, ⟨-, ha⟩, -, ha'⟩ := hY
  refine ⟨?_, hlinked⟩
  rw [ha, ha']
  cases alternate with
  | none => rfl
  | some e => exact h.sound.isEmptyStatement_eq (hm e rfl)

theorem normalizeBody (h : X.Owned p p' owner owner' id id' n n') (hc : X.Twin c c')
    (hslot : n.slot? .body = some (.required c)) (hslot' : n'.slot? .body = some (.required c'))
    (hr : ∀ {s : Store} {b}, (s.tree.node c).isEmptyStatement → c ≠ b →
      s.pool.emptyStatement = some b → s.Rewrite .loops n (n.setSlot .body (.required b)))
    (hr' : ∀ {s : Store} {b}, (s.tree.node c').isEmptyStatement → c' ≠ b →
      s.pool.emptyStatement = some b → s.Rewrite .loops n' (n'.setSlot .body (.required b))) :
    X.Both (FoldM.normalizeBody p c) (FoldM.normalizeBody p' c') fun a a' Y => a' = a ∧
      (∀ d ∈ n.children, Y.plain.value? d = X.plain.value? d) ∧
      ∃ b b', Y.Owned p p' owner owner' id id' (n.setSlot .body (.required b))
        (n'.setSlot .body (.required b')) := by
  refine ((Both.normalizeBody h.sound h.owners hc).and_ensures
    (normalizeBody_ensures false h.plain hslot hr)
    (normalizeBody_ensures false h.short hslot' hr')).mono fun a a' Y hk hY => ?_
  obtain ⟨hlinked, ⟨ht, ha, b, hb, hv⟩, ht', ha', b', hb', -⟩ := hY
  refine ⟨by rw [ha, ha', h.sound.isUnshared_eq hc], hv, b, b', ?_⟩
  exact ⟨⟨hlinked, ht.sound, ht'.sound⟩, h.owners.mono hk, hb, hb'⟩

theorem tidyBody (h : X.Owned p p' owner owner' id id' n n') (hc : X.Twin c c')
    (hslot : n.slot? .body = some (.required c)) (hslot' : n'.slot? .body = some (.required c'))
    (hr : ∀ {s : Store} {b}, (s.tree.node c).isEmptyStatement → c ≠ b →
      s.pool.emptyStatement = some b → s.Rewrite .loops n (n.setSlot .body (.required b)))
    (hr' : ∀ {s : Store} {b}, (s.tree.node c').isEmptyStatement → c' ≠ b →
      s.pool.emptyStatement = some b → s.Rewrite .loops n' (n'.setSlot .body (.required b))) :
    X.Both (do return if ← FoldM.normalizeBody p c then some p else none)
      (do return if ← FoldM.normalizeBody p' c' then some p' else none) Agrees := by
  refine (h.normalizeBody hc hslot hslot' hr hr').bind fun a a' Y _ hY => .pure ?_
  obtain ⟨rfl, -, b, b', howned⟩ := hY
  exact ⟨by split <;> rfl, howned.sound.toLinked⟩

theorem clearConstant (h : X.Owned p p' owner owner' id id' n n') {f : Field}
    {child : Option (NodeId × NodeId)} (hm : ∀ e ∈ child, X.Twin e.1 e.2)
    (hslot : n.slot? f = some (.optional (child.map Prod.fst)))
    (hslot' : n'.slot? f = some (.optional (child.map Prod.snd)))
    (hr : ∀ {s : Store} {c v}, child.map Prod.fst = some c → s.value? c = some v →
      s.Rewrite .loops n (n.setSlot f (.optional none)))
    (hr' : ∀ {s : Store} {c v}, child.map Prod.snd = some c → s.value? c = some v →
      s.Rewrite .loops n' (n'.setSlot f (.optional none))) :
    X.Both (FoldM.clearConstant p f (child.map Prod.fst))
      (FoldM.clearConstant p' f (child.map Prod.snd)) fun a a' Y => a' = a ∧
      (∀ d ∈ n.children, Y.plain.value? d = X.plain.value? d) ∧
      ∃ b b', Y.Owned p p' owner owner' id id' (n.setSlot f (.optional b))
        (n'.setSlot f (.optional b')) := by
  refine ((Both.clearConstant h.sound h.owners f hm).and_ensures
    (clearConstant_ensures false h.plain hslot hr)
    (clearConstant_ensures false h.short hslot' hr')).mono fun a a' Y hk hY => ?_
  obtain ⟨hlinked, ⟨ht, ha, b, hb, hv⟩, ht', ha', b', hb', -⟩ := hY
  refine ⟨by rw [ha, ha', h.sound.isSome_value?_eq hm], hv, b, b', ?_⟩
  exact ⟨⟨hlinked, ht.sound, ht'.sound⟩, h.owners.mono hk, hb, hb'⟩

theorem normalizeTest {init init' test test' update update' : Option NodeId} {value : Option Value}
    (h : X.Owned p p' owner owner' id id' (.forStatement init test update c)
      (.forStatement init' test' update' c'))
    (hvalue : test.bind X.plain.value? = value) (hvalue' : test'.bind X.short.value? = value) :
    X.Both (FoldM.normalizeTest p value) (FoldM.normalizeTest p' value) fun a a' Y => a' = a ∧
      ∃ b b', Y.Owned p p' owner owner' id id' (.forStatement init b update c)
        (.forStatement init' b' update' c') := by
  have hplain := normalizeTest_ensures false h.plain
  have hshort := normalizeTest_ensures false h.short
  rw [hvalue] at hplain
  rw [hvalue'] at hshort
  refine ((Both.normalizeTest h.sound h.owners value).and_ensures hplain hshort).mono
    fun a a' Y hk hY => ?_
  obtain ⟨hlinked, ⟨ht, ha, b, hb⟩, ht', ha', b', hb'⟩ := hY
  refine ⟨Bool.eq_iff_iff.mpr (ha'.trans ha.symm), b, b', ?_⟩
  exact ⟨⟨hlinked, ht.sound, ht'.sound⟩, h.owners.mono hk, hb, hb'⟩

/-- The parts of a `for` are tidied one after another. -/
theorem tidyFor {init test update : Option (NodeId × NodeId)} {body : NodeId × NodeId}
    (h : X.Owned p p' owner owner' id id'
      (.forStatement (init.map Prod.fst) (test.map Prod.fst) (update.map Prod.fst) body.1)
      (.forStatement (init.map Prod.snd) (test.map Prod.snd) (update.map Prod.snd) body.2))
    (hinit : ∀ e ∈ init, X.Twin e.1 e.2) (htest : ∀ e ∈ test, X.Twin e.1 e.2)
    (hupdate : ∀ e ∈ update, X.Twin e.1 e.2) (hbody : X.Twin body.1 body.2) {value : Option Value}
    (hvalue : (test.map Prod.fst).bind X.plain.value? = value) :
    X.Both (do
      let bodyChanged ← FoldM.normalizeBody p body.1
      let initChanged ← FoldM.clearConstant p .init (init.map Prod.fst)
      let testChanged ← FoldM.normalizeTest p value
      let updateChanged ← FoldM.clearConstant p .update (update.map Prod.fst)
      return if bodyChanged || initChanged || testChanged || updateChanged then some p else none)
    (do
      let bodyChanged ← FoldM.normalizeBody p' body.2
      let initChanged ← FoldM.clearConstant p' .init (init.map Prod.snd)
      let testChanged ← FoldM.normalizeTest p' value
      let updateChanged ← FoldM.clearConstant p' .update (update.map Prod.snd)
      return if bodyChanged || initChanged || testChanged || updateChanged then some p' else none) Agrees := by
  refine (h.normalizeBody hbody rfl rfl .forBody .forBody).bind fun a a' Y hY hstep => ?_
  obtain ⟨rfl, hv, b, b', h₁⟩ := hstep
  refine (h₁.clearConstant (f := .init) (fun e he => (hinit e he).mono hY) rfl rfl rewrite_forInit
    rewrite_forInit).bind fun d d' Z hZ hstep => ?_
  obtain ⟨rfl, hv', i, i', h₂⟩ := hstep
  have hYZ := hY.trans hZ
  -- what is tidied before the test leaves its value
  have hplain : (test.map Prod.fst).bind Z.plain.value? = value := by
    rw [← hvalue]
    cases test with
    | none => rfl
    | some test =>
      refine (hv' test.1 ?_).trans (hv test.1 ?_)
      · change test.1 ∈ (Node.forStatement _ (some test.1) _ b).children
        simp [Node.children, Node.slots, Slot.children]
      · simp [Node.children, Node.slots, Slot.children]
  have hshort : (test.map Prod.snd).bind Z.short.value? = value :=
    (h₂.sound.bind_value?_eq fun e he => (htest e he).mono hYZ).trans hplain
  replace h₂ : Z.Owned p p' owner owner' id id'
    (.forStatement i (test.map Prod.fst) (update.map Prod.fst) b)
    (.forStatement i' (test.map Prod.snd) (update.map Prod.snd) b') := h₂
  refine (h₂.normalizeTest hplain hshort).bind fun e e' W hW hstep => ?_
  obtain ⟨rfl, t, t', h₃⟩ := hstep
  refine (h₃.clearConstant (f := .update) (fun e he => (hupdate e he).mono (hYZ.trans hW)) rfl rfl
    rewrite_forUpdate rewrite_forUpdate).bind fun g g' V _ hstep => ?_
  obtain ⟨rfl, -, u, u', h₄⟩ := hstep
  exact .pure ⟨by split <;> rfl, h₄.sound.toLinked⟩

end Owned

end Steps

namespace At

variable {owner owner' id id' : NodeId}

theorem owned (h : X.At p p' owner owner' id id') (hid : X.pairs id id') {n n' : Node NodeId}
    (hn : X.plain.tree.node id = n) (hn' : X.short.tree.node id' = n') :
    X.Owned p p' owner owner' id id' n n' :=
  ⟨h.sound, h.owners hid, ⟨h.plain, (h.linked.plain_open hid).2, hn⟩, h.short,
    (h.linked.short_open hid).2, hn'⟩

theorem listSlot?_isSome (h : X.At p p' owner owner' id id') :
    p'.listSlot?.isSome = p.listSlot?.isSome := by
  rcases h.abreast.listSlot?_cases with ⟨hp, hp'⟩ | ⟨list, list', i, hp, hp', -⟩ <;> rw [hp, hp']
  rfl

theorem dropUnreachable (h : X.At p p' owner owner' id id') :
    X.Both (FoldM.dropUnreachable p) (FoldM.dropUnreachable p') Agrees := by
  obtain ⟨m, hn, hn', -⟩ := h.alike
  have hjump : (m.map Prod.snd).isJump = (m.map Prod.fst).isJump := by cases m <;> rfl
  unfold FoldM.dropUnreachable
  refine .read (getTree_run _) (getTree_run _) ?_
  rw [h.plain.nodeAt?, h.short.nodeAt?, ← hn, ← hn']
  dsimp only
  rw [hjump]
  split
  · rcases h.abreast.listSlot?_cases with ⟨hp, hp'⟩ | ⟨list, list', i, hp, hp', hr⟩
    · rw [hp, hp']
      exact .keep h.linked
    · obtain ⟨items, hs, hs', hm⟩ := h.linked.listItems?_eq hr
      rw [hp, hp']
      dsimp only
      rw [hs, hs']
      cases items with
      | none => exact .keep h.linked
      | some items =>
        obtain ⟨kept, hkept, hkept', htwins⟩ := h.sound.hoisted_cases (items.drop (i + 1))
          fun e he => hm items rfl e (List.mem_of_mem_drop he)
        dsimp only [Option.map_some]
        rw [← List.map_drop, ← List.map_drop, hkept, hkept']
        simp only [List.length_map]
        split
        · exact .keep h.linked
        · exact (Both.splice h.linked hr kept htwins).bind fun _ _ _ _ hY => .pure ⟨rfl, hY⟩
  · exact .keep h.linked

theorem mergeRun (h : X.At p p' owner owner' id id') :
    X.Both (FoldM.mergeRun p) (FoldM.mergeRun p') Agrees := by
  unfold FoldM.mergeRun
  refine .read (getTree_run _) (getTree_run _) ?_
  rcases h.abreast.listSlot?_cases with ⟨hp, hp'⟩ | ⟨list, list', i, hp, hp', hr⟩
  · rw [hp, hp']
    exact .keep h.linked
  · obtain ⟨items, hs, hs', hm⟩ := h.linked.listItems?_eq hr
    rw [hp, hp']
    dsimp only
    rw [hs, hs']
    cases items with
    | none => exact .keep h.linked
    | some items =>
      obtain ⟨run, hrun, hrun', hm⟩ := h.sound.expressionRun_cases (items.drop i)
        fun e he => hm items rfl e (List.mem_of_mem_drop he)
      obtain ⟨es, hes, hes', hm⟩ := h.sound.merge_cases hm
      dsimp only [Option.map_some]
      rw [← List.map_drop, ← List.map_drop, hrun, hrun', hes, hes']
      simp only [List.length_map]
      split
      · exact .keep h.linked
      · refine (Both.alloc h.sound (m := .sequenceExpression es) (fun l hl => by cases hl)
          fun e he => hm e (by simpa [Node.children, Node.slots, Slot.children] using he)).bind
          fun sequence sequence' Y hk hY => ?_
        refine (Both.expressionStatement hY.1.sound (.pair hY.2)).bind
          fun statement statement' Z hk' hZ => ?_
        refine (Both.splice hZ.1.sound.toLinked (hr.mono (hk.trans hk'))
          [(statement, statement')] fun e he => ?_).bind fun _ _ W _ hW => ?_
        · obtain rfl := List.mem_singleton.mp he
          exact .pair hZ.2
        · exact .read rfl rfl (.pure ⟨rfl, hW⟩)

theorem foldExpressionStatement (h : X.At p p' owner owner' id id') :
    X.Both (FoldM.foldExpressionStatement p) (FoldM.foldExpressionStatement p') Agrees := by
  obtain ⟨m, hn, hn', hm⟩ := h.alike
  unfold FoldM.foldExpressionStatement
  refine .read (getTree_run _) (getTree_run _) ?_
  rw [h.plain.nodeAt?, h.short.nodeAt?, ← hn, ← hn']
  cases m
  case expressionStatement expression directive =>
    have hexpression := hm expression (by simp [Node.children, Node.slots, Slot.children])
    dsimp only [Option.bind_some, Node.expression?]
    rw [h.sound.isDirective_eq h.abreast, h.sound.isCompletion_eq h.abreast]
    change X.Both (if _ then _ else FoldM.mergeRun p >>= _)
      (if _ then _ else FoldM.mergeRun p' >>= _) _
    split
    · exact .keep h.linked
    refine (h.mergeRun.and_ensures (mergeRun_ensures h.plain) (mergeRun_ensures h.short)).bind
      fun r r' Y hk hY => ?_
    obtain ⟨⟨hretries, hlinked⟩, ⟨hs, -⟩, hs', -⟩ := hY
    have hsound : Y.Sound := ⟨hlinked, hs, hs'⟩
    cases r with
    | some q =>
      cases r' with
      | none => cases hretries
      | some q' => exact .pure ⟨rfl, hlinked⟩
    | none =>
      cases r' with
      | some q' => cases hretries
      | none =>
        dsimp only
        split
        · exact .keep hlinked
        · refine .isConstant hsound (hexpression.mono hk) ?_
          split
          · rw [h.listSlot?_isSome]
            split
            · exact (Both.removeFromList hlinked (h.abreast.mono hk)).bind
                fun _ _ _ _ hZ => .pure ⟨rfl, hZ⟩
            · exact .swapEmpty hsound (h.abreast.mono hk)
          · exact .keep hlinked
  all_goals exact .keep h.linked

theorem dropEmptyStatement (h : X.At p p' owner owner' id id') :
    X.Both (FoldM.dropEmptyStatement p) (FoldM.dropEmptyStatement p') Agrees := by
  have hv := h.abreast.sights
  rw [h.plain.value, h.short.value] at hv
  have hempty : (X.short.tree.node id').isEmptyStatement = (X.plain.tree.node id).isEmptyStatement := by
    cases hv with
    | node hc => exact h.sound.isEmptyStatement_eq hc
  unfold FoldM.dropEmptyStatement
  refine .read (getTree_run _) (getTree_run _) ?_
  rw [h.plain.nodeAt?, h.short.nodeAt?]
  dsimp only
  rw [hempty, h.listSlot?_isSome]
  split
  · exact (Both.removeFromList h.linked h.abreast).bind fun _ _ _ _ hY => .pure ⟨rfl, hY⟩
  · exact .keep h.linked

theorem foldIf (h : X.At p p' owner owner' id id') :
    X.Both (FoldM.foldIf p) (FoldM.foldIf p') Agrees := by
  obtain ⟨m, hn, hn', hm⟩ := h.alike
  unfold FoldM.foldIf
  refine .read (getTree_run _) (getTree_run _) ?_
  rw [h.plain.nodeAt?, h.short.nodeAt?]
  cases m
  case ifStatement test consequent alternate =>
    have hn : X.plain.tree.node id =
      .ifStatement test.1 consequent.1 (alternate.map Prod.fst) := hn.symm
    have hn' : X.short.tree.node id' =
      .ifStatement test.2 consequent.2 (alternate.map Prod.snd) := hn'.symm
    have hid : X.pairs id id' := h.pair (by rw [hn]; exact fun hx => by cases hx)
    have htest := hm test (by simp [Node.children, Node.slots, Slot.children])
    have hconsequent := hm consequent (by simp [Node.children, Node.slots, Slot.children])
    have halternate : ∀ e ∈ alternate, X.Twin e.1 e.2 := fun e he =>
      hm e (by simp [Node.children, Node.slots, Slot.children, Option.mem_def.mp he])
    -- whether the `if` is an expression is decided alike for both runs
    obtain ⟨n, he, he', hexpr⟩ := h.sound.ifExpression?_cases (X.plain.tree.isCompletion p) htest
      hconsequent halternate
    rw [hn, hn', h.sound.isCompletion_eq h.abreast]
    dsimp only
    rw [he, he', h.sound.isEmptyStatement_eq hconsequent]
    simp only [Option.isNone_map]
    split
    · refine (Both.expressionStatement h.sound htest).bind fun b b' Y hk hY => ?_
      exact .swap hY.1.sound.toLinked (h.abreast.mono hk) (.pair hY.2)
    cases n with
    | some n =>
      obtain ⟨hl, hchildren⟩ := hexpr n rfl
      refine (Both.alloc h.sound hl hchildren).bind fun e e' Y hk hY => ?_
      refine (Both.expressionStatement hY.1.sound (.pair hY.2)).bind fun b b' Z hk' hZ => ?_
      exact .swap hZ.1.sound.toLinked (h.abreast.mono (hk.trans hk')) (.pair hZ.2)
    | none =>
      refine .constant? h.sound htest ?_
      split
      · split
        · exact .swap h.linked h.abreast hconsequent
        · cases alternate with
          | none => exact .swapEmpty h.sound h.abreast
          | some a => exact .read rfl rfl (.swap h.linked h.abreast (halternate a rfl))
      · refine ((h.owned hid hn hn').normalizeConsequent hconsequent).bind fun a a' Y hY hbody => ?_
        obtain ⟨rfl, d, d', howned⟩ := hbody
        refine (howned.dropEmptyAlternate fun e he => (halternate e he).mono hY).bind
          fun e e' Z hZ hend => ?_
        obtain ⟨rfl, hlinked⟩ := hend
        exact .pure ⟨by split <;> rfl, hlinked⟩
  all_goals
    rw [← hn, ← hn']
    exact .keep h.linked

theorem foldFor (h : X.At p p' owner owner' id id') (hid : X.pairs id id')
    {init test update : Option (NodeId × NodeId)} {body : NodeId × NodeId}
    (hn : X.plain.tree.node id = .forStatement (init.map Prod.fst) (test.map Prod.fst)
      (update.map Prod.fst) body.1)
    (hn' : X.short.tree.node id' = .forStatement (init.map Prod.snd) (test.map Prod.snd)
      (update.map Prod.snd) body.2)
    (hinit : ∀ e ∈ init, X.Twin e.1 e.2) (htest : ∀ e ∈ test, X.Twin e.1 e.2)
    (hupdate : ∀ e ∈ update, X.Twin e.1 e.2) (hbody : X.Twin body.1 body.2) :
    X.Both (FoldM.foldFor p (init.map Prod.fst) (test.map Prod.fst) (update.map Prod.fst) body.1)
      (FoldM.foldFor p' (init.map Prod.snd) (test.map Prod.snd) (update.map Prod.snd) body.2)
      Agrees := by
  unfold FoldM.foldFor
  refine .read (testValue_run _ _) (testValue_run _ _) ?_
  rw [h.sound.bind_value?_eq htest]
  have tidy := (h.owned hid hn hn').tidyFor hinit htest hupdate hbody rfl
  split
  · refine (Both.headStatement? h.sound hinit).bind fun r r' Y hk hY => ?_
    cases hY with
    | none => exact tidy
    | some hY hc => exact .swap hY (h.abreast.mono hk) hc
  · exact tidy

theorem foldLoop (h : X.At p p' owner owner' id id') :
    X.Both (FoldM.foldLoop p) (FoldM.foldLoop p') Agrees := by
  obtain ⟨m, hn, hn', hm⟩ := h.alike
  unfold FoldM.foldLoop
  refine .read (getTree_run _) (getTree_run _) ?_
  rw [h.plain.nodeAt?, h.short.nodeAt?]
  cases m
  case doWhileStatement body test =>
    have hn : X.plain.tree.node id = .doWhileStatement body.1 test.1 := hn.symm
    have hn' : X.short.tree.node id' = .doWhileStatement body.2 test.2 := hn'.symm
    have hid := h.pair (by rw [hn]; exact fun hx => by cases hx)
    have hbody := hm body (by simp [Node.children, Node.slots, Slot.children])
    rw [hn, hn']
    exact (h.owned hid hn hn').tidyBody hbody rfl rfl .doWhileBody .doWhileBody
  case whileStatement test body =>
    have hn : X.plain.tree.node id = .whileStatement test.1 body.1 := hn.symm
    have hn' : X.short.tree.node id' = .whileStatement test.2 body.2 := hn'.symm
    have hid := h.pair (by rw [hn]; exact fun hx => by cases hx)
    have hbody := hm body (by simp [Node.children, Node.slots, Slot.children])
    rw [hn, hn']
    refine .constant? h.sound (hm test (by simp [Node.children, Node.slots, Slot.children])) ?_
    split
    · exact .swapEmpty h.sound h.abreast
    · exact (h.owned hid hn hn').tidyBody hbody rfl rfl .whileBody .whileBody
  case forStatement init test update body =>
    have hid := h.pair (by rw [← hn]; exact fun hx => by cases hx)
    rw [← hn, ← hn']
    refine foldFor h hid hn.symm hn'.symm
      (fun e he => ?_) (fun e he => ?_) (fun e he => ?_) (hm _ ?_)
    · exact hm e (by simp [Node.children, Node.slots, Slot.children, Option.mem_def.mp he])
    · exact hm e (by simp [Node.children, Node.slots, Slot.children, Option.mem_def.mp he])
    · exact hm e (by simp [Node.children, Node.slots, Slot.children, Option.mem_def.mp he])
    · simp [Node.children, Node.slots, Slot.children]
  all_goals
    rw [← hn, ← hn']
    exact .keep h.linked

theorem apply (h : X.At p p' owner owner' id id') {rule : Rule} (hrule : rule ≠ .booleanLiterals) :
    X.Both (rule.apply p) (rule.apply p') Agrees := by
  cases rule with
  | unreachableTail => exact h.dropUnreachable
  | expressionStatements => exact h.foldExpressionStatement
  | conditionalExpr => exact h.foldConditional
  | logicalExpr => exact h.foldLogical
  | binaryExpr => exact h.foldBinary
  | unaryExpr => exact h.foldUnary
  | sequenceExpr => exact h.foldSequence
  | memberExpr => exact h.foldMember
  | emptyStatements => exact h.dropEmptyStatement
  | ifStatement => exact h.foldIf
  | loops => exact h.foldLoop
  | booleanLiterals => exact absurd rfl hrule

end At

/-- Where two paths are abreast, every rule but the one on booleans does the same. -/
theorem Sound.apply (h : X.Sound) (hp : X.Abreast p p') {owner owner' a a' : NodeId}
    (hplain : X.plain.Open p owner a) (hshort : X.short.Open p' owner' a') {rule : Rule}
    (hrule : rule ≠ .booleanLiterals) : X.Both (rule.apply p) (rule.apply p') Agrees := by
  have constants : ∀ {v}, X.plain.value? a = some v → X.short.value? a' = some v →
      X.Both (rule.apply p) (rule.apply p') Agrees := by
    intro v hv hv' r s r' s' hrun hrun'
    rw [Rule.apply_of_value? h.plain hplain.node? hv hrule] at hrun
    rw [Rule.apply_of_value? h.short hshort.node? hv' hrule] at hrun'
    cases hrun
    cases hrun'
    exact ⟨X.pairs, .refl X, rfl, h.toLinked⟩
  have hv := hp.sights
  rw [hplain.value, hshort.value] at hv
  cases hv with
  | node hc =>
    cases hc with
    | pair hc => exact At.apply ⟨h.toLinked, hp, h.nodes hc, fun _ => hc, hplain, hshort⟩ hrule
    | value hv hv' =>
      exact constants (h.plain.value?_of_values hv) (h.short.value?_of_values hv')
    | truth hn hv' =>
      exact constants (h.plain.value?_literal hn) (h.short.value?_of_values hv')
    | empty _ hn _ hn' =>
      refine At.apply ⟨h.toLinked, hp, ?_, fun hne => absurd hn hne, hplain, hshort⟩ hrule
      rw [hn, hn']
      exact .refl fun c hc => by cases hc

end Coupling

end ScriptFold

import ScriptFold.Proofs.Abreast
import ScriptFold.Proofs.Tidying

/-!
Every rule but the one on booleans does the same to coupled nodes: it applies to both or to
neither, and leaves the runs coupled.
-/

namespace ScriptFold

namespace Coupling

variable {X Y : Coupling} {c c' : NodeId} {p p' : Path}

theorem isUndefined_iff {s : Store} (h : s.Sound) (hs : s.Canonical) :
    s.isUndefined c ↔ s.value? c = some .undefined := by
  constructor
  · intro hc
    exact h.value?_of_values (h.undefined (of_decide_eq_true hc))
  · intro hc
    rcases h.value?_cases hc with hv | ⟨-, ⟨l, -, hl⟩ | ⟨_, _, -, -, hx⟩ | ⟨_, _, -, hx, -⟩⟩
    · exact decide_eq_true (hs.undefined hv)
    · cases l <;> cases hl
    · cases hx
    · cases hx

theorem Sound.isUndefined_eq (h : X.Sound) (hc : X.Twin c c') :
    X.short.isUndefined c' = X.plain.isUndefined c := by
  rw [Bool.eq_iff_iff, isUndefined_iff h.short h.short_canonical,
    isUndefined_iff h.plain h.plain_canonical, h.value?_eq hc]

/-- The shared empty statement is the twin of the other one and of nothing else. -/
theorem Sound.isShared_eq (h : X.Sound) (hc : X.Twin c c') :
    X.short.toStore.isEmptyStatement c' = X.plain.toStore.isEmptyStatement c := by
  have notShared : ∀ {s : Store} {c : NodeId}, s.Sound →
      (s.tree.isFrozen c → s.tree.node c ≠ .emptyStatement) → s.isEmptyStatement c = false :=
    fun hs hne => decide_eq_false fun hp => hne (hs.emptyStatement hp).1 (hs.emptyStatement hp).2
  have ofValue : ∀ {s : Store} {c : NodeId} {v}, s.Sound → s.value? c = some v →
      s.isEmptyStatement c = false := fun hs hv =>
    notShared hs fun _ hn => by
      rw [value?_of_empty hs hn] at hv
      cases hv
  cases hc with
  | pair hc =>
    rw [notShared h.short fun hf => absurd hf (h.short_open hc).2,
      notShared h.plain fun hf => absurd hf (h.plain_open hc).2]
  | value hv hv' =>
    rw [ofValue h.short (h.short.value?_of_values hv'),
      ofValue h.plain (h.plain.value?_of_values hv)]
  | truth hn hv' =>
    rw [ofValue h.short (h.short.value?_of_values hv'), ofValue h.plain (h.plain.value?_literal hn)]
  | empty hf hn hf' hn' =>
    have shared : ∀ {s : Store} {c : NodeId}, s.Sound → s.tree.isFrozen c →
        s.tree.node c = .emptyStatement → s.isEmptyStatement c = true := fun hs hf hn =>
      decide_eq_true (hs.isEmptyStatement_of_frozen hf (by rw [hn]; rfl))
    rw [shared h.short hf' hn', shared h.plain hf hn]

/-- The value of a member by the node of its name. -/
def named? (object : Value) : Node NodeId → Option Value
  | .identifier "length" => object.length?.map fun length => .number (ofLength length)
  | _ => none

theorem Sound.memberValue?_eq (h : X.Sound) (hc : X.Twin c c') (object : Value) (computed : Bool) :
    X.short.memberValue? object c' computed = X.plain.memberValue? object c computed := by
  unfold Store.memberValue?
  rw [h.value?_eq hc]
  have hview := h.view hc (named? object) none (fun m => by cases m <;> rfl) fun n hn => by
    cases n <;> simp [Node.kind] at hn <;> rfl
  exact congrArg (fun value => if computed then _ else value) hview

/-- Both sequences keep the same of the expressions before their last ones. -/
theorem Sound.kept_cases (h : X.Sound) {expressions : List (NodeId × NodeId)}
    (hm : ∀ e ∈ expressions, X.Twin e.1 e.2) : ∃ kept : List (NodeId × NodeId),
    ((expressions.map Prod.fst).dropLast.filter fun e => !X.plain.isConstant e) =
      kept.map Prod.fst ∧
    ((expressions.map Prod.snd).dropLast.filter fun e => !X.short.isConstant e) =
      kept.map Prod.snd ∧ ∀ e ∈ kept, X.Twin e.1 e.2 := by
  have hconstant : ∀ e ∈ expressions, X.short.isConstant e.2 = X.plain.isConstant e.1 :=
    fun e he => by rw [Store.isConstant_eq, Store.isConstant_eq, h.value?_eq (hm e he)]
  refine ⟨expressions.dropLast.filter fun e => !X.plain.isConstant e.1, ?_, ?_, fun e he => ?_⟩
  · rw [← List.map_dropLast, List.filter_map]
    rfl
  · rw [← List.map_dropLast, List.filter_map]
    refine congrArg _ (List.filter_congr fun e he => ?_)
    exact congrArg not (hconstant e (List.mem_of_mem_dropLast he))
  · exact hm e (List.mem_of_mem_dropLast (List.mem_filter.mp he).1)

theorem Abreast.listSlot?_cases (hp : X.Abreast p p') :
    p.listSlot? = none ∧ p'.listSlot? = none ∨
      ∃ list list' i, p.listSlot? = some (list, i) ∧ p'.listSlot? = some (list', i) ∧
        X.Owners list.value list'.value := by
  cases hp with
  | root _ => exact .inl ⟨rfl, rfl⟩
  | @child q q' key v v' _ hr _ =>
    cases key with
    | field f => exact .inl ⟨rfl, rfl⟩
    | index i =>
      have hlist : q'.isList = q.isList := hr.isList_eq
      by_cases hl : q.isList
      · exact .inr ⟨q, q', i, if_pos hl, if_pos (hlist.trans hl), hr⟩
      · exact .inl ⟨if_neg hl, if_neg fun hl' => hl (hlist.symm.trans hl')⟩

/-- Both steps ask for another walk of their slots, or neither does. -/
structure Agrees (r r' : Option Path) (Y : Coupling) : Prop where
  retries : r'.isSome = r.isSome
  linked : Y.Linked

/-- Nodes of one shape at slots that may be edited. -/
structure At (X : Coupling) (p p' : Path) (owner owner' id id' : NodeId) : Prop where
  linked : X.Linked
  abreast : X.Abreast p p'
  alike : (X.plain.tree.node id).Matches X.Twin (X.short.tree.node id')
  pair : X.plain.tree.node id ≠ .emptyStatement → X.pairs id id'
  plain : X.plain.Open p owner id
  short : X.short.Open p' owner' id'

/-- Nodes of both runs that may be edited, and what they are now. -/
structure Owned (X : Coupling) (p p' : Path) (owner owner' id id' : NodeId) (n n' : Node NodeId) :
    Prop where
  sound : X.Sound
  owners : X.Owners p.value p'.value
  plain : X.plain.Owns p owner id n
  short : X.short.Owns p' owner' id' n'

open FoldM

namespace Both

theorem keep (h : X.Linked) : X.Both (Pure.pure none) (Pure.pure none) Agrees :=
  .pure ⟨rfl, h⟩

theorem swap (h : X.Linked) (hp : X.Abreast p p') (hc : X.Twin c c') :
    X.Both (do return some (← FoldM.replace p c)) (do return some (← FoldM.replace p' c'))
      Agrees :=
  (replace h hp hc).bind fun _ _ _ _ hY => .pure ⟨rfl, hY⟩

theorem swapConst (h : X.Sound) (hp : X.Abreast p p') {v : Value} (hv : v.Representable) :
    X.Both (do return some (← FoldM.replace p (← FoldM.toConst v)))
      (do return some (← FoldM.replace p' (← FoldM.toConst v))) Agrees := by
  refine (toConst h hv).bind fun b b' Y hk hY => ?_
  obtain ⟨hgrown, hb, hb'⟩ := hY
  exact swap hgrown.sound.toLinked (hp.mono hk) (.value hb hb')

theorem swapEmpty (h : X.Sound) (hp : X.Abreast p p') :
    X.Both (do return some (← FoldM.replace p (← FoldM.emptyStatement)))
      (do return some (← FoldM.replace p' (← FoldM.emptyStatement))) Agrees := by
  refine (emptyStatement h).bind fun b b' Y hk hY => ?_
  obtain ⟨hgrown, hb, hb'⟩ := hY
  exact swap hgrown.sound.toLinked (hp.mono hk) (hgrown.sound.twin_empty hb hb')

theorem nullifyOperand (h : X.Sound) (hr : X.Owners p.value p'.value) (hc : X.Twin c c') (f : Field) :
    X.Both (FoldM.nullifyOperand p f c) (FoldM.nullifyOperand p' f c') fun _ _ Y => Y.Linked := by
  unfold FoldM.nullifyOperand
  refine .read (a := X.plain) (b := X.short) rfl rfl ?_
  rw [h.isUndefined_eq hc]
  split
  · refine (null h).bind fun b b' Y hk hY => ?_
    obtain ⟨hgrown, hb, hb'⟩ := hY
    exact write hgrown.sound.toLinked (hr.mono hk) (some (b, b')) fun e he => by
      cases he
      exact .value hb hb'
  · exact .pure h.toLinked

theorem foldOutsidePrologue (h : X.Sound) (hp : X.Abreast p p') (object : Value) {result : Value}
    (hresult : result.Representable) : X.Both (FoldM.foldOutsidePrologue p object result)
      (FoldM.foldOutsidePrologue p' object result) Agrees := by
  unfold FoldM.foldOutsidePrologue
  split
  · split
    · exact keep h.toLinked
    · refine (toConst h hresult).bind fun first first' Y hk hY => ?_
      obtain ⟨hgrown, hfirst, hfirst'⟩ := hY
      refine (toConst hgrown.sound representable_zero).bind fun index index' Z hk' hZ => ?_
      obtain ⟨hgrown', hindex, hindex'⟩ := hZ
      refine (alloc hgrown'.sound
        (m := .memberExpression (first, first') (index, index') true)
        (fun l hl => by cases hl) fun e he => ?_).bind fun b b' W hk'' hW => ?_
      · obtain rfl | rfl : e = (first, first') ∨ e = (index, index') := by
          simpa [Node.children, Node.slots, Slot.children] using he
        · exact .value (hk'.plain.holds hfirst) (hk'.short.holds hfirst')
        · exact .value hindex hindex'
      · exact swap hW.1.sound.toLinked (hp.mono ((hk.trans hk').trans hk'')) (.pair hW.2)
  · exact swapConst h hp hresult

end Both

section Steps

variable {owner owner' id id' : NodeId} {n n' : Node NodeId}

theorem Owned.nullifyOperand (h : X.Owned p p' owner owner' id id' n n') (hc : X.Twin c c')
    {f : Field} (hslot : n.slot? f = some (.required c)) (hslot' : n'.slot? f = some (.required c'))
    (hr : ∀ {s : Store} {b}, s.Holds .undefined c → s.Holds .null b →
      s.Rewrite .binaryExpr n (n.setSlot f (.required b)))
    (hr' : ∀ {s : Store} {b}, s.Holds .undefined c' → s.Holds .null b →
      s.Rewrite .binaryExpr n' (n'.setSlot f (.required b))) :
    X.Both (FoldM.nullifyOperand p f c) (FoldM.nullifyOperand p' f c') fun a a' Y => a' = a ∧
      ∃ b b', Y.Owned p p' owner owner' id id' (n.setSlot f (.required b))
        (n'.setSlot f (.required b')) := by
  refine ((Both.nullifyOperand h.sound h.owners hc f).and_ensures
    (nullifyOperand_ensures false h.plain hslot hr)
    (nullifyOperand_ensures false h.short hslot' hr')).mono fun a a' Y hk hY => ?_
  obtain ⟨hlinked, ⟨ht, ha, b, hb⟩, ht', ha', b', hb'⟩ := hY
  refine ⟨by rw [ha, ha', h.sound.isUndefined_eq hc], b, b', ?_⟩
  exact ⟨⟨hlinked, ht.sound, ht'.sound⟩, h.owners.mono hk, hb, hb'⟩

end Steps

namespace At

variable {owner owner' id id' : NodeId}

theorem sound (h : X.At p p' owner owner' id id') : X.Sound :=
  ⟨h.linked, h.plain.sound, h.short.sound⟩

theorem owners (h : X.At p p' owner owner' id id') (hid : X.pairs id id') :
    X.Owners p.value p'.value := by
  rw [h.plain.value, h.short.value]
  exact .node hid

theorem rewrite (h : X.At p p' owner owner' id id') (hid : X.pairs id id')
    (hl : ∀ l, X.plain.tree.node id ≠ .literal l) (hY : Both.Grown X Y) (hk : X.Keeps Y)
    {n n' : Node NodeId} (hn : n.Matches Y.Twin n') :
    Y.Both (do FoldM.modifyNode id fun _ => n; return some p)
      (do FoldM.modifyNode id' fun _ => n'; return some p') Agrees := by
  refine (Both.modifyNode hY.sound.toLinked (hk.pairs hid) hn ?_).bind
    fun _ _ _ _ hZ => .pure ⟨rfl, hZ⟩
  rwa [hY.plain.tree.node (h.linked.plain_open hid).1]

theorem foldConditional (h : X.At p p' owner owner' id id') :
    X.Both (FoldM.foldConditional p) (FoldM.foldConditional p') Agrees := by
  obtain ⟨m, hn, hn', hm⟩ := h.alike
  unfold FoldM.foldConditional
  refine .read (getTree_run _) (getTree_run _) ?_
  rw [h.plain.nodeAt?, h.short.nodeAt?, ← hn, ← hn']
  cases m
  case conditionalExpression test consequent alternate =>
    refine .constant? h.sound (hm test (by simp [Node.children, Node.slots, Slot.children])) ?_
    cases X.plain.value? test.1 with
    | none => exact .keep h.linked
    | some v =>
      refine .swap h.linked h.abreast ?_
      split
      · exact hm consequent (by simp [Node.children, Node.slots, Slot.children])
      · exact hm alternate (by simp [Node.children, Node.slots, Slot.children])
  all_goals exact .keep h.linked

theorem foldLogical (h : X.At p p' owner owner' id id') :
    X.Both (FoldM.foldLogical p) (FoldM.foldLogical p') Agrees := by
  obtain ⟨m, hn, hn', hm⟩ := h.alike
  unfold FoldM.foldLogical
  refine .read (getTree_run _) (getTree_run _) ?_
  rw [h.plain.nodeAt?, h.short.nodeAt?, ← hn, ← hn']
  cases m
  case logicalExpression operator left right =>
    have hleft := hm left (by simp [Node.children, Node.slots, Slot.children])
    have hright := hm right (by simp [Node.children, Node.slots, Slot.children])
    refine .constant? h.sound hleft ?_
    cases X.plain.value? left.1 with
    | none => exact .keep h.linked
    | some v =>
      refine .swap h.linked h.abreast ?_
      cases operator <;> dsimp only <;> split <;> assumption
  all_goals exact .keep h.linked

theorem foldBinary (h : X.At p p' owner owner' id id') :
    X.Both (FoldM.foldBinary p) (FoldM.foldBinary p') Agrees := by
  obtain ⟨m, hn, hn', hm⟩ := h.alike
  have hpair := h.pair
  unfold FoldM.foldBinary
  refine .read (getTree_run _) (getTree_run _) ?_
  rw [h.plain.node?, h.short.node?]
  dsimp only
  cases m
  case binaryExpression operator left right =>
    have hn : X.plain.tree.node id = .binaryExpression operator left.1 right.1 := hn.symm
    have hn' : X.short.tree.node id' = .binaryExpression operator left.2 right.2 := hn'.symm
    have hid : X.pairs id id' := hpair (by rw [hn]; exact fun hx => by cases hx)
    have hleft := hm left (by simp [Node.children, Node.slots, Slot.children])
    have hright := hm right (by simp [Node.children, Node.slots, Slot.children])
    have hplain := (h.linked.plain_open hid).2
    have hshort := (h.linked.short_open hid).2
    rw [hn, hn']
    dsimp only
    rw [if_neg hplain, if_neg hshort]
    -- operands are evaluated from two places: for most operators at once, for `==` and `!=` if
    -- none was `void 0`
    generalize hrest : (constant? left.1 >>= _) = rest, hrest' : (constant? left.2 >>= _) = rest'
    have evaluate : ∀ {Y : Coupling}, X.Keeps Y → Y.Sound → Y.Both rest rest' Agrees := by
      intro Y hk hY
      subst hrest hrest'
      refine .constant? hY (hleft.mono hk) ?_
      refine .constant? hY (hright.mono hk) ?_
      split
      · split
        · split
          · exact .keep hY.toLinked
          · exact .swapConst hY (h.abreast.mono hk) (representable_of_evaluate? ‹_› ‹_›)
        · exact .keep hY.toLinked
      · exact .keep hY.toLinked
    split
    · rename_i hop
      have hop : operator = .eq ∨ operator = .notEq := by simpa using hop
      have howned : X.Owned p p' owner owner' id id' (.binaryExpression operator left.1 right.1)
        (.binaryExpression operator left.2 right.2) :=
        ⟨h.sound, h.owners hid, ⟨h.plain, hplain, hn⟩, h.short, hshort, hn'⟩
      refine (howned.nullifyOperand hleft (f := .left) rfl rfl (.nullLeft hop) (.nullLeft hop)).bind
        fun a a' Y hY hleft' => ?_
      obtain ⟨rfl, b, b', howned'⟩ := hleft'
      refine (howned'.nullifyOperand (hright.mono hY) (f := .right) rfl rfl (.nullRight hop)
        (.nullRight hop)).bind fun d d' Z hZ hright' => ?_
      obtain ⟨rfl, e, e', howned''⟩ := hright'
      split
      · exact .pure ⟨rfl, howned''.sound.toLinked⟩
      · exact evaluate (hY.trans hZ) howned''.sound
    · exact evaluate (.refl X) h.sound
  all_goals
    rw [← hn, ← hn']
    exact .keep h.linked

theorem foldUnary (h : X.At p p' owner owner' id id') :
    X.Both (FoldM.foldUnary p) (FoldM.foldUnary p') Agrees := by
  obtain ⟨m, hn, hn', hm⟩ := h.alike
  unfold FoldM.foldUnary
  rw [h.plain.node?, h.short.node?]
  refine .read (a := X.plain.tree.node id) (b := X.short.tree.node id') rfl rfl ?_
  cases m
  case unaryExpression operator argument =>
    have hn : X.plain.tree.node id = .unaryExpression operator argument.1 := hn.symm
    have hn' : X.short.tree.node id' = .unaryExpression operator argument.2 := hn'.symm
    have hid : X.pairs id id' := h.pair (by rw [hn]; exact fun hx => by cases hx)
    rw [hn, hn']
    dsimp only
    refine .isConstant h.sound (.pair hid) ?_
    split
    · exact .keep h.linked
    · refine .constant? h.sound (hm argument (by simp [Node.children, Node.slots, Slot.children])) ?_
      split
      · split
        · exact .keep h.linked
        · exact .swapConst h.sound h.abreast (representable_of_evaluate operator _ ‹_›)
      · exact .keep h.linked
  all_goals
    rw [← hn, ← hn']
    exact .keep h.linked

theorem shorten (h : X.At p p' owner owner' id id') (hid : X.pairs id id')
    (hl : ∀ l, X.plain.tree.node id ≠ .literal l) {last : NodeId × NodeId}
    (hlast : X.Twin last.1 last.2) :
    X.Both (do
      let first ← FoldM.toConst (.number 0)
      FoldM.modifyNode id fun _ => .sequenceExpression [first, last.1]
      return some p)
    (do
      let first ← FoldM.toConst (.number 0)
      FoldM.modifyNode id' fun _ => .sequenceExpression [first, last.2]
      return some p') Agrees := by
  refine (Both.toConst h.sound representable_zero).bind fun first first' Y hk hY => ?_
  obtain ⟨hgrown, hfirst, hfirst'⟩ := hY
  refine h.rewrite hid hl hgrown hk ⟨.sequenceExpression [(first, first'), last], rfl, rfl, ?_⟩
  intro e he
  obtain rfl | rfl : e = (first, first') ∨ e = last := by
    simpa [Node.children, Node.slots, Slot.children] using he
  · exact .value hfirst hfirst'
  · exact hlast.mono hk

theorem foldSequence (h : X.At p p' owner owner' id id') :
    X.Both (FoldM.foldSequence p) (FoldM.foldSequence p') Agrees := by
  obtain ⟨m, hn, hn', hm⟩ := h.alike
  unfold FoldM.foldSequence
  refine .read (a := X.plain) (b := X.short) rfl rfl ?_
  rw [h.plain.node?, h.short.node?]
  dsimp only
  cases m
  case sequenceExpression expressions =>
    have hn : X.plain.tree.node id = .sequenceExpression (expressions.map Prod.fst) := hn.symm
    have hn' : X.short.tree.node id' = .sequenceExpression (expressions.map Prod.snd) := hn'.symm
    have hid : X.pairs id id' := h.pair (by rw [hn]; exact fun hx => by cases hx)
    have hliteral : ∀ l, X.plain.tree.node id ≠ .literal l := fun l => by
      rw [hn]
      exact fun hx => by cases hx
    replace hm : ∀ e ∈ expressions, X.Twin e.1 e.2 := fun e he =>
      hm e (by simpa [Node.children, Node.slots, Slot.children] using he)
    rw [hn, hn']
    dsimp only
    rw [List.getLast?_map, List.getLast?_map]
    cases hlast : expressions.getLast? with
    | none => exact .keep h.linked
    | some last =>
      have htwin := hm last (List.mem_of_getLast? hlast)
      obtain ⟨kept, hplain, hshort, hkept⟩ := h.sound.kept_cases hm
      have hreference := h.sound.isReferenceAt_eq h.abreast htwin
      dsimp only [Option.map_some]
      rw [hplain, hshort, hreference]
      simp only [List.isEmpty_map, List.length_map, List.length_dropLast, ← List.map_dropLast]
      split
      · exact .swap h.linked h.abreast htwin
      split
      · split
        · exact .keep h.linked
        · exact h.shorten hid hliteral htwin
      split
      · exact .keep h.linked
      split
      · exact .swap h.linked h.abreast htwin
      · refine h.rewrite hid hliteral (.refl h.sound) (.refl X) ?_
        refine ⟨.sequenceExpression (kept ++ [last]), ?_, ?_, fun e he => ?_⟩
        · exact congrArg Node.sequenceExpression (List.map_append ..)
        · exact congrArg Node.sequenceExpression (List.map_append ..)
        · have he : e ∈ kept ∨ e = last := by
            simpa [Node.children, Node.slots, Slot.children] using he
          rcases he with he | rfl
          · exact hkept e he
          · exact htwin
  all_goals
    rw [← hn, ← hn']
    exact .keep h.linked

theorem rename (h : X.At p p' owner owner' id id') (hid : X.pairs id id')
    (hl : ∀ l, X.plain.tree.node id ≠ .literal l) {object : NodeId × NodeId}
    (hobject : X.Twin object.1 object.2) (name : String) :
    X.Both (do
      let key ← FoldM.alloc (.identifier name)
      FoldM.modifyNode id fun _ => .memberExpression object.1 key false
      return some p)
    (do
      let key ← FoldM.alloc (.identifier name)
      FoldM.modifyNode id' fun _ => .memberExpression object.2 key false
      return some p') Agrees := by
  refine (Both.alloc h.sound (m := .identifier name) (fun l hl => by cases hl)
    fun e he => by cases he).bind fun key key' Y hk hY => ?_
  refine h.rewrite hid hl hY.1 hk ⟨.memberExpression object (key, key') false, rfl, rfl, ?_⟩
  intro e he
  obtain rfl | rfl : e = object ∨ e = (key, key') := by
    simpa [Node.children, Node.slots, Slot.children] using he
  · exact hobject.mono hk
  · exact .pair hY.2

theorem foldMember (h : X.At p p' owner owner' id id') :
    X.Both (FoldM.foldMember p) (FoldM.foldMember p') Agrees := by
  obtain ⟨m, hn, hn', hm⟩ := h.alike
  unfold FoldM.foldMember
  refine .read (getTree_run _) (getTree_run _) ?_
  rw [h.plain.node?, h.short.node?]
  dsimp only
  cases m
  case memberExpression object prop computed =>
    have hn : X.plain.tree.node id = .memberExpression object.1 prop.1 computed := hn.symm
    have hn' : X.short.tree.node id' = .memberExpression object.2 prop.2 computed := hn'.symm
    have hid : X.pairs id id' := h.pair (by rw [hn]; exact fun hx => by cases hx)
    have hobject := hm object (by simp [Node.children, Node.slots, Slot.children])
    have hprop := hm prop (by simp [Node.children, Node.slots, Slot.children])
    rw [hn, hn']
    dsimp only
    rw [h.linked.isReferenceTarget_eq h.abreast, h.sound.isWholeDirective_eq h.abreast]
    generalize hrest' : (if X.plain.tree.isReferenceTarget p then _ else _) = rest',
      hrest : (if X.plain.tree.isReferenceTarget p then _ else _) = rest
    have lookup : X.Both rest rest' Agrees := by
      subst hrest hrest'
      split
      · exact .keep h.linked
      · refine .constant? h.sound hobject ?_
        split
        · rename_i v hv
          refine .read (memberValue?_run _ v prop.1 computed) (memberValue?_run _ v prop.2 computed) ?_
          rw [h.sound.memberValue?_eq hprop]
          split
          · have hresult := representable_memberValue? (h.plain.sound.representable_value? hv) ‹_›
            split
            · exact .foldOutsidePrologue h.sound h.abreast v hresult
            · exact .swapConst h.sound h.abreast hresult
          · exact .keep h.linked
        · exact .keep h.linked
    have hname : nameKey? X.short.tree prop.2 = nameKey? X.plain.tree prop.1 := by
      unfold nameKey?
      rw [h.sound.string?_eq hprop]
    rw [hname]
    split
    · split
      · refine h.rename hid (fun l => ?_) hobject _
        rw [hn]
        exact fun hx => by cases hx
      · exact lookup
    · exact lookup
  all_goals
    rw [← hn, ← hn']
    exact .keep h.linked

end At

end Coupling

end ScriptFold

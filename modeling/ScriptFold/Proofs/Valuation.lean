import ScriptFold.Proofs.Equality
import ScriptFold.Proofs.Import
import ScriptFold.Proofs.Semantics

/-!
Rules on expressions keep value and effects. Where operators and look-ups do to values what folding
takes them to do, a constant node has its value by its shape, whoever made it, and what a rule puts
into a slot does what was there before.
-/

namespace ScriptFold

open Relation

variable {σ : Type} {sem : Semantics σ}

def Rule.onExpressions : List Rule :=
  [.conditionalExpr, .logicalExpr, .binaryExpr, .unaryExpr, .sequenceExpr, .memberExpr,
    .booleanLiterals]

def Value.Names (key : Value) (i : Nat) : Prop :=
  numberToString (stringToNumber key.toText) = key.toText ∧
    integer? (stringToNumber key.toText) = some (i : Int)

/-- Operators do what they do to constants, and strings and arrays have a length and elements. What
else there is to look up is left open. -/
structure Semantics.Faithful (sem : Semantics σ) : Prop where
  unary : ∀ {op v}, op ≠ .delete → sem.unary op v = pure (op.evaluate v)
  binary : ∀ {op : BinaryOp} {a b v}, op.evaluate? a b = some v → sem.binary op a b = pure v
  length : ∀ {object : Value} {n}, object.length? = some n →
    sem.lookup object (.string "length") = pure (.number (ofLength n))
  character : ∀ {text key i u c}, Value.Names key i → (units text)[i]? = some u →
    charOfUnit? u = some c → sem.lookup (.string text) key = pure (.string (String.singleton c))
  item : ∀ {items : List (Option Value)} {key : Value} {i v}, key.Names i →
    items[i]? = some (some v) → sem.lookup (.array items) key = pure v

theorem Value.arrayIndex?_eq_some {key : Value} {i : Nat} :
    key.arrayIndex? = some i ↔ key.Names i := by
  unfold arrayIndex? Names
  dsimp only
  split
  · rw [Option.bind_eq_some_iff]
    refine ⟨fun ⟨n, hn, hi⟩ => ⟨‹_›, ?_⟩, fun h => ⟨i, h.2, Int.mem_toNat?.mpr rfl⟩⟩
    rw [hn, Int.mem_toNat?.mp hi]
  · exact ⟨nofun, fun h => absurd h.1 ‹_›⟩

theorem Value.names_zero : (Value.number 0).Names 0 := by
  unfold Names
  decide +kernel

theorem charOfUnit?_toNat (c : Char) : charOfUnit? c.toNat = some c := by
  have h : ¬ (0xD800 ≤ c.toNat ∧ c.toNat < 0xE000) := by
    rintro ⟨hlow, hhigh⟩
    rcases c.valid with h | ⟨h, -⟩
    · have : c.toNat < 0xD800 := h
      omega
    · have : 0xDFFF < c.toNat := h
      omega
  rw [charOfUnit?, if_neg (by simpa using h), Char.ofNat_toNat]

theorem exists_char_of_units {text : String} (h : (units text).length = 1) :
    ∃ c, text = String.singleton c ∧ units text = [c.toNat] := by
  have hne : text.toList ≠ [] := by
    intro hnil
    rw [units, hnil] at h
    cases h
  obtain ⟨c, cs, hcs⟩ := List.exists_cons_of_ne_nil hne
  have hpos : ∀ c : Char, 1 ≤ (charUnits c).length := fun c => by
    unfold charUnits
    dsimp only
    split <;> simp
  have hc := hpos c
  rw [units, hcs, List.flatMap_cons, List.length_append] at h
  cases cs with
  | nil =>
    refine ⟨c, String.toList_injective (by simp [hcs]), ?_⟩
    rw [units, hcs, List.flatMap_cons, List.flatMap_nil, List.append_nil]
    rw [List.flatMap_nil, List.length_nil, Nat.add_zero] at h
    unfold charUnits at h ⊢
    dsimp only at h ⊢
    split at h
    · rw [if_pos ‹_›]
    · simp at h
  | cons d ds =>
    have hd := hpos d
    rw [List.flatMap_cons, List.length_append] at h
    omega

namespace Semantics.Faithful

theorem element (h : sem.Faithful) {object key v : Value} (hv : object.element? key = some v) :
    sem.lookup object key = pure v := by
  unfold Value.element? at hv
  obtain ⟨i, hi, hv⟩ := Option.bind_eq_some_iff.mp hv
  have hnames := Value.arrayIndex?_eq_some.mp hi
  cases object with
  | string text =>
    obtain ⟨u, hu, hv⟩ := Option.bind_eq_some_iff.mp hv
    obtain ⟨c, hc, hv⟩ := Option.bind_eq_some_iff.mp hv
    cases hv
    exact h.character hnames hu hc
  | array items => exact h.item hnames (Option.join_eq_some_iff.mp hv)
  | _ => cases hv

theorem character_zero (h : sem.Faithful) {text : String} (hlen : (units text).length = 1) :
    sem.lookup (.string text) (.number 0) = pure (.string text) := by
  obtain ⟨c, htext, hunits⟩ := exists_char_of_units hlen
  rw [h.character Value.names_zero (by rw [hunits]; rfl) (charOfUnit?_toNat c), ← htext]

theorem binary_nullLeft (h : sem.Faithful) {op : BinaryOp} (hop : op = .eq ∨ op = .notEq)
    (v : Value) : sem.binary op .null v = sem.binary op .undefined v := by
  rcases hop with rfl | rfl <;> exact (h.binary rfl).trans (h.binary rfl).symm

theorem binary_nullRight (h : sem.Faithful) {op : BinaryOp} (hop : op = .eq ∨ op = .notEq)
    (v : Value) : sem.binary op v .null = sem.binary op v .undefined := by
  obtain ⟨w, hw⟩ : ∃ w, op.evaluate? v .undefined = some w := by
    rcases hop with rfl | rfl <;> exact ⟨_, rfl⟩
  have heq : op.evaluate? v .null = op.evaluate? v .undefined :=
    (Value.evaluate?_nullified hop v .undefined).2
  rw [h.binary hw, h.binary (heq.trans hw)]

end Semantics.Faithful

theorem Node.children_sequence {α : Type} (expressions : List α) :
    (Node.sequenceExpression expressions).children = expressions :=
  List.append_nil _

namespace Tree

/-- What an expression does, by its shape alone. -/
noncomputable def valuation (t : Tree) (sem : Semantics σ) (x : NodeId) : Option (Comp σ Value) :=
  (t.meaning sem (fun _ => none) x).value?

variable {t t' : Tree} {x : NodeId} {n : Node NodeId}

theorem meaning_of_node (h : t.WellFormed) (hn : t.node x = n) :
    t.meaning sem (fun _ => none) x = sem.nodeMeaning x (n.map (t.meaning sem fun _ => none)) := by
  rw [meaning_eq h, hn, Semantics.step]

theorem valuation_literal (h : t.WellFormed) {l : Literal} (hn : t.node x = .literal l) :
    t.valuation sem x = l.value?.map pure := by
  rw [valuation, meaning_of_node h hn]
  rfl

theorem valuation_unary (h : t.WellFormed) {op : UnaryOp} {argument : NodeId}
    (hn : t.node x = .unaryExpression op argument) (hop : op ≠ .delete) :
    t.valuation sem x = (t.valuation sem argument).map (· >>= sem.unary op) := by
  rw [valuation, meaning_of_node h hn]
  change Option.bind (guard (op ≠ .delete)) _ = _
  rw [guard, if_pos hop]
  rfl

theorem valuation_binary (h : t.WellFormed) {op : BinaryOp} {left right : NodeId}
    (hn : t.node x = .binaryExpression op left right) :
    t.valuation sem x = do
      let l ← t.valuation sem left
      let r ← t.valuation sem right
      return l >>= fun a => r >>= fun b => sem.binary op a b := by
  rw [valuation, meaning_of_node h hn]
  rfl

theorem valuation_logical (h : t.WellFormed) {op : LogicalOp} {left right : NodeId}
    (hn : t.node x = .logicalExpression op left right) :
    t.valuation sem x = do
      let l ← t.valuation sem left
      let r ← t.valuation sem right
      return l >>= fun a => if op.decides a then return a else r := by
  rw [valuation, meaning_of_node h hn]
  rfl

theorem valuation_conditional (h : t.WellFormed) {test consequent alternate : NodeId}
    (hn : t.node x = .conditionalExpression test consequent alternate) :
    t.valuation sem x = do
      let t' ← t.valuation sem test
      let c ← t.valuation sem consequent
      let a ← t.valuation sem alternate
      return .choose t' c a := by
  rw [valuation, meaning_of_node h hn]
  rfl

theorem valuation_sequence (h : t.WellFormed) {expressions : List NodeId}
    (hn : t.node x = .sequenceExpression expressions) :
    t.valuation sem x = (expressions.mapM (t.valuation sem)).map Comp.sequence := by
  rw [valuation, meaning_of_node h hn]
  exact congrArg (Option.map Comp.sequence) (List.mapM_map ..)

theorem valuation_sequence_append (h : t.WellFormed) {leading : List NodeId} {last : NodeId}
    (hn : t.node x = .sequenceExpression (leading ++ [last])) {e : Comp σ Value} :
    t.valuation sem x = some e ↔ ∃ cs c,
      List.Forall₂ (fun y c => t.valuation sem y = some c) leading cs ∧
        t.valuation sem last = some c ∧ (cs.forM Comp.discard >>= fun _ => c) = e := by
  rw [valuation_sequence h hn, Option.map_eq_some_iff]
  constructor
  · rintro ⟨_, hall, rfl⟩
    obtain ⟨cs, ds, hcs, hlast, rfl⟩ := mapM_append_eq_some.mp hall
    cases forall₂_of_mapM hlast with
    | cons hc hnil =>
      cases hnil
      exact ⟨cs, _, forall₂_of_mapM hcs, hc, (Comp.sequence_append_last cs _).symm⟩
  · rintro ⟨cs, c, hcs, hc, rfl⟩
    refine ⟨cs ++ [c], mapM_append_eq_some.mpr ⟨cs, [c], mapM_of_forall₂ hcs, ?_, rfl⟩, ?_⟩
    · exact mapM_of_forall₂ (.cons hc .nil)
    · exact Comp.sequence_append_last cs c

theorem valuation_delete (h : t.WellFormed) {argument : NodeId}
    (hn : t.node x = .unaryExpression .delete argument) : t.valuation sem x = none := by
  rw [valuation, meaning_of_node h hn]
  rfl

theorem valuation_member (h : t.WellFormed) {object prop : NodeId}
    (hn : t.node x = .memberExpression object prop true) :
    t.valuation sem x = do
      let o ← t.valuation sem object
      let p ← t.valuation sem prop
      return o >>= fun v => p >>= fun key => sem.lookup v key := by
  rw [valuation, meaning_of_node h hn]
  rfl

theorem valuation_name (h : t.WellFormed) {object prop : NodeId} {name : String}
    (hn : t.node x = .memberExpression object prop false) (hprop : t.node prop = .identifier name) :
    t.valuation sem x =
      (t.valuation sem object).map (· >>= fun v => sem.lookup v (.string name)) := by
  rw [valuation, meaning_of_node h hn]
  change Option.bind (t.valuation sem object) (fun o =>
    Option.bind (t.meaning sem (fun _ => none) prop).name? _) = _
  rw [meaning_of_node h hprop]
  cases t.valuation sem object <;> rfl

/-- What an element of an array does; a hole is none. -/
noncomputable def elementValuation (t : Tree) (sem : Semantics σ) (element : Option NodeId) :
    Option (Comp σ (Option Value)) :=
  element.elim (some (return none)) fun c => (t.valuation sem c).map (some <$> ·)

theorem valuation_array (h : t.WellFormed) {elements : List (Option NodeId)}
    {items : List (Option Value)} (hn : t.node x = .arrayExpression elements)
    (hitems : List.Forall₂ (fun e item => t.elementValuation sem e = some (pure item))
      elements items) : t.valuation sem x = some (pure (.array items)) := by
  have hall : (elements.map (Option.map (t.meaning sem fun _ => none))).mapM (fun element =>
      element.elim (some (return none)) fun e => e.value?.map (some <$> ·)) =
        some (items.map fun item => (pure item : Comp σ (Option Value))) := by
    refine mapM_of_forall₂ (List.forall₂_map_left_iff.mpr (List.forall₂_map_right_iff.mpr ?_))
    refine hitems.imp fun e item he => ?_
    cases e <;> exact he
  rw [valuation, meaning_of_node h hn]
  refine (congrArg (Option.bind · fun es : List (Comp σ (Option Value)) =>
    some (es.mapM (fun e => e) >>= fun items => pure (Value.array items))) hall).trans ?_
  have hpure : (items.map fun item => (pure item : Comp σ (Option Value))).mapM (fun e => e) =
      pure items := by
    rw [List.mapM_map]
    exact List.mapM_pure.trans (congrArg pure (List.map_id items))
  rw [Option.bind_some, hpure, pure_bind]

mutual

theorem Spells.valuation (wf : t.WellFormed) (hsem : sem.Faithful) :
    ∀ {v : Value} {x : NodeId}, t.Spells v x → t.valuation sem x = some (pure v)
  | .undefined, x, hv => by
    simp only [Spells] at hv
    obtain ⟨-, a, hn, -, ha⟩ := hv
    rw [valuation_unary wf hn nofun, valuation_literal wf ha]
    exact congrArg some ((pure_bind _ _).trans (hsem.unary nofun))
  | .null, x, hv => by
    simp only [Spells] at hv
    rw [valuation_literal wf hv.2]
    rfl
  | .bool b, x, hv => by
    simp only [Spells] at hv
    rcases hv with hl | ⟨-, a, hn, ha⟩
    · rw [valuation_literal wf hl.2]
      rfl
    · have hnot : UnaryOp.not.evaluate (.number (if b then 0 else 1)) = .bool b := by
        cases b <;> rfl
      rw [valuation_unary wf hn nofun, valuation_literal wf ha.2, ← hnot]
      exact congrArg some ((pure_bind _ _).trans (hsem.unary nofun))
  | .number y, x, hv => by
    simp only [Spells] at hv
    rcases hv with hl | ⟨-, a, z, hn, ha, rfl⟩ | ⟨-, a, hn, ha, rfl⟩
    · rw [valuation_literal wf hl.2]
      rfl
    · rw [valuation_unary wf hn nofun, valuation_literal wf ha.2]
      exact congrArg some ((pure_bind _ _).trans (hsem.unary nofun))
    · have hdiv : BinaryOp.div.evaluate? (.number 0) (.number 0) = some (.number (0 / 0)) := rfl
      rw [valuation_binary wf hn, valuation_literal wf ha.2]
      exact congrArg some ((pure_bind _ _).trans ((pure_bind _ _).trans (hsem.binary hdiv)))
  | .string text, x, hv => by
    simp only [Spells] at hv
    rw [valuation_literal wf hv.2]
    rfl
  | .array items, x, hv => by
    simp only [Spells] at hv
    obtain ⟨-, elements, hn, hitems⟩ := hv
    exact valuation_array wf hn (hitems.valuation wf hsem)

theorem SpellsItems.valuation (wf : t.WellFormed) (hsem : sem.Faithful) :
    ∀ {items : List (Option Value)} {elements : List (Option NodeId)},
      t.SpellsItems items elements →
        List.Forall₂ (fun e item => t.elementValuation sem e = some (pure item)) elements items
  | [], _, hv => by
    simp only [SpellsItems] at hv
    subst hv
    exact .nil
  | item :: items, _, hv => by
    simp only [SpellsItems] at hv
    obtain ⟨e, es, rfl, he, hes⟩ := hv
    exact .cons (he.valuation wf hsem) (hes.valuation wf hsem)

theorem SpellsItem.valuation (wf : t.WellFormed) (hsem : sem.Faithful) :
    ∀ {item : Option Value} {e : Option NodeId}, t.SpellsItem item e →
      t.elementValuation sem e = some (pure item)
  | none, _, hv => by
    simp only [SpellsItem] at hv
    subst hv
    rfl
  | some v, _, hv => by
    simp only [SpellsItem] at hv
    obtain ⟨c, rfl, hc⟩ := hv
    rw [elementValuation, Option.elim, hc.valuation wf hsem]
    exact congrArg some (map_pure _ _)

end

end Tree

namespace Store

variable {s s' : Store} {observed : Bool} {rule : Rule} {p : Path} {a b x owner : NodeId}
  {n n' : Node NodeId}

/-- A constant node does what folding takes it to do. -/
theorem Sound.valuation_of_value (h : s.Sound) (hsem : sem.Faithful) {v : Value}
    (hv : s.value? x = some v) : s.tree.valuation sem x = some (pure v) := by
  have wf := h.wellFormed
  induction x using wf.acyclic.induction generalizing v with
  | _ x ih =>
    rcases h.value?_cases hv with
      hp | ⟨-, ⟨l, hn, hl⟩ | ⟨a, y, hn, ha, rfl⟩ | ⟨elements, items, hn, rfl, hitems⟩⟩
    · exact (h.spells hp).valuation wf hsem
    · rw [Tree.valuation_literal wf hn, hl]
      rfl
    · rw [Tree.valuation_unary wf hn nofun, Tree.valuation_literal wf ha]
      exact congrArg some ((pure_bind _ _).trans (hsem.unary nofun))
    · refine Tree.valuation_array wf hn ?_
      have hc : ∀ {c w}, some c ∈ elements → s.value? c = some w →
          s.tree.valuation sem c = some (pure w) := fun hc => ih _
        (Tree.child_of_node hn (by simpa [Node.children, Node.slots, Slot.children] using hc))
      clear hv hn
      induction hitems with
      | nil => exact .nil
      | @cons e item elements items he _ ihs =>
        refine .cons ?_ (ihs fun hmem => hc (List.mem_cons_of_mem _ hmem))
        cases e with
        | none =>
          obtain rfl : none = item := Option.some.inj he
          rfl
        | some c =>
          obtain ⟨w, hw, rfl⟩ := Option.map_eq_some_iff.mp he
          rw [Tree.elementValuation, Option.elim, hc (List.mem_cons_self ..) hw]
          exact congrArg some (map_pure _ _)

theorem Sound.valuation_of_holds (h : s.Sound) (hsem : sem.Faithful) {v : Value}
    (hb : s.Holds v b) : s.tree.valuation sem b = some (pure v) :=
  h.valuation_of_value hsem (h.value?_of_values hb)

/-- A member that is known of a constant is what is looked up. -/
theorem Sound.valuation_of_member (h : s.Sound) (hsem : sem.Faithful) {object prop : NodeId}
    {computed : Bool} {v w : Value} (hn : s.tree.node a = .memberExpression object prop computed)
    (hv : s.value? object = some v) (hw : s.memberValue? v prop computed = some w) :
    s.tree.valuation sem a = some (pure w) := by
  unfold memberValue? at hw
  cases computed with
  | true =>
    obtain ⟨key, hkey, hw⟩ := Option.bind_eq_some_iff.mp hw
    rw [Tree.valuation_member h.wellFormed hn, h.valuation_of_value hsem hv,
      h.valuation_of_value hsem hkey]
    exact congrArg some ((pure_bind _ _).trans ((pure_bind _ _).trans (hsem.element hw)))
  | false =>
    rw [if_neg Bool.false_ne_true] at hw
    split at hw
    · rename_i hprop
      obtain ⟨k, hk, rfl⟩ := Option.map_eq_some_iff.mp hw
      rw [Tree.valuation_name h.wellFormed hn hprop, h.valuation_of_value hsem hv]
      exact congrArg some ((pure_bind _ _).trans (hsem.length hk))
    · cases hw

/-- Of expressions whose values are dropped, the constant ones may be left out. -/
theorem Sound.discard_constants (h : s.Sound) (hsem : sem.Faithful) {xs : List NodeId}
    {cs : List (Comp σ Value)}
    (hcs : List.Forall₂ (fun y c => s.tree.valuation sem y = some c) xs cs) :
    ∃ ds, List.Forall₂ (fun y c => s.tree.valuation sem y = some c)
        (xs.filter fun y => !s.isConstant y) ds ∧ ds.forM Comp.discard = cs.forM Comp.discard := by
  induction hcs with
  | nil => exact ⟨[], .nil, rfl⟩
  | @cons y c ys cs hc _ ih =>
    obtain ⟨ds, hds, heq⟩ := ih
    simp only [List.forM_eq_forM, List.forM_cons] at heq ⊢
    cases hv : s.value? y with
    | some v =>
      obtain rfl : pure v = c := Option.some.inj ((h.valuation_of_value hsem hv).symm.trans hc)
      rw [List.filter_cons_of_neg (by rw [isConstant_eq, hv]; simp)]
      exact ⟨ds, hds, by rw [heq, Comp.discard_pure, pure_bind]⟩
    | none =>
      rw [List.filter_cons_of_pos (by rw [isConstant_eq, hv]; simp)]
      exact ⟨c :: ds, .cons hc hds, by rw [List.forM_cons, heq]⟩

theorem Sound.discard_all (h : s.Sound) (hsem : sem.Faithful) {xs : List NodeId}
    {cs : List (Comp σ Value)} (hall : ∀ y ∈ xs, (s.value? y).isSome)
    (hcs : List.Forall₂ (fun y c => s.tree.valuation sem y = some c) xs cs) :
    cs.forM Comp.discard = pure () := by
  obtain ⟨ds, hds, heq⟩ := h.discard_constants hsem hcs
  have hnone : (xs.filter fun y => !s.isConstant y) = [] := by
    rw [List.filter_eq_nil_iff]
    intro y hy
    rw [isConstant_eq, hall y hy]
    exact Bool.false_ne_true
  rw [hnone] at hds
  cases hds
  exact heq.symm

/-- What is put in the place of an expression does what the expression did. -/
theorem Swap.valuation_kept (h : s.Sound) (hsem : sem.Faithful) (hrule : rule ∈ Rule.onExpressions)
    (hab : s.Swap observed rule a b) :
    Kept (s.tree.valuation sem a) (s.tree.valuation sem b) := by
  have wf := h.wellFormed
  intro e he
  cases hab with
  | conditional hn hv =>
    rw [Tree.valuation_conditional wf hn, h.valuation_of_value hsem hv, Option.bind_eq_bind,
      Option.bind_some] at he
    obtain ⟨c, hc, he⟩ := Option.bind_eq_some_iff.mp he
    obtain ⟨d, hd, he⟩ := Option.bind_eq_some_iff.mp he
    obtain rfl := Option.some.inj he
    rw [Comp.choose_pure]
    split
    · exact hc
    · exact hd
  | logical hn hv =>
    have hleft := h.valuation_of_value hsem hv
    rw [Tree.valuation_logical wf hn, hleft, Option.bind_eq_bind, Option.bind_some] at he
    obtain ⟨r, hr, he⟩ := Option.bind_eq_some_iff.mp he
    obtain rfl := Option.some.inj he
    rw [pure_bind]
    split
    · exact hleft
    · exact hr
  | binary hn _ hx hy hv hb =>
    rw [Tree.valuation_binary wf hn, h.valuation_of_value hsem hx,
      h.valuation_of_value hsem hy] at he
    obtain rfl := Option.some.inj he
    rw [h.valuation_of_holds hsem hb, pure_bind, pure_bind, hsem.binary hv]
  | @unary _ op _ _ _ hn _ hv hb =>
    -- the shape of `delete` says nothing of its value, so there is none to keep
    by_cases hop : op = .delete
    · subst hop
      rw [Tree.valuation_delete wf hn] at he
      cases he
    · rw [Tree.valuation_unary wf hn hop, h.valuation_of_value hsem hv] at he
      obtain rfl := Option.some.inj he
      rw [h.valuation_of_holds hsem hb, ← hsem.unary hop]
      exact congrArg some (pure_bind _ _).symm
  | lastItem hn hleading =>
    obtain ⟨cs, c, hcs, hc, rfl⟩ := (Tree.valuation_sequence_append wf hn).mp he
    rw [hc, h.discard_all hsem hleading hcs, pure_bind]
  | member hn hv hw hb =>
    rw [h.valuation_of_member hsem hn hv hw] at he
    rw [h.valuation_of_holds hsem hb, he]
  | memberOfCharacter hn hv hw _ hlen hfirst hindex hb _ =>
    rw [h.valuation_of_member hsem hn hv hw] at he
    rw [Tree.valuation_member wf hb, h.valuation_of_holds hsem hfirst,
      h.valuation_of_holds hsem hindex, ← he]
    exact congrArg some ((pure_bind _ _).trans ((pure_bind _ _).trans (hsem.character_zero hlen)))
  | minify hv _ hb _ =>
    rw [h.valuation_of_value hsem hv] at he
    rw [h.valuation_of_holds hsem hb, he]
  | constantStatement | ifTest | ifExpression | ifTrue | ifFalse | ifNever | whileNever | forNever
    | forDeclaration | forExpression => exact absurd hrule (by decide)

theorem Edit.valuation_apart (h : s.Sound) (he : s.Edit observed rule p x n)
    (ha : ¬ s.tree.Within x a) : (s.put x n).tree.valuation sem a = s.tree.valuation sem a := by
  unfold Tree.valuation
  rw [Tree.meaning_congr h.wellFormed (he.sound h).wellFormed
    (fun _ hy => he.node_apart h ha hy) fun _ _ => rfl]

theorem Edit.valuation_rewrite (h : s.Sound) (hsem : sem.Faithful)
    (hrule : rule ∈ Rule.onExpressions) (he : s.Edit observed rule p x n)
    (hr : s.Rewrite rule (s.tree.node x) n) :
    Kept (s.tree.valuation sem x) ((s.put x n).tree.valuation sem x) := by
  have wf := h.wellFormed
  have wf' := (he.sound h).wellFormed
  have hself : (s.put x n).tree.node x = n := he.node_self h
  have hchild : ∀ c ∈ n.children, (s.put x n).tree.valuation sem c = s.tree.valuation sem c :=
    fun c hc => he.valuation_apart h ((he.admissible h).2.2.2.2 c hc).2
  have hnode : ∀ c ∈ n.children, (s.put x n).tree.node c = s.tree.node c := fun c hc =>
    he.node_apart h ((he.admissible h).2.2.2.2 c hc).2 .refl
  -- what the new node refers to is not above it, and keeps its value
  generalize hn : s.tree.node x = old at hr
  intro e hx
  cases hr with
  | @nullLeft op left right b hop hold hnew =>
    have hb := hchild b (List.mem_cons_self ..)
    have hright := hchild right (List.mem_cons_of_mem _ (List.mem_cons_self ..))
    rw [Tree.valuation_binary wf hn, h.valuation_of_holds hsem hold] at hx
    rw [Tree.valuation_binary wf' hself, hb, hright, h.valuation_of_holds hsem hnew, ← hx]
    simp only [Option.bind_eq_bind, Option.bind_some, pure_bind, hsem.binary_nullLeft hop]
  | @nullRight op left right b hop hold hnew =>
    have hleft := hchild left (List.mem_cons_self ..)
    have hb := hchild b (List.mem_cons_of_mem _ (List.mem_cons_self ..))
    rw [Tree.valuation_binary wf hn, h.valuation_of_holds hsem hold] at hx
    rw [Tree.valuation_binary wf' hself, hleft, hb, h.valuation_of_holds hsem hnew, ← hx]
    simp only [Option.bind_eq_bind, Option.bind_some, pure_bind, hsem.binary_nullRight hop]
  | leadingItems _ _ =>
    obtain ⟨cs, c, hcs, hc, rfl⟩ := (Tree.valuation_sequence_append wf hn).mp hx
    obtain ⟨ds, hds, heq⟩ := h.discard_constants hsem hcs
    rw [Node.children_sequence, List.forall_mem_append, List.forall_mem_singleton] at hchild
    refine (Tree.valuation_sequence_append wf' hself).mpr
      ⟨ds, c, ?_, hchild.2.trans hc, by rw [heq]⟩
    exact forall₂_of_mapM ((mapM_congr_list hchild.1).trans (mapM_of_forall₂ hds))
  | @firstItem leading last first hall _ hfirst =>
    obtain ⟨cs, c, hcs, hc, rfl⟩ := (Tree.valuation_sequence_append wf hn).mp hx
    have hself : (s.put x _).tree.node x = .sequenceExpression ([first] ++ [last]) := hself
    rw [Node.children_sequence, List.forall_mem_cons, List.forall_mem_singleton] at hchild
    have hzero := hchild.1.trans (h.valuation_of_holds hsem hfirst)
    refine (Tree.valuation_sequence_append wf' hself).mpr
      ⟨_, c, .cons hzero .nil, hchild.2.trans hc, ?_⟩
    rw [h.discard_all hsem hall hcs]
    exact congrArg (· >>= fun _ => c) ((bind_pure _).trans (Comp.discard_pure _))
  | @name object prop key name hprop hkey _ =>
    have hobject := hchild object (List.mem_cons_self ..)
    have hkey' := (hnode key (List.mem_cons_of_mem _ (List.mem_cons_self ..))).trans hkey
    rw [Tree.valuation_member wf hn, Tree.valuation_literal wf hprop] at hx
    rw [Tree.valuation_name wf' hself hkey', hobject, ← hx]
    simp only [Literal.value?, Option.map_some, Option.bind_eq_bind, Option.bind_some, pure_bind]
    exact Option.map_eq_bind
  | consequent | alternate | whileBody | doWhileBody | forBody | forInit | forUpdate | forAlways
    | forNever => exact absurd hrule (by decide)

theorem Edit.slot_kept (h : s.Sound) (hsem : sem.Faithful) (hrule : rule ∈ Rule.onExpressions)
    {parent : Path} {key : Key} {v : Ref} (he : s.Edit observed rule (.child parent key v) x n)
    {id : NodeId} (hread : s.tree.read parent.value key = .node id) {e : Comp σ Value}
    (hid : s.tree.valuation sem id = some e) :
    ∃ id', (s.put x n).tree.read parent.value key = .node id' ∧
      (s.put x n).tree.valuation sem id' = some e := by
  have fill : ∀ {a b}, (Path.child parent key v).Fills s.tree x a b n → s.Swap observed rule a b →
      ∃ id', (s.put x n).tree.read parent.value key = .node id' ∧
        (s.put x n).tree.valuation sem id' = some e := by
    intro a b hfill hab
    obtain rfl : a = id := Ref.node.inj (hfill.leads.read.trans hread)
    have hb := (hab.avoids h hfill.leads.child (he.admissible h).2.1).2
    refine ⟨b, (hfill.leads_new (he.node_self h)).read.symm, ?_⟩
    rw [he.valuation_apart h hb]
    exact hab.valuation_kept h hsem hrule e hid
  cases he with
  | fill _ _ hfill hab => exact fill hfill hab
  | splice _ _ hsplice hnew =>
    cases hnew with
    | swap hab => exact fill (.item hsplice) hab
    | unreachable | merge | constant | empty => exact absurd hrule (by decide)
  | rewrite hleads hf hr =>
    obtain rfl : v = .node id := hleads.read.trans hread
    obtain rfl : x = id := by cases hleads <;> rfl
    have hedit : s.Edit observed rule (.child parent key (.node x)) x n := .rewrite hleads hf hr
    refine ⟨x, ?_, hedit.valuation_rewrite h hsem hrule hr e hid⟩
    rw [Tree.read_congr hleads.owner? (hedit.node_of_ne h ?_)]
    · exact hread
    · rintro rfl
      exact h.wellFormed.not_within_child hleads.child .refl

theorem Grows.valuation (h : s.Sound) (hs' : s'.Sound) (hg : s.Grows s') (ha : a < s.tree.size) :
    s'.tree.valuation sem a = s.tree.valuation sem a := by
  unfold Tree.valuation
  rw [Tree.meaning_congr h.wellFormed hs'.wellFormed
    (fun y hy => hg.tree.node (h.wellFormed.within_lt_size hy ha)) fun _ _ => rfl]

/-- After a firing of a rule on expressions, the slot of its path does what it did. -/
theorem Fires.slot_kept (h : s.Sound) (hsem : sem.Faithful) (hrule : rule ∈ Rule.onExpressions)
    {parent : Path} {key : Key} {v : Ref} (hp : (Path.child parent key v).Live s.tree)
    (hleads : (Path.child parent key v).Leads s.tree owner b)
    (hfires : Fires observed rule (.child parent key v) s s') {id : NodeId}
    (hread : s.tree.read parent.value key = .node id) {e : Comp σ Value}
    (hid : s.tree.valuation sem id = some e) :
    ∃ id', s'.tree.read parent.value key = .node id' ∧ s'.tree.valuation sem id' = some e := by
  refine Fires.lift (R := fun s s' => ∀ id, s.tree.read parent.value key = .node id →
    s.tree.valuation sem id = some e →
      ∃ id', s'.tree.read parent.value key = .node id' ∧ s'.tree.valuation sem id' = some e)
    ?_ ?_ h hp hleads hfires id hread hid
  · intro s₁ s₂ s₃ h₁ h₂ a ha he
    obtain ⟨b, hb, he⟩ := h₁ a ha he
    exact h₂ b hb he
  · intro s s₁ x n hs hs₁ hg _ hedit a ha he
    obtain ⟨owner, hleads⟩ := Path.leads_of_read ha
    have hnode := hg.tree.node (Tree.lt_size_of_child hleads.child)
    refine hedit.slot_kept hs₁ hsem hrule ((Tree.read_congr hleads.owner? hnode key).trans ha) ?_
    rw [hg.valuation hs hs₁ (hs.wellFormed.closed hleads.child)]
    exact he

end Store

variable {json : Json} {t : Tree}

/-- Where a rule on expressions fires, the slot has the same value and the same effects before and
after. -/
theorem Tree.valuation_ofJson (hj : json.Finite) (ht : ofJson json = .ok t) {rules : List Rule}
    {s s' : FoldState} (hs : FoldState.Folds rules { tree := t } s) (hsem : sem.Faithful)
    {rule : Rule} (hrule : rule ∈ Rule.onExpressions) {p q : Path} (hp : p.Live s.tree)
    (hfrozen : ¬ Rule.inFrozenNode s.tree p) (hrun : rule.apply p s = .ok (some q) s') {id : NodeId}
    (hid : p.node? = some id) {e : Comp σ Value} (he : s.tree.valuation sem id = some e) :
    ∃ id', (p.refresh s'.tree).node? = some id' ∧ s'.tree.valuation sem id' = some e := by
  have h : s.Sound := hs.sound (s := { tree := t }) (fresh_ofJson hj ht).sound
  rcases FoldState.open_of_live h hp (by rw [hid]; rfl) hfrozen with rfl | ⟨owner, a, hopen⟩
  · obtain ⟨_, _, hrun', rfl, -⟩ := rule.apply_root h
    rw [hrun] at hrun'
    cases hrun'
  · obtain ⟨_, _, hrun', -, hr⟩ := rule.apply_ensures hopen
    rw [hrun] at hrun'
    cases hrun'
    obtain ⟨hfires, -⟩ := hr
    cases p with
    | root => cases hopen.leads
    | child parent key v =>
      have hread : s.tree.read parent.value key = .node id :=
        hp.2.symm.trans (Path.value_eq_node hid)
      obtain ⟨id', hread', he'⟩ := hfires.slot_kept h hsem hrule hp hopen.leads hread he
      exact ⟨id', congrArg Ref.node? hread', he'⟩

/-- A semantics in which nothing is known but what folding knows, and identifiers are counted. -/
def Semantics.folding : Semantics Nat where
  identifier _ _ := do
    modify (· + 1)
    return .undefined
  call _ _ := return .undefined
  unary op v := return op.evaluate v
  binary op a b := return (op.evaluate? a b).getD .undefined
  lookup object key :=
    if key.toText = "length" then
      return (object.length?.map fun n => .number (ofLength n)).getD .undefined
    else return (object.element? key).getD .undefined
  assign _ _ := return ()

theorem Value.Names.ne_length {key : Value} {i : Nat} (h : key.Names i) :
    key.toText ≠ "length" := by
  intro htext
  obtain ⟨hcanonical, -⟩ := h
  rw [htext] at hcanonical
  revert hcanonical
  decide +kernel

theorem Semantics.folding_faithful : Semantics.folding.Faithful where
  unary _ := rfl
  binary h := congrArg (fun v? => pure (Option.getD v? .undefined)) h
  length h := by
    simp only [folding, Value.toText, h]
    rfl
  character hkey hu hc := by
    simp only [folding, if_neg hkey.ne_length, Value.element?, Value.arrayIndex?_eq_some.mpr hkey]
    simp [hu, hc]
  item hkey hv := by
    simp only [folding, if_neg hkey.ne_length, Value.element?, Value.arrayIndex?_eq_some.mpr hkey]
    simp [hv]

/-- The program `true && a`. -/
def Json.programAnd : Json :=
  .obj [("type", .str "Program"), ("body", .arr [.obj [("type", .str "ExpressionStatement"),
    ("expression", .obj [("type", .str "LogicalExpression"), ("operator", .str "&&"),
      ("left", .obj [("type", .str "Literal"), ("value", .bool true)]),
      ("right", .obj [("type", .str "Identifier"), ("name", .str "a")])])]])]

theorem Json.finite_programAnd : programAnd.Finite := by
  simp [programAnd, Json.Finite, Json.FiniteMembers, Json.FiniteItems]

theorem Tree.valuation_programAnd {t : Tree} (ht : ofJson .programAnd = .ok t) :
    t.valuation .folding 3 = some (pure (.bool true) >>= fun v =>
      if LogicalOp.and.decides v then return v else Semantics.folding.identifier 2 "a") := by
  have h : Store.Sound { tree := t } := (fresh_ofJson Json.finite_programAnd ht).sound
  obtain rfl := Except.ok.inj (ht : Except.ok _ = .ok t)
  rw [valuation_logical h.wellFormed rfl, valuation_literal h.wellFormed (l := .bool true) rfl,
    valuation, meaning_of_node h.wellFormed (n := .identifier "a") rfl]
  rfl

theorem Tree.valuation_ofJson_and : ∃ t, ∃ s : FoldState, ∃ e, ofJson .programAnd = .ok t ∧
    t.node 3 = .logicalExpression .and 1 2 ∧ t.valuation .folding 3 = some e ∧
    s.tree.node 4 = .expressionStatement 2 none ∧ s.tree.valuation .folding 2 = some e := by
  let statement := ((Path.ofNode 5).child (.field .body) (.list 5 .body)).child (.index 0) (.node 4)
  let slot := statement.child (.field .expression) (.node 3)
  obtain ⟨t, ht, hand, htrue, hname, hfrozen, hlive, hreplace, hslot, hs⟩ :
      ∃ t, ofJson .programAnd = .ok t ∧ t.node 3 = .logicalExpression .and 1 2 ∧
        t.node 1 = .literal (.bool true) ∧ t.node 2 = .identifier "a" ∧
        Rule.inFrozenNode t slot = false ∧ slot.Live t ∧
        t.replace slot 2 =
          .ok (slot.withValue (.node 2), t.setNode 4 (.expressionStatement 2 none)) ∧
        (slot.refresh (t.setNode 4 (.expressionStatement 2 none))).node? = some 2 ∧
        (t.setNode 4 (.expressionStatement 2 none)).node 4 = .expressionStatement 2 none :=
    ⟨_, rfl, rfl, rfl, rfl, rfl, ⟨⟨⟨rfl, rfl⟩, rfl⟩, rfl⟩, rfl, rfl, rfl⟩
  have h : Store.Sound { tree := t } := (fresh_ofJson Json.finite_programAnd ht).sound
  obtain ⟨q, s, hrun, rfl, rfl⟩ : Ensures (Rule.logicalExpr.apply slot) { tree := t } fun q s =>
      q = some (slot.withValue (.node 2)) ∧
        s = { tree := t.setNode 4 (.expressionStatement 2 none) } := by
    have hleft : FoldM.constant? 1 { tree := t } = .ok (some (.bool true)) { tree := t } := by
      rw [FoldM.constant?_run, h.value?_literal htrue]
      rfl
    have hnode : t.nodeAt? slot = some (.logicalExpression .and 1 2) := congrArg some hand
    refine .read (FoldM.getTree_run _) ?_
    rw [hnode]
    refine .read hleft ⟨_, _, ?_, rfl, rfl⟩
    change EStateM.bind (FoldM.edit fun tree => tree.replace slot 2) _ _ = _
    simp only [EStateM.bind, FoldM.edit, hreplace]
    rfl
  have he := valuation_programAnd ht
  have hstart : FoldState.Folds [] { tree := t } { tree := t } := .refl
  obtain ⟨id, hid, he'⟩ := valuation_ofJson Json.finite_programAnd ht hstart
    Semantics.folding_faithful (List.mem_of_elem_eq_true rfl) hlive
    (by rw [hfrozen]; exact Bool.false_ne_true) hrun rfl he
  obtain rfl : 2 = id := Option.some.inj (hslot.symm.trans hid)
  exact ⟨t, _, _, ht, hand, he, hs, he'⟩

end ScriptFold

import ScriptFold.Proofs.Convergence
import ScriptFold.Proofs.Minify
import ScriptFold.Proofs.RoundTrip

/-!
Writing booleans as `!0` and `!1` changes how programs are spelled and nothing else. A program that
is folded with it and without it comes to the same term, once both spellings of a boolean are read
as one, and every other rule fires equally often.
-/

namespace ScriptFold

/-- A node as a term, where `!0` and `!1` are read as the booleans that they stand for. -/
def Node.readBoolean : Node Term → Term
  | .unaryExpression .not ⟨.literal l⟩ =>
    if l = .number 0 then ⟨.literal (.bool true)⟩
    else if l = .number 1 then ⟨.literal (.bool false)⟩
    else ⟨.unaryExpression .not ⟨.literal l⟩⟩
  | n => ⟨n⟩

def Term.readBooleans (t : Term) : Term :=
  t.fold Node.readBoolean

theorem Node.readBoolean_not (b : Bool) : Node.readBoolean
    (.unaryExpression .not ⟨.literal (.number (if b then 0 else 1))⟩) = ⟨.literal (.bool b)⟩ := by
  have hne : (1 : Float) ≠ 0 := by decide
  cases b <;> simp [readBoolean, hne]

theorem Term.readBooleans_mk (n : Node Term) :
    (⟨n⟩ : Term).readBooleans = (n.map readBooleans).readBoolean :=
  fold_mk _ n

namespace Tree

/-- The term below a node, with one spelling of its booleans. -/
def reading (t : Tree) (id : NodeId) : Term :=
  (t.termOf id).readBooleans

end Tree

namespace Store.Sound

variable {s : Store} {id : NodeId}

theorem reading_eq (h : s.Sound) (hid : id < s.tree.size) :
    s.tree.reading id = ((s.tree.node id).map s.tree.reading).readBoolean := by
  rw [Tree.reading, h.termOf_eq hid, Term.readBooleans_mk, Node.map_map]
  rfl

theorem reading_literal (h : s.Sound) {l : Literal} (hn : s.tree.node id = .literal l) :
    s.tree.reading id = ⟨.literal l⟩ := by
  rw [h.reading_eq (Tree.lt_size_of_node (by rw [hn]; simp)), hn]
  rfl

/-- Number literals of the pool have no sign. -/
theorem unsigned_of_frozen (h : s.Sound) (hc : s.Canonical) {x : Float}
    (hx : s.tree.FrozenLiteral (.number x) id) : IsUnsigned x := by
  rcases h.frozen hx.1 with ⟨v, hv⟩ | hempty
  · obtain rfl : v = .number x := Option.some.inj
      ((h.value?_of_values hv).symm.trans (h.value?_literal hx.2))
    exact (hc.number hv x rfl).mp (by rw [hx.2]; rfl)
  · have hn := (h.emptyStatement hempty).2
    rw [hx.2] at hn
    cases hn

end Store.Sound

namespace Value

mutual

/-- How the pool writes a value, but for booleans, which are written in full. -/
def spelling : Value → Term
  | .undefined => ⟨.unaryExpression .void ⟨.literal (.number 0)⟩⟩
  | .null => ⟨.literal .null⟩
  | .bool b => ⟨.literal (.bool b)⟩
  | .number x =>
    if x.isNaN then ⟨.binaryExpression .div ⟨.literal (.number 0)⟩ ⟨.literal (.number 0)⟩⟩
    else if isNegative x then ⟨.unaryExpression .minus ⟨.literal (.number (-x))⟩⟩
    else ⟨.literal (.number x)⟩
  | .string text => ⟨.literal (.string text)⟩
  | .array items => ⟨.arrayExpression (spellings items)⟩

def spellings : List (Option Value) → List (Option Term)
  | [] => []
  | item :: items => spelling? item :: spellings items

def spelling? : Option Value → Option Term
  | none => none
  | some v => some v.spelling

end

end Value

namespace Tree

open Constant (not_isNaN_of_isFinite)

variable {s : Store}

mutual

theorem Spells.reading_eq (h : s.Sound) (hc : s.Canonical) :
    ∀ {v : Value} {id : NodeId}, s.tree.Spells v id → s.tree.reading id = v.spelling
  | .undefined, id, hv => by
    simp only [Spells] at hv
    obtain ⟨hf, a, hn, ha⟩ := hv
    rw [h.reading_eq (lt_size_of_isFrozen hf), hn]
    change Node.readBoolean (.unaryExpression .void (s.tree.reading a)) = _
    rw [h.reading_literal ha.2]
    rfl
  | .null, _, hv | .string _, _, hv => by
    simp only [Spells] at hv
    exact h.reading_literal hv.2
  | .bool b, id, hv => by
    simp only [Spells] at hv
    rcases hv with hl | ⟨hf, a, hn, ha⟩
    · exact h.reading_literal hl.2
    · rw [h.reading_eq (lt_size_of_isFrozen hf), hn]
      change Node.readBoolean (.unaryExpression .not (s.tree.reading a)) = _
      rw [h.reading_literal ha.2, Node.readBoolean_not]
      rfl
  | .number x, id, hv => by
    simp only [Spells] at hv
    rcases hv with hl | ⟨hf, a, y, hn, ha, rfl⟩ | ⟨hf, a, hn, ha, rfl⟩
    · obtain ⟨hsign, hnan⟩ := h.unsigned_of_frozen hc hl
      rw [h.reading_literal hl.2, Value.spelling, if_neg hnan, if_neg hsign]
    · -- what is negated has no sign, so the value has one
      obtain ⟨hsign, -⟩ := h.unsigned_of_frozen hc ha
      have hy : y.isFinite := h.finite a y ha.2
      have hnan : ¬ (-y).isNaN := not_isNaN_of_isFinite (by rwa [isFinite_neg])
      have hneg : isNegative (-y) := by
        rw [isNegative_neg hy, Bool.eq_false_of_not_eq_true hsign]
        rfl
      rw [Value.spelling, if_neg hnan, if_pos hneg, neg_neg_float,
        h.reading_eq (lt_size_of_isFrozen hf), hn]
      change Node.readBoolean (.unaryExpression .minus (s.tree.reading a)) = _
      rw [h.reading_literal ha.2]
      rfl
    · rw [Value.spelling, if_pos (by decide), h.reading_eq (lt_size_of_isFrozen hf), hn]
      change Node.readBoolean (.binaryExpression .div (s.tree.reading a) (s.tree.reading a)) = _
      rw [h.reading_literal ha.2]
      rfl
  | .array items, id, hv => by
    simp only [Spells] at hv
    obtain ⟨hf, elements, hn, hitems⟩ := hv
    rw [h.reading_eq (lt_size_of_isFrozen hf), hn, Value.spelling, ← hitems.reading_eq h hc]
    rfl

theorem SpellsItems.reading_eq (h : s.Sound) (hc : s.Canonical) :
    ∀ {items : List (Option Value)} {elements : List (Option NodeId)},
      s.tree.SpellsItems items elements →
        elements.map (Option.map s.tree.reading) = Value.spellings items
  | [], elements, hv => by
    simp only [SpellsItems] at hv
    rw [hv]
    rfl
  | item :: items, elements, hv => by
    simp only [SpellsItems] at hv
    obtain ⟨e, es, rfl, hitem, hitems⟩ := hv
    rw [Value.spellings, List.map_cons, hitem.reading_eq h hc, hitems.reading_eq h hc]

theorem SpellsItem.reading_eq (h : s.Sound) (hc : s.Canonical) :
    ∀ {item : Option Value} {e : Option NodeId}, s.tree.SpellsItem item e →
      e.map s.tree.reading = Value.spelling? item
  | none, e, hv => by
    simp only [SpellsItem] at hv
    rw [hv]
    rfl
  | some v, e, hv => by
    simp only [SpellsItem] at hv
    obtain ⟨id, rfl, hv⟩ := hv
    rw [Value.spelling?, Option.map_some, hv.reading_eq h hc]

end

end Tree

namespace Coupling

variable {X : Coupling} {c c' : NodeId}

theorem Sound.reading_eq (h : X.Sound) (hc : X.Twin c c') :
    X.short.tree.reading c' = X.plain.tree.reading c := by
  induction c using h.plain.wellFormed.acyclic.induction generalizing c' with
  | _ c ih =>
    cases hc with
    | pair hc =>
      obtain ⟨m, hn, hn', hm⟩ := h.nodes hc
      rw [h.plain.reading_eq (h.plain_open hc).1, h.short.reading_eq (h.short_open hc).1, ← hn, ← hn',
        Node.map_map, Node.map_map]
      refine congrArg _ (Node.map_congr fun e he => ih e.1 ?_ (hm e he))
      rw [Tree.Child, ← hn, Node.children_map]
      exact List.mem_map_of_mem he
    | value hv hv' =>
      rw [(h.plain.spells hv).reading_eq h.plain h.plain_canonical,
        (h.short.spells hv').reading_eq h.short h.short_canonical]
    | truth hn hv' =>
      rw [h.plain.reading_literal hn, (h.short.spells hv').reading_eq h.short h.short_canonical]
      rfl
    | empty hf hn hf' hn' =>
      rw [h.plain.reading_eq (Tree.lt_size_of_isFrozen hf),
        h.short.reading_eq (Tree.lt_size_of_isFrozen hf'), hn, hn']
      rfl

/-- A program that nothing has happened to yet stands beside itself. -/
theorem even_self {t : Tree} (h : Store.Sound { tree := t }) :
    Even ⟨{ tree := t }, { tree := t }, fun c c' => c = c' ∧ c < t.size⟩ := by
  have hfrozen : ∀ id, ¬ t.isFrozen id := fun id hf => by
    rcases h.frozen hf with ⟨v, hv⟩ | hempty
    · simp at hv
    · cases hempty
  have hholds : ∀ {id v}, ¬ Store.Holds { tree := t } v id := fun hv => by
    simp [Store.Holds] at hv
  have hcanonical : Store.Canonical { tree := t } :=
    ⟨fun hv => absurd hv hholds, fun hv => absurd hv hholds, fun hv => absurd hv hholds⟩
  refine ⟨⟨⟨⟨rfl, h.lt_size_of_root⟩, fun {c c'} hc => ?_, fun hc => ⟨hc.2, hfrozen _⟩,
    fun hc => ⟨hc.1 ▸ hc.2, hfrozen _⟩, fun hc hd => by rw [hc.1, hd.1], hcanonical, hcanonical⟩,
    h, h⟩, fun _ _ => rfl⟩
  obtain ⟨rfl, -⟩ := hc
  exact .refl fun d hd => .pair ⟨rfl, h.wellFormed.closed hd⟩

end Coupling

variable {json : Json} {t : Tree}

/-- Writing booleans shorter is size-only. Whatever program is folded, enough rounds end with one
that changes nothing. Where they do for two runs, of which the second leaves booleans as they are,
the results unfold to the same term but for the spelling of booleans, and all other rules have fired
equally often. -/
theorem Tree.minified_ofJson (hj : json.Finite) (ht : ofJson json = .ok t) :
    (∃ N, ∀ options : Options, N ≤ options.maxRounds →
      ∃ s, options.Converges options.maxRounds { tree := t } s) ∧
    ∀ options options' : Options, options.minifyBooleans = true → options'.minifyBooleans = false →
      ∀ s s', options.Converges options.maxRounds { tree := t } s →
        options'.Converges options'.maxRounds { tree := t } s' →
        t.fold options = .ok (s.tree, s.stats) ∧ t.fold options' = .ok (s'.tree, s'.stats) ∧
        (∃ term term', s.tree.term? = some term ∧ s'.tree.term? = some term' ∧
          term.readBooleans = term'.readBooleans) ∧
        ∀ rule, rule ≠ .booleanLiterals → s.stats.hits rule = s'.stats.hits rule := by
  have hs : Store.Sound { tree := t } := (fresh_ofJson hj ht).sound
  have fold_eq : ∀ {options : Options} {s}, options.Converges options.maxRounds { tree := t } s →
      t.fold options = .ok (s.tree, s.stats) := fun h => by
    unfold fold
    rw [EStateM.run, h.rounds_eq]
  refine ⟨⟨t.weight t.root + 1, fun options hlimit => options.converges_of_weight hs hlimit⟩, ?_⟩
  intro options options' _ hplain s s' hc hc'
  obtain ⟨pairs, heven⟩ := (Coupling.even_self hs).converge hplain hc' hc
  refine ⟨fold_eq hc, fold_eq hc', ⟨s.tree.termOf s.tree.root, s'.tree.termOf s'.tree.root,
    heven.short.termAt?_eq heven.short.lt_size_of_root,
    heven.plain.termAt?_eq heven.plain.lt_size_of_root, heven.reading_eq (.pair heven.root)⟩, ?_⟩
  exact fun rule hrule => heven.hits rule hrule

def Json.programTrue : Json :=
  .obj [("type", .str "Program"), ("body", .arr [.obj [("type", .str "ExpressionStatement"),
    ("expression", .obj [("type", .str "Literal"), ("value", .bool true)])]])]

theorem Json.finite_programTrue : programTrue.Finite := by
  simp [programTrue, Json.Finite, Json.FiniteMembers, Json.FiniteItems]

theorem Tree.minified_ofJson_programTrue : ∃ t, ofJson .programTrue = .ok t ∧
    ∃ r r', t.fold { minifyBooleans := true } = .ok r ∧
      t.fold { minifyBooleans := false } = .ok r' ∧
      (∃ term term', r.1.term? = some term ∧ r'.1.term? = some term' ∧
        term.readBooleans = term'.readBooleans) ∧
      ∀ rule, rule ≠ .booleanLiterals → r.2.hits rule = r'.2.hits rule := by
  refine ⟨_, rfl, ?_⟩
  have hs : Store.Sound { tree := _ } := (fresh_ofJson Json.finite_programTrue rfl).sound
  obtain ⟨s, hc⟩ := Options.converges_of_weight { minifyBooleans := true } (s := { tree := _ }) hs
    (show _ < 16 by decide)
  obtain ⟨s', hc'⟩ := Options.converges_of_weight { minifyBooleans := false } (s := { tree := _ }) hs
    (show _ < 16 by decide)
  obtain ⟨hfold, hfold', hread, hhits⟩ :=
    (minified_ofJson Json.finite_programTrue rfl).2 _ _ rfl rfl s s' hc hc'
  exact ⟨_, _, hfold, hfold', hread, hhits⟩

end ScriptFold

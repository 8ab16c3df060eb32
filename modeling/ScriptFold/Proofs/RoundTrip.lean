import ScriptFold.Proofs.Integer
import ScriptFold.Proofs.Layout

/-!
Reading undoes writing. The members written for a node are read one by one as what they were written
from, so a term is read as itself; a tree unfolds to a term if nothing in it is below itself, and a
term that is laid out as a tree is found there again.
-/

namespace ScriptFold

open Relation

theorem Json.number?_ofNumber {x : Float} (h : x.isFinite) : (ofNumber x).number? = some x := by
  unfold ofNumber
  rw [if_neg (by simp [h])]
  split
  · split
    · rename_i n hn hsafe
      simp only [Bool.and_eq_true, decide_eq_true_eq, Bool.not_eq_true',
        Bool.and_eq_false_imp] at hsafe
      refine congrArg some (ofInt_of_integer? hn hsafe.1 fun hzero => ?_)
      simp [hsafe.2 hzero]
    · rfl
  · rfl

namespace Estree

theorem bind_ok {α β : Type} {x : Except ImportError α} {f : α → Except ImportError β} {a : α}
    (h : x = .ok a) : (x >>= f) = f a := by
  rw [h]
  rfl

theorem bind_eq {α β : Type} {x : Except ImportError α} {f : α → Except ImportError β} {a : α}
    {y : Except ImportError β} (h : x = .ok a) (hy : f a = y) : (x >>= f) = y :=
  (bind_ok h).trans hy

theorem mapM_ok {α β : Type} {f : α → Except ImportError β} {g : β → α} {bs : List β}
    (h : ∀ b ∈ bs, f (g b) = .ok b) : (bs.map g).mapM f = .ok bs := by
  induction bs with
  | nil => rfl
  | cons b bs ih =>
    have rest := ih fun b hb => h b (List.mem_cons_of_mem _ hb)
    rw [List.map_cons, List.mapM_cons, bind_ok (h b List.mem_cons_self), bind_ok rest]
    rfl

theorem isNull_toJson (t : Term) : t.toJson.isNull = false := by
  obtain ⟨n⟩ := t
  unfold Term.toJson
  rw [Term.fold_mk]
  rfl

theorem find?_readMembers (members : List (String × Json)) (name : String) :
    (readMembers members).find? (fun m => m.name == name) =
      (members.lookup name).map fun value => ⟨name, value, readTerm value, readItems value⟩ := by
  induction members with
  | nil => rfl
  | cons member members ih =>
    obtain ⟨other, value⟩ := member
    rw [readMembers, List.find?_cons, List.lookup_cons]
    by_cases h : name = other
    · subst h
      simp
    · simp [beq_false_of_ne h, beq_false_of_ne (Ne.symm h), ih]

theorem readList_eq (items : List Json) :
    readList items = items.map fun item => (item, readTerm item) := by
  induction items with
  | nil => rfl
  | cons item items ih => rw [readList, ih, List.map_cons]

namespace Record

variable {kind : Kind} {members : List (String × Json)} {name : String} {field : Field}

theorem get?_eq {value : Json} (h : members.lookup name = some value) :
    (mk kind (readMembers members)).get? name =
      if value.isNull then none else some ⟨name, value, readTerm value, readItems value⟩ := by
  unfold get?
  rw [find?_readMembers, h, Option.map_some]
  cases hv : value.isNull <;> simp [Option.filter, hv]

theorem get?_eq_none (h : members.lookup name = none) :
    (mk kind (readMembers members)).get? name = none := by
  unfold get?
  rw [find?_readMembers, h]
  rfl

theorem required_eq {c : Term} (h : members.lookup (spell field) = some c.toJson)
    (hc : readTerm c.toJson = .ok c) : (mk kind (readMembers members)).required field = .ok c := by
  unfold required
  rw [get?_eq h, isNull_toJson]
  exact hc

theorem optional_eq {o : Option Term}
    (h : members.lookup (spell field) = some (orNull (o.map Term.toJson)))
    (ho : ∀ c, o = some c → readTerm c.toJson = .ok c) :
    (mk kind (readMembers members)).optional field = .ok o := by
  unfold optional
  rw [get?_eq h]
  cases o with
  | none => rfl
  | some c =>
    simp [orNull, isNull_toJson, ho c rfl]

theorem items_eq {items : List Json} (h : members.lookup name = some (.arr items)) :
    (mk kind (readMembers members)).items name =
      .ok (items.map fun item => (item, readTerm item)) := by
  unfold Record.items
  rw [get?_eq h, ← readList_eq]
  rfl

theorem list_eq {cs : List Term}
    (h : members.lookup (spell field) = some (.arr (cs.map Term.toJson)))
    (hcs : ∀ c ∈ cs, readTerm c.toJson = .ok c) :
    (mk kind (readMembers members)).list field = .ok cs := by
  unfold list
  rw [items_eq h, List.map_map]
  exact mapM_ok fun c hc => by simp [isNull_toJson, hcs c hc]

theorem holey_eq {cs : List (Option Term)}
    (h : members.lookup (spell field) = some (.arr ((cs.map (Option.map Term.toJson)).map orNull)))
    (hcs : ∀ c, some c ∈ cs → readTerm c.toJson = .ok c) :
    (mk kind (readMembers members)).holey field = .ok cs := by
  unfold holey
  rw [items_eq h, List.map_map, List.map_map]
  refine mapM_ok fun c hc => ?_
  cases c with
  | none => rfl
  | some c => simp [orNull, isNull_toJson, hcs c hc]

theorem flag_eq {b : Bool} (h : members.lookup name = some (.bool b)) :
    (mk kind (readMembers members)).flag name = .ok b := by
  unfold flag
  rw [get?_eq h]
  rfl

theorem string?_eq {s : String} (h : members.lookup name = some (.str s)) :
    (mk kind (readMembers members)).string? name = .ok (some s) := by
  unfold string?
  rw [get?_eq h]
  rfl

theorem string?_eq_none (h : members.lookup name = none) :
    (mk kind (readMembers members)).string? name = .ok none := by
  unfold string?
  rw [get?_eq_none h]

theorem string_eq {s : String} (h : members.lookup name = some (.str s)) :
    (mk kind (readMembers members)).string name = .ok s := by
  unfold string
  rw [string?_eq h]
  rfl

theorem operator_eq {α : Type} [Vocabulary α] [LawfulVocabulary α] {a : α}
    (h : members.lookup "operator" = some (.str (spell a))) :
    (mk kind (readMembers members)).operator α = .ok a := by
  unfold operator
  rw [string_eq h, bind_ok rfl, unspell?_spell]
  rfl

theorem varKind_eq {k : VarKind} (h : members.lookup "kind" = some (.str (spell k))) :
    (mk kind (readMembers members)).varKind = .ok k := by
  unfold varKind
  rw [string_eq h, bind_ok rfl, unspell?_spell]
  rfl

theorem propertyKind_eq {k : PropertyKind} (h : members.lookup "kind" = some (.str (spell k))) :
    (mk kind (readMembers members)).propertyKind = .ok k := by
  unfold propertyKind
  rw [string?_eq h, bind_ok rfl]
  dsimp only
  rw [unspell?_spell]
  rfl

theorem literal_eq {l : Literal} (hl : (Node.literal l : Node Term).HasFiniteLiteral) :
    (mk .literal (readMembers (("type", .str (spell Kind.literal)) :: literalMembers l))).literal =
      .ok l := by
  unfold literal
  cases l with
  | regExp pattern flags =>
    rw [get?_eq rfl]
    rfl
  | null =>
    rw [get?_eq_none rfl, get?_eq rfl]
    rfl
  | bool b =>
    rw [get?_eq_none rfl, get?_eq rfl]
    rfl
  | string s =>
    rw [get?_eq_none rfl, get?_eq rfl]
    rfl
  | number x =>
    have hx := Json.number?_ofNumber (hl x rfl)
    rw [get?_eq_none rfl, get?_eq rfl]
    cases h : Json.ofNumber x <;> rw [h] at hx <;> cases hx <;> rfl

/-- What is written for a node is read as the node. -/
theorem node_eq {n : Node Term} (hn : n.HasFiniteLiteral)
    (hc : ∀ c ∈ n.children, readTerm c.toJson = .ok c) :
    (mk n.kind (readMembers (("type", .str (spell n.kind)) :: membersOf (n.map Term.toJson)))).node =
      .ok n := by
  cases n
  case literal l => exact bind_ok (literal_eq hn)
  case expressionStatement e directive =>
    refine bind_eq (required_eq rfl (hc _ (by simp [Node.children, Node.slots, Slot.children]))) ?_
    cases directive with
    | none => exact bind_ok (string?_eq_none rfl)
    | some text => exact bind_ok (string?_eq rfl)
  all_goals
    simp only [Node.children, Node.slots, Slot.children, List.flatMap_cons, List.flatMap_nil,
      List.append_nil, List.mem_append, List.mem_cons, List.mem_filterMap, id, exists_eq_right,
      Option.mem_toList, List.not_mem_nil, or_false] at hc
    unfold Record.node
    dsimp only [Node.kind]
    repeat first
      | refine bind_eq (required_eq rfl (hc _ (by grind))) ?_
      | refine bind_eq (optional_eq rfl fun _ h => hc _ (by grind)) ?_
      | refine bind_eq (list_eq rfl fun _ h => hc _ (by grind)) ?_
      | refine bind_eq (holey_eq rfl fun _ h => hc _ (by grind)) ?_
      | refine bind_eq (flag_eq rfl) ?_
      | refine bind_eq (string_eq rfl) ?_
      | refine bind_eq (operator_eq rfl) ?_
      | refine bind_eq (varKind_eq rfl) ?_
      | refine bind_eq (propertyKind_eq rfl) ?_
    rfl

end Record

theorem readTerm_toJson {t : Term} (h : t.Finite) : readTerm t.toJson = .ok t := by
  induction t using Term.induction with
  | _ n ih =>
    obtain ⟨hn, hc⟩ := (Term.finite_mk n).mp h
    have type : (("type", Json.str (spell n.kind)) :: membersOf (n.map Term.toJson)).lookup "type" =
        some (.str (spell n.kind)) := rfl
    unfold Term.toJson
    rw [Term.fold_mk]
    change readTerm (writeNode (n.map Term.toJson)) = _
    unfold writeNode
    rw [Node.kind_map, readTerm, type]
    dsimp only
    rw [unspell?_spell]
    dsimp only
    rw [Record.node_eq hn fun c hmem => ih c hmem (hc c hmem)]
    rfl

end Estree

namespace Term

theorem ofJson_toJson {t : Term} (h : t.Finite) (hk : t.node.kind = .program) :
    ofJson t.toJson = .ok t := by
  have type : t.toJson.member? "type" = some (.str (spell t.node.kind)) := by
    obtain ⟨n⟩ := t
    unfold toJson
    rw [fold_mk]
    change some (Json.str (spell (n.map toJson).kind)) = _
    rw [Node.kind_map]
    rfl
  unfold ofJson
  rw [type, hk]
  dsimp only
  rw [if_pos rfl]
  exact Estree.readTerm_toJson h

end Term

namespace Tree

theorem termTo?_congr {t t' : Tree} (h : ∀ id, t'.node id = t.node id) (d : Nat) (id : NodeId) :
    t'.termTo? d id = t.termTo? d id := by
  induction d generalizing id with
  | zero => rfl
  | succ d ih =>
    unfold termTo?
    rw [h, funext ih]

theorem term?_toTree {term : Term} (h : term.Finite) : term.toTree.term? = some term := by
  obtain ⟨hsize, hroot, hnode⟩ := term.toTree_eq
  obtain ⟨-, -, hlast, -, hstands⟩ := Term.allocate_adds h empty fresh_empty
  unfold term? termAt?
  rw [hsize, hroot, termTo?_congr hnode]
  exact hstands _ _ (.refl _) ((Nat.lt_succ_self _).trans_eq hlast.symm)

/-- A node that can be written: it is a node of the tree, is not below itself, and is finite if it
is a number. -/
structure Writable (t : Tree) (id : NodeId) : Prop where
  lt_size : id < t.size
  not_below_self : ¬ t.Below id id
  finite : (t.node id).HasFiniteLiteral

/-- What is below a node is a term, if all of it can be written. The term is found at any depth that
exceeds the number of nodes below. -/
theorem exists_termTo? {t : Tree} {id : NodeId} (h : t.Throughout t.Writable id) :
    ∃ term : Term, term.Finite ∧ term.node.kind = (t.node id).kind ∧
      ∀ d, t.countBelow id < d → t.termTo? d id = some term := by
  induction hk : t.countBelow id using Nat.strong_induction_on generalizing id with
  | _ k ih =>
    subst hk
    have child : ∀ c, ∃ term : Term, t.Child c id →
        term.Finite ∧ ∀ d, t.countBelow id ≤ d → t.termTo? d c = some term := by
      intro c
      by_cases hc : t.Child c id
      · have hw := h.child hc
        have hlt := countBelow_lt hc hw.self.lt_size hw.self.not_below_self
        obtain ⟨term, hfinite, -, hterm⟩ := ih _ hlt hw rfl
        exact ⟨term, fun _ => ⟨hfinite, fun d hd => hterm d (hlt.trans_le hd)⟩⟩
      · exact ⟨⟨.emptyStatement⟩, fun hc' => absurd hc' hc⟩
    choose term hterm using child
    have hfinite : (⟨(t.node id).map term⟩ : Term).Finite := by
      rw [Term.finite_mk, Node.children_map, List.forall_mem_map]
      exact ⟨(Node.hasFiniteLiteral_map _ _).mpr h.self.finite, fun c hc => (hterm c hc).1⟩
    refine ⟨_, hfinite, Node.kind_map _ _, ?_⟩
    intro d hd
    obtain ⟨d, rfl⟩ := Nat.exists_eq_add_one_of_ne_zero (Nat.ne_zero_of_lt hd)
    have hsome : (t.node id).map (t.termTo? d) = ((t.node id).map term).map some := by
      rw [Node.map_map]
      apply Node.map_congr
      intro c hc
      exact (hterm c hc).2 d (Nat.le_of_lt_succ hd)
    unfold termTo?
    rw [Node.traverse_some hsome]
    rfl

/-- The root is a program, and everything in it can be written. -/
structure Exportable (t : Tree) : Prop where
  program : (t.node t.root).kind = .program
  writable : t.Throughout t.Writable t.root

/-- What is written for a tree is read as a tree that unfolds to the same term, for which the same
is written. -/
def RoundTrips (t : Tree) : Prop :=
  ∃ json t' term, t.toJson? = some json ∧ ofJson json = .ok t' ∧
    t.term? = some term ∧ t'.term? = some term ∧ t'.toJson? = some json

theorem Exportable.roundTrips {t : Tree} (h : t.Exportable) : t.RoundTrips := by
  obtain ⟨term, hfinite, hkind, hterm⟩ := exists_termTo? h.writable
  have hroot := h.writable.self
  have hterm := hterm t.size (countBelow_lt_size hroot.lt_size hroot.not_below_self)
  have toJson : ∀ {t : Tree}, t.term? = some term → t.toJson? = some term.toJson :=
    fun ht => congrArg (Option.map Term.toJson) ht
  have hfound := term?_toTree hfinite
  refine ⟨term.toJson, term.toTree, term, toJson hterm, ?_, hterm, hfound, toJson hfound⟩
  unfold ofJson
  rw [Term.ofJson_toJson hfinite (hkind.trans h.program)]
  rfl

theorem Exportable.of_ordered {t : Tree} (hprogram : (t.node t.root).kind = .program)
    (hroot : t.root < t.size) (hordered : ∀ {c x}, t.Child c x → c < x)
    (hfinite : ∀ x, (t.node x).HasFiniteLiteral) : t.Exportable where
  program := hprogram
  writable x hx := by
    have below : ∀ {c y}, t.Below c y → c < y := by
      intro c y h
      induction h with
      | single h => exact hordered h
      | tail _ h ih => exact ih.trans (hordered h)
    refine ⟨?_, fun h => (below h).false, hfinite x⟩
    rcases hx.cases_head with rfl | ⟨c, hc, hw⟩
    · exact hroot
    · exact (below (.head' hc hw)).trans hroot

end Tree

def Tree.termOf (t : Tree) (id : NodeId) : Term :=
  (t.termAt? id).getD ⟨.emptyStatement⟩

namespace Store.Sound

variable {s s' : Store} {id : NodeId}

theorem writable (h : s.Sound) (hid : id < s.tree.size) :
    s.tree.Throughout s.tree.Writable id := fun x hx => {
  lt_size := h.wellFormed.within_lt_size hx hid
  not_below_self := h.wellFormed.not_below_self
  finite := h.finite x }

theorem exportable (h : s.Sound) : s.tree.Exportable where
  program := h.program
  writable := h.writable h.lt_size_of_root

theorem termTo?_eq (h : s.Sound) (hid : id < s.tree.size) {d : Nat}
    (hd : s.tree.countBelow id < d) : s.tree.termTo? d id = some (s.tree.termOf id) := by
  obtain ⟨term, -, -, hterm⟩ := Tree.exists_termTo? (h.writable hid)
  rw [hterm d hd, Tree.termOf, Tree.termAt?, hterm _ (h.wellFormed.countBelow_lt_size hid)]
  rfl

theorem termAt?_eq (h : s.Sound) (hid : id < s.tree.size) :
    s.tree.termAt? id = some (s.tree.termOf id) :=
  h.termTo?_eq hid (h.wellFormed.countBelow_lt_size hid)

theorem termOf_eq (h : s.Sound) (hid : id < s.tree.size) :
    s.tree.termOf id = ⟨(s.tree.node id).map s.tree.termOf⟩ := by
  obtain ⟨d, hd⟩ := Nat.exists_eq_add_one_of_ne_zero (Nat.ne_zero_of_lt hid)
  have hbelow := h.wellFormed.countBelow_lt_size hid
  have hchildren : (s.tree.node id).map (s.tree.termTo? d) =
      ((s.tree.node id).map s.tree.termOf).map some := by
    rw [Node.map_map]
    refine Node.map_congr fun c hc => h.termTo?_eq (h.wellFormed.closed hc) ?_
    have hlt := h.wellFormed.countBelow_lt hc
    omega
  have hterm := h.termAt?_eq hid
  rw [Tree.termAt?, hd, Tree.termTo?, Node.traverse_some hchildren] at hterm
  exact (Option.some.inj hterm).symm

theorem termOf_congr (h : s.Sound) (h' : s'.Sound) (hsize : s.tree.size ≤ s'.tree.size)
    (hid : id < s.tree.size) (hsame : ∀ x, s.tree.Within x id → s'.tree.node x = s.tree.node x) :
    s'.tree.termOf id = s.tree.termOf id := by
  induction id using h.wellFormed.acyclic.induction with
  | _ id ih =>
    rw [h.termOf_eq hid, h'.termOf_eq (hid.trans_le hsize), hsame id .refl]
    refine congrArg Term.mk (Node.map_congr fun c hc => ?_)
    exact ih c hc (h.wellFormed.closed hc) fun x hx => hsame x (hx.tail hc)

end Store.Sound

/-- Reading undoes writing, for every tree that can be written, and so for every tree that a program
is folded to. -/
theorem Tree.ofJson_undoes_toJson :
    (∀ t : Tree, t.Exportable → t.RoundTrips) ∧
    ∀ {json t}, json.Finite → ofJson json = .ok t →
      (∀ rules s, FoldState.Folds rules { tree := t } s → s.tree.RoundTrips) ∧
      ∀ options : Options, ∃ t' stats, t.fold options = .ok (t', stats) ∧ t'.RoundTrips := by
  refine ⟨fun t h => h.roundTrips, fun {json t} hj ht => ?_⟩
  have hs : Store.Sound { tree := t } := (fresh_ofJson hj ht).sound
  have folds : ∀ rules s, FoldState.Folds rules { tree := t } s → s.tree.RoundTrips :=
    fun rules s hr => (hr.sound hs).exportable.roundTrips
  refine ⟨folds, fun options => ?_⟩
  obtain ⟨_, s, hrun, hr⟩ := options.rounds_ensures options.maxRounds (s := { tree := t }) hs
  refine ⟨s.tree, s.stats, ?_, folds options.rules s hr⟩
  unfold fold
  rw [EStateM.run, hrun]

/-- The program `[-0, , -0];`, where both zeros are one node, and are below zero. -/
def Tree.sharedZero : Tree where
  cells := #[⟨.literal (.number (-0)), {}⟩, ⟨.arrayExpression [some 0, none, some 0], {}⟩,
    ⟨.expressionStatement 1 none, {}⟩, ⟨.program [2], {}⟩]
  root := 3
  revision := 0

theorem Tree.exportable_sharedZero : sharedZero.Exportable := by
  have ordered : ∀ x < sharedZero.size, ∀ c ∈ (sharedZero.node x).children, c < x := by decide
  apply Exportable.of_ordered rfl (by decide)
  · intro c x h
    exact ordered x (lt_size_of_child h) c h
  · intro x y hy
    rcases x with _ | _ | _ | _ | x <;> cases hy
    rfl

theorem Tree.ofJson_undoes_toJson_sharedZero : sharedZero.Exportable ∧ sharedZero.RoundTrips ∧
    Json.programOne.Finite ∧ ∃ t, ofJson .programOne = .ok t ∧
      ∃ t' stats, t.fold = .ok (t', stats) ∧ t'.RoundTrips :=
  ⟨exportable_sharedZero, ofJson_undoes_toJson.1 _ exportable_sharedZero, Json.finite_programOne,
    _, rfl, (ofJson_undoes_toJson.2 Json.finite_programOne rfl).2 {}⟩

end ScriptFold

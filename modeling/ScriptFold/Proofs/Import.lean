import ScriptFold.Proofs.Rounds
import ScriptFold.Program

/-!
Programs that are read can be folded. What is read from finite numbers has finite literals only,
and a term laid out as a tree has every child before its parent and nothing frozen, so the tree is
sound.
-/

namespace ScriptFold

mutual

/-- Every number of a JSON value is read as a finite double. -/
def Json.Finite : Json → Prop
  | .int n => (Float.ofInt n).isFinite
  | .float x => x.isFinite
  | .arr items => FiniteItems items
  | .obj members => FiniteMembers members
  | _ => True

def Json.FiniteItems : List Json → Prop
  | [] => True
  | item :: rest => item.Finite ∧ FiniteItems rest

def Json.FiniteMembers : List (String × Json) → Prop
  | [] => True
  | (_, value) :: rest => value.Finite ∧ FiniteMembers rest

end

theorem Node.hasFiniteLiteral_map {α β : Type} (f : α → β) (n : Node α) :
    (n.map f).HasFiniteLiteral ↔ n.HasFiniteLiteral := by
  have literal : ∀ l, n.map f = .literal l ↔ n = .literal l := fun l => by
    cases n <;> simp [map, traverse, Visitor.plain, Id.run, pure, bind]
  simp only [HasFiniteLiteral, literal]

namespace Term

theorem sizeOf_lt_of_mem_children {n : Node Term} {c : Term} (h : c ∈ n.children) :
    sizeOf c < sizeOf n := by
  have item : ∀ {cs : List Term}, c ∈ cs → sizeOf c < sizeOf cs := List.sizeOf_lt_of_mem
  have entry : ∀ {cs : List (Option Term)}, some c ∈ cs → sizeOf c < sizeOf cs := fun hc => by
    have := List.sizeOf_lt_of_mem hc
    simp only [Option.some.sizeOf_spec] at this
    omega
  have option : ∀ {o : Option Term}, o = some c → sizeOf c < sizeOf o := by
    rintro _ rfl
    simp
  cases n <;> simp only [Node.children, Node.slots, Slot.children, List.flatMap_cons,
    List.flatMap_nil, List.append_nil, List.mem_append, List.mem_cons, List.not_mem_nil, or_false,
    List.mem_filterMap, id, exists_eq_right, Option.mem_toList] at h <;> simp <;> grind

theorem induction {P : Term → Prop} (step : ∀ n, (∀ c ∈ n.children, P c) → P ⟨n⟩) : ∀ t, P t
  | ⟨n⟩ => step n fun c _ => induction step c
termination_by t => sizeOf t
decreasing_by
  have := sizeOf_lt_of_mem_children ‹_›
  simp only [mk.sizeOf_spec]
  omega

def Finite : Term → Prop :=
  fold fun n => n.HasFiniteLiteral ∧ ∀ c ∈ n.children, c

theorem finite_mk (n : Node Term) :
    (⟨n⟩ : Term).Finite ↔ n.HasFiniteLiteral ∧ ∀ c ∈ n.children, c.Finite := by
  unfold Finite
  rw [fold_mk, Node.hasFiniteLiteral_map, Node.children_map, List.forall_mem_map]

end Term

namespace Estree

/-- A property of the result of reading, if there is one. -/
def Yields {α : Type} (x : Except ImportError α) (Q : α → Prop) : Prop :=
  ∀ a, x = .ok a → Q a

namespace Yields

variable {α β : Type} {x : Except ImportError α} {f : α → Except ImportError β} {Q : α → Prop}
  {R : β → Prop}

theorem pure {a : α} (h : Q a) : Yields (.ok a) Q := fun b hb => by
  cases hb
  exact h

theorem error {e : ImportError} : Yields (.error e) Q := nofun

theorem bind (h : Yields x Q) (hf : ∀ a, Q a → Yields (f a) R) : Yields (x >>= f) R := by
  intro b hb
  cases x with
  | error e => cases hb
  | ok a => exact hf a (h a rfl) b hb

theorem map {g : α → β} (h : Yields x Q) (hg : ∀ a, Q a → R (g a)) : Yields (g <$> x) R := by
  intro b hb
  cases x with
  | error e => cases hb
  | ok a =>
    cases hb
    exact hg a (h a rfl)

theorem any : Yields x fun _ => True := fun _ _ => trivial

theorem mapM {xs : List α} (h : ∀ a ∈ xs, Yields (f a) R) : Yields (xs.mapM f) fun bs => ∀ b ∈ bs, R b := by
  induction xs with
  | nil =>
    rw [List.mapM_nil]
    exact .pure nofun
  | cons a xs ih =>
    rw [List.mapM_cons]
    refine (h a (by simp)).bind fun b hb => (ih fun a ha => h a (by simp [ha])).bind fun bs hbs => ?_
    refine .pure fun c hc => ?_
    rcases List.mem_cons.mp hc with rfl | hc
    · exact hb
    · exact hbs c hc

end Yields

/-- What a member is read as is finite. -/
structure Member.Finite (m : Member) : Prop where
  value : m.value.Finite
  node : Yields m.node Term.Finite
  items : ∀ item ∈ m.items, Yields item.2 Term.Finite

namespace Record

def Finite (r : Record) : Prop :=
  ∀ m ∈ r.members, m.Finite

variable {r : Record} {field : Field}

theorem Finite.get? (h : r.Finite) {name : String} {m : Member} (hm : r.get? name = some m) :
    m.Finite :=
  h m (List.mem_of_find?_eq_some (Option.eq_some_of_filter_eq_some hm))

theorem Finite.required (h : r.Finite) : Yields (r.required field) Term.Finite := by
  unfold Record.required
  split
  · exact .error
  · exact (h.get? ‹_›).node

theorem Finite.optional (h : r.Finite) :
    Yields (r.optional field) fun o => ∀ c ∈ o, c.Finite := by
  unfold Record.optional
  split
  · exact .pure nofun
  · refine (h.get? ‹_›).node.map fun c hc _ heq => ?_
    cases heq
    exact hc

theorem Finite.items (h : r.Finite) {name : String} :
    Yields (r.items name) fun items => ∀ item ∈ items, Yields item.2 Term.Finite := by
  unfold Record.items
  split
  · exact .pure nofun
  · split
    · exact .pure (h.get? ‹_›).items
    · exact .error

theorem Finite.list (h : r.Finite) : Yields (r.list field) fun cs => ∀ c ∈ cs, c.Finite := by
  unfold Record.list
  refine h.items.bind fun items hitems => .mapM fun item hitem => ?_
  split
  · exact .error
  · exact hitems item hitem

theorem Finite.holey (h : r.Finite) :
    Yields (r.holey field) fun cs => ∀ c, some c ∈ cs → c.Finite := by
  unfold Record.holey
  refine h.items.bind fun items hitems => ?_
  have each : ∀ item ∈ items, Yields (if item.1.isNull then .ok none else some <$> item.2)
      fun o => ∀ c ∈ o, Term.Finite c := fun item hitem => by
    split
    · exact .pure nofun
    · refine (hitems item hitem).map fun c hc _ heq => ?_
      cases heq
      exact hc
  exact fun cs hcs c hc => Yields.mapM each cs hcs _ hc c rfl

theorem Finite.literal (h : r.Finite) :
    Yields r.literal fun l => (Node.literal l : Node Term).HasFiniteLiteral := by
  unfold Record.literal
  split
  · dsimp only
    split
    · exact .pure nofun
    · exact .error
  · split
    · exact .pure nofun
    · have hm := (h.get? ‹_›).value
      split
      · exact .pure nofun
      · rename_i hv
        rw [hv] at hm
        refine .pure fun x hx => ?_
        cases hx
        exact hm
      · rename_i hv
        rw [hv] at hm
        refine .pure fun x hx => ?_
        cases hx
        exact hm
      · exact .pure nofun
      · exact .error

theorem Finite.node (h : r.Finite) :
    Yields r.node fun n => n.HasFiniteLiteral ∧ ∀ c ∈ n.children, c.Finite := by
  unfold Record.node
  split
  case h_25 => exact h.literal.bind fun _ hl => .pure ⟨hl, fun _ hc => by cases hc⟩
  all_goals
    repeat first
      | refine h.required.bind fun _ _ => ?_
      | refine h.optional.bind fun _ _ => ?_
      | refine h.list.bind fun _ _ => ?_
      | refine h.holey.bind fun _ _ => ?_
      | refine Yields.any.bind fun _ _ => ?_
    refine .pure ⟨fun _ hx => (by cases hx), fun c hc => ?_⟩
    simp only [Node.children, Node.slots, Slot.children, List.flatMap_cons,
      List.flatMap_nil, List.append_nil, List.mem_append, List.mem_cons, List.not_mem_nil, or_false,
      List.mem_filterMap, id, exists_eq_right, Option.mem_toList] at hc <;> grind

end Record

mutual

theorem readTerm_finite : ∀ {json : Json}, json.Finite → Yields (readTerm json) Term.Finite
  | .obj members, h => by
    simp only [Json.Finite] at h
    unfold readTerm
    split
    · split
      · rename_i kind _
        have hr : (Record.mk kind (readMembers members)).Finite := readMembers_finite h
        exact hr.node.map fun n hn => (Term.finite_mk n).mpr hn
      · exact .error
    · exact .error
  | .null, _ | .bool _, _ | .int _, _ | .float _, _ | .str _, _ | .arr _, _ => .error

theorem readMembers_finite : ∀ {members : List (String × Json)}, Json.FiniteMembers members →
    ∀ m ∈ readMembers members, m.Finite
  | [], _ => nofun
  | (name, value) :: rest, h => by
    simp only [Json.FiniteMembers] at h
    unfold readMembers
    intro m hm
    rcases List.mem_cons.mp hm with rfl | hm
    · exact ⟨h.1, readTerm_finite h.1, readItems_finite h.1⟩
    · exact readMembers_finite h.2 m hm

theorem readItems_finite : ∀ {json : Json}, json.Finite →
    ∀ item ∈ readItems json, Yields item.2 Term.Finite
  | .arr items, h => by
    simp only [Json.Finite] at h
    exact readList_finite h
  | .null, _ | .bool _, _ | .int _, _ | .float _, _ | .str _, _ | .obj _, _ => nofun

theorem readList_finite : ∀ {items : List Json}, Json.FiniteItems items →
    ∀ item ∈ readList items, Yields item.2 Term.Finite
  | [], _ => nofun
  | item :: rest, h => by
    simp only [Json.FiniteItems] at h
    unfold readList
    intro entry he
    rcases List.mem_cons.mp he with rfl | he
    · exact readTerm_finite h.1
    · exact readList_finite h.2 entry he

end

/-- Every kind of record is read as a node of that kind. -/
theorem Record.node_kind (r : Record) : Yields r.node fun n => n.kind = r.kind := by
  unfold Record.node
  split <;> rename_i hk <;> rw [hk] <;>
    (repeat refine Yields.any.bind fun _ _ => ?_) <;> exact .pure rfl

end Estree

theorem Term.ofJson_kind {json : Json} {t : Term} (h : Term.ofJson json = .ok t) :
    t.node.kind = .program := by
  unfold ofJson at h
  split at h
  · rename_i name htype
    split at h
    · subst name
      obtain ⟨members, rfl⟩ : ∃ members, json = .obj members := by
        cases json with
        | obj members => exact ⟨members, rfl⟩
        | _ => cases htype
      change members.lookup "type" = _ at htype
      unfold Estree.readTerm at h
      rw [htype] at h
      simp only [unspell?_spell] at h
      have hk := (Estree.Record.node_kind ⟨.program, Estree.readMembers members⟩).map
        (R := fun t : Term => t.node.kind = .program) (g := Term.mk) fun _ hn => hn
      exact hk t h
    · cases h
  · cases h

theorem Term.ofJson_finite {json : Json} {t : Term} (hj : json.Finite) (h : Term.ofJson json = .ok t) :
    t.Finite := by
  unfold ofJson at h
  split at h
  · split at h
    · exact Estree.readTerm_finite hj t h
    · cases h
  · cases h

namespace Tree

/-- A tree as it is before folding: it is sound with an empty pool, and every node comes after those
below it. -/
structure Fresh (t : Tree) : Prop where
  sound : Store.Sound { tree := t }
  ordered : ∀ {c id}, t.Child c id → c < id

theorem Fresh.alloc {t : Tree} (h : t.Fresh) {node : Node NodeId} (hfinite : node.HasFiniteLiteral)
    (hnode : ∀ c ∈ node.children, c < t.size) : (t.alloc node).2.Fresh where
  sound := h.sound.alloc hfinite hnode
  ordered {c id} hc := by
    unfold Child at hc
    rw [node_alloc] at hc
    split at hc
    · subst id
      exact hnode c hc
    · exact h.ordered hc

/-- A run that only adds nodes, which may be referred to by what it results in. -/
def Adds {α : Type} (x : StateM Tree α) (Q : α → Tree → Prop) : Prop :=
  ∀ t : Tree, t.Fresh → (x t).2.Fresh ∧ t.Grows (x t).2 ∧ Q (x t).1 (x t).2

namespace Adds

variable {α β : Type} {x : StateM Tree α} {g : α → StateM Tree β} {Q : α → Tree → Prop}
  {R : β → Tree → Prop}

theorem pure {a : α} (h : ∀ t, Q a t) : Adds (Pure.pure a) Q := fun t ht =>
  ⟨ht, .refl t, h t⟩

theorem bind (hx : Adds x Q) (hQ : ∀ {a t t'}, t.Grows t' → Q a t → Q a t')
    (hg : ∀ a, Adds (g a) fun b t => Q a t → R b t) : Adds (x >>= g) R := by
  intro t ht
  obtain ⟨hs, hgrow, hq⟩ := hx t ht
  obtain ⟨hs', hgrow', hr⟩ := hg _ _ hs
  exact ⟨hs', hgrow.trans hgrow', hr (hQ hgrow' hq)⟩

theorem mono (h : Adds x Q) {Q' : α → Tree → Prop} (hQ : ∀ a t, Q a t → Q' a t) : Adds x Q' :=
  fun t ht => ⟨(h t ht).1, (h t ht).2.1, hQ _ _ (h t ht).2.2⟩

/- What is added for `a` agrees with `a` in all trees that can still grow to what `G` asks for. -/
variable {γ δ : Type} {G : Tree → Prop} {p : α → δ} {q : γ → δ} {f : α → StateM Tree γ}
  (hG : ∀ {t t'}, t.Grows t' → G t' → G t)

include hG

theorem mapM {as : List α} (h : ∀ a ∈ as, Adds (f a) fun c t => G t → p a = q c) :
    Adds (as.mapM f) fun cs t => G t → as.map p = cs.map q := by
  induction as with
  | nil =>
    rw [List.mapM_nil]
    exact .pure fun _ _ => rfl
  | cons a as ih =>
    rw [List.mapM_cons]
    refine (h a (by simp)).bind (fun hgrow hc ht => hc (hG hgrow ht)) fun c => ?_
    refine (ih fun a ha => h a (by simp [ha])).bind (fun hgrow hcs ht => hcs (hG hgrow ht)) fun cs => ?_
    refine .pure fun t hcs hc ht => ?_
    rw [List.map_cons, List.map_cons, hc ht, hcs ht]

theorem mapM_option {a? : Option α} (h : ∀ a, a? = some a → Adds (f a) fun c t => G t → p a = q c) :
    Adds (a?.mapM f) fun c? t => G t → a?.map p = c?.map q := by
  cases a? with
  | none => exact .pure fun _ _ => rfl
  | some a =>
    refine (h a rfl).bind (fun hgrow hc ht => hc (hG hgrow ht)) fun c => .pure fun t hc ht => ?_
    rw [Option.map_some, Option.map_some, hc ht]

theorem required {a : α} {g : γ → StateM Tree β} (h : Adds (f a) fun c t => G t → p a = q c)
    (hg : ∀ c, Adds (g c) fun b t => (G t → p a = q c) → R b t) : Adds (f a >>= g) R :=
  h.bind (fun hgrow hc ht => hc (hG hgrow ht)) hg

theorem optional {a? : Option α} {g : Option γ → StateM Tree β}
    (h : ∀ a, a? = some a → Adds (f a) fun c t => G t → p a = q c)
    (hg : ∀ c?, Adds (g c?) fun b t => (G t → a?.map p = c?.map q) → R b t) :
    Adds (a?.mapM f >>= g) R :=
  (mapM_option hG h).bind (fun hgrow hc ht => hc (hG hgrow ht)) hg

theorem list {as : List α} {g : List γ → StateM Tree β}
    (h : ∀ a ∈ as, Adds (f a) fun c t => G t → p a = q c)
    (hg : ∀ cs, Adds (g cs) fun b t => (G t → as.map p = cs.map q) → R b t) :
    Adds (as.mapM f >>= g) R :=
  (mapM hG h).bind (fun hgrow hcs ht => hcs (hG hgrow ht)) hg

theorem holey {as : List (Option α)} {g : List (Option γ) → StateM Tree β}
    (h : ∀ a, some a ∈ as → Adds (f a) fun c t => G t → p a = q c)
    (hg : ∀ cs, Adds (g cs) fun b t =>
      (G t → as.map (Option.map p) = cs.map (Option.map q)) → R b t) :
    Adds ((as.mapM fun a? => a?.mapM f) >>= g) R := by
  have each : ∀ a? ∈ as, Adds (a?.mapM f) fun c? t => G t → a?.map p = c?.map q := fun a? ha? =>
    mapM_option hG fun a ha => h a (ha ▸ ha?)
  exact (mapM hG each).bind (fun hgrow hcs ht => hcs (hG hgrow ht)) hg

/-- A node rebuilt over what is added for its children agrees with the node. -/
theorem traverse {n : Node α} (h : ∀ a ∈ n.children, Adds (f a) fun c t => G t → p a = q c) :
    Adds (n.traverse (Visitor.each f)) fun n' t => G t → n.map p = n'.map q := by
  cases n <;> unfold Node.traverse Visitor.each <;> dsimp only
  all_goals
    simp only [Node.children, Node.slots, Slot.children, List.flatMap_cons, List.flatMap_nil,
      List.append_nil, List.mem_append, List.mem_cons, List.mem_filterMap, id, exists_eq_right,
      Option.mem_toList, List.not_mem_nil, or_false] at h
    repeat with_reducible first
      | refine .required hG (h _ (by grind)) fun _ => ?_
      | refine .optional hG (fun _ hc => h _ (by grind)) fun _ => ?_
      | refine .list hG (fun _ hc => h _ (by grind)) fun _ => ?_
      | refine .holey hG (fun _ hc => h _ (by grind)) fun _ => ?_
    refine .pure fun t => ?_
    simp only [Node.map, Node.traverse, Visitor.plain, Id.run, Pure.pure, Bind.bind]
    grind

end Adds

/-- A node is a given term, in this tree and in all that it grows to. -/
def StandsFor (t : Tree) (id : NodeId) (term : Term) : Prop :=
  ∀ t' d, t.Grows t' → id < d → t'.termTo? d id = some term

theorem fresh_empty : empty.Fresh := by
  have node : ∀ id, empty.node id = .program [] ∨ empty.node id = .emptyStatement := fun id => by
    cases id with
    | zero => exact .inl rfl
    | succ id => exact .inr rfl
  have child : ∀ c id, ¬ empty.Child c id := fun c id hc => by
    unfold Child at hc
    rcases node id with h | h <;> rw [h] at hc <;> cases hc
  have flags : ∀ id, empty.isFrozen id = false := fun id => by
    cases id <;> rfl
  have wf : empty.WellFormed :=
    ⟨fun hc => absurd hc (child _ _), ⟨fun id => ⟨id, fun c hc => absurd hc (child c id)⟩⟩⟩
  refine ⟨.of_unfrozen wf rfl (fun id x hx => ?_) fun id => ?_, fun hc => absurd hc (child _ _)⟩
  · rcases node id with h | h <;> rw [h] at hx <;> cases hx
  · rw [flags]
    exact Bool.false_ne_true

end Tree

namespace Term

open ScriptFold.Tree

theorem allocate_mk (n : Node Term) (tree : Tree) : (⟨n⟩ : Term).allocate tree =
    let r := n.traverse (Visitor.each allocate) tree
    r.2.alloc r.1 := by
  unfold allocate
  rw [fold_mk]
  change (let r := (n.map allocate).traverse (Visitor.each id) tree; r.2.alloc r.1) = _
  rw [Node.traverse_map]
  rfl

theorem traverse_adds {n : Node Term}
    (h : ∀ c ∈ n.children, Adds c.allocate fun id tree => id < tree.size ∧ tree.StandsFor id c) :
    Adds (n.traverse (Visitor.each allocate)) fun n' tree => n'.kind = n.kind ∧
      (n'.HasFiniteLiteral ↔ n.HasFiniteLiteral) ∧ (∀ c ∈ n'.children, c < tree.size) ∧
        ∀ tree' d, tree.Grows tree' → tree.size ≤ d →
          n'.traverse (Visitor.each (tree'.termTo? d)) = some n := by
  intro tree htree
  have below : ∀ k, ∀ c ∈ n.children,
      Adds c.allocate fun id tree => tree.size ≤ k → True = (id < k) := by
    intro k c hc
    refine (h c hc).mono fun id tree hid hle => ?_
    exact (eq_true (hid.1.trans_le hle)).symm
  have found : ∀ tree' d, ∀ c ∈ n.children, Adds c.allocate fun id tree =>
      tree.Grows tree' ∧ tree.size ≤ d → some c = tree'.termTo? d id := by
    intro tree' d c hc
    refine (h c hc).mono fun id tree hid hlater => ?_
    exact (hid.2 tree' d hlater.1 (hid.1.trans_le hlater.2)).symm
  obtain ⟨hs, hgrow, hsame⟩ := Adds.traverse (fun hgrow hle => hgrow.size.trans hle)
    (below (n.traverse (Visitor.each allocate) tree).2.size) tree htree
  have hsame := hsame le_rfl
  refine ⟨hs, hgrow, ?_, ?_, fun c hc => ?_, fun tree' d hlater hd => ?_⟩
  · rw [← Node.kind_map, ← hsame, Node.kind_map]
  · rw [← Node.hasFiniteLiteral_map, ← hsame, Node.hasFiniteLiteral_map]
  · have hmem := List.mem_map_of_mem (f := (· < (n.traverse (Visitor.each allocate) tree).2.size)) hc
    rw [← Node.children_map, ← hsame, Node.children_map] at hmem
    obtain ⟨-, -, heq⟩ := List.mem_map.mp hmem
    exact heq ▸ trivial
  · refine Node.traverse_some (Eq.symm ?_)
    exact (Adds.traverse (fun hgrow hlater => ⟨hgrow.trans hlater.1, hgrow.size.trans hlater.2⟩)
      (found tree' d) tree htree).2.2 ⟨hlater, hd⟩

theorem allocate_adds {t : Term} (h : t.Finite) :
    Adds t.allocate fun id tree =>
      tree.size = id + 1 ∧ (tree.node id).kind = t.node.kind ∧ tree.StandsFor id t := by
  induction t using Term.induction with
  | _ n ih =>
    obtain ⟨hn, hc⟩ := (finite_mk n).mp h
    intro tree htree
    obtain ⟨hs, hgrow, hkind, hfinite, hlt, hfound⟩ := traverse_adds
      (fun c hmem => (ih c hmem (hc c hmem)).mono fun id tree hadded =>
        ⟨(Nat.lt_succ_self id).trans_eq hadded.1.symm, hadded.2.2⟩) tree htree
    rw [allocate_mk]
    dsimp only
    generalize n.traverse (Visitor.each allocate) tree = r at *
    have hlast : (r.2.alloc r.1).2.node r.2.size = r.1 := by
      rw [node_alloc, if_pos rfl]
    refine ⟨hs.alloc (hfinite.mpr hn) hlt, hgrow.trans (.alloc _ _ _), size_alloc _ _ _, ?_, ?_⟩
    · change ((r.2.alloc r.1).2.node r.2.size).kind = n.kind
      rw [hlast, hkind]
    · intro tree' d hlater hd
      obtain ⟨d, rfl⟩ := Nat.exists_eq_add_one_of_ne_zero (Nat.ne_zero_of_lt hd)
      have hnode : tree'.node r.2.size = r.1 := by
        rw [hlater.node (by rw [size_alloc]; exact Nat.lt_succ_self _), hlast]
      change Term.mk <$> (tree'.node r.2.size).traverse _ = _
      rw [hnode, hfound tree' d ((Grows.alloc _ _ _).trans hlater) (Nat.le_of_lt_succ hd)]
      rfl

theorem fresh_toTree {t : Term} (h : t.Finite) (hk : t.node.kind = .program) : t.toTree.Fresh := by
  obtain ⟨hs, -, -, hkind, -⟩ := allocate_adds h empty fresh_empty
  change ((t.allocate empty).2.setRoot (t.allocate empty).1).Fresh
  generalize t.allocate empty = r at *
  unfold setRoot
  split
  · exact hs
  · have wf := hs.sound.wellFormed
    refine ⟨.of_unfrozen ⟨wf.closed, wf.acyclic⟩ (hkind.trans hk) hs.sound.finite fun id hf => ?_,
      hs.ordered⟩
    rcases hs.sound.frozen hf with ⟨v, hv⟩ | he
    · simp at hv
    · cases he

end Term

/-- A program with finite numbers is read as a sound tree. -/
theorem Tree.fresh_ofJson {json : Json} {t : Tree} (hj : json.Finite) (ht : ofJson json = .ok t) :
    t.Fresh := by
  unfold ofJson at ht
  cases h : Term.ofJson json with
  | error e =>
    rw [h] at ht
    cases ht
  | ok term =>
    rw [h] at ht
    obtain rfl : term.toTree = t := Except.ok.inj ht
    exact Term.fresh_toTree (Term.ofJson_finite hj h) (Term.ofJson_kind h)

/-- Folding of a program that can be read ends and gives a program, whatever the settings. -/
theorem Tree.fold_ofJson {json : Json} {t : Tree} (hj : json.Finite) (ht : ofJson json = .ok t)
    (options : Options) : ∃ r, t.fold options = .ok r :=
  fold_ok (fresh_ofJson hj ht).sound options

theorem Tree.fold_ofJson_one :
    let json : Json := .obj [("type", .str "Program"), ("body", .arr [.obj [
      ("type", .str "ExpressionStatement"),
      ("expression", .obj [("type", .str "Literal"), ("value", .int 1)])]])]
    json.Finite ∧ ∃ t, ofJson json = .ok t ∧ ∃ r, t.fold { maxRounds := 2 } = .ok r := by
  intro json
  have hj : json.Finite := by
    have h : (Float.ofInt 1).isFinite := by rfl
    simp [json, Json.Finite, Json.FiniteMembers, Json.FiniteItems, h]
  exact ⟨hj, _, rfl, fold_ofJson hj rfl _⟩

end ScriptFold

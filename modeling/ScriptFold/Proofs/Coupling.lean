import ScriptFold.Proofs.Canonical
import ScriptFold.Proofs.Change

/-!
Two folding runs side by side, of which one may write booleans shorter. A `Coupling` says which
nodes of the two stand for each other. Their children are twins: coupled nodes again, constants of
one value, or empty statements. Twins have the same value, and the same edit of coupled nodes leaves
them coupled.
-/

namespace ScriptFold

theorem Node.map_eq_literal {α β : Type} {f : α → β} {n : Node α} {l : Literal} :
    n.map f = .literal l ↔ n = .literal l := by
  cases n <;> constructor <;> intro h <;> cases h <;> rfl

/-- What a step on a store leaves alone: constants and all other frozen nodes, and literals. -/
structure Store.Keeps (s s' : Store) : Prop where
  holds : ∀ {v id}, s.Holds v id → s'.Holds v id
  frozen : s.tree.KeepsFrozen s'.tree
  literal : ∀ {id l}, s.tree.node id = .literal l → s'.tree.node id = .literal l

namespace Store.Keeps

variable {s s' s'' : Store}

theorem refl (s : Store) : s.Keeps s :=
  ⟨id, fun _ hf => ⟨hf, rfl⟩, id⟩

theorem trans (h : s.Keeps s') (h' : s'.Keeps s'') : s.Keeps s'' where
  holds hv := h'.holds (h.holds hv)
  frozen id hf := by
    obtain ⟨hf', hn⟩ := h.frozen id hf
    obtain ⟨hf'', hn'⟩ := h'.frozen id hf'
    exact ⟨hf'', hn'.trans hn⟩
  literal hl := h'.literal (h.literal hl)

theorem of_grows (hs : s.Sound) (h : s.Grows s') : s.Keeps s' where
  holds hv := hs.value_of_grows h hv
  frozen := h.tree.keepsFrozen
  literal hl := by
    rw [h.tree.node (Tree.lt_size_of_node (by rw [hl]; simp)), hl]

theorem of_sets {owner : NodeId} {n : Node NodeId} {t : Tree} (h : s.tree.Sets owner n t)
    (hn : ∀ l, s.tree.node owner ≠ .literal l) : s.Keeps { s with tree := t } where
  holds := id
  frozen id hf := by
    have hne : id ≠ owner := fun hid => h.writable (hid ▸ hf)
    exact ⟨by rwa [Tree.isFrozen, h.flags], by rw [h.node, if_neg hne]⟩
  literal {id l} hl := by
    have hne : id ≠ owner := fun hid => hn l (hid ▸ hl)
    exact ((h.node id).trans (if_neg hne)).trans hl

end Store.Keeps

/-- Two runs at one moment, and which of their nodes stand for each other. -/
structure Coupling where
  plain : FoldState
  /-- The run that may write `!0` and `!1` for booleans. -/
  short : FoldState
  pairs : NodeId → NodeId → Prop

namespace Coupling

/-- What one node is to the other where it stands in the same place. -/
inductive Twin (X : Coupling) : NodeId → NodeId → Prop
  | pair {c c'} : X.pairs c c' → Twin X c c'
  | value {c c' v} : X.plain.Holds v c → X.short.Holds v c' → Twin X c c'
  | truth {c c' b} : X.plain.tree.node c = .literal (.bool b) → X.short.Holds (.bool b) c' →
    Twin X c c'
  | empty {c c'} : X.plain.tree.isFrozen c → X.plain.tree.node c = .emptyStatement →
    X.short.tree.isFrozen c' → X.short.tree.node c' = .emptyStatement → Twin X c c'

/-- Coupled nodes may be edited, each has one partner, and they have the same shape over twins. -/
structure Linked (X : Coupling) : Prop where
  root : X.pairs X.plain.tree.root X.short.tree.root
  nodes : ∀ {c c'}, X.pairs c c' →
    (X.plain.tree.node c).Matches X.Twin (X.short.tree.node c')
  plain_open : ∀ {c c'}, X.pairs c c' → c < X.plain.tree.size ∧ ¬ X.plain.tree.isFrozen c
  short_open : ∀ {c c'}, X.pairs c c' → c' < X.short.tree.size ∧ ¬ X.short.tree.isFrozen c'
  unique : ∀ {c c' d d'}, X.pairs c c' → X.pairs d d' → (c = d ↔ c' = d')
  plain_canonical : X.plain.Canonical
  short_canonical : X.short.Canonical

structure Sound (X : Coupling) : Prop extends X.Linked where
  plain : X.plain.Sound
  short : X.short.Sound

/-- A later moment of two runs. -/
structure Keeps (X Y : Coupling) : Prop where
  pairs : ∀ {c c'}, X.pairs c c' → Y.pairs c c'
  plain : X.plain.Keeps Y.plain.toStore
  short : X.short.Keeps Y.short.toStore

variable {X Y Z : Coupling} {c c' : NodeId}

theorem Keeps.refl (X : Coupling) : X.Keeps X :=
  ⟨id, .refl _, .refl _⟩

theorem Keeps.trans (h : X.Keeps Y) (h' : Y.Keeps Z) : X.Keeps Z :=
  ⟨fun hc => h'.pairs (h.pairs hc), h.plain.trans h'.plain, h.short.trans h'.short⟩

theorem Twin.mono (hc : X.Twin c c') (h : X.Keeps Y) : Y.Twin c c' := by
  cases hc with
  | pair hc => exact .pair (h.pairs hc)
  | value hv hv' => exact .value (h.plain.holds hv) (h.short.holds hv')
  | truth hn hv => exact .truth (h.plain.literal hn) (h.short.holds hv)
  | empty hf hn hf' hn' =>
    have hc := h.plain.frozen _ hf
    have hc' := h.short.frozen _ hf'
    exact .empty hc.1 (hc.2.trans hn) hc'.1 (hc'.2.trans hn')

abbrev constantKinds : List Kind :=
  [.literal, .unaryExpression, .binaryExpression, .arrayExpression]

namespace Sound

theorem lt_size (h : X.Sound) (hc : X.Twin c c') :
    c < X.plain.tree.size ∧ c' < X.short.tree.size := by
  cases hc with
  | pair hc => exact ⟨(h.plain_open hc).1, (h.short_open hc).1⟩
  | value hv hv' => exact ⟨h.plain.lt_size_of_value hv, h.short.lt_size_of_value hv'⟩
  | truth hn hv =>
    exact ⟨Tree.lt_size_of_node (by rw [hn]; simp), h.short.lt_size_of_value hv⟩
  | empty hf _ hf' _ => exact ⟨Tree.lt_size_of_isFrozen hf, Tree.lt_size_of_isFrozen hf'⟩

theorem value?_of_empty {s : Store} (h : s.Sound) (hn : s.tree.node c = .emptyStatement) :
    s.value? c = none := by
  refine Option.eq_none_iff_forall_ne_some.mpr fun v hv => ?_
  have hk := h.kind_of_value? hv
  rw [hn] at hk
  simp [Node.kind] at hk

theorem number_iff {s : Store} (h : s.Sound) (hc : s.Canonical) {v : Value} (hv : s.Holds v c)
    (x : Float) : s.tree.node c = .literal (.number x) ↔ v = .number x ∧ IsUnsigned x := by
  constructor
  · intro hn
    obtain rfl : v = .number x := Option.some.inj
      ((h.value?_of_values hv).symm.trans (h.value?_literal hn))
    exact ⟨rfl, (hc.number hv x rfl).mp (by rw [hn]; rfl)⟩
  · rintro ⟨rfl, hx⟩
    have hn := (hc.number hv x rfl).mpr hx
    cases hnode : s.tree.node c <;> rw [hnode] at hn <;> try cases hn
    case literal l =>
      cases l <;> cases hn
      have hl := h.value?_literal hnode
      rw [h.value?_of_values hv] at hl
      cases hl
      rfl

theorem literal_number_iff (h : X.Sound) (hc : X.Twin c c') (x : Float) :
    X.plain.tree.node c = .literal (.number x) ↔
      X.short.tree.node c' = .literal (.number x) := by
  cases hc with
  | pair hc =>
    obtain ⟨m, hn, hn', -⟩ := h.nodes hc
    rw [← hn, ← hn', Node.map_eq_literal, Node.map_eq_literal]
  | value hv hv' =>
    rw [number_iff h.plain h.plain_canonical hv, number_iff h.short h.short_canonical hv']
  | truth hn hv' =>
    rw [number_iff h.short h.short_canonical hv', hn]
    simp
  | empty _ hn _ hn' =>
    rw [hn, hn']

/-- Twins have the same value, if they have one. -/
theorem value?_eq (h : X.Sound) (hc : X.Twin c c') :
    X.short.value? c' = X.plain.value? c := by
  induction c using h.plain.wellFormed.acyclic.induction generalizing c' with
  | _ c ih =>
    cases hc with
    | value hv hv' => rw [h.plain.value?_of_values hv, h.short.value?_of_values hv']
    | truth hn hv' => rw [h.plain.value?_literal hn, h.short.value?_of_values hv']; rfl
    | empty _ hn _ hn' => rw [value?_of_empty h.plain hn, value?_of_empty h.short hn']
    | pair hc =>
      -- coupled nodes may be edited, so neither pool knows a value of theirs
      have hplain : X.plain.pool.values[c]? = none := by
        refine Option.eq_none_iff_forall_ne_some.mpr fun v hv => ?_
        exact (h.plain_open hc).2 (h.plain_canonical.frozen hv)
      have hshort : X.short.pool.values[c']? = none := by
        refine Option.eq_none_iff_forall_ne_some.mpr fun v hv => ?_
        exact (h.short_open hc).2 (h.short_canonical.frozen hv)
      obtain ⟨m, hn, hn', hm⟩ := h.nodes hc
      have hchild : ∀ e ∈ m.children, X.short.value? e.2 = X.plain.value? e.1 := fun e he => by
        refine ih e.1 ?_ (hm e he)
        rw [Tree.Child, ← hn, Node.children_map]
        exact List.mem_map_of_mem he
      rw [h.plain.value?_eq, h.short.value?_eq, Store.valueStep, Store.valueStep, hplain, hshort,
        ← hn, ← hn']
      cases m <;> try rfl
      case literal l => cases l <;> rfl
      case unaryExpression op argument =>
        cases op <;> try rfl
        have hnumber := h.literal_number_iff (hm argument (by
          simp [Node.children, Node.slots, Slot.children]))
        dsimp only [Node.map, Node.traverse, Visitor.plain, Id.run, pure, bind]
        split
        · rw [(hnumber _).mpr ‹_›]
        · rename_i hshort
          split
          · exact absurd ((hnumber _).mp ‹_›) (hshort _)
          · rfl
      case arrayExpression elements =>
        have hitem : ∀ e ∈ elements, (e.map Prod.snd).mapM X.short.value? =
            (e.map Prod.fst).mapM X.plain.value? := fun e he => by
          cases e with
          | none => rfl
          | some e =>
            have := hchild e (by simpa [Node.children, Node.slots, Slot.children] using he)
            simp [Option.mapM, this]
        change Value.array <$> (elements.map (Option.map Prod.snd)).mapM _ =
          Value.array <$> (elements.map (Option.map Prod.fst)).mapM _
        rw [List.mapM_map, List.mapM_map]
        exact congrArg _ (mapM_congr_list hitem)

/-- Twins are nodes of one shape over twins, or constants of one value. -/
theorem matches_or_value (h : X.Sound) (hc : X.Twin c c') :
    (X.plain.tree.node c).Matches X.Twin (X.short.tree.node c') ∨
      ∃ v, X.plain.value? c = some v ∧ X.short.value? c' = some v := by
  cases hc with
  | pair hc => exact .inl (h.nodes hc)
  | value hv hv' => exact .inr ⟨_, h.plain.value?_of_values hv, h.short.value?_of_values hv'⟩
  | truth hn hv => exact .inr ⟨_, h.plain.value?_literal hn, h.short.value?_of_values hv⟩
  | empty _ hn _ hn' =>
    left
    rw [hn, hn']
    exact ⟨.emptyStatement, rfl, rfl, fun e he => by cases he⟩

/-- What the kind of a node tells is the same for twins, if it tells nothing of constants. -/
theorem view (h : X.Sound) (hc : X.Twin c c') {β : Type} (f : Node NodeId → β) (d : β)
    (hf : ∀ m : Node (NodeId × NodeId), f (m.map Prod.fst) = f (m.map Prod.snd))
    (hd : ∀ n : Node NodeId, n.kind ∈ constantKinds → f n = d) :
    f (X.short.tree.node c') = f (X.plain.tree.node c) := by
  rcases h.matches_or_value hc with ⟨m, hn, hn', -⟩ | ⟨v, hv, hv'⟩
  · rw [← hn, ← hn', hf]
  · rw [hd _ (h.plain.kind_of_value? hv), hd _ (h.short.kind_of_value? hv')]

end Sound

section Edits

/-- The moment after an edit of both trees. -/
def withTrees (X : Coupling) (t t' : Tree) : Coupling where
  plain := { X.plain with tree := t }
  short := { X.short with tree := t' }
  pairs := X.pairs

/-- Coupled nodes that become alike again stay coupled, and so does everything else. -/
theorem Linked.put (h : X.Linked) (hc : X.pairs c c') {n n' : Node NodeId} {t t' : Tree}
    (ht : X.plain.tree.Sets c n t) (ht' : X.short.tree.Sets c' n' t') (hn : n.Matches X.Twin n')
    (hl : ∀ l, X.plain.tree.node c ≠ .literal l) :
    X.Keeps (X.withTrees t t') ∧ (X.withTrees t t').Linked := by
  have hl' : ∀ l, X.short.tree.node c' ≠ .literal l := fun l hlit => by
    obtain ⟨m, hm, hm', -⟩ := h.nodes hc
    rw [← hm', Node.map_eq_literal] at hlit
    exact hl l (by rw [← hm, hlit]; rfl)
  have hkeeps : X.Keeps (X.withTrees t t') := ⟨id, .of_sets ht hl, .of_sets ht' hl'⟩
  refine ⟨hkeeps, ?_, fun {d d'} hd => ?_, fun hd => ?_, fun hd => ?_, h.unique, ?_, ?_⟩
  · change X.pairs t.root t'.root
    rw [ht.root, ht'.root]
    exact h.root
  · change (t.node d).Matches _ (t'.node d')
    rw [ht.node, ht'.node]
    by_cases hcd : d = c
    · rw [if_pos hcd, if_pos ((h.unique hd hc).mp hcd)]
      exact hn.mono fun htwin => htwin.mono hkeeps
    · rw [if_neg hcd, if_neg fun hcd' => hcd ((h.unique hd hc).mpr hcd')]
      exact (h.nodes hd).mono fun htwin => htwin.mono hkeeps
  · have hopen := h.plain_open hd
    exact ⟨ht.size ▸ hopen.1, by rw [Tree.isFrozen]; exact ht.flags _ ▸ hopen.2⟩
  · have hopen := h.short_open hd
    exact ⟨ht'.size ▸ hopen.1, by rw [Tree.isFrozen]; exact ht'.flags _ ▸ hopen.2⟩
  · exact h.plain_canonical.keep hkeeps.plain.frozen
  · exact h.short_canonical.keep hkeeps.short.frozen

theorem not_literal_of_slot? {n : Node NodeId} {f : Field} {slot : Slot NodeId}
    (h : n.slot? f = some slot) (l : Literal) : n ≠ .literal l := by
  rintro rfl
  cases h

theorem Linked.change (h : X.Linked) (hc : X.pairs c c') {f : Field}
    (ch : Slot.Change (NodeId × NodeId)) (hch : ∀ e ∈ ch.children, X.Twin e.1 e.2) {t t' : Tree}
    (ht : X.plain.tree.Changes c f (ch.map Prod.fst) t)
    (ht' : X.short.tree.Changes c' f (ch.map Prod.snd) t') :
    X.Keeps (X.withTrees t t') ∧ (X.withTrees t t').Linked := by
  obtain ⟨slot, slot₁, hs, hslot, hsets⟩ := ht
  obtain ⟨slot', slot₁', hs', hslot', hsets'⟩ := ht'
  exact h.put hc hsets hsets' ((h.nodes hc).change hch hs hslot hs' hslot')
    (not_literal_of_slot? hs)

end Edits

section Growth

theorem Sound.grow (h : X.Sound) {s s' : FoldState} (hs : s.Sound) (hs' : s'.Sound)
    (hg : X.plain.Grows s.toStore) (hg' : X.short.Grows s'.toStore) (hc : s.Canonical)
    (hc' : s'.Canonical) : X.Keeps ⟨s, s', X.pairs⟩ ∧ Sound ⟨s, s', X.pairs⟩ := by
  have hkeeps : X.Keeps ⟨s, s', X.pairs⟩ :=
    ⟨id, .of_grows h.plain hg, .of_grows h.short hg'⟩
  refine ⟨hkeeps, ⟨?_, fun {d d'} hd => ?_, fun hd => ?_, fun hd => ?_, h.unique, hc, hc'⟩, hs, hs'⟩
  · change X.pairs s.tree.root s'.tree.root
    rw [hg.tree.root, hg'.tree.root]
    exact h.root
  · change (s.tree.node d).Matches _ (s'.tree.node d')
    rw [hg.tree.node (h.plain_open hd).1, hg'.tree.node (h.short_open hd).1]
    exact (h.nodes hd).mono fun htwin => htwin.mono hkeeps
  · obtain ⟨hsize, hf⟩ := h.plain_open hd
    exact ⟨hsize.trans_le hg.tree.size, by rwa [hg.tree.isFrozen hsize]⟩
  · obtain ⟨hsize, hf⟩ := h.short_open hd
    exact ⟨hsize.trans_le hg'.tree.size, by rwa [hg'.tree.isFrozen hsize]⟩

def withNode (X : Coupling) (m : Node (NodeId × NodeId)) : Coupling where
  plain := { X.plain with tree := (X.plain.tree.alloc (m.map Prod.fst)).2 }
  short := { X.short with tree := (X.short.tree.alloc (m.map Prod.snd)).2 }
  pairs c c' := X.pairs c c' ∨ c = X.plain.tree.size ∧ c' = X.short.tree.size

theorem Sound.addNode (h : X.Sound) {m : Node (NodeId × NodeId)}
    (hl : ∀ l, m ≠ .literal l) (hm : ∀ e ∈ m.children, X.Twin e.1 e.2) :
    X.Keeps (X.withNode m) ∧ (X.withNode m).Sound := by
  have hfinite : ∀ f : NodeId × NodeId → NodeId, (m.map f).HasFiniteLiteral := fun f x hx =>
    absurd (Node.map_eq_literal.mp hx) (hl _)
  have hplain : ∀ c ∈ (m.map Prod.fst).children, c < X.plain.tree.size := fun c hc => by
    rw [Node.children_map] at hc
    obtain ⟨e, he, rfl⟩ := List.mem_map.mp hc
    exact (h.lt_size (hm e he)).1
  have hshort : ∀ c ∈ (m.map Prod.snd).children, c < X.short.tree.size := fun c hc => by
    rw [Node.children_map] at hc
    obtain ⟨e, he, rfl⟩ := List.mem_map.mp hc
    exact (h.lt_size (hm e he)).2
  have hg := Store.grows_alloc X.plain.toStore (m.map Prod.fst) {}
  have hg' := Store.grows_alloc X.short.toStore (m.map Prod.snd) {}
  have hkeeps : X.Keeps (X.withNode m) :=
    ⟨.inl, .of_grows h.plain hg, .of_grows h.short hg'⟩
  have hsound := h.plain.alloc (hfinite _) hplain
  have hsound' := h.short.alloc (hfinite _) hshort
  refine ⟨hkeeps, ⟨?_, fun {d d'} hd => ?_, fun hd => ?_, fun hd => ?_, fun hc hd => ?_,
    h.plain_canonical.keep hkeeps.plain.frozen, h.short_canonical.keep hkeeps.short.frozen⟩,
    hsound, hsound'⟩
  · exact .inl h.root
  · change ((X.plain.tree.alloc _).2.node d).Matches _ ((X.short.tree.alloc _).2.node d')
    rw [Tree.node_alloc, Tree.node_alloc]
    obtain hd | ⟨rfl, rfl⟩ := hd
    · rw [if_neg (h.plain_open hd).1.ne, if_neg (h.short_open hd).1.ne]
      exact (h.nodes hd).mono fun htwin => htwin.mono hkeeps
    · rw [if_pos rfl, if_pos rfl]
      exact ⟨m, rfl, rfl, fun e he => (hm e he).mono hkeeps⟩
  · obtain hd | ⟨rfl, -⟩ := hd
    · obtain ⟨hsize, hf⟩ := h.plain_open hd
      exact ⟨hsize.trans_le hg.tree.size, fun hx => hf ((hg.tree.isFrozen hsize).symm.trans hx)⟩
    · refine ⟨by simp [withNode, Tree.size_alloc], ?_⟩
      simp [withNode, Tree.isFrozen, Tree.flags_alloc]
  · obtain hd | ⟨-, rfl⟩ := hd
    · obtain ⟨hsize, hf⟩ := h.short_open hd
      exact ⟨hsize.trans_le hg'.tree.size, fun hx => hf ((hg'.tree.isFrozen hsize).symm.trans hx)⟩
    · refine ⟨by simp [withNode, Tree.size_alloc], ?_⟩
      simp [withNode, Tree.isFrozen, Tree.flags_alloc]
  · obtain hc | ⟨rfl, rfl⟩ := hc <;> obtain hd | ⟨rfl, rfl⟩ := hd
    · exact h.unique hc hd
    · exact iff_of_false (h.plain_open hc).1.ne (h.short_open hc).1.ne
    · exact iff_of_false (h.plain_open hd).1.ne' (h.short_open hd).1.ne'
    · exact iff_of_true rfl rfl

end Growth

end Coupling

end ScriptFold

import ScriptFold.Proofs.Directive
import ScriptFold.Proofs.Shape

/-!
Where the completion value of a program comes from: the last entry of its list, of a block that comes
last, and both branches of a choice that does. Rules see by the path whether a statement is there. Where
what may be edited has one place, the nodes tell the same.
-/

namespace ScriptFold

namespace Tree

variable {t t' : Tree} {p q parent : Path} {x y : NodeId} {f : Field} {key : Key} {v : Ref}

theorem reachesProgram_node : t.reachesProgram (.child q key (.node y)) =
    (decide ((t.node y).kind = .program) ||
      (!(t.node y).isFunction && t.isLastStep q key && t.reachesProgram q)) := by
  rw [reachesProgram]
  cases t.node y <;> rfl

theorem reachesProgram_list :
    t.reachesProgram (.child q key (.list x f)) = t.reachesProgram q := rfl

theorem isLastStep_node (h : q.value = .node x) : t.isLastStep q key := by
  rw [isLastStep, Path.isList, h]
  rfl

theorem isLastStep_item {i : Nat} {items : List (Option NodeId)} {slot : Slot NodeId}
    (h : q.value = .list x f) (hs : t.slot? x f = some slot) (hi : slot.items? = some items)
    (hlast : items.length = i + 1) : t.isLastStep q (.index i) := by
  have hindex : t.lastIndex? (.list x f) = some i := by
    simp only [lastIndex?, listLength?, listItems?, hs, hi, Option.bind_some, Option.map_some, hlast]
    rfl
  simp [isLastStep, h, Key.index?, hindex]

/-- What a node ends with may be what the program ends with. -/
def Tail (t : Tree) (x : NodeId) : Prop :=
  ∃ q : Path, q.Live t ∧ q.value = .node x ∧ t.reachesProgram q

namespace Tail

theorem root (h : (t.node t.root).kind = .program) : t.Tail t.root := by
  refine ⟨.ofNode t.root, rfl, rfl, ?_⟩
  simp [Path.ofNode, reachesProgram, Ref.node?, h]

theorem field (h : t.Tail x) (hread : t.read (.node x) (.field f) = .node y)
    (hy : ¬ (t.node y).isFunction) : t.Tail y := by
  obtain ⟨q, hq, hv, hreaches⟩ := h
  refine ⟨.child q (.field f) (.node y), ⟨hq, by rw [hv, hread]⟩, rfl, ?_⟩
  simp [reachesProgram_node, hy, isLastStep_node hv, hreaches]

theorem item {l : List (Option NodeId)} {slot : Slot NodeId} (h : t.Tail x)
    (hs : t.slot? x f = some slot) (hi : slot.items? = some (l ++ [some y]))
    (hy : ¬ (t.node y).isFunction) : t.Tail y := by
  obtain ⟨q, hq, hv, hreaches⟩ := h
  have hlist : (Path.child q (.field f) (.list x f)).Live t :=
    ⟨hq, by rw [hv, read_field_of_items hs hi]⟩
  refine ⟨.child (.child q (.field f) (.list x f)) (.index l.length) (.node y), ⟨hlist, ?_⟩, rfl, ?_⟩
  · rw [Path.value, read_index_of_items hs hi]
    simp
  · have hlast : t.isLastStep (.child q (.field f) (.list x f)) (.index l.length) :=
      isLastStep_item rfl hs hi (by simp)
    rw [reachesProgram_node, reachesProgram_list, hlast, hreaches]
    simp [hy]

end Tail

namespace Shaped

/-- A field of a node that the program may end with is seen to be one by its path. -/
theorem isCompletion_field (ht : t.Shaped) (hf : ¬ t.isFrozen x) (h : t.Tail x)
    (hp : (Path.child parent (.field f) v).Live t) (hv : parent.value = .node x) :
    t.isCompletion (.child parent (.field f) v) := by
  obtain ⟨q, hq, hqv, hreaches⟩ := h
  obtain rfl := ht.eq_of_value hf hp.1 hq (by rw [hv]; rfl) (hv.trans hqv.symm)
  simp [isCompletion, isLastStep_node hv, hreaches]

theorem isCompletion_item {i : Nat} {items : List (Option NodeId)} {slot : Slot NodeId}
    (ht : t.Shaped) (hf : ¬ t.isFrozen x) (h : t.Tail x)
    (hp : (Path.child parent (.index i) v).Live t) (hv : parent.value = .list x f)
    (hs : t.slot? x f = some slot) (hi : slot.items? = some items) (hlast : items.length = i + 1) :
    t.isCompletion (.child parent (.index i) v) := by
  obtain ⟨q, hq, hqv, hreaches⟩ := h
  obtain ⟨o, rfl, ho, hnode⟩ := hp.1.exists_owner_of_list hv
  have hov := Path.value_eq_node hnode
  obtain rfl := ht.eq_of_value hf ho hq (by rw [hov]; rfl) (hov.trans hqv.symm)
  simp [isCompletion, isLastStep_item hv hs hi hlast, reachesProgram_list, hreaches]

end Shaped

theorem isLastStep_congr (hp : p.Live t) (hnode : ∀ y, t.Within y t.root → t'.node y = t.node y) :
    t'.isLastStep p key = t.isLastStep p key := by
  unfold isLastStep lastIndex? Path.isList
  cases hv : p.value with
  | null | node => rfl
  | list y g =>
    have hlength : t'.listLength? (.list y g) = t.listLength? (.list y g) := by
      simp only [listLength?, listItems?, slot?, hnode y (hp.within_root (by rw [hv]; rfl))]
    rw [hlength]

theorem reachesProgram_congr (hp : p.Live t)
    (hnode : ∀ y, t.Within y t.root → t'.node y = t.node y) :
    t'.reachesProgram p = t.reachesProgram p := by
  induction p with
  | root value =>
    obtain rfl : value = .node t.root := hp
    simp only [reachesProgram, Ref.node?, Option.any_some, hnode t.root .refl]
  | child parent key value ih =>
    have hlast : t'.isLastStep parent key = t.isLastStep parent key := isLastStep_congr hp.1 hnode
    cases value with
    | null => simp only [reachesProgram, ih hp.1, hlast]
    | list => exact ih hp.1
    | node y =>
      rw [reachesProgram_node, reachesProgram_node, ih hp.1, hlast, hnode y (hp.within_root rfl)]

theorem isCompletion_congr (hp : p.Live t) (hnode : ∀ y, t.Within y t.root → t'.node y = t.node y) :
    t'.isCompletion p = t.isCompletion p := by
  cases p with
  | root => rfl
  | child parent key value =>
    simp only [isCompletion, isLastStep_congr hp.1 hnode, reachesProgram_congr hp.1 hnode]

end Tree

end ScriptFold

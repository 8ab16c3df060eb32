import Mathlib
import ScriptFold.Syntax.Term
import ScriptFold.Tree.Edit

/-!
Slots, children and rebuilding of nodes. All 41 kinds are met here once: `slots_map` and
`slots_setSlot` say what rebuilding does to the slots, and everything after them is about lists
of slots.
-/

namespace ScriptFold

namespace Slot

variable {α β : Type}

/-- A slot in the place of another of the same shape; one of another shape changes nothing. -/
def put : Slot α → Slot α → Slot α
  | .required _, .required new => .required new
  | .optional _, .optional new => .optional new
  | .list _, .list new => .list new
  | .holey _, .holey new => .holey new
  | old, _ => old

def map (f : α → β) : Slot α → Slot β
  | .required c => .required (f c)
  | .optional c => .optional (c.map f)
  | .list cs => .list (cs.map f)
  | .holey cs => .holey (cs.map (Option.map f))

theorem children_map (f : α → β) (slot : Slot α) :
    (slot.map f).children = slot.children.map f := by
  cases slot with
  | required c => rfl
  | optional c => cases c <;> rfl
  | list cs => rfl
  | holey cs => simp [map, children, List.map_filterMap, List.filterMap_map]

theorem map_congr {f g : α → β} {slot : Slot α} (h : ∀ c ∈ slot.children, f c = g c) :
    slot.map f = slot.map g := by
  cases slot with
  | required c => simpa [map, children] using h
  | optional c => cases c <;> simp_all [map, children]
  | list cs => simpa [map, children] using h
  | holey cs =>
    simp only [map, holey.injEq, List.map_inj_left]
    intro c hc
    cases c with
    | none => rfl
    | some c => simpa using h c (by simpa [children] using hc)

theorem mem_children_holey {c : α} {items : List (Option α)} :
    c ∈ (Slot.holey items).children ↔ some c ∈ items := by
  simp [children]

theorem mem_children_of_items? {slot : Slot α} {items : List (Option α)} {c : α}
    (h : slot.items? = some items) : c ∈ slot.children ↔ some c ∈ items := by
  cases slot <;> simp_all [items?, children]
  subst h
  simp

end Slot

namespace Node

variable {α β : Type}

theorem slots_map (f : α → β) (n : Node α) :
    (n.map f).slots = n.slots.map fun e => (e.1, e.2.map f) := by
  cases n <;> rfl

theorem slots_setSlot (n : Node α) (field : Field) (slot : Slot α) :
    (n.setSlot field slot).slots =
      n.slots.map fun e => if e.1 = field then (e.1, e.2.put slot) else e := by
  cases n <;> cases slot <;>
    simp only [setSlot, traverse, slots, Slot.put, Id.run, pure, bind, List.map_cons,
      List.map_nil] <;>
    grind

theorem kind_setSlot (n : Node α) (field : Field) (slot : Slot α) :
    (n.setSlot field slot).kind = n.kind := by
  cases n <;> rfl

theorem kind_map (f : α → β) (n : Node α) : (n.map f).kind = n.kind := by
  cases n <;> rfl

/-- Which fields a node has, and the shapes of their slots, is decided by its kind. -/
theorem shape_of_kind {n m : Node α} (h : n.kind = m.kind) :
    (n.slots.map fun e => (e.1, e.2.items?.isSome)) =
      m.slots.map fun e => (e.1, e.2.items?.isSome) := by
  cases n <;> cases m <;> cases h <;> rfl

theorem mem_children {n : Node α} {c : α} :
    c ∈ n.children ↔ ∃ e ∈ n.slots, c ∈ e.2.children := by
  simp [children]

theorem map_congr {f g : α → β} {n : Node α} (h : ∀ c ∈ n.children, f c = g c) :
    n.map f = n.map g := by
  have slots : ∀ e ∈ n.slots, e.2.map f = e.2.map g := fun e he =>
    Slot.map_congr fun c hc => h c (mem_children.mpr ⟨e, he, hc⟩)
  clear h
  cases n <;>
    simp_all [Node.slots, Slot.map, map, traverse, Visitor.plain, Id.run, pure, bind]

theorem map_map {γ : Type} (f : α → β) (g : β → γ) (n : Node α) :
    (n.map f).map g = n.map fun c => g (f c) := by
  cases n <;> simp [map, traverse, Visitor.plain, Function.comp_def, Id.run, pure, bind]

theorem map_id (n : Node α) : n.map (fun c => c) = n := by
  cases n <;> simp [map, traverse, Visitor.plain, Id.run, pure, bind]

section Traverse

variable {γ : Type} {m : Type → Type} [Monad m] [LawfulMonad m]

theorem traverse_map (g : α → β) (f : β → m γ) (n : Node α) :
    (n.map g).traverse (Visitor.each f) = n.traverse (Visitor.each fun c => f (g c)) := by
  have option : ∀ o : Option α, (o.map g).mapM f = o.mapM fun c => f (g c) := fun o => by
    cases o <;> rfl
  cases n <;> simp [map, traverse, Visitor.plain, Visitor.each, Id.run, pure, bind, List.mapM_map,
    Function.comp_def, option]

theorem traverse_pure (n : Node α) :
    n.traverse (Visitor.each fun c => (pure c : m α)) = pure n := by
  have list : ∀ {β : Type} (cs : List β), cs.mapM (fun c => (pure c : m β)) = pure cs := fun cs => by
    simpa using List.mapM_pure (m := m) (l := cs) (f := fun c => c)
  have option : ∀ o : Option α, o.mapM (fun c => (pure c : m α)) = pure o := fun o => by
    cases o <;> simp
  cases n <;> simp [traverse, Visitor.each, option, list]

end Traverse

/-- A node is found again where every child is. -/
theorem traverse_some {f : β → Option α} {n : Node α} {n' : Node β} (h : n'.map f = n.map some) :
    n'.traverse (Visitor.each f) = some n := by
  have through := traverse_map f (id : Option α → Option α) n'
  rw [h, traverse_map] at through
  exact through.symm.trans (traverse_pure n)

theorem children_map (f : α → β) (n : Node α) : (n.map f).children = n.children.map f := by
  simp [children, slots_map, List.flatMap_map, List.map_flatMap, Slot.children_map]

theorem map_setSlot (f : α → β) (n : Node α) (field : Field) (slot : Slot α) :
    (n.setSlot field slot).map f = (n.map f).setSlot field (slot.map f) := by
  cases n <;> cases slot <;>
    simp only [setSlot, map, traverse, Visitor.plain, Slot.map, Id.run, pure, bind] <;> grind

theorem setSlot_self {n : Node α} {field : Field} {slot : Slot α} (h : n.slot? field = some slot) :
    n.setSlot field slot = n := by
  cases n <;> cases slot <;>
    simp only [setSlot, traverse, slot?, slots, List.lookup, Id.run, pure, bind] at h ⊢ <;> grind

theorem slot?_map (f : α → β) (n : Node α) (field : Field) :
    (n.map f).slot? field = (n.slot? field).map (Slot.map f) := by
  unfold slot?
  rw [slots_map]
  induction n.slots with
  | nil => rfl
  | cons e es ih =>
    rw [List.map_cons, List.lookup_cons, List.lookup_cons, ih]
    split <;> rfl

/-- A slot with what is to its left and right, which is all that stays when the slot is set. -/
theorem slots_split {n : Node α} {field : Field} {slot : Slot α} (h : n.slot? field = some slot) :
    ∃ l r, n.slots = l ++ (field, slot) :: r ∧
      ∀ new, (n.setSlot field new).slots = l ++ (field, slot.put new) :: r := by
  obtain ⟨l, r, hs, hl⟩ := List.lookup_eq_some_iff.mp h
  have nodup := n.fields_nodup
  rw [fields, hs, List.map_append, List.map_cons, List.nodup_middle, List.nodup_cons,
    List.mem_append] at nodup
  have other : ∀ {es : List (Field × Slot α)} {new : Slot α}, field ∉ es.map Prod.fst →
      es.map (fun e => if e.1 = field then (e.1, e.2.put new) else e) = es := by
    intro es new hes
    refine (List.map_congr_left fun e he => if_neg ?_).trans (List.map_id es)
    rintro rfl
    exact hes (List.mem_map_of_mem he)
  refine ⟨l, r, hs, fun new => ?_⟩
  rw [slots_setSlot, hs, List.map_append, List.map_cons, if_pos rfl,
    other fun hf => nodup.1 (.inl hf), other fun hf => nodup.1 (.inr hf)]

theorem mem_slots_of_slot? {n : Node α} {field : Field} {slot : Slot α}
    (h : n.slot? field = some slot) : (field, slot) ∈ n.slots := by
  obtain ⟨l, r, hs, -⟩ := slots_split h
  simp [hs]

theorem slot?_of_mem {n : Node α} {f : Field} {slot : Slot α}
    (h : (f, slot) ∈ n.slots) : n.slot? f = some slot := by
  obtain ⟨l, r, hs⟩ := List.append_of_mem h
  refine List.lookup_eq_some_iff.mpr ⟨l, r, hs, fun e he => ?_⟩
  have nodup := n.fields_nodup
  rw [fields, hs, List.map_append, List.map_cons, List.nodup_middle, List.nodup_cons,
    List.mem_append] at nodup
  rw [bne_iff_ne]
  exact fun hf => nodup.1 (.inl (List.mem_map.mpr ⟨e, he, hf.symm⟩))

theorem mem_children_of_slot? {n : Node α} {field : Field} {slot : Slot α} {c : α}
    (h : n.slot? field = some slot) (hc : c ∈ slot.children) : c ∈ n.children :=
  mem_children.mpr ⟨_, mem_slots_of_slot? h, hc⟩

theorem mem_children_setSlot {n : Node α} {field : Field} {slot new : Slot α} {c : α}
    (h : n.slot? field = some slot) (hput : slot.put new = new)
    (hc : c ∈ (n.setSlot field new).children) : c ∈ n.children ∨ c ∈ new.children := by
  obtain ⟨l, r, hs, hset⟩ := slots_split h
  simp only [children, hs, hset, hput, List.flatMap_append, List.flatMap_cons,
    List.mem_append] at hc ⊢
  tauto

end Node

theorem Slot.map_map {α β γ : Type} (f : α → β) (g : β → γ) (slot : Slot α) :
    (slot.map f).map g = slot.map fun c => g (f c) := by
  cases slot <;> simp [map, Function.comp_def]

theorem Slot.map_id {α : Type} (slot : Slot α) : slot.map (fun c => c) = slot := by
  cases slot <;> simp [map]

theorem Slot.items?_map {α β : Type} (f : α → β) (slot : Slot α) :
    (slot.map f).items? = slot.items?.map (List.map (Option.map f)) := by
  cases slot <;> simp [map, items?, Function.comp_def]

theorem Slot.map_setItems {α β : Type} (f : α → β) (slot : Slot α) (items : List (Option α)) :
    (slot.setItems items).map f = (slot.map f).setItems (items.map (Option.map f)) := by
  cases slot <;> simp [setItems, map, List.map_filterMap, List.filterMap_map]

theorem Slot.setItems_self {α : Type} {slot : Slot α} {items : List (Option α)}
    (h : slot.items? = some items) : slot.setItems items = slot := by
  cases slot with
  | required c | optional c => cases h
  | list cs =>
    cases h
    simp [setItems]
  | holey cs =>
    cases h
    rfl

theorem Slot.put_setItems {α : Type} (slot : Slot α) (items : List (Option α)) :
    slot.put (slot.setItems items) = slot.setItems items := by
  cases slot <;> rfl

theorem Slot.mem_of_mem_children_setItems {α : Type} {slot : Slot α} {old items : List (Option α)}
    {c : α} (h : slot.items? = some old) (hc : c ∈ (slot.setItems items).children) :
    some c ∈ items := by
  cases slot with
  | required _ => cases h
  | optional _ => cases h
  | list _ => simpa [setItems, children] using hc
  | holey _ => simpa [setItems, children] using hc

theorem map_some_filterMap_id {α : Type} {items : List (Option α)} (h : ∀ e ∈ items, e.isSome) :
    (items.filterMap id).map some = items := by
  induction items with
  | nil => rfl
  | cons e items ih =>
    obtain ⟨c, rfl⟩ := Option.isSome_iff_exists.mp (h e (by simp))
    rw [List.filterMap_cons_some (by rfl), List.map_cons, ih fun e he => h e (by simp [he])]

theorem Slot.items?_setItems {α : Type} {slot : Slot α} {old items : List (Option α)}
    (h : slot.items? = some old) (hitems : ∀ e ∈ items, e ∈ old ∨ e.isSome) :
    (slot.setItems items).items? = some items := by
  cases slot with
  | required c => cases h
  | optional c => cases h
  | list cs =>
    obtain rfl : cs.map some = old := Option.some.inj h
    have hsome : ∀ e ∈ items, e.isSome := fun e he => by
      rcases hitems e he with hold | hsome
      · obtain ⟨c, -, rfl⟩ := List.mem_map.mp hold
        rfl
      · exact hsome
    exact congrArg some (map_some_filterMap_id hsome)
  | holey cs => rfl

theorem Slot.mem_splice {α : Type} {l old r : List (Option α)} {new : List α} {e : Option α}
    (he : e ∈ l ++ new.map some ++ r) : e ∈ l ++ old ++ r ∨ e.isSome := by
  simp only [List.mem_append, List.mem_map] at he ⊢
  rcases he with (he | ⟨c, -, rfl⟩) | he
  · exact .inl (.inl (.inl he))
  · exact .inr rfl
  · exact .inl (.inr he)

theorem Slot.items?_splice {α : Type} {slot : Slot α} {l old r : List (Option α)}
    (h : slot.items? = some (l ++ old ++ r)) (new : List α) :
    (slot.setItems (l ++ new.map some ++ r)).items? = some (l ++ new.map some ++ r) := by
  exact items?_setItems h fun e he => mem_splice he

theorem Node.slot?_setSlot {α : Type} {n : Node α} {f : Field} {slot : Slot α}
    (h : n.slot? f = some slot) (new : Slot α) (hput : slot.put new = new) :
    (n.setSlot f new).slot? f = some new := by
  unfold Node.slot? at h ⊢
  rw [slots_setSlot]
  generalize n.slots = slots at h ⊢
  induction slots with
  | nil => cases h
  | cons e es ih =>
    rw [List.lookup_cons] at h
    rw [List.map_cons, List.lookup_cons]
    by_cases hf : e.1 = f
    · subst hf
      rw [if_pos rfl]
      simp only [beq_self_eq_true] at h ⊢
      rw [Option.some.inj h, hput]
    · rw [if_neg hf]
      simp only [beq_eq_false_iff_ne.mpr (Ne.symm hf)] at h ⊢
      exact ih h

end ScriptFold

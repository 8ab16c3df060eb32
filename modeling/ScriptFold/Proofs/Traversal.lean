import ScriptFold.Proofs.Convergence
import ScriptFold.Proofs.Order

/-!
What walkers hand to a consumer that never edits the tree and never asks for another look at a slot:
the depth-first walk the paths from its start on in post-order, and the breadth-first walk those
paths level by level, without what goes on from a path that the consumer skips. The consumer may
keep a state of its own, and let its answers depend on it.
-/

namespace ScriptFold

open Relation

section

variable {ε σ α β : Type}

/-- A consumer is handed some paths one after another, and gives these answers. -/
inductive Yields (next : Next ε σ) : σ → List (Path × Command) → σ → Prop
  | nil {s} : Yields next s [] s
  | cons {s s₁ s' p c trace} : next p s = .ok c s₁ → Yields next s₁ trace s' →
    Yields next s ((p, c) :: trace) s'

theorem Yields.append {next : Next ε σ} {s s₁ s' : σ} {l r : List (Path × Command)}
    (hl : Yields next s l s₁) (hr : Yields next s₁ r s') : Yields next s (l ++ r) s' := by
  induction hl with
  | nil => exact hr
  | cons hcall _ ih => exact .cons hcall (ih hr)

variable [HasTree σ]

/-- A consumer leaves a tree as it is, and never answers `retry`. -/
def Watches (next : Next ε σ) (t : Tree) : Prop :=
  ∀ p s, HasTree.tree s = t →
    ∃ c s', next p s = .ok c s' ∧ c.isRetry = false ∧ HasTree.tree s' = t

/-- A step of a walk hands just these paths to a consumer, and gives a good result. -/
def Hands (next : Next ε σ) (t : Tree) (m : WalkM ε σ α) (good : α → Prop) (ps : List Path) : Prop :=
  ∀ s, HasTree.tree s = t → ∃ a s' trace, m s = .ok a s' ∧ good a ∧ HasTree.tree s' = t ∧
    Yields next s trace s' ∧ trace.map Prod.fst = ps

namespace Hands

variable {next : Next ε σ} {t : Tree} {m : WalkM ε σ α} {good : α → Prop} {ps qs : List Path}

theorem pure {a : α} (ha : good a) : Hands next t (Pure.pure a) good [] :=
  fun s hs => ⟨a, s, [], rfl, ha, hs, .nil, rfl⟩

theorem call (h : Watches next t) (p : Path) :
    Hands next t (next p) (fun c => c.isRetry = false) [p] := by
  intro s hs
  obtain ⟨c, s', hcall, hc, hs'⟩ := h p s hs
  exact ⟨c, s', [(p, c)], hcall, hc, hs', .cons hcall .nil, rfl⟩

theorem bind {f : α → WalkM ε σ β} {fine : β → Prop} (h : Hands next t m good ps)
    (hf : ∀ a, good a → Hands next t (f a) fine qs) : Hands next t (m >>= f) fine (ps ++ qs) := by
  intro s hs
  obtain ⟨a, s₁, l, hm, ha, hs₁, hl, rfl⟩ := h s hs
  obtain ⟨b, s', r, hb, hfine, hs', hr, rfl⟩ := hf a ha s₁ hs₁
  refine ⟨b, s', l ++ r, ?_, hfine, hs', hl.append hr, List.map_append⟩
  change EStateM.bind m f s = _
  rw [EStateM.bind, hm]
  exact hb

theorem read {f : Tree → WalkM ε σ β} {fine : β → Prop} (h : Hands next t (f t) fine ps) :
    Hands next t (getTree >>= f) fine ps := by
  intro s hs
  subst hs
  exact h s rfl

theorem forM {ι : Type} {xs : List ι} {f : ι → WalkM ε σ Unit} {below : ι → List Path}
    (h : ∀ x ∈ xs, Hands next t (f x) (fun _ => True) (below x)) :
    Hands next t (xs.forM f) (fun _ => True) (xs.flatMap below) := by
  induction xs with
  | nil => exact .pure trivial
  | cons x xs ih =>
    exact (h x List.mem_cons_self).bind fun _ _ => ih fun y hy => h y (List.mem_cons_of_mem x hy)

end Hands

end

namespace Tree

variable {t : Tree} {p : Path} {id : NodeId} {f : Field}

theorem sum_map_le_add_mul {α : Type} {f g : α → Nat} {k : Nat} {xs : List α}
    (h : ∀ x ∈ xs, f x ≤ 1 + k * g x) : (xs.map f).sum ≤ xs.length + k * (xs.map g).sum := by
  induction xs with
  | nil => exact Nat.zero_le _
  | cons x xs ih =>
    have hx := h x List.mem_cons_self
    have hxs := ih fun y hy => h y (List.mem_cons_of_mem x hy)
    rw [List.map_cons, List.map_cons, List.sum_cons, List.sum_cons, List.length_cons, Nat.mul_add]
    omega

theorem length_paths (h : t.WellFormed) (p : Path) :
    (t.paths p).length = 1 + ((p.keysBelow t).map fun key => (t.paths (p.step t key)).length).sum := by
  rw [paths_eq h, List.length_append, List.length_flatMap, Path.children_eq, List.map_map,
    List.length_singleton, Nat.add_comm]
  rfl

theorem length_flatMap_paths (h : t.WellFormed) (ps : List Path) : (ps.flatMap t.paths).length =
    ((ps.flatMap (·.children t)).flatMap t.paths).length + ps.length := by
  induction ps with
  | nil => rfl
  | cons p ps ih =>
    rw [List.flatMap_cons, List.flatMap_cons, List.flatMap_append, List.length_append,
      List.length_append, paths_eq h, List.length_append, ih, List.length_singleton, List.length_cons]
    omega

theorem length_paths_of_null (h : t.WellFormed) (hp : p.value = .null) :
    (t.paths p).length = 1 := by
  rw [length_paths h, Path.keysBelow_of_null hp]
  rfl

theorem map_range_join {α : Type} (items : List (Option α)) :
    (List.range items.length).map (fun i => items[i]?.join) = items := by
  refine List.ext_getElem (by simp) fun i _ hi => ?_
  simp [List.getElem?_eq_getElem hi]

theorem length_paths_list (h : t.WellFormed) {slot : Slot NodeId} (hp : p.value = .list id f)
    (hs : t.slot? id f = some slot)
    (hc : ∀ c ∈ slot.children, ∀ q : Path, q.value = .node c → (t.paths q).length ≤ 5 * t.span c) :
    (t.paths p).length ≤ 1 + 5 * (slot.map t.span).total 1 1 := by
  have hlist : t.listItems? p.value = slot.items? := by
    rw [hp, listItems?, hs]
    rfl
  rw [length_paths h, Path.keysBelow_of_list hp, listLength?, hlist]
  refine Nat.add_le_add_left ?_ 1
  cases hi : slot.items? with
  | none => exact Nat.zero_le _
  | some items =>
    have htotal : (slot.map t.span).total 1 1 =
        (items.map fun item => 1 + (item.map t.span).getD 1).sum := by
      cases slot with
      | required | optional => cases hi
      | list cs | holey cs =>
        cases hi
        simp [Slot.map, Slot.total, List.map_map, Function.comp_def]
    have hitem : ∀ i ∈ List.range items.length,
        (t.paths (p.step t (.index i))).length ≤
          5 * (1 + (items[i]?.join.map t.span).getD 1) := by
      intro i _
      have hread : (p.step t (.index i)).value = items[i]?.join.elim .null .node := by
        change t.read p.value _ = _
        rw [hp, read, ← hp, hlist, hi, Option.bind_some]
        rcases items[i]? with _ | _ | c <;> rfl
      cases hget : items[i]?.join with
      | none =>
        rw [hget] at hread
        rw [length_paths_of_null h hread]
        simp
      | some c =>
        rw [hget] at hread
        have hmem : c ∈ slot.children :=
          (Slot.mem_children_of_items? hi).mpr (List.mem_of_getElem? (Option.join_eq_some_iff.mp hget))
        have hle := hc c hmem _ hread
        simp only [Option.map_some, Option.getD_some]
        omega
    rw [Option.map_some, Option.getD_some, List.map_map, htotal]
    conv_rhs => rw [← map_range_join items, List.map_map]
    exact sum_map_le_mul hitem

theorem length_paths_slot (h : t.WellFormed) {slot : Slot NodeId} (hp : p.value = .node id)
    (hs : t.slot? id f = some slot)
    (hc : ∀ c ∈ slot.children, ∀ q : Path, q.value = .node c → (t.paths q).length ≤ 5 * t.span c) :
    (t.paths (p.step t (.field f))).length ≤ 1 + 5 * (slot.map t.span).total 1 1 := by
  have hread : (p.step t (.field f)).value = t.read (.node id) (.field f) := by
    rw [← hp]
    rfl
  simp only [read, hs] at hread
  cases slot with
  | required c => exact (hc c (by simp [Slot.children]) _ hread).trans (Nat.le_add_left _ 1)
  | optional c =>
    cases c with
    | none =>
      rw [length_paths_of_null h hread]
      exact Nat.le_add_right 1 _
    | some c => exact (hc c (by simp [Slot.children]) _ hread).trans (Nat.le_add_left _ 1)
  | list cs | holey cs => exact length_paths_list h hread hs hc

theorem length_slots_le {α : Type} (n : Node α) : n.slots.length ≤ 4 := by
  cases n <;> simp [Node.slots]

/-- A node spans a fifth of the paths that go on from it. -/
theorem length_paths_le (h : t.WellFormed) (hp : p.value = .node id) :
    (t.paths p).length ≤ 5 * t.span id := by
  induction id using h.acyclic.induction generalizing p with
  | _ id ih =>
    have hslot : ∀ e ∈ (t.node id).slots, (t.paths (p.step t (.field e.1))).length ≤
        1 + 5 * (e.2.map t.span).total 1 1 := fun e he => by
      refine length_paths_slot h hp (Node.slot?_of_mem he) fun c hc q hq => ?_
      exact ih c (Node.mem_children.mpr ⟨e, he, hc⟩) hq
    have hsum := sum_map_le_add_mul hslot
    have hlength := length_slots_le (t.node id)
    rw [length_paths h, Path.keysBelow_of_node hp, span_eq h, spread, Node.slots_map, Node.fields]
    simp only [List.map_map, Function.comp_def]
    omega

theorem length_paths_le_of_list (h : t.WellFormed) (hp : p.value = .list id f) :
    (t.paths p).length ≤ 5 * t.span id := by
  have hspan := span_eq h id
  cases hs : t.slot? id f with
  | none =>
    rw [length_paths h, Path.keysBelow_of_list hp, hp, listLength?, listItems?, hs]
    change 1 ≤ _
    omega
  | some slot =>
    have hle := length_paths_list h hp hs fun c _ q hq => length_paths_le h hq
    have hslot : (slot.map t.span).total 1 1 ≤ spread ((t.node id).map t.span) := by
      unfold spread
      rw [Node.slots_map, List.map_map]
      exact List.le_sum_of_mem (List.mem_map.mpr ⟨(f, slot), Node.mem_slots_of_slot? hs, rfl⟩)
    omega

theorem length_paths_le_walkFuelFrom (h : t.WellFormed) (p : Path) :
    3 * (t.paths p).length ≤ t.walkFuelFrom p := by
  have enough : ∀ n : Nat, 15 * n ≤ 64 * (n + 16) * (n + 16) := fun n => by nlinarith
  have spans : ∀ id : NodeId, 15 * t.span id ≤ { t with root := id }.walkFuel := fun id => by
    have hspan : { t with root := id }.span id = t.span id := by
      have hwf : { t with root := id }.WellFormed := ⟨h.closed, h.acyclic⟩
      unfold span
      exact attr_congr h hwf (fun _ _ => rfl) fun _ _ _ => rfl
    unfold walkFuel
    rw [hspan]
    refine le_trans ?_ (enough (t.size + t.span id))
    exact Nat.mul_le_mul_left 15 (Nat.le_add_left _ _)
  unfold walkFuelFrom
  cases hp : p.value with
  | null =>
    rw [length_paths_of_null h hp]
    unfold walkFuel
    dsimp only
    nlinarith
  | node id =>
    have hle := length_paths_le h hp
    have hspan := spans id
    dsimp only
    omega
  | list id f =>
    have hle := length_paths_le_of_list h hp
    have hspan := spans id
    dsimp only
    omega

end Tree

section DepthFirst

variable {ε σ : Type} [HasTree σ] {next : Next ε σ} {t : Tree} {p : Path} {key : Key} {fuel : Nat}

theorem settle_hands {ps : List Path}
    (h : Hands next t (descend next fuel (p.step t key)) (fun c => c.isRetry = false) ps) :
    Hands next t (settle next (fuel + 1) p key) (fun _ => True) ps := by
  rw [settle]
  refine .read ?_
  have hlast : ∀ c : Command, c.isRetry = false → Hands next t
      (if c.isRetry then settle next fuel p key else pure ()) (fun _ => True) [] := by
    intro c hc
    rw [hc]
    exact .pure trivial
  simpa using h.bind hlast

theorem settleItems_hands {id : NodeId} {f : Field} {i k : Nat} (hp : p.value = .list id f)
    (h : ∀ q, Path.Onward t p q → 1 ≤ (t.paths q).length ∧ ∀ fuel, 3 * (t.paths q).length ≤ fuel →
      Hands next t (descend next fuel q) (fun c => c.isRetry = false) (t.postOrder q))
    (hk : i + k = (t.listLength? p.value).getD 0)
    (hfuel : 3 * (((List.range' i k).map fun j => p.step t (.index j)).flatMap t.paths).length + 2 ≤
      fuel) :
    Hands next t (settleItems next fuel p i) (fun _ => True)
      (((List.range' i k).map fun j => p.step t (.index j)).flatMap t.postOrder) := by
  induction k generalizing i fuel with
  | zero =>
    obtain ⟨fuel, rfl⟩ : ∃ m, fuel = m + 1 := Nat.exists_eq_add_one.mpr (by omega)
    rw [settleItems]
    refine .read ?_
    rw [if_neg (by omega)]
    exact .pure trivial
  | succ k ih =>
    obtain ⟨fuel, rfl⟩ : ∃ m, fuel = m + 2 := Nat.exists_eq_add_of_le' (by omega)
    have honward : Path.Onward t p (p.step t (.index i)) := by
      unfold Path.Onward
      rw [Path.children_of_list hp]
      exact List.mem_map.mpr ⟨i, List.mem_range.mpr (by omega), rfl⟩
    obtain ⟨hpos, hwalk⟩ := h _ honward
    rw [List.range'_succ, List.map_cons, List.flatMap_cons] at hfuel ⊢
    rw [List.length_append] at hfuel
    rw [settleItems]
    refine .read ?_
    rw [if_pos (by omega)]
    exact (settle_hands (hwalk fuel (by omega))).bind fun _ _ => ih (by omega) (by omega)

/-- The paths that go on from a path are handed on in post-order. -/
theorem descend_hands (h : t.WellFormed) (hw : Watches next t) (p : Path) (fuel : Nat)
    (hfuel : 3 * (t.paths p).length ≤ fuel) :
    Hands next t (descend next fuel p) (fun c => c.isRetry = false) (t.postOrder p) := by
  induction p using Path.induction h generalizing fuel with
  | _ p ih =>
    have hlength : (t.paths p).length = ((p.children t).flatMap t.paths).length + 1 := by
      rw [Tree.paths_eq h, List.length_append, List.length_singleton]
    obtain ⟨fuel, rfl⟩ : ∃ m, fuel = m + 1 := Nat.exists_eq_add_one.mpr (by omega)
    cases hp : p.value with
    | null =>
      rw [descend_null hp, Tree.postOrder_of_null h hp]
      exact .pure rfl
    | list id f =>
      have hitems : Hands next t (settleItems next fuel p 0) (fun _ => True)
          ((p.children t).flatMap t.postOrder) := by
        rw [Path.children_of_list hp, List.range_eq_range'] at hlength ⊢
        refine settleItems_hands hp (fun q hq => ⟨?_, ih q hq⟩) (Nat.zero_add _) (by omega)
        rw [Tree.length_paths h]
        exact Nat.le_add_right 1 _
      rw [descend_list hp, Tree.postOrder_eq h (by rw [hp]; exact Ref.noConfusion)]
      exact hitems.bind fun _ _ => .call hw p
    | node id =>
      have hfields : Hands next t (walkFields next fuel p id) (fun _ => True)
          ((p.children t).flatMap t.postOrder) := by
        rw [Path.children_of_node hp, List.flatMap_map]
        refine .read (.forM fun f hf => ?_)
        have honward : p.step t (.field f) ∈ p.children t := by
          rw [Path.children_of_node hp]
          exact List.mem_map.mpr ⟨f, hf, rfl⟩
        have hle : (t.paths (p.step t (.field f))).length ≤
            ((p.children t).flatMap t.paths).length := by
          rw [List.length_flatMap]
          exact List.le_sum_of_mem (List.mem_map.mpr ⟨_, honward, rfl⟩)
        obtain ⟨fuel, rfl⟩ : ∃ m, fuel = m + 1 := Nat.exists_eq_add_one.mpr (by omega)
        exact settle_hands (ih _ honward fuel (by omega))
      rw [descend_node hp, Tree.postOrder_eq h (by rw [hp]; exact Ref.noConfusion)]
      exact hfields.bind fun _ _ => .call hw p

end DepthFirst

theorem flatMap_filter_eq {α β : Type} {f : α → List β} {keep : α → Bool} (xs : List α) :
    (xs.filter keep).flatMap f = xs.flatMap fun x => if keep x then f x else [] := by
  induction xs with
  | nil => rfl
  | cons x xs ih => cases h : keep x <;> simp [h, ih]

section BreadthFirst

variable {ε σ : Type} [HasTree σ] {next : Next ε σ} {t : Tree} {ps : List Path} {k d : Nat}

/-- Whether no path that a path goes on from was skipped. -/
def Path.isKept (trace : List (Path × Command)) (p : Path) : Bool :=
  p.ancestors.all fun q => (q, Command.skip) ∉ trace

def Tree.onward (t : Tree) (trace : List (Path × Command)) : List Path :=
  trace.flatMap fun e => if e.2 = .skip then [] else e.1.children t

theorem Path.isKept_append (l r : List (Path × Command)) (p : Path) :
    p.isKept (l ++ r) = (p.isKept l && p.isKept r) := by
  rw [Bool.eq_iff_iff]
  simp [isKept, not_or, forall_and]

theorem Path.isKept_of_depth {trace : List (Path × Command)} {p : Path}
    (h : ∀ e ∈ trace, p.depth ≤ e.1.depth) : p.isKept trace := by
  refine List.all_eq_true.mpr fun q hq => decide_eq_true fun hskip => ?_
  exact Nat.not_lt_of_le (h _ hskip) (Path.depth_lt_of_mem_ancestors hq)

theorem Path.Onward.isKept {p c : Path} (h : Path.Onward t p c) (trace : List (Path × Command)) :
    c.isKept trace = (decide ((p, Command.skip) ∉ trace) && p.isKept trace) := by
  unfold Path.isKept
  rw [h.ancestors, List.all_cons]

theorem Tree.filter_children (t : Tree) (p : Path) (trace : List (Path × Command)) :
    (p.children t).filter (Path.isKept trace) =
      if (p, Command.skip) ∉ trace ∧ p.isKept trace then p.children t else [] := by
  have hsame : ∀ c ∈ p.children t, c.isKept trace =
      decide ((p, Command.skip) ∉ trace ∧ p.isKept trace) := fun c hc => by
    rw [Path.Onward.isKept hc, Bool.decide_and, Bool.decide_eq_true]
  rw [List.filter_congr hsame]
  split <;> simp_all

/-- Leaving out what goes on from paths above a level leaves out what goes on from the rest of it. -/
theorem Tree.levelsTo_filter {trace : List (Path × Command)} (hk : ∀ p ∈ ps, p.depth = k)
    (htrace : ∀ e ∈ trace, e.1.depth < k) : t.levelsTo d (ps.filter (Path.isKept trace)) =
      (t.levelsTo d ps).filter (Path.isKept trace) := by
  induction d generalizing ps k with
  | zero => rfl
  | succ d ih =>
    have hnext : (ps.filter (Path.isKept trace)).flatMap (·.children t) =
        (ps.flatMap (·.children t)).filter (Path.isKept trace) := by
      rw [List.filter_flatMap, flatMap_filter_eq]
      refine List.flatMap_congr fun p hp => ?_
      have hskip : (p, Command.skip) ∉ trace := fun hskip =>
        (htrace _ hskip).ne (hk p hp)
      rw [Tree.filter_children]
      simp [hskip]
    rw [levelsTo, levelsTo, List.filter_append, hnext]
    refine congrArg _ (ih (fun c hc => depth_of_mem_children hk hc) fun e he => ?_)
    exact Nat.lt_succ_of_lt (htrace e he)

theorem Tree.onward_eq {trace : List (Path × Command)} (hk : ∀ p ∈ ps, p.depth = k)
    (hn : ps.Nodup) (htrace : trace.map Prod.fst = ps.filter fun p => !p.value.isNull) :
    t.onward trace = (ps.flatMap (·.children t)).filter (Path.isKept trace) := by
  have hmem : ∀ e ∈ trace, e.1 ∈ ps := fun e he => by
    have he : e.1 ∈ trace.map Prod.fst := List.mem_map.mpr ⟨e, he, rfl⟩
    rw [htrace] at he
    exact List.mem_of_mem_filter he
  have hnodup : (trace.map Prod.fst).Nodup := by
    rw [htrace]
    exact hn.filter _
  have hnull : ps.flatMap (·.children t) = trace.flatMap fun e => e.1.children t := by
    rw [← List.flatMap_map (f := Prod.fst) (g := fun p : Path => p.children t), htrace,
      flatMap_filter_eq]
    refine List.flatMap_congr fun p _ => ?_
    cases hv : p.value with
    | null => simp [Path.children_of_null hv, Ref.isNull]
    | list | node => rfl
  rw [hnull, List.filter_flatMap]
  refine List.flatMap_congr fun e he => ?_
  have hkept : e.1.isKept trace := Path.isKept_of_depth fun e' he' => by
    rw [hk _ (hmem e he), hk _ (hmem e' he')]
  have hskip : e.2 = .skip ↔ (e.1, Command.skip) ∈ trace := by
    refine ⟨fun hc => hc ▸ he, fun hmem' => ?_⟩
    have hsame := List.inj_on_of_nodup_map hnodup he hmem' rfl
    rw [hsame]
  rw [filter_children]
  simp only [hskip, hkept, and_true, ite_not]

/-- A level is taken from the front of the queue, and what goes on from it put at the end. -/
theorem drain_level (hw : Watches next t) (front : List Path) {s : σ} (hs : HasTree.tree s = t) :
    ∃ s' trace, Yields next s trace s' ∧ HasTree.tree s' = t ∧
      trace.map Prod.fst = front.filter (fun p => !p.value.isNull) ∧
      ∀ fuel back, drain next (fuel + front.length) (front ++ back) s =
        drain next fuel (back ++ t.onward trace) s' := by
  induction front generalizing s with
  | nil => exact ⟨s, [], .nil, hs, rfl, fun fuel back => by simp [Tree.onward]⟩
  | cons p front ih =>
    cases hp : p.value.isNull with
    | true =>
      obtain ⟨s', trace, hy, hs', htrace, hrun⟩ := ih hs
      refine ⟨s', trace, hy, hs', ?_, fun fuel back => ?_⟩
      · rw [htrace, List.filter_cons, hp]
        rfl
      · rw [List.length_cons, ← Nat.add_assoc, List.cons_append, drain, hp]
        exact hrun fuel back
    | false =>
      obtain ⟨c, s₁, hcall, hc, hs₁⟩ := hw p s hs
      obtain ⟨s', trace, hy, hs', htrace, hrun⟩ := ih hs₁
      refine ⟨s', (p, c) :: trace, .cons hcall hy, hs', ?_, fun fuel back => ?_⟩
      · rw [List.map_cons, htrace, List.filter_cons, hp]
        rfl
      · rw [List.length_cons, ← Nat.add_assoc, List.cons_append, drain, hp]
        change EStateM.bind (next p) _ s = _
        rw [EStateM.bind, hcall]
        cases c with
        | retry => cases hc
        | skip => exact hrun fuel back
        | proceed =>
          change drain next _ (front ++ back ++ p.children (HasTree.tree s₁)) s₁ = _
          rw [hs₁, List.append_assoc, hrun, List.append_assoc]
          rfl

theorem drain_levels (h : t.WellFormed) (hw : Watches next t) {fuel : Nat} {s : σ}
    (hd : ∀ p ∈ ps, p.height t < d) (hk : ∀ p ∈ ps, p.depth = k) (hn : ps.Nodup)
    (hfuel : (ps.flatMap t.paths).length ≤ fuel) (hs : HasTree.tree s = t) :
    ∃ s' trace, drain next fuel ps s = .ok () s' ∧ Yields next s trace s' ∧
      (∀ e ∈ trace, k ≤ e.1.depth) ∧ trace.map Prod.fst =
        ((t.levelsTo d ps).filter fun p => !p.value.isNull).filter (Path.isKept trace) := by
  induction d generalizing ps k s fuel with
  | zero =>
    obtain rfl : ps = [] := List.eq_nil_iff_forall_not_mem.mpr fun p hp =>
      Nat.not_lt_zero _ (hd p hp)
    refine ⟨s, [], ?_, .nil, fun e he => absurd he List.not_mem_nil, rfl⟩
    cases fuel <;> rfl
  | succ d ih =>
    obtain ⟨s₁, l, hl, hs₁, hfront, hrun⟩ := drain_level hw ps hs
    have honward := Tree.onward_eq (t := t) hk hn hfront
    have hdepth : ∀ c ∈ ps.flatMap (·.children t), c.depth = k + 1 := fun c hc =>
      Tree.depth_of_mem_children hk hc
    have hsub : (t.onward l).Sublist (ps.flatMap (·.children t)) := by
      rw [honward]
      exact List.filter_sublist
    -- each path of the level costs one step, and the rest of the fuel is for those that go on
    -- from it
    have hlength : ((t.onward l).flatMap t.paths).length + ps.length ≤ fuel := by
      rw [Tree.length_flatMap_paths h] at hfuel
      exact (Nat.add_le_add_right (hsub.flatMap t.paths).length_le _).trans hfuel
    obtain ⟨fuel, rfl⟩ : ∃ m, fuel = m + ps.length := Nat.exists_eq_add_of_le' (by omega)
    have hrest : ((t.onward l).flatMap t.paths).length ≤ fuel := by omega
    have hheight : ∀ c ∈ t.onward l, c.height t < d := fun c hc => by
      obtain ⟨p, hp, hc⟩ := List.mem_flatMap.mp (hsub.subset hc)
      exact (Path.Onward.height_lt h hc).trans_le (Nat.le_of_lt_succ (hd p hp))
    obtain ⟨s', r, hr, hyr, hrdepth, hrmap⟩ := ih hheight
      (fun c hc => hdepth c (hsub.subset hc)) ((Tree.nodup_flatMap_children hn).sublist hsub)
      hrest hs₁
    have hldepth : ∀ e ∈ l, e.1.depth = k := fun e he => by
      have he : e.1 ∈ l.map Prod.fst := List.mem_map.mpr ⟨e, he, rfl⟩
      rw [hfront] at he
      exact hk _ (List.mem_of_mem_filter he)
    have htrace : ∀ e ∈ l ++ r, k ≤ e.1.depth := fun e he => by
      rcases List.mem_append.mp he with he | he
      · exact (hldepth e he).ge
      · exact Nat.le_of_succ_le (hrdepth e he)
    refine ⟨s', l ++ r, ?_, hl.append hyr, htrace, ?_⟩
    · have hrun := hrun fuel []
      rw [List.append_nil, List.nil_append] at hrun
      rw [hrun, hr]
    -- no path of this level goes on from a path that was skipped now or later
    · have hkept : ((ps.filter fun p => !p.value.isNull).filter (Path.isKept (l ++ r))) =
          ps.filter fun p => !p.value.isNull := List.filter_eq_self.mpr fun p hp =>
        Path.isKept_of_depth fun e he => by
          rw [hk p (List.mem_of_mem_filter hp)]
          exact htrace e he
      rw [Tree.levelsTo, List.filter_append, List.filter_append, hkept, List.map_append, hfront,
        hrmap, honward, Tree.levelsTo_filter hdepth fun e he => by rw [hldepth e he]; omega]
      simp only [List.filter_filter, Path.isKept_append]
      refine congrArg _ (List.filter_congr fun p _ => ?_)
      rw [Bool.and_comm (p.isKept l), Bool.and_assoc, Bool.and_comm (p.isKept l)]

end BreadthFirst

variable {t : Tree}

/-- Traversal orders, in a tree without cycles and from any path on.

The paths are those to which steps lead that find something, each once; the keys of a step are
fields in the order of their names, or positions. Post-order puts what goes on from a path before the
path, child by child. Level order has the same paths: depth never decreases, and each level is made of
the children of the one before, in its order.

The depth-first walk hands the paths to a consumer in post-order; the breadth-first walk in level
order, without the paths that go on from a skipped one. -/
theorem Tree.walks_in_order (h : t.WellFormed) (start : Path) :
    (∀ p, p ∈ t.postOrder start ↔
      ReflTransGen (Path.Onward t) start p ∧ p.value ≠ .null) ∧
    (t.postOrder start).Nodup ∧
    (∀ p : Path, p.children t = (p.keysBelow t).map (p.step t) ∧ (p.keysBelow t).Pairwise Key.Before) ∧
    (∀ p : Path, p.value ≠ .null →
      t.postOrder p = (p.children t).flatMap t.postOrder ++ [p]) ∧
    (t.levelOrder start).Perm (t.postOrder start) ∧
    (t.levelOrder start).Pairwise (fun p q => p.depth ≤ q.depth) ∧
    (∀ n, start.depth ≤ n → (t.levelOrder start).filter (·.depth = n + 1) =
      ((t.levelOrder start).filter (·.depth = n)).flatMap
        fun p => (p.children t).filter fun c => !c.value.isNull) ∧
    ∀ {ε σ : Type} [HasTree σ] (next : Next ε σ), Watches next t → ∀ s, HasTree.tree s = t →
      (∃ c s' trace, Stage.depthFirst.walkWith start next s = .ok c s' ∧ Yields next s trace s' ∧
        trace.map Prod.fst = t.postOrder start) ∧
      ∃ s' trace, Stage.breadthFirst.walkWith start next s = .ok .proceed s' ∧
        Yields next s trace s' ∧
        trace.map Prod.fst = (t.levelOrder start).filter (Path.isKept trace) ∧
        ((∀ e ∈ trace, e.2 = .proceed) → trace.map Prod.fst = t.levelOrder start) := by
  refine ⟨fun p => mem_postOrder h, nodup_postOrder h start,
    fun p => ⟨p.children_eq t, p.sorted_keysBelow t⟩, fun p => postOrder_eq h, perm_levelOrder h start,
    sorted_levelOrder t start, fun n hn => next_levelOrder h hn, ?_⟩
  intro ε σ _ next hw s hs
  have hfuel := length_paths_le_walkFuelFrom h start
  have hpaths : ([start].flatMap t.paths).length ≤ t.walkFuelFrom start := by
    rw [List.flatMap_singleton]
    omega
  constructor
  · obtain ⟨c, s', trace, hrun, -, -, hy, htrace⟩ := descend_hands h hw start _ hfuel s hs
    subst hs
    exact ⟨c, s', trace, hrun, hy, htrace⟩
  · obtain ⟨s', trace, hrun, hy, -, htrace⟩ := drain_levels h hw
      (height_lt_of_singleton t start) (depth_of_singleton start) (List.nodup_singleton start)
      hpaths hs
    refine ⟨s', trace, ?_, hy, htrace, fun hproceed => ?_⟩
    · subst hs
      change EStateM.bind (drain next _ [start]) _ s = _
      rw [EStateM.bind, hrun]
      rfl
    · refine htrace.trans (List.filter_eq_self.mpr fun p _ => ?_)
      refine List.all_eq_true.mpr fun q _ => decide_eq_true fun hskip => ?_
      exact Command.noConfusion (hproceed _ hskip)

/-- The program `1;`, from its root on. -/
theorem Tree.walks_in_order_programOne : ∃ t, ofJson .programOne = .ok t ∧
    (t.postOrder (.ofNode t.root)).map Path.keysText =
      ["$.body[0].expression", "$.body[0]", "$.body", "$"] ∧
    let consumer : Next FoldError FoldState := fun _ => return .proceed
    ∃ c s' trace, Stage.depthFirst.walkWith (.ofNode t.root) consumer { tree := t } = .ok c s' ∧
      Yields consumer { tree := t } trace s' ∧ trace.map Prod.fst = t.postOrder (.ofNode t.root) := by
  refine ⟨_, rfl, rfl, ?_⟩
  intro consumer
  have hw : ∀ t, Watches consumer t := fun t p s hs => ⟨.proceed, s, rfl, rfl, hs⟩
  have hs := (fresh_ofJson Json.finite_programOne rfl).sound
  obtain ⟨-, -, -, -, -, -, -, hwalks⟩ := walks_in_order hs.wellFormed (.ofNode _)
  exact (hwalks consumer (hw _) { tree := _ } rfl).1

end ScriptFold

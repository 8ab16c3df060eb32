import ScriptFold.Proofs.Firing
import ScriptFold.Walk.BreadthFirst

/-!
The paths that go on from a path, in two orders: children before their parents, and level by level.
Both lists are those of a tree that no walk edits; walks are compared with them. Below a path there
are finitely many others, as every second step goes down to a child: what is shown of a path may be
shown from the paths one step further (`Path.induction`).
-/

namespace ScriptFold

open Relation

/-- One key comes before another: fields by their names, and positions by their numbers. -/
def Key.Before : Key → Key → Prop
  | .field f, .field g => spell f < spell g
  | .index i, .index j => i < j
  | _, _ => False

theorem Key.Before.ne {k k' : Key} (h : k.Before k') : k ≠ k' := by
  rintro rfl
  cases k with
  | field f => exact String.lt_irrefl _ h
  | index i => exact Nat.lt_irrefl i h

theorem Node.sorted_fields {α : Type} (n : Node α) :
    n.fields.Pairwise fun f g => spell f < spell g := by
  cases n <;> simp only [fields, slots, List.map] <;> decide

namespace Path

variable {t : Tree} {p q r : Path} {key : Key}

/-- The keys of the slots one step below a path. -/
def keysBelow (p : Path) (t : Tree) : List Key :=
  match p.value with
  | .null => []
  | .list .. => (List.range ((t.listLength? p.value).getD 0)).map .index
  | .node id => (t.node id).fields.map .field

/-- One path is a step further than another. -/
def Onward (t : Tree) (p q : Path) : Prop :=
  q ∈ p.children t

def ancestors : Path → List Path
  | .root _ => []
  | .child parent _ _ => parent :: parent.ancestors

theorem children_eq (p : Path) (t : Tree) : p.children t = (p.keysBelow t).map (p.step t) := by
  unfold children keysBelow
  cases p.value <;> simp [Function.comp_def]

theorem keysBelow_of_null (h : p.value = .null) (t : Tree) : p.keysBelow t = [] := by
  unfold keysBelow
  rw [h]

theorem children_of_null (h : p.value = .null) (t : Tree) : p.children t = [] := by
  rw [children_eq, keysBelow_of_null h, List.map_nil]

theorem keysBelow_of_node {id : NodeId} (h : p.value = .node id) (t : Tree) :
    p.keysBelow t = (t.node id).fields.map .field := by
  unfold keysBelow
  rw [h]

theorem keysBelow_of_list {id : NodeId} {f : Field} (h : p.value = .list id f) (t : Tree) :
    p.keysBelow t = (List.range ((t.listLength? p.value).getD 0)).map .index := by
  unfold keysBelow
  rw [h]

theorem children_of_node {id : NodeId} (h : p.value = .node id) (t : Tree) :
    p.children t = (t.node id).fields.map fun f => p.step t (.field f) := by
  rw [children_eq, keysBelow_of_node h, List.map_map]
  rfl

theorem children_of_list {id : NodeId} {f : Field} (h : p.value = .list id f) (t : Tree) :
    p.children t =
      (List.range ((t.listLength? p.value).getD 0)).map fun i => p.step t (.index i) := by
  rw [children_eq, keysBelow_of_list h, List.map_map]
  rfl

theorem sorted_keysBelow (p : Path) (t : Tree) : (p.keysBelow t).Pairwise Key.Before := by
  unfold keysBelow
  cases p.value with
  | null => exact .nil
  | list => exact List.pairwise_map.mpr List.pairwise_lt_range
  | node id => exact List.pairwise_map.mpr (t.node id).sorted_fields

theorem onward_iff : Onward t p q ↔ ∃ key ∈ p.keysBelow t, p.step t key = q := by
  unfold Onward
  rw [children_eq, List.mem_map]

theorem nodup_children (p : Path) (t : Tree) : (p.children t).Nodup := by
  rw [children_eq, List.nodup_map_iff]
  · exact (p.sorted_keysBelow t).imp Key.Before.ne
  · intro k k' hk
    injection hk

theorem Onward.depth (h : Onward t p q) : q.depth = p.depth + 1 := by
  obtain ⟨key, -, rfl⟩ := onward_iff.mp h
  rfl

theorem Onward.ancestors (h : Onward t p q) : q.ancestors = p :: p.ancestors := by
  obtain ⟨key, -, rfl⟩ := onward_iff.mp h
  rfl

theorem Onward.value_ne_null (h : Onward t p q) : p.value ≠ .null := by
  intro hp
  unfold Onward at h
  rw [children_of_null hp] at h
  exact absurd h List.not_mem_nil

theorem Onward.unique (h : Onward t p r) (h' : Onward t q r) : p = q := by
  have heads := h.ancestors.symm.trans h'.ancestors
  injection heads

theorem depth_lt_of_mem_ancestors (h : q ∈ p.ancestors) : q.depth < p.depth := by
  induction p with
  | root value => exact absurd h List.not_mem_nil
  | child parent key value ih =>
    rcases List.mem_cons.mp h with rfl | h
    · exact Nat.lt_succ_self _
    · exact (ih h).trans (Nat.lt_succ_self _)

theorem depth_le_of_onward (h : ReflTransGen (Onward t) p q) : p.depth ≤ q.depth := by
  induction h with
  | refl => exact le_rfl
  | tail _ hstep ih => exact ih.trans (Nat.le.intro hstep.depth.symm)

theorem above_of_onward (h : ReflTransGen (Onward t) p q) : p.Above q := by
  induction h with
  | refl => exact .refl
  | tail _ hstep ih =>
    obtain ⟨key, -, rfl⟩ := onward_iff.mp hstep
    exact .child ih

theorem Above.eq_of_depth (hp : p.Above r) (hq : q.Above r) (h : p.depth = q.depth) : p = q := by
  induction hp with
  | refl =>
    cases hq with
    | refl => rfl
    | child hq =>
      have hle := hq.depth_le
      rw [← h] at hle
      exact absurd hle (Nat.not_succ_le_self _)
  | @child r key v hp ih =>
    cases hq with
    | refl =>
      have hle := hp.depth_le
      rw [h] at hle
      exact absurd hle (Nat.not_succ_le_self _)
    | child hq => exact ih hq

/-- How many steps may go on from a path, at most. -/
noncomputable def height (t : Tree) (p : Path) : Nat :=
  match p.value with
  | .null => 0
  | .list id _ => 2 * t.countBelow id + 1
  | .node id => 2 * t.countBelow id + 2

theorem height_le (t : Tree) (p : Path) : p.height t ≤ 2 * t.size + 2 := by
  unfold height
  cases p.value with
  | null => exact Nat.zero_le _
  | list x f | node x =>
    have := t.countBelow_le x
    dsimp only
    omega

theorem Onward.height_lt (h : t.WellFormed) (hstep : Onward t p q) : q.height t < p.height t := by
  obtain ⟨key, -, rfl⟩ := onward_iff.mp hstep
  unfold height
  cases hr : (p.step t key).value with
  | null =>
    have hp := hstep.value_ne_null
    cases hv : p.value with
    | null => exact absurd hv hp
    | list | node => exact Nat.succ_pos _
  | list id f =>
    obtain ⟨hv, -⟩ := list_of_read hr
    rw [hv]
    exact Nat.lt_succ_self _
  | node c =>
    obtain ⟨owner, hleads⟩ := leads_of_read hr
    have hlt := h.countBelow_lt hleads.child
    have howner := hleads.owner?
    cases hv : p.value with
    | null =>
      rw [hv] at howner
      cases howner
    | list x | node x =>
      rw [hv] at howner
      obtain rfl : x = owner := Option.some.inj howner
      dsimp only
      omega

theorem induction (h : t.WellFormed) {P : Path → Prop}
    (ih : ∀ p : Path, (∀ q, Onward t p q → P q) → P p) (p : Path) : P p := by
  induction hn : p.height t using Nat.strong_induction_on generalizing p with
  | _ n hless =>
    subst hn
    exact ih p fun q hq => hless _ (hq.height_lt h) q rfl

end Path

namespace Tree

variable {t : Tree} {p q : Path} {ps : List Path} {d e k n : Nat}

/-- All paths that go on from a path, by so many steps at most; those one step further, each after
what goes on from it, and then the path. -/
def pathsTo (t : Tree) : Nat → Path → List Path
  | 0, _ => []
  | depth + 1, p => (p.children t).flatMap (t.pathsTo depth) ++ [p]

def paths (t : Tree) (p : Path) : List Path :=
  t.pathsTo (2 * t.size + 3) p

/-- The paths that go on from a path and find anything, children before their parents. -/
def postOrder (t : Tree) (p : Path) : List Path :=
  (t.paths p).filter fun q => !q.value.isNull

/-- All paths that go on from some paths, by fewer steps than given, level by level. -/
def levelsTo (t : Tree) : Nat → List Path → List Path
  | 0, _ => []
  | depth + 1, ps => ps ++ t.levelsTo depth (ps.flatMap (·.children t))

def levels (t : Tree) (p : Path) : List Path :=
  t.levelsTo (2 * t.size + 3) [p]

/-- The paths that go on from a path and find anything, level by level. -/
def levelOrder (t : Tree) (p : Path) : List Path :=
  (t.levels p).filter fun q => !q.value.isNull

section Paths

theorem pathsTo_eq (h : t.WellFormed) (hd : p.height t < d) (he : p.height t < e) :
    t.pathsTo d p = t.pathsTo e p := by
  induction d generalizing e p with
  | zero => exact absurd hd (Nat.not_lt_zero _)
  | succ d ih =>
    obtain ⟨e, rfl⟩ : ∃ e', e = e' + 1 := Nat.exists_eq_add_one.mpr (Nat.zero_lt_of_lt he)
    have below : ∀ q ∈ p.children t, t.pathsTo d q = t.pathsTo e q := fun q hq => by
      have hlt := Path.Onward.height_lt h hq
      exact ih (by omega) (by omega)
    rw [pathsTo, pathsTo, List.flatMap_congr below]

theorem paths_eq (h : t.WellFormed) (p : Path) :
    t.paths p = (p.children t).flatMap t.paths ++ [p] := by
  have below : ∀ q ∈ p.children t, t.pathsTo (2 * t.size + 2) q = t.paths q := fun q hq => by
    have hlt := Path.Onward.height_lt h hq
    have hle := p.height_le t
    exact pathsTo_eq h (by omega) (by omega)
  conv_lhs => rw [paths, pathsTo, List.flatMap_congr below]

theorem mem_paths (h : t.WellFormed) : q ∈ t.paths p ↔ ReflTransGen (Path.Onward t) p q := by
  induction p using Path.induction h with
  | _ p ih =>
    rw [paths_eq h, List.mem_append, List.mem_flatMap, List.mem_singleton]
    constructor
    · rintro (⟨c, hc, hq⟩ | rfl)
      · exact .head hc ((ih c hc).mp hq)
      · exact .refl
    · intro hq
      rcases ReflTransGen.cases_head hq with rfl | ⟨c, hc, hq⟩
      · exact .inr rfl
      · exact .inl ⟨c, hc, (ih c hc).mpr hq⟩

theorem nodup_paths (h : t.WellFormed) (p : Path) : (t.paths p).Nodup := by
  induction p using Path.induction h with
  | _ p ih =>
    rw [paths_eq h]
    refine List.nodup_append'.mpr ⟨?_, List.nodup_singleton p, ?_⟩
    · -- what goes on from two children begins differently
      refine List.nodup_flatMap.mpr ⟨ih, (p.nodup_children t).imp_of_mem ?_⟩
      intro c d hc hd hne q hq hq'
      refine hne ?_
      refine (Path.above_of_onward ((mem_paths h).mp hq)).eq_of_depth
        (Path.above_of_onward ((mem_paths h).mp hq')) ?_
      exact (Path.Onward.depth hc).trans (Path.Onward.depth hd).symm
    · intro q hq hp
      obtain rfl := List.mem_singleton.mp hp
      obtain ⟨c, hc, hq⟩ := List.mem_flatMap.mp hq
      have hle := Path.depth_le_of_onward ((mem_paths h).mp hq)
      rw [Path.Onward.depth hc] at hle
      exact Nat.not_succ_le_self _ hle

end Paths

section PostOrder

theorem mem_postOrder (h : t.WellFormed) :
    q ∈ t.postOrder p ↔ ReflTransGen (Path.Onward t) p q ∧ q.value ≠ .null := by
  unfold postOrder
  rw [List.mem_filter, mem_paths h]
  refine and_congr_right fun _ => ?_
  cases q.value <;> simp [Ref.isNull]

theorem nodup_postOrder (h : t.WellFormed) (p : Path) : (t.postOrder p).Nodup :=
  (nodup_paths h p).filter _

theorem postOrder_of_null (h : t.WellFormed) (hp : p.value = .null) : t.postOrder p = [] := by
  unfold postOrder
  rw [paths_eq h, Path.children_of_null hp]
  simp [hp, Ref.isNull]

theorem postOrder_eq (h : t.WellFormed) (hp : p.value ≠ .null) :
    t.postOrder p = (p.children t).flatMap t.postOrder ++ [p] := by
  have hnull : p.value.isNull = false := by
    cases hv : p.value with
    | null => exact absurd hv hp
    | list | node => rfl
  unfold postOrder
  rw [paths_eq h, List.filter_append, List.filter_flatMap]
  simp [hnull]

end PostOrder

section Levels

theorem mem_levelsTo (h : t.WellFormed) (hd : ∀ p ∈ ps, p.height t < d) :
    q ∈ t.levelsTo d ps ↔ ∃ p ∈ ps, ReflTransGen (Path.Onward t) p q := by
  induction d generalizing ps with
  | zero =>
    refine ⟨fun hq => absurd hq List.not_mem_nil, ?_⟩
    rintro ⟨p, hp, -⟩
    exact absurd (hd p hp) (Nat.not_lt_zero _)
  | succ d ih =>
    have hnext : ∀ c ∈ ps.flatMap (·.children t), c.height t < d := fun c hc => by
      obtain ⟨p, hp, hc⟩ := List.mem_flatMap.mp hc
      exact (Path.Onward.height_lt h hc).trans_le (Nat.le_of_lt_succ (hd p hp))
    rw [levelsTo, List.mem_append, ih hnext]
    constructor
    · rintro (hq | ⟨c, hc, hq⟩)
      · exact ⟨q, hq, .refl⟩
      · obtain ⟨p, hp, hc⟩ := List.mem_flatMap.mp hc
        exact ⟨p, hp, .head hc hq⟩
    · rintro ⟨p, hp, hq⟩
      rcases ReflTransGen.cases_head hq with rfl | ⟨c, hc, hq⟩
      · exact .inl hp
      · exact .inr ⟨c, List.mem_flatMap.mpr ⟨p, hp, hc⟩, hq⟩

theorem depth_of_mem_children (hk : ∀ p ∈ ps, p.depth = k) (hq : q ∈ ps.flatMap (·.children t)) :
    q.depth = k + 1 := by
  obtain ⟨p, hp, hq⟩ := List.mem_flatMap.mp hq
  rw [Path.Onward.depth hq, hk p hp]

theorem le_depth_of_mem_levelsTo (hk : ∀ p ∈ ps, p.depth = k) (hq : q ∈ t.levelsTo d ps) :
    k ≤ q.depth := by
  induction d generalizing ps k with
  | zero => exact absurd hq List.not_mem_nil
  | succ d ih =>
    rcases List.mem_append.mp hq with hq | hq
    · exact (hk q hq).ge
    · exact Nat.le_of_succ_le (ih (fun c hc => depth_of_mem_children hk hc) hq)

theorem nodup_flatMap_children (hn : ps.Nodup) : (ps.flatMap (·.children t)).Nodup := by
  refine List.nodup_flatMap.mpr ⟨fun p _ => p.nodup_children t, hn.imp ?_⟩
  intro p q hne c hc hc'
  exact hne (Path.Onward.unique hc hc')

theorem nodup_levelsTo (hk : ∀ p ∈ ps, p.depth = k) (hn : ps.Nodup) : (t.levelsTo d ps).Nodup := by
  induction d generalizing ps k with
  | zero => exact List.nodup_nil
  | succ d ih =>
    have hdepth : ∀ c ∈ ps.flatMap (·.children t), c.depth = k + 1 := fun c hc =>
      depth_of_mem_children hk hc
    refine List.nodup_append'.mpr ⟨hn, ih hdepth (nodup_flatMap_children hn), fun q hq hq' => ?_⟩
    have hle := le_depth_of_mem_levelsTo hdepth hq'
    rw [hk q hq] at hle
    exact Nat.not_succ_le_self k hle

theorem sorted_levelsTo (hk : ∀ p ∈ ps, p.depth = k) :
    (t.levelsTo d ps).Pairwise fun p q => p.depth ≤ q.depth := by
  induction d generalizing ps k with
  | zero => exact .nil
  | succ d ih =>
    have hdepth : ∀ c ∈ ps.flatMap (·.children t), c.depth = k + 1 := fun c hc =>
      depth_of_mem_children hk hc
    refine List.pairwise_append.mpr ⟨?_, ih hdepth, fun p hp q hq => ?_⟩
    · exact List.pairwise_of_forall_mem_list fun p hp q hq => ((hk p hp).trans (hk q hq).symm).le
    · rw [hk p hp]
      exact Nat.le_of_succ_le (le_depth_of_mem_levelsTo hdepth hq)

theorem filter_depth_eq_self (hk : ∀ p ∈ ps, p.depth = k) : ps.filter (·.depth = k) = ps :=
  List.filter_eq_self.mpr fun p hp => decide_eq_true (hk p hp)

theorem filter_depth_eq_nil (hk : ∀ p ∈ ps, p.depth ≠ n) : ps.filter (·.depth = n) = [] :=
  List.filter_eq_nil_iff.mpr fun p hp => by simpa using hk p hp

theorem first_levelsTo (hd : ∀ p ∈ ps, p.height t < d) (hk : ∀ p ∈ ps, p.depth = k) :
    (t.levelsTo d ps).filter (·.depth = k) = ps := by
  cases d with
  | zero => exact (List.eq_nil_iff_forall_not_mem.mpr fun p hp => Nat.not_lt_zero _ (hd p hp)).symm
  | succ d =>
    rw [levelsTo, List.filter_append, filter_depth_eq_self hk, filter_depth_eq_nil, List.append_nil]
    intro q hq
    exact (Nat.lt_of_succ_le (le_depth_of_mem_levelsTo (fun c hc => depth_of_mem_children hk hc) hq)).ne'

/-- Each level is made of the children of the one before, in its order. -/
theorem next_levelsTo (h : t.WellFormed) (hd : ∀ p ∈ ps, p.height t < d)
    (hk : ∀ p ∈ ps, p.depth = k) (hn : k ≤ n) :
    (t.levelsTo d ps).filter (·.depth = n + 1) =
      ((t.levelsTo d ps).filter (·.depth = n)).flatMap (·.children t) := by
  induction d generalizing ps k with
  | zero => rfl
  | succ d ih =>
    have hdepth : ∀ c ∈ ps.flatMap (·.children t), c.depth = k + 1 := fun c hc =>
      depth_of_mem_children hk hc
    have hnext : ∀ c ∈ ps.flatMap (·.children t), c.height t < d := fun c hc => by
      obtain ⟨p, hp, hc⟩ := List.mem_flatMap.mp hc
      exact (Path.Onward.height_lt h hc).trans_le (Nat.le_of_lt_succ (hd p hp))
    have apart : ∀ {m}, k < m → ps.filter (·.depth = m) = [] := fun hm =>
      filter_depth_eq_nil fun p hp => by
        rw [hk p hp]
        exact hm.ne
    rw [levelsTo, List.filter_append, List.filter_append, apart (Nat.lt_succ_of_le hn),
      List.nil_append]
    rcases hn.eq_or_lt with rfl | hlt
    · have later : (t.levelsTo d (ps.flatMap (·.children t))).filter (·.depth = k) = [] :=
        filter_depth_eq_nil fun q hq =>
          (Nat.lt_of_succ_le (le_depth_of_mem_levelsTo hdepth hq)).ne'
      rw [filter_depth_eq_self hk, later, first_levelsTo hnext hdepth, List.append_nil]
    · rw [apart hlt, List.nil_append]
      exact ih hnext hdepth hlt

end Levels

section LevelOrder

theorem height_lt_of_singleton (t : Tree) (p : Path) : ∀ q ∈ [p], q.height t < 2 * t.size + 3 :=
  fun q hq => by
    obtain rfl := List.mem_singleton.mp hq
    exact Nat.lt_succ_of_le (q.height_le t)

theorem depth_of_singleton (p : Path) : ∀ q ∈ [p], q.depth = p.depth := fun q hq => by
  obtain rfl := List.mem_singleton.mp hq
  rfl

theorem perm_levelOrder (h : t.WellFormed) (p : Path) : (t.levelOrder p).Perm (t.postOrder p) := by
  have hn : (t.levels p).Nodup := nodup_levelsTo (depth_of_singleton p) (List.nodup_singleton p)
  refine List.Perm.filter _ ((List.perm_ext_iff_of_nodup hn (nodup_paths h p)).mpr fun q => ?_)
  unfold levels
  rw [mem_levelsTo h (height_lt_of_singleton t p), mem_paths h]
  simp

theorem sorted_levelOrder (t : Tree) (p : Path) :
    (t.levelOrder p).Pairwise fun q r => q.depth ≤ r.depth :=
  (sorted_levelsTo (depth_of_singleton p)).filter _

theorem next_levelOrder (h : t.WellFormed) (hn : p.depth ≤ n) :
    (t.levelOrder p).filter (·.depth = n + 1) = ((t.levelOrder p).filter (·.depth = n)).flatMap
      fun q => (q.children t).filter fun c => !c.value.isNull := by
  have hnext := next_levelsTo h (height_lt_of_singleton t p) (depth_of_singleton p) hn
  unfold levelOrder levels
  rw [List.filter_comm, hnext, List.filter_flatMap, List.filter_comm]
  generalize (t.levelsTo (2 * t.size + 3) [p]).filter (·.depth = n) = ps
  -- empty slots have no children
  induction ps with
  | nil => rfl
  | cons q ps ih =>
    rw [List.flatMap_cons, ih, List.filter_cons]
    cases hv : q.value with
    | null => simp [Path.children_of_null hv, Ref.isNull]
    | list | node => simp [Ref.isNull]

end LevelOrder

end Tree

end ScriptFold

import ScriptFold.Proofs.Firing

/-!
No node that may be edited is shared. The members of a node are the nodes met below it, each as often
as it is met, without those that are frozen; the members of the program are pairwise different. A
change keeps that, since what it puts into the program was there before, in the place that is
rewritten, or is new.
-/

namespace ScriptFold

open Relation

namespace Tree

variable {t t' : Tree} {id c x y : NodeId} {ids : List NodeId}

def membersStep (t : Tree) (id : NodeId) (node : Node (List NodeId)) : List NodeId :=
  if t.isFrozen id then [] else id :: node.children.flatten

/-- The nodes within a node that are not frozen, as often as they are met there. -/
def members (t : Tree) : NodeId → List NodeId :=
  t.attr t.membersStep []

theorem members_of_frozen (wf : t.WellFormed) (hf : t.isFrozen id) : t.members id = [] := by
  unfold members
  rw [attr_eq wf, membersStep, if_pos hf]

theorem members_eq (wf : t.WellFormed) (hf : ¬ t.isFrozen id) :
    t.members id = id :: (t.node id).children.flatMap t.members := by
  rw [List.flatMap_def, ← Node.children_map]
  unfold members
  rw [attr_eq wf, membersStep, if_neg hf]

theorem members_congr (wf : t.WellFormed) (wf' : t'.WellFormed)
    (hnode : ∀ x, t.Within x id → t'.node x = t.node x)
    (hfrozen : ∀ x, t.Within x id → t'.isFrozen x = t.isFrozen x) :
    t'.members id = t.members id :=
  attr_congr wf wf' hnode fun x n hx => by
    unfold membersStep
    rw [hfrozen x hx]

theorem within_of_mem_members (wf : t.WellFormed) (h : y ∈ t.members id) : t.Within y id := by
  induction id using wf.acyclic.induction with
  | _ id ih =>
    by_cases hf : t.isFrozen id
    · rw [members_of_frozen wf hf] at h
      cases h
    · rw [members_eq wf hf, List.mem_cons, List.mem_flatMap] at h
      rcases h with rfl | ⟨c, hc, hy⟩
      · exact .refl
      · exact (ih c hc hy).tail hc

/-- How often a node is met below some nodes. -/
def occ (t : Tree) (y : NodeId) (ids : List NodeId) : Nat :=
  (ids.flatMap t.members).count y

@[simp] theorem occ_nil : t.occ y [] = 0 := rfl

theorem occ_cons (t : Tree) (y id : NodeId) (ids : List NodeId) :
    t.occ y (id :: ids) = (t.members id).count y + t.occ y ids := by
  rw [occ, List.flatMap_cons, List.count_append]
  rfl

@[simp] theorem occ_append {more : List NodeId} : t.occ y (ids ++ more) = t.occ y ids + t.occ y more := by
  rw [occ, List.flatMap_append, List.count_append]
  rfl

theorem occ_of_frozen (wf : t.WellFormed) (hf : t.isFrozen id) : t.occ y (id :: ids) = t.occ y ids := by
  rw [occ_cons, members_of_frozen wf hf]
  exact Nat.zero_add _

theorem count_members (wf : t.WellFormed) (hf : ¬ t.isFrozen id) :
    (t.members id).count y = (if id = y then 1 else 0) + t.occ y (t.node id).children := by
  rw [members_eq wf hf, List.count_cons, Nat.add_comm]
  simp only [beq_iff_eq]
  rfl

theorem occ_eq_zero (wf : t.WellFormed) (h : ∀ c ∈ ids, ¬ t.Within y c) : t.occ y ids = 0 := by
  refine List.count_eq_zero.mpr fun hy => ?_
  obtain ⟨c, hc, hy⟩ := List.mem_flatMap.mp hy
  exact h c hc (within_of_mem_members wf hy)

theorem occ_le_of_sublist {more : List NodeId} (h : ids.Sublist more) : t.occ y ids ≤ t.occ y more :=
  (h.flatMap t.members).count_le y

theorem occ_children_self (wf : t.WellFormed) : t.occ id (t.node id).children = 0 :=
  occ_eq_zero wf fun _ hc => wf.not_within_child hc

theorem count_members_self (wf : t.WellFormed) (hf : ¬ t.isFrozen id) : (t.members id).count id = 1 := by
  rw [count_members wf hf, if_pos rfl, occ_children_self wf]

/-- Rewriting a node takes the old members from every place where it is met, and puts the new ones
there. -/
theorem count_members_setNode {n : Node NodeId} (wf : t.WellFormed) (wf' : (t.setNode x n).WellFormed)
    (hx : x < t.size) (hf : ¬ t.isFrozen x) (z : NodeId) :
    ((t.setNode x n).members z).count y + (t.members z).count x * (t.members x).count y =
      (t.members z).count y + (t.members z).count x * ((t.setNode x n).members x).count y := by
  induction z using wf.acyclic.induction with
  | _ z ih =>
    by_cases hzx : z = x
    · subst hzx
      rw [count_members_self wf hf]
      omega
    · by_cases hfz : t.isFrozen z
      · rw [members_of_frozen wf hfz, members_of_frozen wf' (by rwa [isFrozen_setNode])]
        simp
      · have hfz' : ¬ (t.setNode x n).isFrozen z := by rwa [isFrozen_setNode]
        have hnode : (t.setNode x n).node z = t.node z := by rw [node_setNode hx, if_neg hzx]
        rw [count_members wf' hfz', hnode, count_members wf hfz, count_members wf hfz, if_neg hzx]
        have sum : ∀ cs : List NodeId, (∀ c ∈ cs, t.Child c z) →
            (t.setNode x n).occ y cs + t.occ x cs * (t.members x).count y =
              t.occ y cs + t.occ x cs * ((t.setNode x n).members x).count y := by
          intro cs
          induction cs with
          | nil => simp
          | cons c cs ihs =>
            intro hcs
            have hc := ih c (hcs c (by simp))
            have hrest := ihs fun d hd => hcs d (by simp [hd])
            simp only [occ_cons, Nat.add_mul]
            omega
        have hsum := sum _ fun c hc => hc
        rw [Nat.zero_add]
        omega

/-- Some nodes bring in nothing that is not met below others, but for a node that is not yet in the
program. -/
def Covers (t : Tree) (old new : List NodeId) : Prop :=
  ∀ y, t.occ y new ≤ t.occ y old ∨ t.Unused y ∧ t.occ y new ≤ 1

namespace Covers

variable {old new : List NodeId} {b : NodeId}

theorem of_le (h : ∀ y, t.occ y new ≤ t.occ y old) : t.Covers old new := fun y => .inl (h y)

theorem of_frozen (wf : t.WellFormed) (hf : t.isFrozen b) : t.Covers old [b] := .of_le fun y => by
  rw [occ_of_frozen wf hf]
  exact Nat.zero_le _

theorem of_new (wf : t.WellFormed) (hb : t.Unused b) (hf : ¬ t.isFrozen b)
    (h : t.Covers old (t.node b).children) : t.Covers old [b] := by
  intro y
  rw [occ_cons, occ_nil, Nat.add_zero, count_members wf hf]
  split
  · subst y
    exact .inr ⟨hb, by rw [occ_children_self wf]⟩
  · rw [Nat.zero_add]
    exact h y

theorem context (wf : t.WellFormed) (h : t.Covers old new) {l r : List NodeId}
    (hl : ∀ c ∈ l, t.Within c t.root) (hr : ∀ c ∈ r, t.Within c t.root) :
    t.Covers (l ++ old ++ r) (l ++ new ++ r) := by
  intro y
  simp only [occ_append]
  rcases h y with hle | ⟨hy, hle⟩
  · left
    omega
  · have none : ∀ cs : List NodeId, (∀ c ∈ cs, t.Within c t.root) → t.occ y cs = 0 := fun cs hcs =>
      occ_eq_zero wf fun c hc hw => hy (hw.trans (hcs c hc))
    rw [none l hl, none r hr]
    exact .inr ⟨hy, by omega⟩

end Covers

/-- No node that may be edited is met twice. -/
def Unshared (t : Tree) : Prop :=
  (t.members t.root).Nodup

/-- A change that brings in nothing but new nodes, each once, lets nothing be shared. -/
theorem Unshared.setNode {n : Node NodeId} (h : t.Unshared) (wf : t.WellFormed)
    (wf' : (t.setNode x n).WellFormed) (hx : x < t.size) (hf : ¬ t.isFrozen x)
    (hroot : (t.members t.root).count x = 1) (hapart : ∀ c ∈ n.children, ¬ t.Within x c)
    (hcovers : t.Covers (t.node x).children n.children) : (t.setNode x n).Unshared := by
  refine List.nodup_iff_count_le_one.mpr fun y => ?_
  have hold := List.nodup_iff_count_le_one.mp h y
  have hcount := count_members_setNode (y := y) wf wf' hx hf t.root
  have hf' : ¬ (t.setNode x n).isFrozen x := by rwa [isFrozen_setNode]
  have hnew : (t.setNode x n).occ y n.children = t.occ y n.children := by
    unfold occ
    refine congrArg (List.count y) (List.flatMap_congr fun c hc => ?_)
    refine members_congr wf wf' (fun z hz => ?_) fun z _ => isFrozen_setNode ..
    rw [node_setNode hx, if_neg]
    rintro rfl
    exact hapart c hc hz
  rw [hroot, count_members wf hf, count_members wf' hf', node_setNode hx, if_pos rfl, hnew] at hcount
  change ((t.setNode x n).members t.root).count y ≤ 1
  rcases hcovers y with hle | ⟨hy, hle⟩
  · omega
  · have hnone : (t.members t.root).count y = 0 :=
      List.count_eq_zero.mpr fun hmem => hy (within_of_mem_members wf hmem)
    omega

end Tree

end ScriptFold

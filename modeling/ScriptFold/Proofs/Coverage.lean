import ScriptFold.Proofs.Region

/-!
A walk that visits children before their parents misses nothing while the tree is edited. The stage
behind it may do what it likes to the slot it is handed, to what is below it and to what comes later in
the same list, as long as it answers an edit by `retry`. When such a walk ends, everything that is below
its start has been handed to the stage as it is, the stage did not ask for another walk of it, and
nothing in it was edited afterwards.
-/

namespace ScriptFold

/-- One call of a stage: the path that it was handed and the tree then, the answer and the tree after. -/
structure Call where
  path : Path
  before : Tree
  answer : Command
  after : Tree

/-- A state with the calls that were made to reach it. -/
structure Recorded (σ : Type) where
  state : σ
  calls : List Call

section

variable {ε σ : Type} [HasTree σ]

instance : HasTree (Recorded σ) where
  tree r := HasTree.tree r.state

def record (next : Next ε σ) : Next ε (Recorded σ) := fun p r =>
  match next p r.state with
  | .ok answer s =>
    .ok answer ⟨s, r.calls ++ [⟨p, HasTree.tree r.state, answer, HasTree.tree s⟩]⟩
  | .error e s => .error e ⟨s, r.calls⟩

end

namespace Call

/-- What a stage may do. It works on the tree by operations (`Tree.performAll_becomes`). An edit is
answered by `retry`; it stays in the slot, what is below it and what comes later in its list, and keeps
the shape of the tree. -/
structure Allowed (shape : Tree → Prop) (c : Call) : Prop where
  becomes : c.before.Becomes c.after
  retry : c.after.revision ≠ c.before.revision → c.answer.isRetry
  confined : ∀ {parent key value}, c.path = .child parent key value →
    Tree.ConfinedTo parent key c.before c.after
  shape : shape c.after

theorem Allowed.mono {shape shape' : Tree → Prop} {c : Call} (hsub : ∀ {t}, shape t → shape' t)
    (h : c.Allowed shape) : c.Allowed shape' where
  becomes := h.becomes
  retry := h.retry
  confined := h.confined
  shape := hsub h.shape

theorem Allowed.grows {shape : Tree → Prop} {c : Call} (h : c.Allowed shape)
    (hretry : c.answer.isRetry = false) :
    c.before.Grows c.after := by
  refine h.becomes.unedited (of_not_not fun hne => ?_)
  rw [h.retry hne] at hretry
  cases hretry

/-- A call is not about a path, and leaves what is at the path and below it as it is. -/
structure Spares (c : Call) (q : Path) : Prop where
  keys : c.path.keys ≠ q.keys
  before : q.Live c.before
  after : q.Live c.after
  node : ∀ {r : Path} {id}, q.Above r → r.Live c.before → r.node? = some id →
    c.after.node id = c.before.node id

end Call

/-- The last call about a path was about what the path finds, was not answered by `retry`, and nothing
at the path or below it has changed since. -/
def Settled (calls : List Call) (t : Tree) (q : Path) : Prop :=
  ∃ earlier last later, calls = earlier ++ last :: later ∧ last.path = q ∧
    last.answer.isRetry = false ∧ (∀ c ∈ later, c.Spares q) ∧
    ∀ {r : Path} {id}, q.Above r → r.Live t → r.node? = some id → t.node id = last.after.node id

/-- From states as `I` says, a stage does what a stage may do, and ends in such a state. -/
def Behaves {ε σ : Type} [HasTree σ] (shape : Tree → Prop) (I : σ → Prop) (next : Next ε σ) : Prop :=
  ∀ {p : Path} {s answer s'}, I s → shape (HasTree.tree s) → p.Live (HasTree.tree s) →
    p.value ≠ .null → next p s = .ok answer s' →
    I s' ∧ Call.Allowed shape ⟨p, HasTree.tree s, answer, HasTree.tree s'⟩

/-- A stage that keeps trees sealed is handed, from a sealed tree on, trees with one path to what may be
edited. -/
theorem Behaves.shaped {ε σ : Type} [HasTree σ] {I : σ → Prop} {next : Next ε σ}
    (h : Behaves Tree.Sealed I next) :
    Behaves Tree.Shaped (fun s => I s ∧ (HasTree.tree s).Sealed) next := by
  intro p s answer s' hs _ hp hv hrun
  obtain ⟨hI, hallowed⟩ := h hs.1 hs.2 hp hv hrun
  exact ⟨⟨hI, hallowed.shape⟩, hallowed.mono Tree.Sealed.shaped⟩

/-- A path with nothing of a region at it or below it. -/
def Apart (R : Path → Prop) (q : Path) : Prop :=
  ∀ r, q.Above r → ¬ R r

/-- Calls that lead from one tree to another, and touch nothing outside of a region. -/
structure Walked (R : Path → Prop) (t t' : Tree) (calls : List Call) : Prop where
  shaped : t'.Shaped
  live : ∀ {q}, ¬ R q → (q.Live t' ↔ q.Live t)
  fields : ∀ {q : Path} {id}, ¬ R q → q.Live t → q.node? = some id →
    (t'.node id).fields = (t.node id).fields
  kept : ∀ {q : Path} {id}, Apart R q → q.Live t → q.node? = some id → t'.node id = t.node id
  spares : ∀ {q}, Apart R q → q.Live t → ∀ c ∈ calls, c.Spares q

namespace Apart

variable {R R' : Path → Prop} {q r : Path}

theorem not_mem (h : Apart R q) : ¬ R q :=
  h q .refl

theorem below (h : Apart R q) (hr : q.Above r) : Apart R r := fun _ hr' => h _ (hr.trans hr')

theorem mono (hsub : ∀ r, R r → R' r) (h : Apart R' q) : Apart R q := fun r hr hR => h r hr (hsub r hR)

end Apart

namespace Walked

variable {R R' : Path → Prop} {t t₁ t' : Tree} {calls more : List Call} {q : Path}

theorem refl (h : t.Shaped) : Walked R t t [] :=
  ⟨h, fun _ => .rfl, fun _ _ _ => rfl, fun _ _ _ => rfl, fun _ _ _ hc => by cases hc⟩

theorem mono (h : Walked R t t' calls) (hsub : ∀ r, R r → R' r) : Walked R' t t' calls where
  shaped := h.shaped
  live hq := h.live fun hR => hq (hsub _ hR)
  fields hq := h.fields fun hR => hq (hsub _ hR)
  kept hq := h.kept (hq.mono hsub)
  spares hq := h.spares (hq.mono hsub)

theorem trans (h : Walked R t t₁ calls) (h' : Walked R t₁ t' more) :
    Walked R t t' (calls ++ more) where
  shaped := h'.shaped
  live hq := (h'.live hq).trans (h.live hq)
  fields hq hlive hid := (h'.fields hq ((h.live hq).mpr hlive) hid).trans (h.fields hq hlive hid)
  kept hq hlive hid :=
    (h'.kept hq ((h.live hq.not_mem).mpr hlive) hid).trans (h.kept hq hlive hid)
  spares hq hlive c hc := by
    rcases List.mem_append.mp hc with hc | hc
    · exact h.spares hq hlive c hc
    · exact h'.spares hq ((h.live hq.not_mem).mpr hlive) c hc

theorem call {c : Call} (h : c.Allowed Tree.Shaped) (hshaped : c.before.Shaped) (hp : c.path.Live c.before) :
    Walked c.path.Region c.before c.after [c] := by
  obtain ⟨p, before, answer, after⟩ := c
  cases p with
  | root value =>
    refine ⟨h.shape, fun hq => (hq trivial).elim, fun hq => (hq trivial).elim,
      fun hq => (hq.not_mem trivial).elim, fun hq => (hq.not_mem trivial).elim⟩
  | child parent key value =>
    have hconfined := h.confined rfl
    have live : ∀ {q}, ¬ parent.Through key q → (q.Live after ↔ q.Live before) :=
      hconfined.live_iff h.becomes hshaped hp.1
    have kept : ∀ {q : Path} {id}, Apart (parent.Through key) q → q.Live before →
        q.node? = some id → after.node id = before.node id := by
      intro q id hq hlive hid
      rcases hconfined.node_cases h.becomes hshaped hp.1 hlive hid hq.not_mem with
        hn | ⟨-, habove, -⟩
      · exact hn
      · -- the path of the call is below the owner of its slot
        exact absurd ⟨key, value, .self key, .refl⟩ (hq (.child parent key value) (.child habove))
    refine ⟨h.shape, live, fun {q id} hq hlive hid => ?_, kept, fun {q} hq hlive c hc => ?_⟩
    · rcases hconfined.node_cases h.becomes hshaped hp.1 hlive hid hq with hn | ⟨-, -, -, hassigned⟩
      · rw [hn]
      · exact hassigned.fields_eq
    · obtain rfl := List.mem_singleton.mp hc
      refine ⟨fun hkeys => ?_, hlive, (live hq.not_mem).mpr hlive, fun hr hlive' hid => ?_⟩
      · obtain rfl := hp.eq_of_keys hlive hkeys
        exact hq.not_mem ⟨key, value, .self key, .refl⟩
      · exact kept (hq.below hr) hlive' hid

theorem quiet {c : Call} (h : c.Allowed Tree.Shaped) (hshaped : c.before.Shaped) (hp : c.path.Live c.before)
    (hretry : c.answer.isRetry = false) : Walked (· = c.path) c.before c.after [c] := by
  have hgrows := h.grows hretry
  have kept : ∀ {q : Path} {id}, q.Live c.before → q.node? = some id →
      c.after.node id = c.before.node id := fun hq hid => hgrows.node (hshaped.closed hq hid)
  refine ⟨h.shape, fun _ => hgrows.live_iff hshaped, fun _ hq hid => by rw [kept hq hid],
    fun _ => kept, fun {q} hq hlive c' hc => ?_⟩
  obtain rfl := List.mem_singleton.mp hc
  refine ⟨fun hkeys => ?_, hlive, (hgrows.live_iff hshaped).mpr hlive, fun _ => kept⟩
  exact hq.not_mem (hp.eq_of_keys hlive hkeys).symm

end Walked

namespace Settled

variable {R : Path → Prop} {t t' : Tree} {calls more : List Call} {q : Path}

theorem before (h : Settled more t q) (calls : List Call) : Settled (calls ++ more) t q := by
  obtain ⟨earlier, last, later, rfl, hlast⟩ := h
  exact ⟨calls ++ earlier, last, later, (List.append_assoc ..).symm, hlast⟩

theorem after (h : Settled calls t q) (hw : Walked R t t' more) (hq : Apart R q)
    (hlive : q.Live t) : Settled (calls ++ more) t' q := by
  obtain ⟨earlier, last, later, rfl, hpath, hretry, hlater, hkept⟩ := h
  refine ⟨earlier, last, later ++ more, by simp, hpath, hretry, fun c hc => ?_,
    fun {r id} hr hlive' hid => ?_⟩
  · rcases List.mem_append.mp hc with hc | hc
    · exact hlater c hc
    · exact hw.spares hq hlive c hc
  · have hr' := hq.below hr
    have hrlive := (hw.live hr'.not_mem).mp hlive'
    exact (hw.kept hr' hrlive hid).trans (hkept hr hrlive hid)

theorem last {c : Call} (hretry : c.answer.isRetry = false) (calls : List Call) :
    Settled (calls ++ [c]) c.after c.path :=
  ⟨calls, c, [], rfl, rfl, hretry, fun c hc => (by cases hc), fun _ _ _ => rfl⟩

end Settled

section

variable {ε σ : Type}

/-- Where a step succeeds, its record succeeds with the same outcome, and a property holds of that and
of the calls made. -/
def Traced {α : Type} (m : WalkM ε σ α) (m' : WalkM ε (Recorded σ) α) (s : σ)
    (Q : α → σ → List Call → Prop) : Prop :=
  ∀ a s', m s = .ok a s' → ∀ earlier, ∃ calls,
    m' ⟨s, earlier⟩ = .ok a ⟨s', earlier ++ calls⟩ ∧ Q a s' calls

namespace Traced

variable {α β : Type} {m : WalkM ε σ α} {m' : WalkM ε (Recorded σ) α} {f : α → WalkM ε σ β}
  {f' : α → WalkM ε (Recorded σ) β} {s : σ} {a : α} {Q : α → σ → List Call → Prop}
  {R : β → σ → List Call → Prop}

theorem pure (h : Q a s []) : Traced (Pure.pure a : WalkM ε σ α) (Pure.pure a) s Q := by
  intro b s' hrun earlier
  cases hrun
  exact ⟨[], by rw [List.append_nil]; rfl, h⟩

theorem mono (h : Traced m m' s Q) {Q' : α → σ → List Call → Prop}
    (hQ : ∀ a s' calls, Q a s' calls → Q' a s' calls) : Traced m m' s Q' := by
  intro a s' hrun earlier
  obtain ⟨calls, hrun', hcalls⟩ := h a s' hrun earlier
  exact ⟨calls, hrun', hQ a s' calls hcalls⟩

theorem bind (h : Traced m m' s Q) (hf : ∀ a s' calls, Q a s' calls →
    Traced (f a) (f' a) s' fun b s'' more => R b s'' (calls ++ more)) :
    Traced (m >>= f) (m' >>= f') s R := by
  intro b s'' hrun earlier
  obtain ⟨a, s', hm, hfa⟩ := exists_run_of_bind hrun
  obtain ⟨calls, hm', hcalls⟩ := h a s' hm earlier
  obtain ⟨more, hfa', hR⟩ := hf a s' calls hcalls b s'' hfa (earlier ++ calls)
  refine ⟨calls ++ more, ?_, hR⟩
  change EStateM.bind m' f' _ = _
  rw [EStateM.bind, hm', ← List.append_assoc]
  exact hfa'

theorem throw (e : Halt ε) : Traced (MonadExcept.throw e : WalkM ε σ α) (MonadExcept.throw e) s Q := by
  intro a s' hrun
  cases hrun

variable [HasTree σ]

theorem read {f : Tree → WalkM ε σ β} {f' : Tree → WalkM ε (Recorded σ) β}
    (h : Traced (f (HasTree.tree s)) (f' (HasTree.tree s)) s R) :
    Traced (getTree >>= f) (getTree >>= f') s R :=
  h

theorem call {next : Next ε σ} {p : Path} {Q : Command → σ → List Call → Prop}
    (h : ∀ {answer s'}, next p s = .ok answer s' →
      Q answer s' [⟨p, HasTree.tree s, answer, HasTree.tree s'⟩]) :
    Traced (next p) (record next p) s Q := by
  intro answer s' hrun earlier
  refine ⟨_, ?_, h hrun⟩
  simp only [record, hrun]

end Traced

def Done (calls : List Call) (t : Tree) (q : Path) : Prop :=
  q.Live t → q.value ≠ .null → Settled calls t q

theorem Done.of_null {calls : List Call} {t : Tree} {p q : Path} (h : p.Above q)
    (hp : p.Live t → p.value = .null) : Done calls t q := fun hlive hne =>
  absurd (h.value_eq_null hlive (hp (h.live hlive))) hne

/-- What was settled in a slot is settled after the walk of another that does not reach it. -/
theorem Done.after {R : Path → Prop} {t t' : Tree} {calls more : List Call} {q : Path}
    (h : Done calls t q) (hw : Walked R t t' more) (hq : Apart R q) :
    Done (calls ++ more) t' q := by
  intro hlive hne
  have hlive₀ := (hw.live hq.not_mem).mp hlive
  exact (h hlive₀ hne).after hw hq hlive₀

theorem Done.before {t : Tree} {more : List Call} {q : Path} (h : Done more t q)
    (calls : List Call) : Done (calls ++ more) t q := fun hlive hne =>
  (h hlive hne).before calls

/-- Calls that touch nothing outside of a region, and settle all that is in it. -/
structure Settles (R : Path → Prop) (t t' : Tree) (calls : List Call) : Prop
    extends Walked R t t' calls where
  done : ∀ {q}, R q → Done calls t' q

variable [HasTree σ] {I : σ → Prop} {next : Next ε σ} {s : σ} {p : Path} {i : Nat} {fuel : Nat}

theorem Behaves.visit (h : Behaves Tree.Shaped I next) (hp : p.Live (HasTree.tree s)) (hv : p.value ≠ .null)
    {m : WalkM ε σ Unit} {m' : WalkM ε (Recorded σ) Unit}
    (hm : Traced m m' s fun _ s' calls =>
      I s' ∧ Settles p.Inside (HasTree.tree s) (HasTree.tree s') calls) :
    Traced (do m; next p) (do m'; record next p) s fun c s' calls => I s' ∧
      Walked p.Region (HasTree.tree s) (HasTree.tree s') calls ∧
        (c.isRetry = false → p.Live (HasTree.tree s') ∧
          ∀ q, p.Above q → Done calls (HasTree.tree s') q) := by
  refine hm.bind fun _ s₁ calls hbelow => Traced.call ?_
  intro answer s' hrun
  obtain ⟨hI, hw⟩ := hbelow
  have hp₁ : p.Live (HasTree.tree s₁) := (hw.live p.not_inside).mpr hp
  obtain ⟨hI', hallowed⟩ := h hI hw.shaped hp₁ hv hrun
  refine ⟨hI', (hw.mono fun _ => Path.Inside.region).trans (.call hallowed hw.shaped hp₁),
    fun hc => ?_⟩
  have hlive := fun {q} => (hallowed.grows hc).live_iff hw.shaped (q := q)
  refine ⟨hlive.mpr hp₁, fun q hq => ?_⟩
  rcases hq.eq_or_inside with rfl | hinside
  · exact fun _ _ => .last hc calls
  · intro hq' hne
    have hq₁ := hlive.mp hq'
    refine (hw.done hinside hq₁ hne).after (.quiet hallowed hw.shaped hp₁ hc) ?_ hq₁
    rintro r hr rfl
    obtain ⟨key, value, habove⟩ := hinside
    exact Path.Above.refl.not_child (habove.trans hr)

/-- With a given fuel, all that is walked is settled when its walk ends. -/
structure Covering (I : σ → Prop) (next : Next ε σ) (fuel : Nat) : Prop where
  descend : ∀ {s : σ} {p : Path}, I s → (HasTree.tree s).Shaped → p.Live (HasTree.tree s) →
    Traced (descend next fuel p) (descend (record next) fuel p) s fun c s' calls => I s' ∧
      Walked p.Region (HasTree.tree s) (HasTree.tree s') calls ∧
        (c.isRetry = false → p.Live (HasTree.tree s') ∧
          ∀ q, p.Above q → Done calls (HasTree.tree s') q)
  settle : ∀ {s : σ} {p : Path} {key}, I s → (HasTree.tree s).Shaped → p.Live (HasTree.tree s) →
    Traced (settle next fuel p key) (settle (record next) fuel p key) s fun _ s' calls => I s' ∧
      Walked (p.Through key) (HasTree.tree s) (HasTree.tree s') calls ∧
        ∀ {value q}, (Path.child p key value).Above q → Done calls (HasTree.tree s') q
  items : ∀ {s : σ} {p : Path} {i}, I s → (HasTree.tree s).Shaped → p.Live (HasTree.tree s) →
    Traced (settleItems next fuel p i) (settleItems (record next) fuel p i) s fun _ s' calls =>
      I s' ∧ Settles (p.Through (.index i)) (HasTree.tree s) (HasTree.tree s') calls

namespace Covering

variable {id : NodeId}

/-- The slots of a node do not reach each other. -/
theorem apart_of_field {fields : List Field} {f : Field} {value : Ref} {q : Path} (hf : f ∉ fields)
    (hq : (Path.child p (.field f) value).Above q) :
    Apart (fun r => ∃ g ∈ fields, p.Through (.field g) r) q := by
  rintro r hr ⟨g, hg, key, value', hkey, hthrough⟩
  cases hkey
  cases Path.key_eq_of_above (hq.trans hr) hthrough
  exact hf hg

theorem apart_of_index {j : Nat} {value : Ref} {q : Path} (hj : j < i)
    (hq : (Path.child p (.index j) value).Above q) : Apart (p.Through (.index i)) q := by
  rintro r hr ⟨key, value', hkey, hthrough⟩
  obtain ⟨k, rfl, hk⟩ := hkey.exists_index
  cases Path.key_eq_of_above (hq.trans hr) hthrough
  omega

theorem forM (h : Covering I next fuel) (fields : List Field) (hI : I s)
    (hs : (HasTree.tree s).Shaped)
    (hp : p.Live (HasTree.tree s)) :
    Traced (fields.forM fun f => ScriptFold.settle next fuel p (.field f))
      (fields.forM fun f => ScriptFold.settle (record next) fuel p (.field f)) s
      fun _ s' calls => I s' ∧ Settles (fun r => ∃ f ∈ fields, p.Through (.field f) r)
        (HasTree.tree s) (HasTree.tree s') calls := by
  induction fields generalizing s with
  | nil =>
    refine .pure ⟨hI, .refl hs, fun hq => ?_⟩
    obtain ⟨f, hf, -⟩ := hq
    cases hf
  | cons f fields ih =>
    refine (h.settle hI hs hp).bind fun _ s₁ calls hfirst => ?_
    obtain ⟨hI₁, hw, hdone⟩ := hfirst
    have hp₁ : p.Live (HasTree.tree s₁) := (hw.live (Path.not_through .refl)).mpr hp
    refine (ih hI₁ hw.shaped hp₁).mono fun _ s₂ more hafter => ?_
    obtain ⟨hI₂, hrest⟩ := hafter
    refine ⟨hI₂, (hw.mono fun r hr => ?_).trans (hrest.mono fun r hr => ?_), fun {q} hq => ?_⟩
    · exact ⟨f, List.mem_cons_self, hr⟩
    · obtain ⟨g, hg, hr⟩ := hr
      exact ⟨g, List.mem_cons_of_mem f hg, hr⟩
    · obtain ⟨g, hg, key, value, hkey, hq⟩ := hq
      by_cases hg' : g ∈ fields
      · exact (hrest.done ⟨g, hg', key, value, hkey, hq⟩).before calls
      · obtain rfl := (List.mem_cons.mp hg).resolve_right hg'
        cases hkey
        exact (hdone hq).after hrest.toWalked (apart_of_field hg' hq)

theorem fields (h : Covering I next fuel) (hI : I s) (hs : (HasTree.tree s).Shaped)
    (hp : p.Live (HasTree.tree s)) (hid : p.value = .node id) :
    Traced (walkFields next fuel p id) (walkFields (record next) fuel p id) s fun _ s' calls =>
      I s' ∧ Settles p.Inside (HasTree.tree s) (HasTree.tree s') calls := by
  refine .read ((h.forM _ hI hs hp).mono fun _ s' calls hfields => ?_)
  obtain ⟨hI', hw⟩ := hfields
  refine ⟨hI', hw.mono fun r hr => ?_, fun hq => ?_⟩
  · obtain ⟨f, -, key, value, -, hr⟩ := hr
    exact ⟨key, value, hr⟩
  · obtain ⟨key, value, hq⟩ := hq
    cases key with
    | index i =>
      refine .of_null hq fun hlive => ?_
      exact hlive.2.trans (by rw [hid]; rfl)
    | field f =>
      by_cases hf : f ∈ ((HasTree.tree s).node id).fields
      · exact hw.done ⟨f, hf, .field f, value, .self _, hq⟩
      · -- the node may have been edited since, but has the same fields
        have hnode : p.node? = some id := by
          rw [Path.node?, hid]
          rfl
        have hout : ¬ ∃ f ∈ ((HasTree.tree s).node id).fields, p.Through (.field f) p := by
          rintro ⟨f, -, hthrough⟩
          exact Path.not_through .refl hthrough
        have hsame := hw.fields hout hp hnode
        refine .of_null hq fun hlive => hlive.2.trans ?_
        rw [hid]
        simp only [Tree.read, Tree.slot?_of_not_mem (hsame ▸ hf)]

theorem list (h : Covering I next fuel) {owner : NodeId} {f : Field} (hI : I s)
    (hs : (HasTree.tree s).Shaped) (hp : p.Live (HasTree.tree s)) (hv : p.value = .list owner f) :
    Traced (settleItems next fuel p 0) (settleItems (record next) fuel p 0) s fun _ s' calls =>
      I s' ∧ Settles p.Inside (HasTree.tree s) (HasTree.tree s') calls := by
  refine (h.items hI hs hp).mono fun _ s' calls hitems => ?_
  obtain ⟨hI', hw⟩ := hitems
  refine ⟨hI', hw.mono fun r hr => ?_, fun hq => ?_⟩
  · obtain ⟨key, value, -, hr⟩ := hr
    exact ⟨key, value, hr⟩
  · obtain ⟨key, value, hq⟩ := hq
    cases key with
    | index j => exact hw.done ⟨.index j, value, .later (Nat.zero_le j), hq⟩
    | field g =>
      refine .of_null hq fun hlive => ?_
      exact hlive.2.trans (by rw [hv]; rfl)

end Covering

theorem Behaves.covering (h : Behaves Tree.Shaped I next) (fuel : Nat) : Covering I next fuel := by
  induction fuel with
  | zero =>
    refine ⟨fun {s p} _ _ _ => ?_, fun {s p key} _ _ _ => ?_, fun {s p i} _ _ _ => ?_⟩
    · rw [descend, descend]
      exact .throw _
    · rw [settle, settle]
      exact .throw _
    · rw [settleItems, settleItems]
      exact .throw _
  | succ fuel ih =>
    refine ⟨fun {s p} hI hs hp => ?_, fun {s p key} hI hs hp => ?_, fun {s p i} hI hs hp => ?_⟩
    · cases hv : p.value with
      | null =>
        rw [descend_null hv, descend_null hv]
        exact .pure ⟨hI, .refl hs, fun _ => ⟨hp, fun q hq => .of_null hq fun _ => hv⟩⟩
      | node id =>
        rw [descend_node hv, descend_node hv]
        exact h.visit hp (by rw [hv]; exact Ref.noConfusion) (ih.fields hI hs hp hv)
      | list owner f =>
        rw [descend_list hv, descend_list hv]
        exact h.visit hp (by rw [hv]; exact Ref.noConfusion) (ih.list hI hs hp hv)
    · rw [settle, settle]
      have hchild : (p.step (HasTree.tree s) key).Live (HasTree.tree s) := ⟨hp, rfl⟩
      refine .read ((ih.descend hI hs hchild).bind fun c s₁ calls honce => ?_)
      obtain ⟨hI₁, hw, hdone⟩ := honce
      cases hc : c.isRetry with
      | true =>
        have hp₁ : p.Live (HasTree.tree s₁) := (hw.live (Path.not_through .refl)).mpr hp
        refine (ih.settle hI₁ hw.shaped hp₁).mono fun _ s₂ more hagain => ?_
        obtain ⟨hI₂, hw', hdone'⟩ := hagain
        exact ⟨hI₂, hw.trans hw', fun hq => (hdone' hq).before calls⟩
      | false =>
        refine .pure ?_
        rw [List.append_nil]
        refine ⟨hI₁, hw, fun {value q} hq hlive hne => ?_⟩
        obtain ⟨hchild₁, hbelow⟩ := hdone hc
        -- the slot still holds what was walked
        have hvalue : value = (HasTree.tree s).read p.value key :=
          (hq.live hlive).2.trans hchild₁.2.symm
        rw [hvalue] at hq
        exact hbelow q hq hlive hne
    · rw [settleItems, settleItems]
      refine .read ?_
      split
      · refine (ih.settle hI hs hp).bind fun _ s₁ calls hfirst => ?_
        obtain ⟨hI₁, hw, hdone⟩ := hfirst
        have hp₁ : p.Live (HasTree.tree s₁) := (hw.live (Path.not_through .refl)).mpr hp
        refine (ih.items hI₁ hw.shaped hp₁).mono fun _ s₂ more hafter => ?_
        obtain ⟨hI₂, hrest⟩ := hafter
        refine ⟨hI₂, hw.trans (hrest.mono fun r hr => ?_), fun hq => ?_⟩
        · obtain ⟨key, value, hkey, hr⟩ := hr
          obtain ⟨j, rfl, hj⟩ := hkey.exists_index
          exact ⟨.index j, value, .later (Nat.le_of_succ_le hj), hr⟩
        · obtain ⟨key, value, hkey, hq⟩ := hq
          obtain ⟨j, rfl, hj⟩ := hkey.exists_index
          rcases hj.eq_or_lt with rfl | hj
          · exact (hdone hq).after hrest.toWalked (Covering.apart_of_index (Nat.lt_succ_self i) hq)
          · exact (hrest.done ⟨.index j, value, .later hj, hq⟩).before calls
      · rename_i hi
        refine .pure ⟨hI, .refl hs, fun hq => ?_⟩
        obtain ⟨key, value, hkey, hq⟩ := hq
        obtain ⟨j, rfl, hj⟩ := hkey.exists_index
        refine .of_null hq fun hlive => ?_
        exact hlive.2.trans (Tree.read_of_length_le (by omega))

end

section

variable {ε σ : Type} [HasTree σ] {I : σ → Prop} {next : Next ε σ} {fuel : Nat}

/-- A walk that ends, and does not ask for another itself, has missed nothing. All that its start
leads to then was handed to the stage as it is, was not answered by `retry` the last time, and has
not been edited since. -/
theorem descend_settles {s s' : σ} {start : Path} {c : Command} (h : Behaves Tree.Sealed I next)
    (hI : I s) (hs : (HasTree.tree s).Sealed) (hstart : start.Live (HasTree.tree s))
    (hrun : descend next fuel start s = .ok c s') (hc : c.isRetry = false) :
    ∃ calls, descend (record next) fuel start ⟨s, []⟩ = .ok c ⟨s', calls⟩ ∧
      ∀ q, start.Above q → q.Live (HasTree.tree s') → q.value ≠ .null →
        Settled calls (HasTree.tree s') q := by
  have hcovering := Behaves.covering h.shaped fuel
  obtain ⟨calls, hrun', -, -, hdone⟩ :=
    hcovering.descend ⟨hI, hs⟩ hs.shaped hstart c s' hrun []
  exact ⟨calls, hrun', (hdone hc).2⟩

end

section

variable {t t' : Tree} {p : Path}

/-- A stage may leave the tree alone, whatever it answers. -/
theorem Call.Allowed.same {shape : Tree → Prop} (h : shape t) (p : Path) (answer : Command) :
    Call.Allowed shape ⟨p, t, answer, t⟩ where
  becomes := .refl t
  retry hne := absurd rfl hne
  confined _ := .refl ..
  shape := h

theorem Call.Allowed.remove (hs : t.Sealed) (hi : p.index?.isSome) (h : t.remove p = .ok t') :
    Call.Allowed Tree.Sealed ⟨p, t, .retry (p.refresh t'), t'⟩ where
  becomes := Tree.remove_becomes h
  retry _ := rfl
  confined {parent key value} hp := by
    obtain rfl : p = .child parent key value := hp
    obtain ⟨⟨b, t₁⟩, hw, heq⟩ := Tree.exists_of_bind h
    cases heq
    exact .of_write hw
  shape := by
    cases p with
    | root => cases hi
    | child parent key value =>
      cases key with
      | field => cases hi
      | index i =>
        obtain ⟨⟨b, t₁⟩, hw, heq⟩ := Tree.exists_of_bind h
        cases heq
        exact (Tree.Thins.of_write hw).sealed hs

theorem Call.Allowed.truncate {list : Path} {i : Nat} {value : Ref} {b : Bool} (hs : t.Sealed)
    (h : t.truncate list.value (i + 1) = .ok (b, t')) :
    Call.Allowed Tree.Sealed ⟨.child list (.index i) value, t,
      .retry ((Path.child list (.index i) value).refresh t'), t'⟩ where
  becomes := Tree.truncate_becomes h
  retry _ := rfl
  confined {parent key value'} hp := by
    cases hp
    exact .of_truncate (Nat.le_succ i) h
  shape := (Tree.Thins.of_truncate h).sealed hs

instance : HasTree Tree where
  tree t := t

/-- A stage that takes empty statements out of lists, and what comes after a `return`. -/
def dropDead : Next TreeError Tree := fun p t =>
  match p, p.node?.map t.node with
  | .child _ (.index _) _, some .emptyStatement =>
    match t.remove p with
    | .ok t' => .ok (.retry (p.refresh t')) t'
    | .error e => .error (.error e) t
  | .child list (.index i) _, some (.returnStatement _) =>
    match t.truncate list.value (i + 1) with
    | .ok (true, t') => .ok (.retry (p.refresh t')) t'
    | .ok (false, _) => .ok .proceed t
    | .error e => .error (.error e) t
  | _, _ => .ok .proceed t

theorem behaves_dropDead : Behaves Tree.Sealed (fun _ => True) dropDead := by
  intro p t answer t' _ hs _ _ hrun
  refine ⟨trivial, ?_⟩
  unfold dropDead at hrun
  split at hrun
  · split at hrun
    · cases hrun
      exact .remove hs rfl ‹_›
    · cases hrun
  · split at hrun
    · cases hrun
      exact .truncate hs ‹_›
    · cases hrun
      exact .same hs _ _
    · cases hrun
  · cases hrun
    exact .same hs _ _

end

/-- The program `;return;a;`. The walk takes its first statement away, and what comes after the second
when that has moved to its place. -/
def Json.programEmptyReturn : Json :=
  .obj [("type", .str "Program"), ("body", .arr [.obj [("type", .str "EmptyStatement")],
    .obj [("type", .str "ReturnStatement"), ("argument", .null)],
    .obj [("type", .str "ExpressionStatement"),
      ("expression", .obj [("type", .str "Identifier"), ("name", .str "a")])]])]

theorem Json.finite_programEmptyReturn : programEmptyReturn.Finite := by
  simp [programEmptyReturn, Json.Finite, Json.FiniteMembers, Json.FiniteItems]

theorem descend_settles_dropDead : ∃ t, Tree.ofJson .programEmptyReturn = .ok t ∧ ∃ t',
    descend dropDead 100 (.root (.node t.root)) t = .ok .proceed t' ∧
      t'.revision = t.revision + 2 ∧ ∃ calls,
        descend (record dropDead) 100 (.root (.node t.root)) ⟨t, []⟩ = .ok .proceed ⟨t', calls⟩ ∧
        ∀ q, (Path.root (.node t.root)).Above q → q.Live t' → q.value ≠ .null →
          Settled calls t' q :=
  ⟨_, rfl, _, rfl, rfl, descend_settles behaves_dropDead trivial
    (Tree.sealed_ofJson Json.finite_programEmptyReturn rfl) rfl rfl rfl⟩

/-- The program `!void a; !void a;`, in which one node stands for `!void a` twice. That node is frozen,
what is below it is not. -/
def Tree.sharedNot : Tree where
  cells := #[⟨.program [], {}⟩, ⟨.identifier "a", {}⟩, ⟨.identifier "b", {}⟩,
    ⟨.unaryExpression .void 1, {}⟩, ⟨.unaryExpression .not 3, { frozen := true }⟩,
    ⟨.expressionStatement 4 none, {}⟩, ⟨.expressionStatement 4 none, {}⟩, ⟨.program [5, 6], {}⟩]
  root := 7
  revision := 1

example : Tree.empty.performAll [.alloc (.identifier "a") {}, .alloc (.identifier "b") {},
    .alloc (.unaryExpression .void 1) {}, .alloc (.unaryExpression .not 3) { frozen := true },
    .alloc (.expressionStatement 4 none) {}, .alloc (.expressionStatement 4 none) {},
    .alloc (.program [5, 6]) {}, .setRoot 7] = .sharedNot := by
  decide

def Tree.sharedNot' : Tree where
  cells := #[⟨.program [], {}⟩, ⟨.identifier "a", {}⟩, ⟨.identifier "b", {}⟩,
    ⟨.unaryExpression .void 2, {}⟩, ⟨.unaryExpression .not 3, { frozen := true }⟩,
    ⟨.expressionStatement 4 none, {}⟩, ⟨.expressionStatement 4 none, {}⟩, ⟨.program [5, 6], {}⟩]
  root := 7
  revision := 2

theorem Tree.oneSlot_sharedNot : sharedNot.OneSlot ∧ sharedNot'.OneSlot :=
  ⟨.of_ordered (by decide) (by decide) (by decide), .of_ordered (by decide) (by decide) (by decide)⟩

def argumentKeys (i : Nat) : List Key :=
  [.field .body, .index i, .field .expression, .field .argument, .field .argument]

/-- A stage that writes `b` where it finds `a` below the second statement. -/
def renameSecond : Next TreeError Tree := fun p t =>
  if p.keys = argumentKeys 1 ∧ p.value = .node 1 then
    match t.replace p 2 with
    | .ok (p', t') => .ok (.retry p') t'
    | .error e => .error (.error e) t
  else .ok .proceed t

theorem renameSecond_cases {p : Path} {t t' : Tree} {answer : Command}
    (ht : t = .sharedNot ∨ t = .sharedNot') (hp : p.Live t) (hrun : renameSecond p t = .ok answer t') :
    t = .sharedNot ∧ p = (Path.ofNode 7).get .sharedNot (argumentKeys 1) ∧ answer.isRetry ∧
      t' = .sharedNot' ∨ t' = t ∧ answer = .proceed := by
  unfold renameSecond at hrun
  split at hrun
  · rename_i hfirst
    obtain ⟨hkeys, hvalue⟩ := hfirst
    rcases ht with rfl | rfl
    · obtain rfl := hp.eq_of_keys (q := (Path.ofNode 7).get .sharedNot (argumentKeys 1))
        ((Path.live_ofNode _).get _) hkeys
      cases hrun
      exact .inl ⟨rfl, rfl, rfl, rfl⟩
    · -- there `b` stands already
      obtain rfl := hp.eq_of_keys (q := (Path.ofNode 7).get .sharedNot' (argumentKeys 1))
        ((Path.live_ofNode _).get _) hkeys
      exact absurd hvalue (by decide)
  · cases hrun
    exact .inr ⟨rfl, rfl⟩

theorem behaves_renameSecond :
    Behaves Tree.OneSlot (fun t => t = .sharedNot ∨ t = .sharedNot') renameSecond := by
  intro p t answer t' hI ht hp _ hrun
  obtain ⟨rfl, rfl, hretry, rfl⟩ | ⟨rfl, rfl⟩ := renameSecond_cases hI hp hrun
  · refine ⟨.inr rfl, ?_, fun _ => hretry, fun {parent key value} hpath => ?_,
      Tree.oneSlot_sharedNot.2⟩
    · have hreplace : Tree.sharedNot.replace ((Path.ofNode 7).get .sharedNot (argumentKeys 1)) 2 =
          .ok (_, .sharedNot') := rfl
      exact Tree.replace_becomes hreplace
    · cases hpath
      exact .of_write (show Tree.sharedNot.write _ _ (some 2) = .ok (true, .sharedNot') from rfl)
  · exact ⟨hI, .same ht _ _⟩

/-- What is below `void` in the first statement after the edit. -/
def missed : Path :=
  (Path.ofNode 7).get .sharedNot' (argumentKeys 0)

theorem exists_of_run' {ε σ α β : Type} {m : EStateM ε σ α} (f : α → σ → β) {s : σ} {b : β}
    (h : (m >>= fun a => f a <$> get : EStateM ε σ β).run' s = some b) :
    ∃ a s', m s = .ok a s' ∧ f a s' = b := by
  have hbind : (m >>= fun a => f a <$> get : EStateM ε σ β) s =
      EStateM.bind m (fun a => f a <$> get) s := rfl
  rw [EStateM.run', EStateM.run, hbind, EStateM.bind] at h
  cases hm : m s with
  | ok a s' =>
    rw [hm] at h
    exact ⟨a, s', rfl, Option.some.inj h⟩
  | error e s' =>
    rw [hm] at h
    cases h

theorem renameSecond_calls : ∃ calls,
    descend (record renameSecond) 100 (.ofNode 7) ⟨.sharedNot, []⟩ = .ok .proceed ⟨.sharedNot', calls⟩ ∧
      ∀ call ∈ calls, call.path ≠ missed := by
  obtain ⟨answer, ⟨t, calls⟩, hrun, hanswer⟩ := exists_of_run'
    (m := descend (record renameSecond) 100 (.ofNode 7)) (s := ⟨.sharedNot, []⟩)
    (fun answer r => (answer, r.state, decide (∀ call ∈ r.calls, call.path ≠ missed)))
    (b := (.proceed, .sharedNot', true)) (by decide +kernel)
  simp only [Prod.mk.injEq, decide_eq_true_eq] at hanswer
  obtain ⟨rfl, rfl, hmissed⟩ := hanswer
  exact ⟨calls, hrun, hmissed⟩

/-- Without the condition on frozen nodes a walk may miss something: what is below the first statement
was handed to the stage before the edit, which changed it, and is not handed to it again. -/
theorem descend_misses_renameSecond :
    Tree.sharedNot.OneSlot ∧
    Behaves Tree.OneSlot (fun t => t = .sharedNot ∨ t = .sharedNot') renameSecond ∧
    (∀ p t answer t', (t = .sharedNot ∨ t = .sharedNot') → p.Live t →
      renameSecond p t = .ok answer t' → (answer.isRetry ↔ t'.revision ≠ t.revision)) ∧
    descend renameSecond 100 (.ofNode 7) .sharedNot = .ok .proceed .sharedNot' ∧
    ∃ calls, descend (record renameSecond) 100 (.ofNode 7) ⟨.sharedNot, []⟩ =
        .ok .proceed ⟨.sharedNot', calls⟩ ∧
      ∃ q, (Path.ofNode 7).Above q ∧ q.Live .sharedNot' ∧ q.value = .node 2 ∧
        (∀ call ∈ calls, call.path ≠ q) ∧ ¬ Settled calls .sharedNot' q := by
  refine ⟨Tree.oneSlot_sharedNot.1, behaves_renameSecond, fun p t answer t' ht hp hrun => ?_, rfl, ?_⟩
  · obtain ⟨rfl, -, hretry, rfl⟩ | ⟨rfl, rfl⟩ := renameSecond_cases ht hp hrun
    · exact iff_of_true hretry (by decide)
    · exact iff_of_false (by decide) (by simp)
  obtain ⟨calls, hrun, hmissed⟩ := renameSecond_calls
  refine ⟨calls, hrun, missed, .child (.child (.child (.child (.child .refl)))),
    (Path.live_ofNode _).get _, rfl, hmissed, ?_⟩
  rintro ⟨earlier, last, later, rfl, hpath, -⟩
  exact hmissed last (by simp) hpath

end ScriptFold

import ScriptFold.Fold.State
import ScriptFold.Proofs.Intern

/-!
Steps that only add. A store gains where nodes are added to its tree and its pool remembers more of them;
all that was there is as it was. So does whoever asks for the node of a value, also where in the end there
is none.
-/

namespace ScriptFold

/-- An entry of a pool is what it was, or there was none and it now is a node added since. -/
def Tree.Fills (t : Tree) (old new : Option NodeId) : Prop :=
  new = old ∨ old = none ∧ ∃ id, new = some id ∧ t.size ≤ id

/-- One store is another with more nodes. Its pool knows the same of the old ones, and all it has gained
are new ones. -/
structure Store.Gains (s s' : Store) : Prop extends s.Grows s' where
  interned : ∀ c : Constant, s.tree.Fills s.pool.interned[c]? s'.pool.interned[c]?
  undefined : s.tree.Fills s.pool.undefined s'.pool.undefined
  nan : s.tree.Fills s.pool.nan s'.pool.nan
  emptyStatement : s.tree.Fills s.pool.emptyStatement s'.pool.emptyStatement
  minifiedTrue : s.tree.Fills s.pool.minifiedTrue s'.pool.minifiedTrue
  minifiedFalse : s.tree.Fills s.pool.minifiedFalse s'.pool.minifiedFalse

namespace Tree.Fills

variable {t t' : Tree} {old mid new : Option NodeId}

theorem refl (t : Tree) (old : Option NodeId) : t.Fills old old :=
  .inl rfl

theorem trans (h : t.Fills old mid) (hsize : t.size ≤ t'.size) (h' : t'.Fills mid new) :
    t.Fills old new := by
  rcases h' with rfl | ⟨rfl, id, rfl, hid⟩
  · exact h
  · rcases h with rfl | ⟨-, id', hmid, -⟩
    · exact .inr ⟨rfl, id, rfl, hsize.trans hid⟩
    · cases hmid

theorem supply {id : NodeId} (hold : old = none) (hid : t.size ≤ id) : t.Fills old (some id) :=
  .inr ⟨hold, id, rfl, hid⟩

end Tree.Fills

namespace Store.Gains

variable {s s' s'' : Store} {c : Constant} {node : Node NodeId}

theorem refl (s : Store) : s.Gains s where
  toGrows := .refl s
  interned _ := .refl _ _
  undefined := .refl _ _
  nan := .refl _ _
  emptyStatement := .refl _ _
  minifiedTrue := .refl _ _
  minifiedFalse := .refl _ _

theorem trans (h : s.Gains s') (h' : s'.Gains s'') : s.Gains s'' where
  toGrows := h.toGrows.trans h'.toGrows
  interned c := (h.interned c).trans h.tree.size (h'.interned c)
  undefined := h.undefined.trans h.tree.size h'.undefined
  nan := h.nan.trans h.tree.size h'.nan
  emptyStatement := h.emptyStatement.trans h.tree.size h'.emptyStatement
  minifiedTrue := h.minifiedTrue.trans h.tree.size h'.minifiedTrue
  minifiedFalse := h.minifiedFalse.trans h.tree.size h'.minifiedFalse

theorem alloc (s : Store) (node : Node NodeId) (flags : Flags) :
    s.Gains { s with tree := (s.tree.alloc node flags).2 } :=
  { refl s with toGrows := grows_alloc s node flags }

theorem freeze (s : Store) (node : Node NodeId) (value : Option Value) (minified : Bool) :
    s.Gains (s.freeze node value minified).2 := by
  cases value with
  | none => exact alloc s node _
  | some v =>
    refine { refl s with tree := ?_, values := fun hid => ?_ }
    · exact Tree.Grows.alloc s.tree node _
    · rw [values_freeze, if_neg hid.ne]

theorem addConstant (h : s.Gains s') (hc : s.pool.interned[c]? = none) (node : Node NodeId) :
    s.Gains (s'.addConstant c node).2 := by
  have hfreeze := h.trans (freeze s' node (some c.value) false)
  refine { hfreeze with values := hfreeze.values, interned := fun c' => ?_ }
  change s.tree.Fills _ ((Std.HashMap.insert _ c _)[c']?)
  rw [Std.HashMap.getElem?_insert]
  split
  · obtain rfl : c = c' := by simpa using ‹(c == c') = true›
    exact .supply hc h.tree.size
  · exact hfreeze.interned c'

theorem internLiteral (s : Store) (c : Constant) : s.Gains (s.internLiteral c).2 := by
  unfold Store.internLiteral
  split
  · exact refl s
  · exact (refl s).addConstant ‹_› _

theorem intern (s : Store) (c : Constant) : s.Gains (s.intern c).2 := by
  unfold Store.intern
  split
  · split
    · exact refl s
    · exact (internLiteral s _).addConstant ‹_› _
  · exact internLiteral s c

theorem undefinedNode (s : Store) : s.Gains s.undefined.2 := by
  unfold Store.undefined
  split
  · exact refl s
  · have hzero := intern s (.number (0 : Float).toBits)
    have h := hzero.trans (freeze s.zero.2 (.unaryExpression .void s.zero.1) (some .undefined) false)
    exact { h with values := h.values, undefined := .supply ‹_› hzero.tree.size }

theorem nanNode (s : Store) : s.Gains (Store.nan s).2 := by
  unfold Store.nan
  split
  · exact refl s
  · have hzero := intern s (.number (0 : Float).toBits)
    have h := hzero.trans (freeze s.zero.2 (.binaryExpression .div s.zero.1 s.zero.1)
      (some (.number (0 / 0))) false)
    exact { h with values := h.values, nan := .supply ‹_› hzero.tree.size }

theorem emptyStatementNode (s : Store) : s.Gains (Store.emptyStatement s).2 := by
  unfold Store.emptyStatement
  split
  · exact refl s
  · have h := freeze s .emptyStatement none false
    exact { h with values := h.values, emptyStatement := .supply ‹_› le_rfl }

theorem minifiedBool (s : Store) (b : Bool) : s.Gains (s.minifiedBool b).2 := by
  unfold Store.minifiedBool
  split
  · exact refl s
  · have harg := intern s (.number (if b then 0 else 1 : Float).toBits)
    have h := harg.trans (freeze _ (.unaryExpression .not
      (s.intern (.number (if b then 0 else 1 : Float).toBits)).1) (some (.bool b)) true)
    cases b with
    | true => exact { h with values := h.values, minifiedTrue := .supply ‹_› harg.tree.size }
    | false => exact { h with values := h.values, minifiedFalse := .supply ‹_› harg.tree.size }

end Store.Gains

/-- Where a step succeeds, `Q` holds of what it gives, and where it fails, `E` of the state that is left. -/
def Ends {ε σ α : Type} (m : EStateM ε σ α) (s : σ) (Q : α → σ → Prop) (E : σ → Prop) : Prop :=
  match m s with
  | .ok a s' => Q a s'
  | .error _ s' => E s'

namespace Ends

variable {ε σ α β : Type} {m : EStateM ε σ α} {f : α → EStateM ε σ β} {s : σ} {a : α}
  {Q : α → σ → Prop} {R : β → σ → Prop} {E : σ → Prop}

theorem pure (h : Q a s) : Ends (Pure.pure a : EStateM ε σ α) s Q E := h

theorem throw (e : ε) (h : E s) : Ends (MonadExcept.throw e : EStateM ε σ α) s Q E := h

theorem bind (h : Ends m s Q E) (hf : ∀ a s', Q a s' → Ends (f a) s' R E) :
    Ends (m >>= f) s R E := by
  unfold Ends at h
  change Ends (EStateM.bind m f) s R E
  unfold Ends EStateM.bind
  split at h
  · rename_i a s' hrun
    rw [hrun]
    exact hf a s' h
  · rename_i e s' hrun
    rw [hrun]
    exact h

theorem read (hm : m s = .ok a s) (h : Ends (f a) s R E) : Ends (m >>= f) s R E := by
  refine bind (Q := fun b s' => b = a ∧ s' = s) ?_ fun b s' hb => ?_
  · unfold Ends
    rw [hm]
    exact ⟨rfl, rfl⟩
  · obtain ⟨rfl, rfl⟩ := hb
    exact h

theorem always (m : EStateM ε σ α) (s : σ) : Ends m s (fun _ _ => True) fun _ => True := by
  unfold Ends
  split <;> trivial

theorem of_error (h : Ends m s Q E) {e : ε} {s' : σ} (hm : m s = .error e s') : E s' := by
  unfold Ends at h
  rw [hm] at h
  exact h

theorem of_ok (h : Ends m s Q E) {s' : σ} (hm : m s = .ok a s') : Q a s' := by
  unfold Ends at h
  rw [hm] at h
  exact h

end Ends

/-- A step on tree and pool that only adds, whether it fails or not. -/
def Adding {α : Type} (m : EStateM FoldError Store α) : Prop :=
  ∀ s, Ends m s (fun _ s' => s.Gains s') s.Gains

namespace Adding

variable {α β : Type}

theorem pure (a : α) : Adding (Pure.pure a) := fun s => .pure (.refl s)

theorem throw (e : FoldError) : Adding (MonadExcept.throw e : EStateM FoldError Store α) := fun s =>
  .throw e (.refl s)

theorem modifyGet {f : Store → α × Store} (h : ∀ s : Store, s.Gains (f s).2) :
    Adding (modifyGet f : EStateM FoldError Store α) := h

theorem bind {m : EStateM FoldError Store α} {f : α → EStateM FoldError Store β} (hm : Adding m)
    (hf : ∀ a, Adding (f a)) : Adding (m >>= f) := by
  intro s
  unfold Adding at hf
  refine Ends.bind (hm s) fun a s₁ hgains => ?_
  have hrest := hf a s₁
  unfold Ends at hrest ⊢
  split at hrest
  · exact hgains.trans hrest
  · exact hgains.trans hrest

end Adding

namespace Value

mutual

theorem toNode_adding : ∀ v : Value, Adding v.toNode
  | .undefined => by
    rw [toNode]
    exact .modifyGet Store.Gains.undefinedNode
  | .null => by
    rw [toNode]
    exact .modifyGet fun s => .intern s _
  | .bool b => by
    rw [toNode]
    exact .modifyGet fun s => .intern s _
  | .string text => by
    rw [toNode]
    exact .modifyGet fun s => .intern s _
  | .number x => by
    rw [toNode]
    split
    · exact .modifyGet Store.Gains.nanNode
    · split
      · exact .throw _
      · exact .modifyGet fun s => .intern s _
  | .array items => by
    rw [toNode]
    exact (itemNodes_adding items).bind fun elements => .modifyGet fun s => .freeze s _ _ _

theorem itemNodes_adding : ∀ items : List (Option Value), Adding (itemNodes items)
  | [] => by
    rw [itemNodes]
    exact .pure _
  | item :: rest => by
    rw [itemNodes]
    exact (itemNode_adding item).bind fun node => (itemNodes_adding rest).bind fun nodes => .pure _

theorem itemNode_adding : ∀ item : Option Value, Adding (itemNode item)
  | none => by
    rw [itemNode]
    exact .pure _
  | some v => by
    rw [itemNode]
    exact (toNode_adding v).bind fun id => .pure _

end

end Value

structure FoldState.Gains (s s' : FoldState) : Prop extends s.toStore.Gains s'.toStore where
  stats : s'.stats = s.stats

namespace FoldState.Gains

variable {s s' s'' : FoldState}

theorem refl (s : FoldState) : s.Gains s :=
  ⟨.refl _, rfl⟩

theorem trans (h : s.Gains s') (h' : s'.Gains s'') : s.Gains s'' :=
  ⟨h.toGains.trans h'.toGains, h'.stats.trans h.stats⟩

end FoldState.Gains

end ScriptFold

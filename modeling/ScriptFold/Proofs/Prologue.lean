import ScriptFold.Proofs.Directive

/-!
Directive prologues. In a program as parsers give it, where directives are the string statements
that are marked and stand at the head of the program or of the body of a function, folding to the end
neither loses nor gains one. Marked statements stay, since the rule on expression statements knows
them by their position, and no other rule applies to such a statement; where no rule fires any more,
a string statement that is not marked may only be left at the end of the program.
-/

namespace ScriptFold

open Relation

theorem Node.string?_eq {α : Type} {n : Node α} {text : String} (h : n.string? = some text) :
    n = .literal (.string text) := by
  cases n <;> try cases h
  case literal value => cases value <;> cases h; rfl

theorem Tree.isStringStatement_iff {t : Tree} {st : NodeId} : t.isStringStatement st ↔
    ∃ e directive text, t.node st = .expressionStatement e directive ∧
      t.node e = .literal (.string text) := by
  constructor
  · intro h
    cases hn : t.node st <;> rw [isStringStatement, hn] at h <;> try cases h
    case expressionStatement e directive =>
      obtain ⟨text, htext⟩ := Option.isSome_iff_exists.mp h
      exact ⟨e, directive, text, rfl, Node.string?_eq htext⟩
  · intro ⟨e, directive, text, hn, he⟩
    rw [isStringStatement, hn]
    change (t.node e).string?.isSome
    rw [he]
    rfl

namespace Path

variable {t : Tree} {x : NodeId}

theorem exists_live (hw : t.Within x t.root) : ∃ p : Path, p.Live t ∧ p.value = .node x := by
  have hroot : (ofNode t.root).Live t := rfl
  obtain ⟨p, -, hp, hv⟩ := hroot.exists_within rfl hw
  exact ⟨p, hp, hv⟩

end Path

namespace Store

variable {s s' : Store} {observed : Bool} {rule : Rule} {p : Path} {owner x a b e : NodeId}
  {n : Node NodeId} {directive : Option String}

theorem Swap.rule_eq (h : s.Sound) (hab : s.Swap observed rule a b)
    (ha : s.tree.node a = .expressionStatement e directive) : rule = .expressionStatements := by
  rcases hab.kind_mem with ⟨v, hv⟩ | hk
  · have hk := h.kind_of_value? hv
    rw [ha] at hk
    simp [Node.kind] at hk
  · rw [ha] at hk
    cases rule <;> first | rfl | simp [Rule.replaced, Node.kind] at hk

/-- Only one rule changes anything at a path to an expression statement. -/
theorem Edit.rule_eq (h : s.Sound) (he : s.Edit observed rule p x n)
    (hleads : p.Leads s.tree owner a) (ha : s.tree.node a = .expressionStatement e directive) :
    rule = .expressionStatements := by
  cases he with
  | fill hleads' _ _ hab =>
    obtain ⟨rfl, rfl⟩ := hleads'.unique hleads
    exact hab.rule_eq h ha
  | @splice _ b old new n hleads' _ hsplice hnew =>
    obtain ⟨rfl, rfl⟩ := hleads'.unique hleads
    obtain ⟨hv, hs, hi⟩ := hsplice
    rename_i parent f slot l r value
    -- the statement is the first of those that make way
    have hfirst : (old ++ r)[0]? = some (some a) := by
      cases hleads' with
      | item hv' hs' hi' hget =>
        rw [hv] at hv'
        cases hv'
        obtain rfl := Option.some.inj (hs.symm.trans hs')
        obtain rfl := Option.some.inj (hi.symm.trans hi')
        rw [List.append_assoc, List.getElem?_append_right le_rfl, Nat.sub_self] at hget
        exact hget
    cases hnew with
    | merge | constant => rfl
    | swap hab =>
      obtain rfl : _ = a := Option.some.inj (Option.some.inj hfirst)
      exact hab.rule_eq h ha
    | unreachable hjump _ =>
      obtain rfl : _ = a := Option.some.inj (Option.some.inj hfirst)
      rw [ha] at hjump
      cases hjump
    | empty hempty =>
      obtain rfl : _ = a := Option.some.inj (Option.some.inj hfirst)
      rw [ha] at hempty
      cases hempty
  | rewrite hleads' _ hr =>
    obtain ⟨rfl, rfl⟩ := hleads'.unique hleads
    exact absurd (by rw [ha]; rfl) hr.kind_not_mem.2.1

theorem Fires.rule_eq (hleads : p.Leads s.tree owner a) (h : s.Sound)
    (hfires : Fires observed rule p s s')
    (ha : s.tree.node a = .expressionStatement e directive) : rule = .expressionStatements := by
  obtain ⟨_, ⟨s₁, x, n, hg, hs₁, he, -⟩, -⟩ := TransGen.head'_iff.mp hfires
  have hleads₁ := hleads.congr (hg.tree.node (Tree.lt_size_of_child hleads.child))
  have ha₁ := (hg.tree.node (h.wellFormed.closed hleads.child)).trans ha
  exact he.rule_eq hs₁ hleads₁ ha₁

end Store

namespace Tree.Keeps

variable {s : Store} {t : Tree} {p parent : Path} {i : Nat} {value : Ref} {x owner a : NodeId}
  {f : Field}

theorem entry_of_lt (k : t.Keeps s.tree) (hp : p.Live s.tree) (hleads : p.Leads s.tree owner a)
    (hpath : p = .child parent (.index i) value) (hv : parent.value = .list x f)
    (hlt : i < (t.lead x f).length) : a ∈ t.directives x ∧
      ∃ items, s.tree.listItems? parent.value = some items ∧
        ∀ item ∈ items.take i, ∃ st ∈ t.directives x, item = some st := by
  subst hpath
  have hne : t.lead x f ≠ [] := List.ne_nil_of_length_pos (by omega)
  obtain ⟨rfl, hk⟩ := k.list_of_lead hne
  have hlead : t.lead x .body = t.directives x := if_pos rfl
  rw [hlead] at hlt hne
  obtain ⟨rest, hsplit, -⟩ := k.statements_eq (hp.1.within_root (by rw [hv]; rfl)) hk
  have hs : s.tree.slot? x .body = some (.list (s.tree.node x).statements) :=
    Node.slot?_body (by simp [hsplit, hne])
  refine ⟨?_, (s.tree.node x).statements.map some, ?_, fun item hitem => ?_⟩
  · cases hleads with
    | item hv' hs' hi' hget =>
      rw [hv] at hv'
      cases hv'
      obtain rfl := Option.some.inj (hs.symm.trans hs')
      obtain rfl := Option.some.inj hi'
      rw [hsplit, List.map_append, List.getElem?_append_left (by simpa using hlt)] at hget
      simpa using List.mem_of_getElem? hget
  · rw [hv, Tree.listItems?, hs]
    rfl
  · rw [hsplit, List.map_append, List.take_append_of_le_length (by simpa using hlt.le)] at hitem
    simpa [eq_comm] using List.mem_of_mem_take hitem

/-- What starts with directives and is not the program is found as the body of a function. -/
theorem function_of_leads (k : t.Keeps s.tree) (hp : p.Live s.tree)
    (hleads : p.Leads s.tree owner a) (hne : t.directives a ≠ []) :
    ∃ parent, p = .child parent (.field .body) (.node a) ∧ parent.value = .node owner ∧
      (s.tree.node owner).isFunction := by
  have howner := hp.owner_within_root hleads
  cases hleads with
  | required hv hs =>
    obtain ⟨rfl, -, hfunction⟩ := k.function_of_child howner hs (List.mem_singleton_self a) hne
    exact ⟨_, rfl, hv, hfunction⟩
  | optional hv hs =>
    obtain ⟨rfl, -, hfunction⟩ := k.function_of_child howner hs (by simp [Slot.children]) hne
    exact ⟨_, rfl, hv, hfunction⟩
  | item hv hs hi hget =>
    have hmem := (Slot.mem_children_of_items? hi).mpr (List.mem_of_getElem? hget)
    obtain ⟨rfl, hb, -⟩ := k.function_of_child howner hs hmem hne
    obtain rfl := Option.some.inj ((Node.slot?_functionBody hb).symm.trans hs)
    cases hi

theorem prologueList? (h : s.Sound) (k : t.Keeps s.tree) (hp : p.Live s.tree)
    (hpath : p = .child parent (.index i) value) (hv : parent.value = .list x f)
    (hne : t.lead x f ≠ []) : s.tree.prologueList? p = some parent := by
  subst hpath
  obtain ⟨rfl, hk⟩ := k.list_of_lead hne
  obtain ⟨hparent, -⟩ := hp
  have nodeAt : ∀ {q : Path} {y}, q.value = .node y →
      s.tree.nodeAt? q = some (s.tree.node y) := by
    intro q y hq
    rw [Tree.nodeAt?, Path.node?, hq]
    rfl
  cases parent with
  | root v =>
    obtain rfl : v = .node s.tree.root := hparent
    cases hv
  | child above key v =>
    obtain rfl : v = .list x .body := hv
    obtain ⟨habove, hread⟩ := hparent
    obtain ⟨hv, rfl⟩ := Path.list_of_read hread.symm
    have hlist : (Path.child above (.field .body) (.list x .body)).isList = true := rfl
    simp only [Tree.prologueList?, Path.parent?, Option.bind_eq_bind, Option.bind_some, hlist,
      nodeAt hv, guard, if_true]
    cases hn : s.tree.node x <;> rw [hn] at hk <;> simp [Node.kind] at hk
    case program => rfl
    case blockStatement body =>
      -- the block is not the program, and what holds it is a function
      rcases habove.cases (by rw [Path.node?, hv]; rfl) with ⟨-, rfl⟩ | ⟨y, hleads⟩
      · have hroot := h.program
        rw [hn] at hroot
        cases hroot
      rw [Tree.lead, if_pos rfl] at hne
      obtain ⟨parent, rfl, hparent, hfunction⟩ := k.function_of_leads habove hleads hne
      simp [Path.key?, nodeAt hparent, hfunction]

theorem isDirective (h : s.Sound) (k : t.Keeps s.tree) (hp : p.Live s.tree)
    (hleads : p.Leads s.tree owner a) (hpath : p = .child parent (.index i) value)
    (hv : parent.value = .list x f) (hlt : i < (t.lead x f).length) : s.tree.isDirective p := by
  obtain ⟨ha, items, hitems, hall⟩ := k.entry_of_lt hp hleads hpath hv hlt
  have hlist := k.prologueList? h hp hpath hv (List.ne_nil_of_length_pos (by omega))
  have string : ∀ st ∈ t.directives x,
      s.tree.isStringStatement st ∧ s.tree.isMarkedDirective st := by
    intro st hst
    have hmarked := Tree.isMarked_of_mem_directives hst
    obtain ⟨e, directive, text, hn, he, hn', he'⟩ := k.fixed hmarked
    rw [hn] at hmarked hn'
    have hstring : s.tree.isStringStatement st :=
      Tree.isStringStatement_iff.mpr ⟨e, directive, text, hn', he'.trans he⟩
    cases directive with
    | none => cases hmarked
    | some _ =>
      refine ⟨hstring, ?_⟩
      rw [Tree.isMarkedDirective, hn']
      exact hstring
  have hnode : p.node? = some a := by cases hleads <;> rfl
  unfold Tree.isDirective Tree.inDirectivePosition
  rw [hnode, hlist, hpath]
  simp only [Path.index?, Path.key?, Option.bind_some, Key.index?, hitems, Option.any_some,
    Bool.and_eq_true, List.all_eq_true]
  refine ⟨(string a ha).2, fun item hitem => ?_⟩
  obtain ⟨st, hst, rfl⟩ := hall item hitem
  exact (string st hst).1

end Tree.Keeps

namespace FoldState

variable {rules : List Rule} {s s' : FoldState} {t : Tree}

/-- Where a rule fires, the path is clear of directives. -/
theorem Firing.keeps (h : s.Sound) (hf : Firing rules s s') (k : t.Keeps s.tree) :
    t.Keeps s'.tree := by
  obtain @⟨rule, p, q, s₁, hrule, hp, hnode, hfrozen, hrun⟩ := hf
  rcases open_of_live h hp hnode hfrozen with rfl | ⟨owner, a, hopen⟩
  · cases ((rule.apply_root h).of_ok hrun).1
  obtain ⟨-, hfires, -⟩ := (rule.apply_ensures hopen).of_ok hrun
  refine hfires.keeps h hp hopen.leads k fun parent i value x f hpath hv => ?_
  by_contra hlt
  have hlt : i < (t.lead x f).length := by omega
  obtain ⟨ha, -⟩ := k.entry_of_lt hp hopen.leads hpath hv hlt
  obtain ⟨e, directive, text, hn, -, hn', -⟩ := k.fixed (Tree.isMarked_of_mem_directives ha)
  obtain rfl := Store.Fires.rule_eq hopen.leads h hfires (hn'.trans hn)
  obtain ⟨-, hdirective, -⟩ := (FoldM.foldExpressionStatement_applies hopen).of_ok hrun
  exact hdirective rfl (k.isDirective h hp hopen.leads hpath hv hlt)

theorem Folds.keeps (h : s.Sound) (hr : Folds rules s s') (k : t.Keeps s.tree) :
    t.Keeps s'.tree := by
  induction hr with
  | refl => exact k
  | fire hr hf ih => exact hf.keeps (hr.sound h) ih
  | round _ ih => exact ih

end FoldState

namespace Tree

variable {t : Tree} {h x y c st : NodeId} {f : Field}

/-- The program, or the block that is the body of a function. -/
def bodyNode? (t : Tree) (h : NodeId) : Option NodeId :=
  match t.node h with
  | .program _ => some h
  | n => n.functionBody?.filter fun b => (t.node b).kind = .blockStatement

def body (t : Tree) (h : NodeId) : List NodeId :=
  (t.bodyNode? h).elim [] fun y => (t.node y).statements

/-- The program, or a function in it. -/
def HasBody (t : Tree) (h : NodeId) : Prop :=
  t.Within h t.root ∧ (h = t.root ∨ (t.node h).isFunction)

/-- The statements at the head of the program or a function that are marked as directives. -/
def prologue (t : Tree) (h : NodeId) : List NodeId :=
  (t.body h).takeWhile fun st => (t.node st).isMarked

/-- Directives as parsers mark them: string statements at the head of the program and of functions,
and nothing else. -/
structure Prologues (t : Tree) : Prop where
  string : ∀ {h st}, t.HasBody h → st ∈ t.body h → (t.node st).isMarked → t.isStringStatement st
  leading : ∀ {h st}, t.HasBody h →
    st ∈ (t.body h).dropWhile (fun st => (t.node st).isMarked) → ¬ (t.node st).isMarked
  only : ∀ {st}, t.Within st t.root → (t.node st).isMarked → ∃ h, t.HasBody h ∧ st ∈ t.body h

theorem body_eq (hy : t.bodyNode? h = some y) : t.body h = (t.node y).statements := by
  rw [body, hy, Option.elim_some]

theorem prologue_eq (hy : t.bodyNode? h = some y) : t.prologue h = t.directives y := by
  rw [prologue, body_eq hy, directives]

theorem bodyNode?_of_program (hk : (t.node h).kind = .program) : t.bodyNode? h = some h := by
  unfold bodyNode?
  cases hn : t.node h <;> rw [hn] at hk <;> cases hk

theorem bodyNode?_of_function (hf : (t.node h).isFunction) : t.bodyNode? h =
    (t.node h).functionBody?.filter fun b => (t.node b).kind = .blockStatement := by
  unfold bodyNode?
  cases hn : t.node h with
  | functionDeclaration | functionExpression | arrowFunctionExpression => rfl
  | _ => simp [hn, Node.isFunction] at hf

theorem exists_directive (hd : t.directives x ≠ []) :
    ∃ st, t.Child st x ∧ (t.node st).isMarked := by
  obtain ⟨st, hst⟩ := List.exists_mem_of_ne_nil _ hd
  exact ⟨st, child_of_statements ((List.takeWhile_sublist _).subset hst),
    isMarked_of_mem_directives hst⟩

namespace Laid

theorem not_child_root (l : t.Laid) : ¬ t.Child t.root x := fun hc =>
  l.wellFormed.not_within_child hc (l.within hc)

theorem bodyNode?_cases (l : t.Laid) (hb : t.HasBody h) (hy : t.bodyNode? h = some y) :
    h = t.root ∧ y = t.root ∨
      (t.node h).functionBody? = some y ∧ (t.node y).kind = .blockStatement := by
  rcases hb.2 with rfl | hf
  · rw [bodyNode?_of_program l.program] at hy
    exact .inl ⟨rfl, (Option.some.inj hy).symm⟩
  · rw [bodyNode?_of_function hf, Option.filter_eq_some_iff] at hy
    exact .inr ⟨hy.1, of_decide_eq_true hy.2⟩

theorem body_of_marked (l : t.Laid) (hp : t.Prologues) (hm : (t.node st).isMarked)
    (hc : t.Child st x) : ∃ h, t.HasBody h ∧ t.bodyNode? h = some x := by
  obtain ⟨h, hb, hst⟩ := hp.only (.head hc (l.within hc)) hm
  refine ⟨h, hb, ?_⟩
  cases hy : t.bodyNode? h with
  | none =>
    rw [body, hy] at hst
    cases hst
  | some y =>
    rw [body_eq hy] at hst
    rw [child_unique l.held (child_of_statements hst) hc]

theorem not_marked (l : t.Laid) (hp : t.Prologues)
    (hc : c ∈ (t.node x).statements.dropWhile fun st => (t.node st).isMarked) :
    ¬ (t.node c).isMarked := by
  intro hm
  have hchild := child_of_statements ((List.dropWhile_sublist _).subset hc)
  obtain ⟨h, hb, hx⟩ := l.body_of_marked hp hm hchild
  exact hp.leading hb (by rwa [body_eq hx]) hm

theorem directives_eq_inner (l : t.Laid) (hp : t.Prologues) {slot : Slot NodeId}
    (hs : (f, slot) ∈ (t.node x).slots) (hc : c ∈ slot.children) :
    t.directives c = t.inner x f := by
  have hchild : t.Child c x := Node.mem_children.mpr ⟨_, hs, hc⟩
  by_cases hd : t.directives c = []
  · rw [hd, inner]
    split
    · subst f
      cases hb : (t.node x).functionBody? with
      | none => rfl
      | some b =>
        have hslot := Node.slot?_functionBody hb
        obtain rfl := Option.some.inj ((Node.slot?_of_mem hs).symm.trans hslot)
        obtain rfl := List.mem_singleton.mp hc
        exact hd.symm
    · rfl
  · obtain ⟨st, hst, hm⟩ := exists_directive hd
    obtain ⟨h, hb, hy⟩ := l.body_of_marked hp hm hst
    rcases l.bodyNode?_cases hb hy with ⟨-, rfl⟩ | ⟨hbody, -⟩
    · exact absurd hchild l.not_child_root
    have hslot := Node.slot?_functionBody hbody
    have hchild' : t.Child c h := Node.mem_children_of_slot? hslot (List.mem_singleton_self c)
    obtain rfl : h = x := child_unique l.held hchild' hchild
    -- the body is in one slot only
    have hf : f = .body := by
      by_contra hf
      have hne : (f, slot) ≠ (Field.body, Slot.required c) := fun heq => hf (Prod.ext_iff.mp heq).1
      have : Std.Symm (Function.onFun List.Disjoint fun entry : Field × Slot NodeId =>
        entry.2.children) := ⟨fun _ _ hd => hd.symm⟩
      have hdisjoint : List.Disjoint slot.children (Slot.required c).children :=
        (List.nodup_flatMap.mp (nodup_children l.held h)).2.forall hs
          (Node.mem_slots_of_slot? hslot) hne
      exact hdisjoint hc (List.mem_singleton_self c)
    rw [inner, if_pos hf, hbody, Option.elim_some]

theorem keeps (l : t.Laid) (hp : t.Prologues) : t.Keeps t where
  root := rfl
  size := le_rfl
  kind _ := rfl
  fixed {st} hm := by
    obtain ⟨e, he⟩ : ∃ e, t.Child e st := by
      cases hn : t.node st <;> rw [hn] at hm <;> try cases hm
      case expressionStatement e directive =>
        exact ⟨e, child_of_node hn (List.mem_singleton_self e)⟩
    obtain ⟨h, hb, hmem⟩ := hp.only (l.within he) hm
    obtain ⟨e, directive, text, hn, he⟩ := isStringStatement_iff.mp (hp.string hb hmem hm)
    exact ⟨e, directive, text, hn, he, rfl, rfl⟩
  arranged := by
    rintro x - ⟨f, slot⟩ hs
    by_cases hk : (t.node x).kind = .program ∨ (t.node x).kind = .blockStatement
    · have hbody := hs
      rw [Node.slots_of_body hk] at hbody
      cases List.mem_singleton.mp hbody
      refine ⟨(t.node x).statements.dropWhile fun st => (t.node st).isMarked, ?_, ?_⟩
      · exact List.takeWhile_append_dropWhile.symm
      · intro c hc
        refine ⟨Bool.eq_false_of_not_eq_true (l.not_marked hp hc), ?_⟩
        exact l.directives_eq_inner hp hs ((List.dropWhile_sublist _).subset hc)
    · have hlead : t.lead x f = [] := by
        rw [not_or] at hk
        rw [lead, directives, Node.statements_of_kind hk.1 hk.2]
        exact ite_self _
      refine ⟨slot.children, by rw [hlead, List.nil_append], fun c hc => ⟨?_, ?_⟩⟩
      · by_contra hm
        obtain ⟨h, hb, hx⟩ := l.body_of_marked hp (Bool.eq_true_of_not_eq_false hm)
          (Node.mem_children.mpr ⟨_, hs, hc⟩)
        rcases l.bodyNode?_cases hb hx with ⟨-, rfl⟩ | ⟨-, hblock⟩
        · exact hk (.inl l.program)
        · exact hk (.inr hblock)
      · exact l.directives_eq_inner hp hs hc

theorem prologue_eq_inner (l : t.Laid) (hp : t.Prologues) (hf : (t.node h).isFunction) :
    t.prologue h = t.inner h .body := by
  obtain ⟨b, hb⟩ := Option.isSome_iff_exists.mp ((t.node h).functionBody?_isSome.trans hf)
  have hinner : t.inner h .body = t.directives b := by
    rw [inner, if_pos rfl, hb, Option.elim_some]
  rw [hinner]
  have hbody := bodyNode?_of_function hf
  rw [hb] at hbody
  by_cases hk : (t.node b).kind = .blockStatement
  · rw [Option.filter_some, if_pos (decide_eq_true hk)] at hbody
    exact prologue_eq hbody
  · rw [Option.filter_some, if_neg (by simpa using hk)] at hbody
    by_contra hne
    rw [prologue, body, hbody] at hne
    obtain ⟨st, hst, hm⟩ := exists_directive (Ne.symm hne)
    obtain ⟨g, hg, hy⟩ := l.body_of_marked hp hm hst
    rcases l.bodyNode?_cases hg hy with ⟨-, rfl⟩ | ⟨-, hblock⟩
    · have hslot := Node.slot?_functionBody hb
      exact l.not_child_root (Node.mem_children_of_slot? hslot (by simp [Slot.children]))
    · exact hk hblock

end Laid

/-- A statement of a function never supplies the completion value. -/
theorem isCompletion_of_function {q : Path} {b : NodeId} {i : Nat} {v : Ref}
    (hq : q.value = .node h) (hf : (t.node h).isFunction)
    (hb : (t.node b).kind = .blockStatement) :
    t.isCompletion (.child (.child (.child q (.field .body) (.node b)) (.field .body)
      (.list b .body)) (.index i) v) = false := by
  have hfunction : t.reachesProgram q = false := by
    cases q with
    | root value =>
      obtain rfl : value = .node h := hq
      cases hn : t.node h <;> rw [hn] at hf <;> cases hf <;>
        simp [reachesProgram, Ref.node?, hn, Node.kind]
    | child parent key value =>
      obtain rfl : value = .node h := hq
      cases hn : t.node h <;> rw [hn] at hf <;> cases hf <;>
        simp [reachesProgram, hn, Node.isFunction]
  have hblock : t.reachesProgram (.child q (.field .body) (.node b)) = false := by
    cases hn : t.node b <;> rw [hn] at hb <;> cases hb
    simp [reachesProgram, hn, hfunction]
  rw [isCompletion, reachesProgram, hblock, Bool.and_false]

end Tree

namespace FoldState

variable {rules : List Rule} {s : FoldState} {t : Tree} {p : Path} {owner c y : NodeId}

theorem Silent.isCompletion (hsilent : s.Silent rules) (hrule : .expressionStatements ∈ rules)
    (hs : s.Sound) (hp : p.Live s.tree) (hleads : p.Leads s.tree owner c)
    (howner : ¬ s.tree.isFrozen owner) (hstring : s.tree.isStringStatement c)
    (hm : (s.tree.node c).isMarked = false) : s.tree.isCompletion p := by
  have hopen : s.Open p owner c := ⟨hs, hleads, howner⟩
  have hrun := hsilent _ hrule p hp (by rw [hopen.node?]; rfl) (by rwa [hleads.inFrozenNode hp])
  obtain ⟨r, s', hrun', -, -, hnone⟩ := FoldM.foldExpressionStatement_applies hopen
  rw [Rule.apply, hrun'] at hrun
  cases hrun
  obtain ⟨e, directive, text, hn, he⟩ := Tree.isStringStatement_iff.mp hstring
  rcases hnone rfl with hdirective | hcompletion | hvalue
  · rw [Tree.isDirective, hopen.node?, Option.any_some, Bool.and_eq_true] at hdirective
    have hmarked := hdirective.1
    rw [Tree.isMarkedDirective, hn] at hmarked
    rw [hn] at hm
    cases directive with
    | none => cases hmarked
    | some _ => cases hm
  · exact hcompletion
  · have := hvalue e (by rw [hn]; rfl)
    rw [hs.value?_literal he] at this
    cases this

/-- Where no rule fires, string statements follow the directives of a list only to supply the
completion value. -/
theorem Silent.statements (hsilent : s.Silent rules) (hrule : .expressionStatements ∈ rules)
    (hs : s.Sound) (k : t.Keeps s.tree) {q : Path} (hq : q.Live s.tree)
    (hv : q.value = .list y .body)
    (hk : (s.tree.node y).kind = .program ∨ (s.tree.node y).kind = .blockStatement) :
    (s.tree.node y).statements.takeWhile s.tree.isStringStatement = t.directives y ∨
      ∃ st rest, (s.tree.node y).statements = t.directives y ++ st :: rest ∧
        s.tree.isStringStatement st ∧ (s.tree.node st).isMarked = false ∧
        s.tree.isCompletion (.child q (.index (t.directives y).length) (.node st)) := by
  obtain ⟨rest, hsplit, hrest⟩ := k.statements_eq (hq.within_root (by rw [hv]; rfl)) hk
  have hall : ∀ st ∈ t.directives y, s.tree.isStringStatement st := by
    intro st hst
    obtain ⟨e, directive, text, hn, he, hn', he'⟩ := k.fixed (Tree.isMarked_of_mem_directives hst)
    exact Tree.isStringStatement_iff.mpr ⟨e, directive, text, hn'.trans hn, he'.trans he⟩
  rw [hsplit, List.takeWhile_append_of_pos hall]
  cases rest with
  | nil => exact .inl (List.append_nil _)
  | cons st rest =>
    by_cases hstring : s.tree.isStringStatement st
    · refine .inr ⟨st, rest, rfl, hstring, hrest st List.mem_cons_self, ?_⟩
      have hslot : s.tree.slot? y .body = some (.list (s.tree.node y).statements) :=
        Node.slot?_body (by simp [hsplit])
      have hget : ((s.tree.node y).statements.map some)[(t.directives y).length]? =
          some (some st) := by
        simp [hsplit]
      have hread : s.tree.read q.value (.index (t.directives y).length) = .node st := by
        rw [hv, Tree.read, Tree.listItems?, hslot]
        simp only [Option.bind_some, Slot.items?, hget]
      have hfrozen : ¬ s.tree.isFrozen y := by
        refine hs.not_frozen_of_kind ?_
        rcases hk with hk | hk <;> rw [hk] <;> decide
      exact hsilent.isCompletion hrule hs ⟨hq, hread.symm⟩ (.item hv hslot rfl hget) hfrozen hstring
        (hrest st List.mem_cons_self)
    · left
      rw [List.takeWhile_cons_of_neg hstring, List.append_nil]

end FoldState

namespace Tree.Laid

variable {t : Tree} {s : FoldState} {rules : List Rule} {f b : NodeId}

theorem prologue_eq_directives (l : t.Laid) (hp : t.Prologues) (k : t.Keeps s.tree)
    (hw : s.tree.Within f s.tree.root) (hb : (s.tree.node f).functionBody? = some b) :
    t.prologue f = t.directives b := by
  have hf : (s.tree.node f).isFunction := by
    rw [← Node.functionBody?_isSome, hb, Option.isSome_some]
  have hslot := Node.slot?_functionBody hb
  have hprologue : t.prologue f = t.inner f .body := by
    by_cases hsize : f < t.size
    · exact l.prologue_eq_inner hp ((Node.isFunction_of_kind (k.kind hsize)).symm.trans hf)
    · have hn := node_of_size_le (Nat.le_of_not_lt hsize)
      rw [prologue, body, bodyNode?, inner, hn]
      rfl
  obtain ⟨rest, hsplit, hrest⟩ := k.arranged f hw _ (Node.mem_slots_of_slot? hslot)
  rw [k.lead_of_items? hslot rfl, List.nil_append] at hsplit
  exact hprologue.trans (hrest b (hsplit ▸ List.mem_singleton_self b)).2.symm

theorem takeWhile_function (l : t.Laid) (hp : t.Prologues) (hs : s.Sound) (k : t.Keeps s.tree)
    (hsilent : s.Silent rules) (hrule : .expressionStatements ∈ rules)
    (hw : s.tree.Within f s.tree.root) (hf : (s.tree.node f).isFunction) :
    (s.tree.body f).takeWhile s.tree.isStringStatement = t.prologue f := by
  obtain ⟨b, hb⟩ := Option.isSome_iff_exists.mp ((s.tree.node f).functionBody?_isSome.trans hf)
  have hslot := Node.slot?_functionBody hb
  have hbody := bodyNode?_of_function hf
  rw [hb] at hbody
  rw [l.prologue_eq_directives hp k hw hb]
  by_cases hk : (s.tree.node b).kind = .blockStatement
  · rw [Option.filter_some, if_pos (decide_eq_true hk)] at hbody
    rw [body_eq hbody]
    obtain ⟨q, hq, hv⟩ := Path.exists_live hw
    have hread : s.tree.read q.value (.field .body) = .node b := by
      rw [hv, read, Tree.slot?, hslot]
    have hread' : s.tree.read (.node b) (.field .body) = .list b .body := by
      rw [read, Tree.slot?, Node.slot?_of_body (.inr hk)]
    rcases hsilent.statements hrule hs k (q := .child (.child q (.field .body) (.node b))
        (.field .body) (.list b .body)) ⟨⟨hq, hread.symm⟩, hread'.symm⟩ rfl (.inr hk) with
      heq | ⟨st, rest, -, -, -, hcompletion⟩
    · exact heq
    · rw [isCompletion_of_function hv hf hk] at hcompletion
      cases hcompletion
  · -- an expression holds no statements, and started with none
    rw [Option.filter_some, if_neg (by simpa using hk)] at hbody
    rw [body, hbody]
    by_contra hne
    obtain ⟨st, hst, hm⟩ := exists_directive (Ne.symm hne)
    obtain ⟨g, hg, hy⟩ := l.body_of_marked hp hm hst
    rcases l.bodyNode?_cases hg hy with ⟨-, rfl⟩ | ⟨-, hblock⟩
    · have hchild := Node.mem_children_of_slot? hslot (List.mem_singleton_self t.root)
      exact hs.wellFormed.not_within_child (k.root ▸ hchild) (k.root ▸ hw)
    · exact hk ((k.kind (lt_size_of_child hst)).trans hblock)

/-- In the program they are the directives, or one statement more that is the last. -/
theorem takeWhile_program (l : t.Laid) (hs : s.Sound) (k : t.Keeps s.tree)
    (hsilent : s.Silent rules) (hrule : .expressionStatements ∈ rules) :
    (s.tree.body s.tree.root).takeWhile s.tree.isStringStatement = t.prologue t.root ∨
      ∃ st, s.tree.body s.tree.root = t.prologue t.root ++ [st] ∧ s.tree.isStringStatement st ∧
        ¬ (s.tree.node st).isMarked := by
  have hk := hs.program
  rw [prologue_eq (bodyNode?_of_program l.program), body_eq (bodyNode?_of_program hk), ← k.root]
  have hslot : s.tree.slot? s.tree.root .body = some (.list (s.tree.node s.tree.root).statements) :=
    Node.slot?_of_body (.inl hk)
  have hread : s.tree.read (.node s.tree.root) (.field .body) = .list s.tree.root .body := by
    rw [read, hslot]
  rcases hsilent.statements hrule hs k (q := .child (.ofNode s.tree.root) (.field .body)
      (.list s.tree.root .body)) ⟨rfl, hread.symm⟩ rfl (.inl hk) with
    heq | ⟨st, rest, hsplit, hstring, hm, hcompletion⟩
  · exact .inl heq
  · refine .inr ⟨st, ?_, hstring, by rw [hm]; exact Bool.false_ne_true⟩
    -- the statement is the last, so there is no rest
    have hlast : s.tree.lastIndex? (.list s.tree.root .body) =
        some ((t.directives s.tree.root).length + rest.length) := by
      simp [lastIndex?, listLength?, listItems?, hslot, Slot.items?, hsplit]
    rw [isCompletion, isLastStep, Bool.and_eq_true] at hcompletion
    have hindex : some (t.directives s.tree.root).length =
        s.tree.lastIndex? (.list s.tree.root .body) := by
      have hstep := hcompletion.1
      simp only [Path.isList, Path.value, Ref.isList, Key.index?, Bool.not_true,
        Bool.false_or] at hstep
      exact of_decide_eq_true hstep
    rw [hlast, Option.some.injEq] at hindex
    obtain rfl : rest = [] := List.length_eq_zero_iff.mp (by omega)
    exact hsplit

end Tree.Laid

theorem Options.expressionStatements_mem (options : Options) :
    .expressionStatements ∈ options.rules := by
  obtain ⟨maxRounds, minifyBooleans⟩ := options
  cases minifyBooleans <;> simp [rules, passes, Pass.rules]

variable {json : Json} {t : Tree}

/-- Where folding ended because a round changed nothing, the string statements at the head of a
function are the directives it was read with, and so are those of the program, which may end with
one that is not marked. The directives are as they were read. -/
theorem Options.Converges.prologues (hj : json.Finite) (ht : Tree.ofJson json = .ok t)
    (hp : t.Prologues) {options : Options} {s : FoldState}
    (h : options.Converges options.maxRounds { tree := t } s) :
    t.fold options = .ok (s.tree, s.stats) ∧ s.tree.root = t.root ∧
    (∀ f, s.tree.Within f s.tree.root → (s.tree.node f).isFunction →
      (s.tree.body f).takeWhile s.tree.isStringStatement = t.prologue f) ∧
    ((s.tree.body s.tree.root).takeWhile s.tree.isStringStatement = t.prologue t.root ∨
      ∃ st, s.tree.body s.tree.root = t.prologue t.root ++ [st] ∧ s.tree.isStringStatement st ∧
        ¬ (s.tree.node st).isMarked) ∧
    ∀ f, ∀ st ∈ t.prologue f, s.tree.node st = t.node st ∧
      ∀ e, t.Child e st → s.tree.node e = t.node e := by
  have hsound : Store.Sound { tree := t } := (Tree.fresh_ofJson hj ht).sound
  have l := Tree.laid_ofJson hj ht
  have hrule := options.expressionStatements_mem
  obtain ⟨hs, hsilent⟩ := h.silent_of_sound hsound
  obtain ⟨_, s', hrun, hfolds⟩ :=
    options.rounds_ensures options.maxRounds (s := { tree := t }) hsound
  obtain rfl : s' = s := by
    rw [h.rounds_eq] at hrun
    injection hrun with _ hstate
    exact hstate.symm
  have k : t.Keeps s'.tree := hfolds.keeps hsound (l.keeps hp)
  refine ⟨?_, k.root, fun f hw hf => l.takeWhile_function hp hs k hsilent hrule hw hf,
    l.takeWhile_program hs k hsilent hrule, fun f st hst => ?_⟩
  · unfold Tree.fold
    rw [EStateM.run, h.rounds_eq]
  · obtain ⟨e, directive, text, hn, -, hst', he'⟩ :=
      k.fixed (List.mem_takeWhile_imp (l := t.body f) hst)
    refine ⟨hst', fun d hd => ?_⟩
    unfold Tree.Child at hd
    rw [hn] at hd
    obtain rfl := List.mem_singleton.mp hd
    exact he'

theorem Tree.Laid.prologues_of_lt_size (l : t.Laid)
    (hstring : ∀ st < t.size, (t.node st).isMarked → t.isStringStatement st)
    (hleading : ∀ h < t.size, h = t.root ∨ (t.node h).isFunction →
      ∀ st ∈ (t.body h).dropWhile fun st => (t.node st).isMarked, ¬ (t.node st).isMarked)
    (honly : ∀ st < t.size, (t.node st).isMarked →
      ∃ h < t.size, (h = t.root ∨ (t.node h).isFunction) ∧ st ∈ t.body h) : t.Prologues := by
  have marked : ∀ {st}, (t.node st).isMarked → st < t.size := fun hm =>
    lt_size_of_node fun hn => by
      rw [hn] at hm
      cases hm
  have hasBody : ∀ {h}, h = t.root ∨ (t.node h).isFunction → t.HasBody h := by
    rintro h (rfl | hf)
    · exact ⟨.refl, .inl rfl⟩
    · obtain ⟨b, hb⟩ := Option.isSome_iff_exists.mp ((t.node h).functionBody?_isSome.trans hf)
      have hchild : t.Child b h :=
        Node.mem_children_of_slot? (Node.slot?_functionBody hb) (List.mem_singleton_self b)
      exact ⟨l.within hchild, .inr hf⟩
  refine ⟨fun _ _ hm => hstring _ (marked hm) hm, fun {h st} hb hst hm => ?_, fun _ hm => ?_⟩
  · refine hleading h ?_ hb.2 st hst hm
    by_contra hsize
    have hn := node_of_size_le (Nat.le_of_not_lt hsize)
    rw [body, bodyNode?, hn] at hst
    cases hst
  · obtain ⟨h, -, hb, hst⟩ := honly _ (marked hm) hm
    exact ⟨h, hasBody hb, hst⟩

/-- The program `"use strict"; function f() { "use strict"; "a"; }`. -/
def Json.programStrict : Json :=
  let string (text : String) : Json := .obj [("type", .str "Literal"), ("value", .str text)]
  let directive : Json := .obj [("type", .str "ExpressionStatement"),
    ("expression", string "use strict"), ("directive", .str "use strict")]
  .obj [("type", .str "Program"), ("body", .arr [directive,
    .obj [("type", .str "FunctionDeclaration"),
      ("id", .obj [("type", .str "Identifier"), ("name", .str "f")]), ("params", .arr []),
      ("body", .obj [("type", .str "BlockStatement"), ("body", .arr [directive,
        .obj [("type", .str "ExpressionStatement"), ("expression", string "a")]])])]])]

theorem Json.finite_programStrict : programStrict.Finite := by
  simp [programStrict, Json.Finite, Json.FiniteMembers, Json.FiniteItems]

theorem Options.converges_prologues_programStrict :
    ∃ t, Tree.ofJson .programStrict = .ok t ∧ t.Prologues ∧ (t.node 9).isFunction ∧
      (t.prologue 9).length = 1 ∧ (t.body 9).length = 2 ∧
      ∃ s, Options.Converges { maxRounds := 64 } 64 { tree := t } s ∧
        (∀ f, s.tree.Within f s.tree.root → (s.tree.node f).isFunction →
          (s.tree.body f).takeWhile s.tree.isStringStatement = t.prologue f) ∧
        ∀ f, ∀ st ∈ t.prologue f, s.tree.node st = t.node st := by
  have l : Tree.Laid _ := Tree.laid_ofJson Json.finite_programStrict rfl
  have hp : Tree.Prologues _ := l.prologues_of_lt_size (by decide) (by decide) (by decide)
  have hs : Store.Sound { tree := _ } := (Tree.fresh_ofJson Json.finite_programStrict rfl).sound
  obtain ⟨s, h⟩ := Options.converges_of_weight { maxRounds := 64 } (s := { tree := _ })
    hs (show _ < 64 by decide)
  obtain ⟨-, -, hfunctions, -, hfixed⟩ := h.prologues Json.finite_programStrict rfl hp
  exact ⟨_, rfl, hp, by decide, by decide, by decide, s, h, hfunctions,
    fun f st hst => (hfixed f st hst).1⟩

end ScriptFold

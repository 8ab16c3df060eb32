import ScriptFold.Proofs.Precedence

/-!
Rendered expressions are unambiguous: reading what an expression is rendered as gives it back.

An expression is read together with what follows it. Where that holds no suffix binding at least as
tightly as the last operand of the expression, the reader arrives at the expression itself and goes
on with the suffixes after it (`Reads`). The parentheses of the renderer are there exactly where an
operand without them would not be read so.
-/

namespace ScriptFold

open Reader

namespace Reader

/-- What a reader gives with any number of steps that is large enough. -/
def Yields {α : Type} (read : ℕ → Option α) (x : α) : Prop :=
  ∀ᶠ n in Filter.atTop, read n = some x

section Yields

variable {α : Type} {read : ℕ → Option α} {x y : α}

theorem Yields.unique (hx : Yields read x) (hy : Yields read y) : x = y := by
  obtain ⟨n, hn, hn'⟩ := (hx.and hy).exists
  exact Option.some.inj (hn.symm.trans hn')

theorem yields_of_succ (h : ∀ᶠ n in Filter.atTop, read (n + 1) = some x) : Yields read x := by
  obtain ⟨m, hm⟩ := Filter.eventually_atTop.mp h
  refine Filter.eventually_atTop.mpr ⟨m + 1, fun n hn => ?_⟩
  obtain ⟨k, rfl⟩ := Nat.exists_eq_add_of_le' (Nat.le_of_add_left_le hn)
  exact hm k (Nat.le_of_succ_le_succ hn)

theorem yields_succ (h : ∀ n, read (n + 1) = some x) : Yields read x :=
  yields_of_succ (Filter.Eventually.of_forall h)

end Yields

variable {t : Term} {k least : Level} {r s rest : List Char} {x : Term × List Char}

/-- What ends an expression that stands alone: a closing bracket, a semicolon, or the end of the
text. -/
def Closes (r : List Char) : Prop :=
  ∀ c ∈ r.head?, c = ')' ∨ c = ']' ∨ c = ';'

theorem closes_nil : Closes [] := by
  simp [Closes]

theorem closes_cons {c : Char} (h : c = ')' ∨ c = ']' ∨ c = ';') : Closes (c :: r) := by
  intro d hd
  cases hd
  exact h

/-- An expression is read as what it was rendered from: an operand of other operators together with
the suffixes after it, and alone up to where a bracket is closed. -/
structure Reads (t : Term) : Prop where
  within : ∀ {least r x}, 1 ≤ least → least ≤ t.level → Follows t.tail r →
    Yields (continuation · least t r) x → Yields (expression · least (t.chars ++ r)) x
  alone : ∀ {r}, Closes r → Yields (sequence · (t.chars ++ r)) (t, r)

theorem word?_append (word s : List Char) : Options.word? word (word ++ s) = some s := by
  induction word with
  | nil => rfl
  | cons c word ih => rwa [List.cons_append, Options.word?, if_pos (by simp)]

theorem word?_cons (c : Char) (s : List Char) : Options.word? [c] (c :: s) = some s :=
  word?_append [c] s

theorem follows_end (h : Closes r) : Follows least r :=
  follows_closing fun c hc => (h c hc).imp_right (.imp_right .inl)

theorem yields_continuation (h : Follows least r) (t : Term) :
    Yields (continuation · least t r) (t, r) :=
  yields_succ fun n => h.continuation n t

theorem yields_more_end (h : Closes r) : Yields (more · r) ([], r) := by
  refine yields_succ fun n => ?_
  rw [more]
  rintro s rfl
  exact absurd (h _ rfl) (by decide)

theorem yields_expression (h : Yields (operand · s) (t, r))
    (hx : Yields (continuation · least t r) x) : Yields (expression · least s) x := by
  apply yields_of_succ
  filter_upwards [h, hx] with n h hx
  rw [expression, h]
  exact hx

theorem yields_sequence (hr : Closes r) (h : Yields (expression · Level.assignment s) (t, r)) :
    Yields (sequence · s) (t, r) := by
  apply yields_of_succ
  filter_upwards [h, yields_more_end hr] with n hread hmore
  simp only [sequence, hread, hmore, Option.bind_eq_bind, Option.bind_some, List.isEmpty_nil,
    if_true]

theorem Reads.paren (h : Reads t) (r : List Char) :
    Yields (Reader.operand · ('(' :: (t.chars ++ ')' :: r))) (t, r) := by
  apply yields_of_succ
  have hhead : head? ('(' :: (t.chars ++ ')' :: r)) = some (.paren, t.chars ++ ')' :: r) := rfl
  filter_upwards [h.alone (closes_cons (r := r) (.inl rfl))] with n hinner
  simp only [Reader.operand, hhead, hinner, word?_cons, Option.bind_eq_bind, Option.bind_some]

/-- An operand in parentheses is read whatever follows; one without them has the level asked for. -/
theorem Reads.operand (h : Reads t) (hpos : 1 ≤ least) (hk : least ≤ k)
    (hr : k ≤ t.level → Follows t.tail r) (hx : Yields (continuation · least t r) x) :
    Yields (expression · least (t.operand k ++ r)) x := by
  rcases Nat.lt_or_ge t.level k with hlt | hle
  · rw [Term.operand_of_lt hlt, List.cons_append, List.append_assoc, List.singleton_append]
    exact yields_expression (h.paren r) hx
  · rw [Term.operand_of_le hle]
    exact h.within hpos (hk.trans hle) (hr hle) hx

theorem Reads.last (h : Reads t) (hk : k ≠ Level.sequence ∧ k ≠ Level.conditional)
    (hr : Follows k r) : Yields (expression · k (t.operand k ++ r)) (t, r) :=
  h.operand (Nat.pos_of_ne_zero hk.1) le_rfl (fun hle => hr.mono (Level.le_tail hk hle))
    (yields_continuation hr t)

theorem Reads.item (h : Reads t) (hr : Follows Level.assignment r) :
    Yields (expression · Level.assignment (t.operand Level.assignment ++ r)) (t, r) :=
  h.last (by decide) hr

/-- No operand starts with a space or with what stands in or after a list. -/
theorem Reads.exists_cons (h : Reads t) (hk : k ≠ Level.sequence ∧ k ≠ Level.conditional) :
    ∃ c s, t.operand k = c :: s ∧ c ≠ ' ' ∧ c ≠ ')' ∧ c ≠ ']' ∧ c ≠ ',' := by
  have hread := h.last hk follows_nil
  rw [List.append_nil] at hread
  obtain ⟨n, hread, hn⟩ := (hread.and (Filter.eventually_ge_atTop 2)).exists
  obtain ⟨n, rfl⟩ := Nat.exists_eq_add_of_le' hn
  change expression (n + 1 + 1) k (t.operand k) = _ at hread
  rw [expression, Reader.operand] at hread
  generalize t.operand k = s at hread
  cases s with
  | nil => cases hread
  | cons c s =>
    refine ⟨c, s, rfl, ?_, ?_, ?_, ?_⟩
    all_goals
      rintro rfl
      cases hread

/-- What is read whole wherever it ends is read alone. -/
theorem Reads.of_within (hlevel : 1 ≤ t.level) (h : ∀ {least r x}, 1 ≤ least → least ≤ t.level →
    Follows t.tail r → Yields (continuation · least t r) x →
      Yields (expression · least (t.chars ++ r)) x) : Reads t where
  within := h
  alone hr := yields_sequence hr
    (h le_rfl hlevel (follows_end hr) (yields_continuation (follows_end hr) t))

theorem Reads.of_operand (hlevel : 1 ≤ t.level)
    (h : ∀ {r}, Follows t.tail r → Yields (Reader.operand · (t.chars ++ r)) (t, r)) : Reads t :=
  .of_within hlevel fun _ _ hr hx => yields_expression (h hr) hx

theorem Reads.of_leaf (hlevel : 1 ≤ t.level)
    (h : ∀ {r}, Follows t.tail r → head? (t.chars ++ r) = some (.leaf t, r)) : Reads t :=
  .of_operand hlevel fun hr => yields_succ fun n => by
    simp only [Reader.operand, h hr, Option.bind_eq_bind, Option.bind_some]

/-- An expression that is a first operand and a suffix: the operand ends where the suffix starts,
and the suffix is read to its own end. -/
theorem Reads.of_suffix {left : Term} (h : Reads left) (suffix : Suffix) (text : List Char)
    (htext : t.chars = left.operand k ++ text) (hlevel : t.level = min suffix.level suffix.least)
    (hk : suffix.least ≤ k)
    (hname : k ≤ left.level → suffix = .name → left.node.isNumber = false)
    (hread : ∀ {r}, Follows t.tail r → ∃ rest, suffix? (text ++ r) = some (suffix, rest) ∧
      Yields (extension · suffix left rest) (t, r)) : Reads t := by
  refine .of_within (hlevel ▸ Level.suffix_pos suffix) fun {least r x} hpos hleast hr hx => ?_
  obtain ⟨hlevel, hoperand⟩ := le_min_iff.mp (hleast.trans hlevel.le)
  obtain ⟨rest, hstart, hrest⟩ := hread hr
  have hends : k ≤ left.level → Follows left.tail (text ++ r) := fun hle =>
    follows_of_suffix? hstart (Level.level_lt_tail (hk.trans hle) (hname hle))
  rw [htext, List.append_assoc]
  refine h.operand hpos (hoperand.trans hk) hends (yields_of_succ ?_)
  filter_upwards [hrest, hx] with n hrest hx
  rw [continuation, hstart]
  simp only [if_pos hlevel, hrest, hx, Option.bind_eq_bind, Option.bind_some]

theorem Reads.of_spaced {left right : Term} (hleft : Reads left) (hright : Reads right)
    (suffix : Suffix) (text : String)
    (htext : t.chars =
      left.operand suffix.least ++ ' ' :: (text.toList ++ ' ' :: right.operand t.tail))
    (hlevel : t.level = min suffix.level suffix.least) (hname : suffix ≠ .name)
    (hstart : ∀ {s}, suffix? (' ' :: (text.toList ++ ' ' :: s)) = some (suffix, s))
    (hread : ∀ {n s r}, expression n t.tail s = some (right, r) →
      extension (n + 1) suffix left s = some (t, r)) : Reads t := by
  refine hleft.of_suffix suffix _ htext hlevel le_rfl (fun _ h => absurd h hname) fun {r} hr =>
    ⟨right.operand t.tail ++ r, ?_, yields_of_succ ?_⟩
  · rw [List.cons_append, List.append_assoc, List.cons_append]
    exact hstart
  · filter_upwards [hright.last (Level.tail_ne _) hr] with n hlast
    exact hread hlast

section Constructors

variable {argument left right : Term}

theorem reads_identifier {name : String} (h : IsIdentifier name) : Reads ⟨.identifier name⟩ := by
  refine .of_leaf (Nat.succ_pos _) fun hr => ?_
  rw [Term.chars_mk]
  exact h.head? hr.apart

theorem reads_null : Reads ⟨.literal .null⟩ := by
  refine .of_leaf (Nat.succ_pos _) fun hr => ?_
  rw [Term.chars_mk]
  exact head?_keyword (w := "null") (by simp [keywords]) hr.apart

theorem reads_this : Reads ⟨.thisExpression⟩ := by
  refine .of_leaf (Nat.succ_pos _) fun hr => ?_
  rw [Term.chars_mk]
  exact head?_keyword (w := "this") (by simp [keywords]) hr.apart

theorem reads_bool (b : Bool) : Reads ⟨.literal (.bool b)⟩ := by
  refine .of_leaf (Nat.succ_pos _) fun hr => ?_
  rw [Term.chars_mk]
  cases b with
  | true => exact head?_keyword (w := "true") (by simp [keywords]) hr.apart
  | false => exact head?_keyword (w := "false") (by simp [keywords]) hr.apart

theorem reads_string (text : String) : Reads ⟨.literal (.string text)⟩ := by
  refine .of_leaf (Nat.succ_pos _) fun hr => ?_
  rw [Term.chars_mk]
  exact head?_string text

theorem reads_number {x : Float} (hfinite : x.isFinite) (hsign : isNegative x = false) :
    Reads ⟨.literal (.number x)⟩ := by
  refine .of_leaf (Nat.succ_pos _) fun hr => ?_
  rw [Term.chars_mk]
  exact head?_number hfinite hsign hr

theorem reads_unary (operator : UnaryOp) (h : Reads argument) :
    Reads ⟨.unaryExpression operator argument⟩ := by
  refine .of_operand (Nat.succ_pos _) fun {r} hr => ?_
  obtain ⟨c, s, hc, hspace, -⟩ := h.exists_cons (k := Level.unary) (by decide)
  have hhead : head? (Term.chars ⟨.unaryExpression operator argument⟩ ++ r) =
      some (.unary operator, argument.operand Level.unary ++ r) := by
    rw [Term.chars_mk]
    exact head?_unary operator argument.phrase
      ⟨c, List.head?_eq_some_iff.mpr ⟨s, hc⟩, hspace⟩
  apply yields_of_succ
  filter_upwards [h.last (k := Level.unary) (by decide) hr] with n hlast
  simp only [Reader.operand, hhead, hlast, Option.bind_eq_bind, Option.bind_some]

theorem reads_update_before (operator : UpdateOp) (h : Reads argument) :
    Reads ⟨.updateExpression operator argument true⟩ := by
  refine .of_operand (Nat.succ_pos _) fun {r} hr => ?_
  have hhead : head? (Term.chars ⟨.updateExpression operator argument true⟩ ++ r) =
      some (.update operator, argument.operand Level.unary ++ r) := by
    rw [Term.chars_mk]
    change head? ((spell operator ++ argument.phrase.operand Level.unary).toList ++ r) = _
    rw [String.toList_append, List.append_assoc]
    exact head?_update operator
  apply yields_of_succ
  filter_upwards [h.last (k := Level.unary) (by decide) hr] with n hlast
  simp only [Reader.operand, hhead, hlast, Option.bind_eq_bind, Option.bind_some]

theorem reads_update_after (operator : UpdateOp) (h : Reads argument) :
    Reads ⟨.updateExpression operator argument false⟩ := by
  refine h.of_suffix (.update operator) (spell operator).toList ?_ rfl le_rfl (by simp)
    fun {r} hr => ⟨r, suffix?_update operator, yields_succ fun n => ?_⟩
  · rw [Term.chars_mk]
    exact String.toList_append
  · rw [extension]

theorem reads_binary (operator : BinaryOp) (hleft : Reads left) (hright : Reads right) :
    Reads ⟨.binaryExpression operator left right⟩ := by
  refine hleft.of_spaced hright (.binary operator) (spell operator) ?_ ?_ (by simp)
    (suffix?_binary operator) fun {n s r} hright => ?_
  · rw [Term.chars_mk]
    change (Phrase.binary operator left.phrase right.phrase).toList = _
    unfold Phrase.binary Term.operand
    simp only [Suffix.least, Term.tail, Term.node, Level.tail]
    split_ifs <;> simp
  · cases operator <;> rfl
  · change expression n (if operator = .exp then _ else _) s = _ at hright
    simp only [extension, hright, Option.bind_eq_bind, Option.bind_some]

theorem reads_logical (operator : LogicalOp) (hleft : Reads left) (hright : Reads right) :
    Reads ⟨.logicalExpression operator left right⟩ := by
  refine hleft.of_spaced hright (.logical operator) (spell operator) ?_ ?_ (by simp)
    (suffix?_logical operator) fun {n s r} hright => ?_
  · rw [Term.chars_mk]
    change (Phrase.logical operator left.phrase right.phrase).toList = _
    unfold Phrase.logical
    simp [Suffix.least, Term.operand, Term.tail, Term.node, Level.tail]
  · cases operator <;> rfl
  · change expression n (Level.logical operator + 1) s = _ at hright
    simp only [extension, hright, Option.bind_eq_bind, Option.bind_some]

theorem reads_assignment (operator : AssignOp) (hleft : Reads left) (hright : Reads right) :
    Reads ⟨.assignmentExpression operator left right⟩ := by
  refine hleft.of_spaced hright (.assignment operator) (spell operator) ?_ rfl (by simp)
    (suffix?_assignment operator) fun {n s r} hright => ?_
  · rw [Term.chars_mk]
    change (left.phrase.operand Level.call ++ " " ++ spell operator ++ " "
      ++ right.phrase.operand Level.assignment).toList = _
    simp [Suffix.least, Term.operand, Term.tail, Term.node, Level.tail]
  · change expression n Level.assignment s = _ at hright
    simp only [extension, hright, Option.bind_eq_bind, Option.bind_some]

theorem reads_conditional {test consequent alternate : Term} (htest : Reads test)
    (hconsequent : Reads consequent) (halternate : Reads alternate) :
    Reads ⟨.conditionalExpression test consequent alternate⟩ := by
  refine htest.of_suffix .conditional (" ? ".toList ++ (consequent.operand Level.assignment ++
      (" : ".toList ++ alternate.operand Level.assignment))) ?_ rfl le_rfl (by simp) fun {r} hr =>
    ⟨consequent.operand Level.assignment ++ (" : ".toList ++
      (alternate.operand Level.assignment ++ r)), ?_, yields_of_succ ?_⟩
  · rw [Term.chars_mk]
    change (test.phrase.operand (Level.conditional + 1) ++ " ? "
      ++ consequent.phrase.operand Level.assignment ++ " : "
      ++ alternate.phrase.operand Level.assignment).toList = _
    simp only [String.toList_append, List.append_assoc]
    rfl
  · simp only [List.append_assoc]
    exact suffix?_conditional
  · have hcolon : Follows Level.assignment (" : ".toList ++
        (alternate.operand Level.assignment ++ r)) := follows_colon
    filter_upwards [hconsequent.item hcolon, halternate.item hr] with n hconsequent halternate
    simp only [extension, hconsequent, halternate, word?_append, Option.bind_eq_bind,
      Option.bind_some]

theorem follows_commaLed (ts : List Term) (hr : Closes r) :
    Follows least (Term.commaLed ts ++ r) := by
  cases ts with
  | nil => exact follows_end hr
  | cons t ts =>
    apply follows_closing
    simp [Term.commaLed]

theorem yields_more {ts : List Term} (h : ∀ t ∈ ts, Reads t) (hr : Closes r) :
    Yields (more · (Term.commaLed ts ++ r)) (ts, r) := by
  induction ts with
  | nil => exact yields_more_end hr
  | cons t ts ih =>
    obtain ⟨ht, hts⟩ := List.forall_mem_cons.mp h
    have hchars : Term.commaLed (t :: ts) ++ r =
        ',' :: ' ' :: (t.operand Level.assignment ++ (Term.commaLed ts ++ r)) := by
      simp [Term.commaLed]
    rw [hchars]
    apply yields_of_succ
    filter_upwards [ht.item (follows_commaLed ts hr), ih hts] with n hitem hmore
    simp only [more, hitem, hmore, Option.bind_eq_bind, Option.bind_some]

theorem yields_arguments {ts : List Term} (h : ∀ t ∈ ts, Reads t) (r : List Char) :
    Yields (arguments · (Term.commaList ts ++ ')' :: r)) (ts, r) := by
  cases ts with
  | nil =>
    refine yields_succ fun n => ?_
    rw [Term.commaList_nil, List.nil_append, arguments]
  | cons t ts =>
    obtain ⟨ht, hts⟩ := List.forall_mem_cons.mp h
    have hend : Closes (')' :: r) := closes_cons (.inl rfl)
    have hitem := ht.item (follows_commaLed ts hend)
    obtain ⟨c, s, hs, -, hparen, -⟩ := ht.exists_cons (k := Level.assignment) (by decide)
    rw [Term.commaList_cons, List.append_assoc]
    rw [hs, List.cons_append] at hitem ⊢
    apply yields_of_succ
    filter_upwards [hitem, yields_more hts hend] with n hitem hmore
    rw [arguments]
    · simp only [hitem, hmore, word?_cons, Option.bind_eq_bind, Option.bind_some]
    · exact fun s h => hparen (List.cons.inj h).1

theorem reads_call {callee : Term} {ts : List Term} (hcallee : Reads callee)
    (hts : ∀ t ∈ ts, Reads t) : Reads ⟨.callExpression callee ts⟩ := by
  refine hcallee.of_suffix .call ('(' :: (Term.commaList ts ++ [')'])) ?_ rfl le_rfl (by simp)
    fun {r} hr => ⟨Term.commaList ts ++ ')' :: r, ?_, yields_of_succ ?_⟩
  · rw [Term.chars_mk]
    change (callee.phrase.operand Level.call ++ "(" ++ Phrase.commaList (ts.map Term.phrase)
      ++ ")").toList = _
    simp only [String.toList_append, List.append_assoc]
    rfl
  · simp only [List.cons_append, List.append_assoc, List.nil_append]
    rfl
  · filter_upwards [yields_arguments hts r] with n harguments
    simp only [extension, harguments, Option.bind_eq_bind, Option.bind_some]

theorem reads_new {callee : Term} {ts : List Term} (hcallee : Reads callee)
    (hts : ∀ t ∈ ts, Reads t) : Reads ⟨.newExpression callee ts⟩ := by
  refine .of_operand (Nat.succ_pos _) fun {r} hr => ?_
  have hhead : head? (Term.chars ⟨.newExpression callee ts⟩ ++ r) =
      some (.new, callee.operand Level.primary ++ '(' :: (Term.commaList ts ++ ')' :: r)) := by
    rw [Term.chars_mk]
    change head? (("new " ++ callee.phrase.operand Level.primary ++ "("
      ++ Phrase.commaList (ts.map Term.phrase) ++ ")").toList ++ r) = _
    have hword : head? ("new".toList ++ ' ' :: (callee.operand Level.primary ++
        '(' :: (Term.commaList ts ++ ')' :: r))) = some (.new, _) :=
      head?_keyword_space (by simp [keywords]) rfl
    simpa [Term.operand, Term.commaList] using hword
  have hcall : Follows Level.primary ('(' :: (Term.commaList ts ++ ')' :: r)) :=
    follows_of_suffix? rfl (by decide)
  apply yields_of_succ
  filter_upwards [hcallee.last (k := Level.primary) (by decide) hcall, yields_arguments hts r]
    with n hlast harguments
  simp only [Reader.operand, hhead, hlast, harguments, word?_cons, Option.bind_eq_bind,
    Option.bind_some]

theorem reads_index {object prop : Term} (hobject : Reads object) (hprop : Reads prop) :
    Reads ⟨.memberExpression object prop true⟩ := by
  refine hobject.of_suffix (k := if object.node.isNumber then Level.primary + 1 else Level.call)
    .index ('[' :: (prop.chars ++ [']'])) ?_ rfl ?_ (by simp)
    fun {r} hr => ⟨prop.chars ++ ']' :: r, ?_, yields_of_succ ?_⟩
  · rw [Term.chars_mk]
    exact Term.toList_member object prop true
  · split_ifs <;> decide
  · simp only [List.cons_append, List.append_assoc, List.nil_append]
    rfl
  · filter_upwards [hprop.alone (closes_cons (r := r) (.inr (.inl rfl)))] with n hinner
    simp only [extension, hinner, word?_cons, Option.bind_eq_bind, Option.bind_some]

theorem reads_name {object : Term} {name : String} (hobject : Reads object) (hname : IsWord name) :
    Reads ⟨.memberExpression object ⟨.identifier name⟩ false⟩ := by
  refine hobject.of_suffix (k := if object.node.isNumber then Level.primary + 1 else Level.call)
    .name ('.' :: name.toList) ?_ rfl ?_ ?_
    fun {r} hr => ⟨name.toList ++ r, rfl, yields_succ fun n => ?_⟩
  · rw [Term.chars_mk]
    exact Term.toList_member object ⟨.identifier name⟩ false
  · split_ifs <;> decide
  · intro hle _
    by_contra hnumber
    rw [Bool.not_eq_false] at hnumber
    rw [if_pos hnumber, Term.level_of_isNumber hnumber] at hle
    exact absurd hle (by decide)
  · obtain ⟨htake, hdrop⟩ := hname.span hr.apart
    simp only [extension, htake, hdrop]

theorem yields_elements_item {es : List (Option Term)} (h : Reads t)
    (hr : Follows Level.assignment r) (hafter : Yields (elementsAfter · t r) (es, rest)) :
    Yields (elements · (t.operand Level.assignment ++ r)) (es, rest) := by
  have hitem := h.item hr
  obtain ⟨c, s, hs, -, -, hbracket, hcomma⟩ := h.exists_cons (k := Level.assignment) (by decide)
  rw [hs, List.cons_append] at hitem ⊢
  apply yields_of_succ
  filter_upwards [hitem, hafter] with n hitem hafter
  rw [elements]
  · simp only [hitem, hafter, Option.bind_eq_bind, Option.bind_some]
  · exact fun s h => hbracket (List.cons.inj h).1
  · exact fun s h => hcomma (List.cons.inj h).1
  · exact fun s h => hcomma (List.cons.inj h).1

theorem yields_elements {es : List (Option Term)} (h : ∀ e, some e ∈ es → Reads e)
    (r : List Char) : Yields (elements · (Term.elementList es ++ r)) (es, r) := by
  induction es using Term.elementList.induct with
  | case1 =>
    refine yields_succ fun n => ?_
    rw [Term.elementList, List.cons_append, elements, List.nil_append]
  | case2 e =>
    cases e with
    | none =>
      refine yields_succ fun n => ?_
      simp [Term.elementList, elements]
    | some t =>
      have hend : Closes (']' :: r) := closes_cons (.inr (.inl rfl))
      simp only [Term.elementList, Option.elim_some, List.append_assoc, List.singleton_append]
      refine yields_elements_item (h t (List.mem_singleton_self _)) (follows_end hend)
        (yields_succ fun n => ?_)
      rw [elementsAfter]
      · simp only [word?_cons, Option.bind_eq_bind, Option.bind_some]
      · simp
  | case3 e es hne ih =>
    have ih := ih fun e he => h e (List.mem_cons_of_mem _ he)
    have hsplit : ", ".toList ++ (Term.elementList es ++ r) =
        ',' :: ' ' :: (Term.elementList es ++ r) := rfl
    rw [Term.elementList]
    · rw [List.append_assoc, List.append_assoc, hsplit]
      cases e with
      | none =>
        apply yields_of_succ
        filter_upwards [ih] with n ih
        simp only [Option.elim_none, List.nil_append, elements, ih, Option.bind_eq_bind,
          Option.bind_some]
      | some t =>
        have hfollows : Follows Level.assignment (',' :: ' ' :: (Term.elementList es ++ r)) :=
          follows_closing (by simp)
        refine yields_elements_item (h t (List.mem_cons_self ..)) hfollows (yields_of_succ ?_)
        filter_upwards [ih] with n ih
        simp only [elementsAfter, ih, Option.bind_eq_bind, Option.bind_some]
    · exact hne

theorem reads_array {es : List (Option Term)} (h : ∀ e, some e ∈ es → Reads e) :
    Reads ⟨.arrayExpression es⟩ := by
  refine .of_operand (Nat.succ_pos _) fun {r} hr => ?_
  have hchars : Term.chars ⟨.arrayExpression es⟩ = '[' :: Term.elementList es := by
    rw [Term.chars_mk]
    exact Term.toList_elements es
  have hhead : head? ('[' :: Term.elementList es ++ r) =
      some (.array, Term.elementList es ++ r) := rfl
  rw [hchars]
  apply yields_of_succ
  filter_upwards [yields_elements h r] with n helements
  simp only [Reader.operand, hhead, helements, Option.bind_eq_bind, Option.bind_some]

theorem reads_sequence {ts : List Term} (h : ∀ t ∈ ts, Reads t) (htwo : 2 ≤ ts.length) :
    Reads ⟨.sequenceExpression ts⟩ where
  within hpos hle := absurd (hpos.trans hle) (Nat.not_succ_le_zero 0)
  alone {r} hr := by
    obtain ⟨t, ts, rfl⟩ := List.exists_cons_of_length_pos (Nat.lt_of_succ_lt htwo)
    obtain ⟨ht, hts⟩ := List.forall_mem_cons.mp h
    have hchars : Term.chars ⟨.sequenceExpression (t :: ts)⟩ =
        t.operand Level.assignment ++ Term.commaLed ts := by
      rw [Term.chars_mk, ← Term.commaList_cons]
      rfl
    have hmany : ts.isEmpty = false := by
      cases ts with
      | nil => simp at htwo
      | cons => rfl
    rw [hchars, List.append_assoc]
    apply yields_of_succ
    filter_upwards [ht.item (follows_commaLed ts hr), yields_more hts hr] with n hitem hmore
    simp only [sequence, hitem, hmore, hmany, Option.bind_eq_bind, Option.bind_some,
      Bool.false_eq_true, if_false]

end Constructors

end Reader

/-- Expressions without functions, objects and regular expressions, whose numbers have no sign. A
sequence has more than one member, and the name of a member access may be any word. -/
inductive Term.IsExpression : Term → Prop
  | identifier {name : String} (h : IsIdentifier name) : IsExpression ⟨.identifier name⟩
  | null : IsExpression ⟨.literal .null⟩
  | bool (b : Bool) : IsExpression ⟨.literal (.bool b)⟩
  | string (text : String) : IsExpression ⟨.literal (.string text)⟩
  | number {x : Float} (hfinite : x.isFinite) (hsign : isNegative x = false) :
    IsExpression ⟨.literal (.number x)⟩
  | this : IsExpression ⟨.thisExpression⟩
  | array {es : List (Option Term)} (h : ∀ e, some e ∈ es → IsExpression e) :
    IsExpression ⟨.arrayExpression es⟩
  | unary (operator : UnaryOp) {argument : Term} (h : IsExpression argument) :
    IsExpression ⟨.unaryExpression operator argument⟩
  | update (operator : UpdateOp) {argument : Term} (before : Bool) (h : IsExpression argument) :
    IsExpression ⟨.updateExpression operator argument before⟩
  | binary (operator : BinaryOp) {left right : Term} (hleft : IsExpression left)
    (hright : IsExpression right) : IsExpression ⟨.binaryExpression operator left right⟩
  | logical (operator : LogicalOp) {left right : Term} (hleft : IsExpression left)
    (hright : IsExpression right) : IsExpression ⟨.logicalExpression operator left right⟩
  | assignment (operator : AssignOp) {left right : Term} (hleft : IsExpression left)
    (hright : IsExpression right) : IsExpression ⟨.assignmentExpression operator left right⟩
  | conditional {test consequent alternate : Term} (htest : IsExpression test)
    (hconsequent : IsExpression consequent) (halternate : IsExpression alternate) :
    IsExpression ⟨.conditionalExpression test consequent alternate⟩
  | call {callee : Term} {ts : List Term} (hcallee : IsExpression callee)
    (hts : ∀ t ∈ ts, IsExpression t) : IsExpression ⟨.callExpression callee ts⟩
  | new {callee : Term} {ts : List Term} (hcallee : IsExpression callee)
    (hts : ∀ t ∈ ts, IsExpression t) : IsExpression ⟨.newExpression callee ts⟩
  | index {object prop : Term} (hobject : IsExpression object) (hprop : IsExpression prop) :
    IsExpression ⟨.memberExpression object prop true⟩
  | name {object : Term} {name : String} (hobject : IsExpression object) (hname : IsWord name) :
    IsExpression ⟨.memberExpression object ⟨.identifier name⟩ false⟩
  | sequence {ts : List Term} (h : ∀ t ∈ ts, IsExpression t) (htwo : 2 ≤ ts.length) :
    IsExpression ⟨.sequenceExpression ts⟩

namespace Term

variable {a b : Term}

theorem IsExpression.reads {t : Term} (h : t.IsExpression) : Reads t := by
  induction h with
  | identifier h => exact reads_identifier h
  | null => exact reads_null
  | bool b => exact reads_bool b
  | string text => exact reads_string text
  | number hfinite hsign => exact reads_number hfinite hsign
  | this => exact reads_this
  | array _ ih => exact reads_array ih
  | unary operator _ ih => exact reads_unary operator ih
  | update operator before _ ih =>
    cases before with
    | true => exact reads_update_before operator ih
    | false => exact reads_update_after operator ih
  | binary operator _ _ ihleft ihright => exact reads_binary operator ihleft ihright
  | logical operator _ _ ihleft ihright => exact reads_logical operator ihleft ihright
  | assignment operator _ _ ihleft ihright => exact reads_assignment operator ihleft ihright
  | conditional _ _ _ ihtest ihconsequent ihalternate =>
    exact reads_conditional ihtest ihconsequent ihalternate
  | call _ _ ihcallee ihts => exact reads_call ihcallee ihts
  | new _ _ ihcallee ihts => exact reads_new ihcallee ihts
  | index _ _ ihobject ihprop => exact reads_index ihobject ihprop
  | name _ hname ihobject => exact reads_name ihobject hname
  | sequence _ htwo ih => exact reads_sequence ih htwo

theorem IsExpression.yields_chars {t : Term} (h : t.IsExpression) :
    Yields (Reader.sequence · t.chars) (t, []) := by
  have hread := h.reads.alone closes_nil
  rwa [List.append_nil] at hread

/-- Two expressions with one text are one expression. -/
theorem render_inj (ha : a.IsExpression) (hb : b.IsExpression) :
    a.render = b.render ↔ a = b := by
  refine ⟨fun h => ?_, congrArg render⟩
  have hchars : a.chars = b.chars := congrArg String.toList h
  have hread := ha.yields_chars
  rw [hchars] at hread
  exact congrArg Prod.fst (hread.unique hb.yields_chars)

/-- `a - (b - c)` -/
def differenceRight : Term :=
  ⟨.binaryExpression .sub ⟨.identifier "a"⟩
    ⟨.binaryExpression .sub ⟨.identifier "b"⟩ ⟨.identifier "c"⟩⟩⟩

/-- `a - b - c` -/
def differenceLeft : Term :=
  ⟨.binaryExpression .sub ⟨.binaryExpression .sub ⟨.identifier "a"⟩ ⟨.identifier "b"⟩⟩
    ⟨.identifier "c"⟩⟩

theorem render_inj_difference : differenceRight.IsExpression ∧ differenceLeft.IsExpression ∧
    differenceRight ≠ differenceLeft ∧ differenceRight.render ≠ differenceLeft.render := by
  have hright : differenceRight.IsExpression :=
    .binary .sub (.identifier (by decide))
      (.binary .sub (.identifier (by decide)) (.identifier (by decide)))
  have hleft : differenceLeft.IsExpression :=
    .binary .sub (.binary .sub (.identifier (by decide)) (.identifier (by decide)))
      (.identifier (by decide))
  have hne : differenceRight ≠ differenceLeft := by
    intro h
    cases h
  exact ⟨hright, hleft, hne, fun h => hne ((render_inj hright hleft).mp h)⟩

end Term

end ScriptFold

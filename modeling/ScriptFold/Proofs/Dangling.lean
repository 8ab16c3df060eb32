import ScriptFold.Proofs.Legible

/-!
Rendered statements and the `else` that dangles.

The branches of an `if` and the body of a loop are rendered as they are. An `else` after a
consequent that ends in an `if` without one therefore stands where it belongs to that `if`, and the
text is also that of another statement. Main statements: a statement has the text of the one whose
every `else` has been moved to the nearest `if` (`render_nearest`), and two statements have one text
exactly if they are the same once that is done (`render_eq_iff`).
-/

namespace ScriptFold

open Reader

namespace Term

/-- Whether a statement ends in an `if` without an `else`. -/
def isOpen : Term → Bool
  | ⟨.ifStatement _ _ none⟩ => true
  | ⟨.ifStatement _ _ (some alternate)⟩ => alternate.isOpen
  | ⟨.whileStatement _ body⟩ => body.isOpen
  | _ => false

/-- An open statement with an `else` after it, which goes to the last `if` that has none. -/
def withElse : Term → Term → Term
  | ⟨.ifStatement test consequent none⟩, alternate =>
    if consequent.isOpen then ⟨.ifStatement test (consequent.withElse alternate) none⟩
    else ⟨.ifStatement test consequent (some alternate)⟩
  | ⟨.ifStatement test consequent (some other)⟩, alternate =>
    ⟨.ifStatement test consequent (some (other.withElse alternate))⟩
  | ⟨.whileStatement test body⟩, alternate => ⟨.whileStatement test (body.withElse alternate)⟩
  | t, _ => t

/-- A statement with every `else` at the nearest `if` before it. -/
def nearest : Term → Term
  | ⟨.blockStatement body⟩ => ⟨.blockStatement (body.map nearest)⟩
  | ⟨.ifStatement test consequent none⟩ => ⟨.ifStatement test consequent.nearest none⟩
  | ⟨.ifStatement test consequent (some alternate)⟩ =>
    -- an `else` moved within the consequent may leave it open, so the consequent comes first
    if consequent.nearest.isOpen then
      ⟨.ifStatement test (consequent.nearest.withElse alternate.nearest) none⟩
    else ⟨.ifStatement test consequent.nearest (some alternate.nearest)⟩
  | ⟨.whileStatement test body⟩ => ⟨.whileStatement test body.nearest⟩
  | t => t

/-- Statements of `if`, `while`, blocks, empty statements and expressions. No expression starts like
another statement or like an `else`, as it might where that is the name of a variable. -/
inductive IsStatement : Term → Prop
  | expression {e : Term} (h : e.IsExpression)
    (hstart : ∀ w ∈ ["if (", "while (", "else "], ¬ w.toList <+: e.chars) :
    IsStatement ⟨.expressionStatement e none⟩
  | empty : IsStatement ⟨.emptyStatement⟩
  | block {body : List Term} (h : ∀ t ∈ body, IsStatement t) : IsStatement ⟨.blockStatement body⟩
  | loop {test body : Term} (htest : test.IsExpression) (hbody : IsStatement body) :
    IsStatement ⟨.whileStatement test body⟩
  | when {test consequent : Term} (htest : test.IsExpression)
    (hconsequent : IsStatement consequent) : IsStatement ⟨.ifStatement test consequent none⟩
  | choice {test consequent alternate : Term} (htest : test.IsExpression)
    (hconsequent : IsStatement consequent) (halternate : IsStatement alternate) :
    IsStatement ⟨.ifStatement test consequent (some alternate)⟩

def led (ts : List Term) : List Char :=
  ts.flatMap fun t => ' ' :: t.chars

section Chars

variable {test consequent alternate body e t u : Term}

theorem chars_empty : chars ⟨.emptyStatement⟩ = [';'] := by
  rw [chars_mk]
  rfl

theorem chars_when : chars ⟨.ifStatement test consequent none⟩ =
    "if (".toList ++ (test.chars ++ (") ".toList ++ consequent.chars)) := by
  rw [chars_mk]
  change ("if (" ++ test.render ++ ") " ++ consequent.render ++ "").toList = _
  simp [chars]

theorem chars_choice : chars ⟨.ifStatement test consequent (some alternate)⟩ =
    chars ⟨.ifStatement test consequent none⟩ ++ " else ".toList ++ alternate.chars := by
  rw [chars_when, chars_mk]
  change ("if (" ++ test.render ++ ") " ++ consequent.render ++
    (" else " ++ alternate.render)).toList = _
  simp [chars]

theorem chars_loop : chars ⟨.whileStatement test body⟩ =
    "while (".toList ++ (test.chars ++ (") ".toList ++ body.chars)) := by
  rw [chars_mk]
  change ("while (" ++ test.render ++ ") " ++ body.render).toList = _
  simp [chars]

theorem chars_block (ts : List Term) : chars ⟨.blockStatement ts⟩ =
    '\x7b' :: (led ts ++ (if ts.isEmpty then ['\x7d'] else [' ', '\x7d'])) := by
  rw [chars_mk]
  change (Phrase.block (ts.map phrase)).toList = _
  unfold Phrase.block Phrase.spaced Phrase.separated
  cases ts with
  | nil => rfl
  | cons t ts =>
    have hrest : (" ".intercalate (((t :: ts).map phrase).map Phrase.text)).toList =
        t.chars ++ led ts := by
      rw [String.toList_intercalate]
      induction ts generalizing t with
      | nil => simp [led, chars, render]
      | cons u ts ih =>
        simp only [List.map_cons, List.intercalate_cons_cons] at ih ⊢
        rw [ih u]
        simp [led, chars, render]
    have hsome : ((t :: ts).map phrase).isEmpty = false := rfl
    rw [hsome, if_neg Bool.false_ne_true, String.toList_append, String.toList_append, hrest]
    simp [led]

/-- An expression statement that would start like a function is put in parentheses. -/
theorem chars_expression (e : Term) :
    chars ⟨.expressionStatement e none⟩ = e.chars ++ [';'] ∨
      chars ⟨.expressionStatement e none⟩ = '(' :: (e.chars ++ [')', ';']) := by
  rw [chars_mk]
  change (Phrase.statement e.phrase).toList = _ ∨ (Phrase.statement e.phrase).toList = _
  unfold Phrase.statement
  dsimp only
  split_ifs
  · exact .inr (by simp [chars, render])
  · exact .inl (by simp [chars, render])

theorem chars_withElse (h : t.isOpen = true) :
    (t.withElse u).chars = t.chars ++ " else ".toList ++ u.chars := by
  induction t, u using withElse.induct with
  | case1 test consequent alternate hopen ih =>
    rw [withElse, if_pos hopen, chars_when, ih hopen, chars_when]
    simp
  | case2 test consequent alternate hopen =>
    rw [withElse, if_neg hopen, chars_choice]
  | case3 test consequent other alternate ih =>
    rw [isOpen] at h
    rw [withElse, chars_choice, ih h, chars_choice]
    simp
  | case4 test body alternate ih =>
    rw [isOpen] at h
    rw [withElse, chars_loop, ih h, chars_loop]
    simp
  | case5 t alternate hwhen hchoice hloop =>
    rw [isOpen] at h
    · cases h
    all_goals assumption

theorem led_map_nearest {ts : List Term} (h : ∀ t ∈ ts, t.nearest.chars = t.chars) :
    led (ts.map nearest) = led ts := by
  unfold led
  rw [List.flatMap_map]
  exact List.flatMap_congr fun t ht => by rw [h t ht]

theorem chars_nearest (t : Term) : t.nearest.chars = t.chars := by
  induction t using nearest.induct with
  | case1 body ih => rw [nearest, chars_block, chars_block, led_map_nearest ih, List.isEmpty_map]
  | case2 test consequent ih => rw [nearest, chars_when, chars_when, ih]
  | case3 test consequent alternate hopen ihconsequent ihalternate =>
    rw [nearest, if_pos hopen, chars_when, chars_withElse hopen, chars_choice, chars_when,
      ihconsequent, ihalternate]
    simp
  | case4 test consequent alternate hopen ihconsequent ihalternate =>
    rw [nearest, if_neg hopen, chars_choice, chars_choice, chars_when, chars_when, ihconsequent,
      ihalternate]
  | case5 test body ih => rw [nearest, chars_loop, chars_loop, ih]
  | case6 t hblock hwhen hchoice hloop =>
    rw [nearest]
    all_goals assumption

/-- Moving every `else` to the nearest `if` leaves the text as it is. -/
theorem render_nearest (t : Term) : t.nearest.render = t.render :=
  String.toList_injective (chars_nearest t)

end Chars

section Nearest

variable {t u : Term}

theorem IsStatement.withElse (ht : t.IsStatement) (hu : u.IsStatement) :
    (t.withElse u).IsStatement := by
  induction ht with
  | expression h hstart => exact .expression h hstart
  | empty => exact .empty
  | block h => exact .block h
  | loop htest hbody ih => exact .loop htest ih
  | when htest hconsequent ih =>
    rw [Term.withElse]
    split_ifs
    · exact .when htest ih
    · exact .choice htest hconsequent hu
  | choice htest hconsequent halternate _ ih => exact .choice htest hconsequent ih

theorem IsStatement.nearest (h : t.IsStatement) : t.nearest.IsStatement := by
  induction h with
  | expression h hstart =>
    rw [Term.nearest]
    · exact .expression h hstart
    all_goals simp
  | empty =>
    rw [Term.nearest]
    · exact .empty
    all_goals simp
  | block h ih =>
    rw [Term.nearest]
    refine .block fun t ht => ?_
    obtain ⟨u, hu, rfl⟩ := List.mem_map.mp ht
    exact ih u hu
  | loop htest hbody ih =>
    rw [Term.nearest]
    exact .loop htest ih
  | when htest hconsequent ih =>
    rw [Term.nearest]
    exact .when htest ih
  | choice htest _ _ ihconsequent ihalternate =>
    rw [Term.nearest]
    split_ifs
    · exact .when htest (ihconsequent.withElse ihalternate)
    · exact .choice htest ihconsequent ihalternate

/-- Where an `else` is at the nearest `if`, the consequent before it is not open. -/
theorem nearest_choice {test consequent alternate : Term} :
    nearest ⟨.ifStatement test consequent (some alternate)⟩ =
        ⟨.ifStatement test consequent (some alternate)⟩ ↔
      consequent.nearest = consequent ∧ alternate.nearest = alternate ∧
        consequent.isOpen = false := by
  rw [nearest]
  split_ifs with hopen
  · constructor
    · intro h
      injection h with h
      injection h with _ _ halternate
      cases halternate
    · rintro ⟨hconsequent, -, hclosed⟩
      rw [hconsequent, hclosed] at hopen
      cases hopen
  · constructor
    · intro h
      injection h with h
      injection h with _ hconsequent halternate
      rw [hconsequent] at hopen
      exact ⟨hconsequent, Option.some.inj halternate, Bool.eq_false_iff.mpr hopen⟩
    · rintro ⟨hconsequent, halternate, -⟩
      rw [hconsequent, halternate]

theorem nearest_when {test consequent : Term} :
    nearest ⟨.ifStatement test consequent none⟩ = ⟨.ifStatement test consequent none⟩ ↔
      consequent.nearest = consequent := by
  rw [nearest]
  simp

theorem nearest_loop {test body : Term} :
    nearest ⟨.whileStatement test body⟩ = ⟨.whileStatement test body⟩ ↔ body.nearest = body := by
  rw [nearest]
  simp

theorem nearest_block {ts : List Term} :
    nearest ⟨.blockStatement ts⟩ = ⟨.blockStatement ts⟩ ↔ ∀ t ∈ ts, t.nearest = t := by
  rw [nearest]
  simpa using List.map_eq_map_iff (f := nearest) (g := id) (l := ts)

theorem nearest_withElse (ht : t.nearest = t) (hu : u.nearest = u) (hopen : t.isOpen = true) :
    (t.withElse u).nearest = t.withElse u := by
  induction t, u using withElse.induct with
  | case1 test consequent alternate hconsequent ih =>
    rw [withElse, if_pos hconsequent]
    exact nearest_when.mpr (ih (nearest_when.mp ht) hu hconsequent)
  | case2 test consequent alternate hconsequent =>
    rw [withElse, if_neg hconsequent]
    exact nearest_choice.mpr ⟨nearest_when.mp ht, hu, Bool.eq_false_iff.mpr hconsequent⟩
  | case3 test consequent other alternate ih =>
    rw [isOpen] at hopen
    rw [withElse]
    obtain ⟨hconsequent, hother, hclosed⟩ := nearest_choice.mp ht
    exact nearest_choice.mpr ⟨hconsequent, ih hother hu hopen, hclosed⟩
  | case4 test body alternate ih =>
    rw [isOpen] at hopen
    rw [withElse]
    exact nearest_loop.mpr (ih (nearest_loop.mp ht) hu hopen)
  | case5 t alternate hwhen hchoice hloop =>
    rw [isOpen] at hopen
    · cases hopen
    all_goals assumption

theorem nearest_nearest (t : Term) : t.nearest.nearest = t.nearest := by
  induction t using nearest.induct with
  | case1 body ih =>
    rw [nearest]
    exact nearest_block.mpr (List.forall_mem_map.mpr ih)
  | case2 test consequent ih =>
    rw [nearest]
    exact nearest_when.mpr ih
  | case3 test consequent alternate hopen ihconsequent ihalternate =>
    rw [nearest, if_pos hopen]
    exact nearest_when.mpr (nearest_withElse ihconsequent ihalternate hopen)
  | case4 test consequent alternate hopen ihconsequent ihalternate =>
    rw [nearest, if_neg hopen]
    exact nearest_choice.mpr ⟨ihconsequent, ihalternate, Bool.eq_false_iff.mpr hopen⟩
  | case5 test body ih =>
    rw [nearest]
    exact nearest_loop.mpr ih
  | case6 t hblock hwhen hchoice hloop =>
    have hself : t.nearest = t := by
      rw [nearest]
      all_goals assumption
    rw [hself, hself]

end Nearest

end Term

namespace Reader

open Options (word?)

/-- How a statement starts. -/
inductive Opening where
  | empty
  | block
  | branch
  | loop
  | expression

def openings : List (String × Opening) :=
  [(";", .empty), ("\x7b", .block), ("if (", .branch), ("while (", .loop)]

def opening (s : List Char) : Opening × List Char :=
  (openings.findSome? fun p => (word? p.1.toList s).map (p.2, ·)).getD (.expression, s)

mutual

/-- A statement with every `else` that stands at its end. -/
def statement : ℕ → List Char → Option (Term × List Char)
  | 0, _ => none
  | n + 1, s =>
    let (start, s) := opening s
    match start with
    | .empty => some (⟨.emptyStatement⟩, s)
    | .block => do
      let (ts, s) ← statements n s
      some (⟨.blockStatement ts⟩, s)
    | .branch => do
      let (test, s) ← sequence n s
      let s ← word? ") ".toList s
      let (consequent, s) ← statement n s
      let (alternate, s) ← alternate n s
      some (⟨.ifStatement test consequent alternate⟩, s)
    | .loop => do
      let (test, s) ← sequence n s
      let s ← word? ") ".toList s
      let (body, s) ← statement n s
      some (⟨.whileStatement test body⟩, s)
    | .expression => do
      let (e, s) ← sequence n s
      let s ← word? [';'] s
      some (⟨.expressionStatement e none⟩, s)

def alternate : ℕ → List Char → Option (Option Term × List Char)
  | 0, _ => none
  | n + 1, s =>
    match word? " else ".toList s with
    | none => some (none, s)
    | some s => do
      let (t, s) ← statement n s
      some (some t, s)

def statements : ℕ → List Char → Option (List Term × List Char)
  | 0, _ => none
  | _ + 1, '\x7d' :: s => some ([], s)
  | _ + 1, ' ' :: '\x7d' :: s => some ([], s)
  | n + 1, ' ' :: s => do
    let (t, s) ← statement n s
    let (ts, s) ← statements n s
    some (t :: ts, s)
  | _ + 1, _ => none

end

variable {t : Term} {r s w : List Char}

theorem word?_eq_none (h : ¬ w <+: s) : word? w s = none := by
  induction w generalizing s with
  | nil => exact absurd List.nil_prefix h
  | cons c w ih =>
    cases s with
    | nil => rfl
    | cons d s =>
      rw [word?]
      split_ifs with hc
      · rw [beq_iff_eq] at hc
        exact ih fun hw => h (List.cons_prefix_cons.mpr ⟨hc, hw⟩)
      · rfl

theorem opening_append {text : String} {start : Opening} (h : (text, start) ∈ openings) :
    opening (text.toList ++ s) = (start, s) := by
  simp only [openings, List.mem_cons, Prod.mk.injEq, List.not_mem_nil, or_false] at h
  obtain ⟨rfl, rfl⟩ | ⟨rfl, rfl⟩ | ⟨rfl, rfl⟩ | ⟨rfl, rfl⟩ := h
  all_goals rfl

theorem opening_expression (h : ∀ p ∈ openings, ¬ p.1.toList <+: s) :
    opening s = (.expression, s) := by
  have hnone : (openings.findSome? fun p => (word? p.1.toList s).map (p.2, ·)) = none := by
    rw [List.findSome?_eq_none_iff]
    intro p hp
    rw [word?_eq_none (h p hp)]
    rfl
  unfold opening
  rw [hnone]
  rfl

theorem Reads.exists_chars (h : Reads t) :
    ∃ c s, t.chars = c :: s ∧ c ≠ ';' ∧ c ≠ '\x7b' ∧ c ≠ '\x7d' := by
  have hread := h.alone closes_nil
  rw [List.append_nil] at hread
  obtain ⟨n, hread, hn⟩ := (hread.and (Filter.eventually_ge_atTop 3)).exists
  obtain ⟨n, rfl⟩ := Nat.exists_eq_add_of_le' hn
  change sequence (n + 1 + 1 + 1) t.chars = _ at hread
  rw [sequence, expression, Reader.operand] at hread
  generalize t.chars = s at hread
  cases s with
  | nil => cases hread
  | cons c s =>
    refine ⟨c, s, rfl, ?_, ?_, ?_⟩
    all_goals
      rintro rfl
      cases hread

theorem Reads.enclosed (h : Reads t) (hr : Closes r) :
    Yields (sequence · ('(' :: (t.chars ++ ')' :: r))) (t, r) :=
  yields_sequence hr (yields_expression (h.paren r) (yields_continuation (follows_end hr) t))

/-- Words are told apart from what follows by any character that is not theirs. -/
theorem prefix_of_append {c : Char} (h : w <+: s ++ c :: r) (hc : c ∉ w) : w <+: s := by
  rcases List.prefix_or_prefix_of_prefix h (List.prefix_append s (c :: r)) with h' | ⟨q, rfl⟩
  · exact h'
  · cases q with
    | nil => simp
    | cons d q =>
      rw [List.prefix_append_right_inj, List.cons_prefix_cons] at h
      exact absurd (by simp [h.1]) hc

theorem opening_term (h : Reads t)
    (hstart : ∀ w ∈ ["if (", "while (", "else "], ¬ w.toList <+: t.chars) :
    opening (t.chars ++ ';' :: r) = (.expression, t.chars ++ ';' :: r) := by
  obtain ⟨c, s, hc, hempty, hblock, -⟩ := h.exists_chars
  refine opening_expression fun p hp hstarts => ?_
  simp only [openings, List.mem_cons, List.not_mem_nil, or_false] at hp
  obtain rfl | rfl | rfl | rfl := hp
  · rw [hc] at hstarts
    exact hempty (List.cons_prefix_cons.mp hstarts).1.symm
  · rw [hc] at hstarts
    exact hblock (List.cons_prefix_cons.mp hstarts).1.symm
  · exact hstart "if (" (by simp) (prefix_of_append hstarts (by decide))
  · exact hstart "while (" (by simp) (prefix_of_append hstarts (by decide))

theorem starts_statement (h : t.IsStatement) (r : List Char) :
    ∀ w ∈ ["else ", "\x7d"], ¬ w.toList <+: t.chars ++ r := by
  simp only [List.mem_cons, List.not_mem_nil, or_false, forall_eq_or_imp, forall_eq]
  cases h with
  | @expression e h hstart =>
    obtain ⟨c, s, hc, -, -, hclose⟩ := h.reads.exists_chars
    rcases Term.chars_expression e with htext | htext
    · rw [htext, List.append_assoc, List.singleton_append]
      refine ⟨fun helse => hstart "else " (by simp) (prefix_of_append helse (by decide)),
        fun hend => ?_⟩
      rw [hc] at hend
      exact hclose (List.cons_prefix_cons.mp hend).1.symm
    · rw [htext]
      simp
  | empty => simp [Term.chars_empty]
  | block h => simp [Term.chars_block]
  | loop htest hbody => simp [Term.chars_loop]
  | when htest hconsequent => simp [Term.chars_when]
  | choice htest hconsequent halternate => simp [Term.chars_choice, Term.chars_when]

/-- A statement is read as what it was rendered from, wherever no `else` follows that it would
take. -/
def Stands (t : Term) : Prop :=
  ∀ r, (t.isOpen = true → ¬ " else ".toList <+: r) → Yields (statement · (t.chars ++ r)) (t, r)

section Constructors

variable {test consequent other body : Term}

theorem stands_expression (h : Reads t)
    (hstart : ∀ w ∈ ["if (", "while (", "else "], ¬ w.toList <+: t.chars) :
    Stands ⟨.expressionStatement t none⟩ := by
  intro r _
  have hclose : Closes (';' :: r) := closes_cons (.inr (.inr rfl))
  apply yields_of_succ
  rcases Term.chars_expression t with htext | htext
  · rw [htext, List.append_assoc, List.singleton_append]
    filter_upwards [h.alone hclose] with n hread
    simp only [statement, opening_term h hstart, hread, word?_cons, Option.bind_eq_bind,
      Option.bind_some]
  · have hopening : opening ('(' :: (t.chars ++ ')' :: ';' :: r)) =
        (.expression, '(' :: (t.chars ++ ')' :: ';' :: r)) := rfl
    rw [htext, List.cons_append, List.append_assoc]
    filter_upwards [h.enclosed hclose] with n hread
    simp only [List.cons_append, List.nil_append, statement, hopening, hread, word?_cons,
      Option.bind_eq_bind, Option.bind_some]

theorem stands_empty : Stands ⟨.emptyStatement⟩ := by
  intro r _
  refine yields_succ fun n => ?_
  have hopening : opening (';' :: r) = (.empty, r) := rfl
  rw [Term.chars_empty, List.singleton_append, statement, hopening]

theorem yields_test (h : Reads test) (r : List Char) :
    Yields (sequence · (test.chars ++ (") ".toList ++ r))) (test, ") ".toList ++ r) :=
  h.alone (closes_cons (.inl rfl))

theorem stands_loop (htest : Reads test) (hbody : Stands body) :
    Stands ⟨.whileStatement test body⟩ := by
  intro r hr
  rw [Term.isOpen] at hr
  rw [Term.chars_loop]
  simp only [List.append_assoc]
  apply yields_of_succ
  have hopening : opening ("while (".toList ++ (test.chars ++ (") ".toList ++ (body.chars ++ r)))) =
      (.loop, test.chars ++ (") ".toList ++ (body.chars ++ r))) :=
    opening_append (by simp [openings])
  filter_upwards [yields_test htest (body.chars ++ r), hbody r hr] with n htest hbody
  simp only [statement, hopening, htest, hbody, word?_append, Option.bind_eq_bind,
    Option.bind_some]

theorem yields_branch {e : Option Term} (htest : Reads test)
    (hconsequent : Yields (statement · (consequent.chars ++ s)) (consequent, s))
    (hafter : Yields (alternate · s) (e, r)) :
    Yields (statement · (Term.chars ⟨.ifStatement test consequent none⟩ ++ s))
      (⟨.ifStatement test consequent e⟩, r) := by
  rw [Term.chars_when]
  simp only [List.append_assoc]
  apply yields_of_succ
  have hopening :
      opening ("if (".toList ++ (test.chars ++ (") ".toList ++ (consequent.chars ++ s)))) =
        (.branch, test.chars ++ (") ".toList ++ (consequent.chars ++ s))) :=
    opening_append (by simp [openings])
  filter_upwards [yields_test htest (consequent.chars ++ s), hconsequent, hafter]
    with n htest hconsequent hafter
  simp only [statement, hopening, htest, hconsequent, hafter, word?_append, Option.bind_eq_bind,
    Option.bind_some]

theorem stands_when (htest : Reads test) (hconsequent : Stands consequent) :
    Stands ⟨.ifStatement test consequent none⟩ := by
  intro r hr
  have hnone : ¬ " else ".toList <+: r := hr (by rw [Term.isOpen])
  refine yields_branch htest (hconsequent r fun _ => hnone) (yields_succ fun n => ?_)
  rw [alternate, word?_eq_none hnone]

/-- A consequent that is not open leaves the `else` to the `if` before it. -/
theorem stands_choice (htest : Reads test) (hconsequent : Stands consequent)
    (hclosed : consequent.isOpen = false) (hother : Stands other) :
    Stands ⟨.ifStatement test consequent (some other)⟩ := by
  intro r hr
  rw [Term.isOpen] at hr
  rw [Term.chars_choice, List.append_assoc, List.append_assoc]
  refine yields_branch htest (hconsequent _ (by simp [hclosed])) (yields_of_succ ?_)
  filter_upwards [hother r hr] with n hother
  simp only [alternate, word?_append, hother, Option.bind_eq_bind, Option.bind_some]

theorem not_else_of_led {ts : List Term} (h : ∀ t ∈ ts, t.IsStatement)
    (hclose : s = ['\x7d'] ∨ s = [' ', '\x7d']) :
    ¬ " else ".toList <+: Term.led ts ++ (s ++ r) := by
  cases ts with
  | nil =>
    obtain rfl | rfl := hclose
    all_goals simp [Term.led]
  | cons t ts =>
    intro helse
    have hstart := starts_statement (h t (List.mem_cons_self ..)) (Term.led ts ++ (s ++ r)) "else "
      (by simp)
    refine hstart ((List.cons_prefix_cons (a := ' ') (b := ' ')).mp ?_).2
    simpa [Term.led] using helse

theorem yields_statements {ts : List Term} (h : ∀ t ∈ ts, t.IsStatement) (hts : ∀ t ∈ ts, Stands t)
    (hclose : s = ['\x7d'] ∨ s = [' ', '\x7d']) :
    Yields (statements · (Term.led ts ++ (s ++ r))) (ts, r) := by
  induction ts with
  | nil =>
    refine yields_succ fun n => ?_
    obtain rfl | rfl := hclose
    all_goals rfl
  | cons t ts ih =>
    obtain ⟨ht, hrest⟩ := List.forall_mem_cons.mp h
    obtain ⟨hstands, hstandsRest⟩ := List.forall_mem_cons.mp hts
    have hchars : Term.led (t :: ts) ++ (s ++ r) =
        ' ' :: (t.chars ++ (Term.led ts ++ (s ++ r))) := by
      simp [Term.led]
    have hend := starts_statement ht (Term.led ts ++ (s ++ r)) "\x7d" (by simp)
    rw [hchars]
    apply yields_of_succ
    filter_upwards [hstands _ fun _ => not_else_of_led (r := r) hrest hclose,
      ih hrest hstandsRest] with n hread hmore
    rw [statements]
    · simp only [hread, hmore, Option.bind_eq_bind, Option.bind_some]
    · intro u hu
      rw [hu] at hend
      simp at hend

theorem stands_block {ts : List Term} (h : ∀ t ∈ ts, t.IsStatement) (hts : ∀ t ∈ ts, Stands t) :
    Stands ⟨.blockStatement ts⟩ := by
  intro r _
  have hclose : (if ts.isEmpty then ['\x7d'] else [' ', '\x7d']) = ['\x7d'] ∨
      (if ts.isEmpty then ['\x7d'] else [' ', '\x7d']) = [' ', '\x7d'] := by
    split_ifs
    · exact .inl rfl
    · exact .inr rfl
  rw [Term.chars_block, List.cons_append, List.append_assoc]
  generalize (if ts.isEmpty then ['\x7d'] else [' ', '\x7d']) = s at hclose
  have hopening : opening ('\x7b' :: (Term.led ts ++ (s ++ r))) =
      (.block, Term.led ts ++ (s ++ r)) := rfl
  apply yields_of_succ
  filter_upwards [yields_statements (r := r) h hts hclose] with n hread
  simp only [statement, hopening, hread, Option.bind_eq_bind, Option.bind_some]

end Constructors

end Reader

namespace Term

variable {a b t u test consequent alternate : Term}

theorem IsStatement.stands (h : t.IsStatement) (hnearest : t.nearest = t) : Stands t := by
  induction h with
  | expression h hstart => exact stands_expression h.reads hstart
  | empty => exact stands_empty
  | block h ih =>
    have hts := nearest_block.mp hnearest
    exact stands_block h fun t ht => ih t ht (hts t ht)
  | loop htest _ ih => exact stands_loop htest.reads (ih (nearest_loop.mp hnearest))
  | when htest _ ih => exact stands_when htest.reads (ih (nearest_when.mp hnearest))
  | choice htest _ _ ihconsequent ihalternate =>
    obtain ⟨hconsequent, halternate, hclosed⟩ := nearest_choice.mp hnearest
    exact stands_choice htest.reads (ihconsequent hconsequent) hclosed (ihalternate halternate)

/-- What a statement is rendered as is read with every `else` at the nearest `if`. -/
theorem IsStatement.yields_chars (h : t.IsStatement) :
    Yields (Reader.statement · t.chars) (t.nearest, []) := by
  have hread := h.nearest.stands (nearest_nearest t) [] fun _ => by simp
  rwa [List.append_nil, chars_nearest] at hread

/-- Two statements have one text exactly if they differ in nothing but the `if` an `else` is given
to. -/
theorem render_eq_iff (ha : a.IsStatement) (hb : b.IsStatement) :
    a.render = b.render ↔ a.nearest = b.nearest := by
  constructor
  · intro h
    have hchars : a.chars = b.chars := congrArg String.toList h
    have hread := ha.yields_chars
    rw [hchars] at hread
    exact congrArg Prod.fst (hread.unique hb.yields_chars)
  · intro h
    rw [← render_nearest a, h, render_nearest]

theorem render_choice_of_isOpen (h : consequent.isOpen = true) :
    render ⟨.ifStatement test consequent (some alternate)⟩ =
      render ⟨.ifStatement test (consequent.withElse alternate) none⟩ := by
  apply String.toList_injective
  change chars _ = chars _
  rw [chars_choice, chars_when, chars_when, chars_withElse h]
  simp

theorem IsStatement.identifier {name : String} (h : IsIdentifier name) :
    IsStatement ⟨.expressionStatement ⟨.identifier name⟩ none⟩ := by
  refine .expression (.identifier h) fun w hw hstarts => ?_
  have hname : chars ⟨.identifier name⟩ = name.toList := chars_mk _
  have hspace : ' ' ∈ w.toList := by
    simp only [List.mem_cons, List.not_mem_nil, or_false] at hw
    obtain rfl | rfl | rfl := hw
    all_goals decide
  rw [hname] at hstarts
  exact absurd (h.chars ' ' (hstarts.subset hspace)) (by decide)

/-- `if (a) if (b) c; else d;`, where the `else` is that of the first `if`: what is left of
`if (a) if (b) c; else ; else d;` once the empty alternate has been removed. -/
def elseOfOuter : Term :=
  ⟨.ifStatement ⟨.identifier "a"⟩
    ⟨.ifStatement ⟨.identifier "b"⟩ ⟨.expressionStatement ⟨.identifier "c"⟩ none⟩ none⟩
    (some ⟨.expressionStatement ⟨.identifier "d"⟩ none⟩)⟩

/-- `if (a) if (b) c; else d;`, where the `else` is that of the second `if`. -/
def elseOfInner : Term :=
  ⟨.ifStatement ⟨.identifier "a"⟩
    ⟨.ifStatement ⟨.identifier "b"⟩ ⟨.expressionStatement ⟨.identifier "c"⟩ none⟩
      (some ⟨.expressionStatement ⟨.identifier "d"⟩ none⟩)⟩ none⟩

/-- Different statements may have one text, and then an `else` is all that tells them apart. -/
theorem render_eq_iff_elseOfOuter : elseOfOuter.IsStatement ∧ elseOfInner.IsStatement ∧
    elseOfOuter ≠ elseOfInner ∧ elseOfOuter.render = elseOfInner.render ∧
      elseOfOuter.nearest = elseOfInner.nearest := by
  have houter : elseOfOuter.IsStatement :=
    .choice (.identifier (by decide))
      (.when (.identifier (by decide)) (.identifier (by decide))) (.identifier (by decide))
  have hinner : elseOfInner.IsStatement :=
    .when (.identifier (by decide))
      (.choice (.identifier (by decide)) (.identifier (by decide)) (.identifier (by decide)))
  have htext : elseOfOuter.render = elseOfInner.render := render_choice_of_isOpen rfl
  refine ⟨houter, hinner, ?_, htext, (render_eq_iff houter hinner).mp htext⟩
  intro h
  cases h

end Term

end ScriptFold

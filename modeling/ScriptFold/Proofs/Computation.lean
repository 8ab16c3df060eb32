import Mathlib
import ScriptFold.Value.Basic

/-!
Computations, as statements and expressions stand for them, and the ways in which they are put
together. Two programs do the same if they stand for the same computation.
-/

namespace ScriptFold

/-- A computation may read and change a state, give a result, throw a value, or not end. -/
abbrev Comp (σ : Type) :=
  ExceptT Value (StateT σ Option)

inductive Completion where
  | normal
  | broken
  | continued
  | returned (value : Value)

namespace Comp

variable {σ α β : Type}

def discard (e : Comp σ α) : Comp σ Unit := do
  let _ ← e

/-- An expression as a statement. -/
def effect (e : Comp σ Value) : Comp σ Completion := do
  e.discard
  return .normal

/-- One of two computations, as an expression decides. -/
def choose (test : Comp σ Value) (yes no : Comp σ α) : Comp σ α := do
  if (← test).toBoolean then yes else no

/-- The value of the last of some expressions; no source text has a sequence of none. -/
def sequence : List (Comp σ Value) → Comp σ Value
  | [] => return .undefined
  | [e] => e
  | e :: es => do
    discard e
    sequence es

/-- A statement, and another unless the first ends the list of statements. -/
def andThen (first rest : Comp σ Completion) : Comp σ Completion := do
  match ← first with
  | .normal => rest
  | completion => return completion

def run : List (Comp σ Completion) → Comp σ Completion
  | [] => return .normal
  | c :: cs => andThen c (run cs)

/-- One round of a loop: if `test` holds, `body`, then `update` and what comes after the round. -/
def round (test : Comp σ Bool) (body : Comp σ Completion) (update : Comp σ Unit)
    (again : Comp σ Completion) : Comp σ Completion := do
  if ← test then
    match ← body with
    | .normal | .continued =>
      update
      again
    | .broken => return .normal
    | .returned v => return .returned v
  else return .normal

/-- A loop of less than some number of rounds; a loop of more does not end. -/
def rounds (test : Comp σ Bool) (body : Comp σ Completion) (update : Comp σ Unit) :
    Nat → Comp σ Completion
  | 0 => fun _ => none
  | limit + 1 => round test body update (rounds test body update limit)

open Classical in
/-- A loop: while `test` holds, `body` and then `update`. It ends if it does so after some number of
rounds. -/
noncomputable def loop (test : Comp σ Bool) (body : Comp σ Completion) (update : Comp σ Unit) :
    Comp σ Completion := fun s =>
  if h : ∃ limit, (rounds test body update limit s).isSome then
    rounds test body update h.choose s
  else none

/-- A loop whose first round is not tested. -/
noncomputable def loopOnce (test : Comp σ Bool) (body : Comp σ Completion) : Comp σ Completion := do
  match ← body with
  | .normal | .continued => loop test body (return ())
  | .broken => return .normal
  | .returned v => return .returned v

@[simp] theorem discard_pure (a : α) : discard (pure a : Comp σ α) = pure () :=
  pure_bind _ _

theorem discard_bind (e : Comp σ α) (f : α → Comp σ β) :
    discard (e >>= f) = e >>= fun a => discard (f a) :=
  bind_assoc _ _ _

theorem choose_pure (v : Value) (yes no : Comp σ α) :
    choose (pure v) yes no = if v.toBoolean then yes else no :=
  pure_bind _ _

theorem choose_same (test : Comp σ Value) (c : Comp σ α) :
    choose test c c = discard test >>= fun _ => c := by
  unfold choose discard
  simp only [ite_self, bind_assoc, pure_bind]

theorem choose_bind (test : Comp σ Value) (yes no : Comp σ α) (f : α → Comp σ β) :
    choose test yes no >>= f = choose test (yes >>= f) (no >>= f) := by
  unfold choose
  rw [bind_assoc]
  congr 1
  funext v
  split <;> rfl

theorem effect_pure (v : Value) : effect (pure v : Comp σ Value) = return .normal := by
  rw [effect, discard_pure, pure_bind]

theorem effect_choose (test yes no : Comp σ Value) :
    effect (choose test yes no) = choose test (effect yes) (effect no) := by
  unfold effect
  rw [discard, choose_bind, choose_bind]
  rfl

/-- A choice whose value is dropped may leave out one side. -/
theorem effect_and (test yes : Comp σ Value) :
    effect (do let v ← test; if !v.toBoolean then return v else yes) =
      choose test (effect yes) (return .normal) := by
  unfold effect choose
  rw [discard_bind, bind_assoc]
  congr 1
  funext v
  cases v.toBoolean with
  | true => rfl
  | false => exact effect_pure v

theorem discard_sequence (es : List (Comp σ Value)) :
    discard (sequence es) = es.forM discard := by
  induction es with
  | nil => rfl
  | cons e es ih =>
    cases es with
    | nil => exact (bind_pure (discard e)).symm
    | cons f fs =>
      rw [List.forM_eq_forM, List.forM_cons, ← List.forM_eq_forM, ← ih, sequence, discard_bind]
      nofun

theorem sequence_append_last (es : List (Comp σ Value)) (last : Comp σ Value) :
    sequence (es ++ [last]) = es.forM discard >>= fun _ => last := by
  induction es with
  | nil => exact (pure_bind () fun _ => last).symm
  | cons e es ih =>
    have hne : es ++ [last] ≠ [] := List.append_ne_nil_of_right_ne_nil es (List.cons_ne_nil last [])
    obtain ⟨f, fs, hf⟩ := List.exists_cons_of_ne_nil hne
    rw [List.cons_append, hf, sequence, ← hf, ih, List.forM_eq_forM,
      List.forM_cons, bind_assoc]
    nofun

@[simp] theorem normal_andThen (c : Comp σ Completion) : andThen (return .normal) c = c :=
  pure_bind _ _

theorem andThen_normal (c : Comp σ Completion) : andThen c (return .normal) = c := by
  unfold andThen
  refine Eq.trans ?_ (bind_pure c)
  congr 1
  funext completion
  cases completion <;> rfl

theorem andThen_assoc (a b c : Comp σ Completion) :
    andThen (andThen a b) c = andThen a (andThen b c) := by
  unfold andThen
  rw [bind_assoc]
  congr 1
  funext completion
  cases completion <;> rfl

theorem run_append (as bs : List (Comp σ Completion)) :
    run (as ++ bs) = andThen (run as) (run bs) := by
  induction as with
  | nil => exact (normal_andThen _).symm
  | cons a as ih => rw [List.cons_append, run, ih, run, andThen_assoc]

@[simp] theorem run_singleton (c : Comp σ Completion) : run [c] = c :=
  andThen_normal c

/-- A statement after which nothing of its list runs. -/
def Jumps (c : Comp σ Completion) : Prop :=
  ∀ rest, andThen c rest = c

theorem jumps_bind (e : Comp σ α) {f : α → Comp σ Completion} (h : ∀ a, Jumps (f a)) :
    Jumps (e >>= f) := by
  intro rest
  unfold andThen
  rw [bind_assoc]
  congr 1
  funext a
  exact h a rest

theorem jumps_broken : Jumps (return .broken : Comp σ Completion) :=
  fun _ => pure_bind _ _

theorem jumps_continued : Jumps (return .continued : Comp σ Completion) :=
  fun _ => pure_bind _ _

theorem jumps_returned (v : Value) : Jumps (return .returned v : Comp σ Completion) :=
  fun _ => pure_bind _ _

theorem jumps_throw (v : Value) : Jumps (throw v : Comp σ Completion) :=
  fun _ => rfl

/-- A run of expression statements is the statement of their sequence. -/
theorem run_effect (es : List (Comp σ Value)) : run (es.map effect) = effect (sequence es) := by
  rw [effect, discard_sequence]
  induction es with
  | nil => exact (pure_bind _ _).symm
  | cons e es ih =>
    rw [List.map_cons, run, ih, List.forM_eq_forM, List.forM_cons]
    unfold andThen effect
    simp only [bind_assoc, pure_bind]

/-- Another computation comes last in what is done, if it is done at all. -/
structure Tail (f : Comp σ β → Comp σ β) : Prop where
  cases : ∀ {again : Comp σ β} {s : σ} {r : Except Value β × σ}, f again s = some r →
    (∃ s', again s' = some r ∧ ∀ again' : Comp σ β, again' s' = some r → f again' s = some r) ∨
      ∀ again' : Comp σ β, f again' s = some r

namespace Tail

theorem self : Tail fun again : Comp σ β => again :=
  ⟨fun {_ s _} h => .inl ⟨s, h, fun _ h' => h'⟩⟩

theorem never (c : Comp σ β) : Tail fun _ => c :=
  ⟨fun h => .inr fun _ => h⟩

theorem bind (e : Comp σ α) {f : α → Comp σ β → Comp σ β} (hf : ∀ a, Tail (f a)) :
    Tail fun again => e >>= fun a => f a again := by
  refine ⟨fun {again s r} h => ?_⟩
  have hrun : ∀ again' : Comp σ β, (e >>= fun a => f a again') s =
      (e s).bind fun (a, s') => ExceptT.bindCont (fun a => f a again') a s' := fun _ => rfl
  simp only [hrun] at h ⊢
  cases he : e s with
  | none =>
    rw [he] at h
    cases h
  | some first =>
    obtain ⟨a | a, s'⟩ := first <;> rw [he] at h
    · exact .inr fun _ => h
    · exact (hf a).cases h

end Tail

section Loop

variable {test : Comp σ Bool} {body : Comp σ Completion} {update : Comp σ Unit} {s : σ}
  {r : Except Value Completion × σ} {limit : Nat}

theorem tail_round (test : Comp σ Bool) (body : Comp σ Completion) (update : Comp σ Unit) :
    Tail (round test body update) := by
  unfold round
  refine Tail.bind test fun holds => ?_
  cases holds with
  | false => exact Tail.never _
  | true =>
    refine Tail.bind body fun completion => ?_
    cases completion with
    | normal | continued => exact Tail.bind update fun _ => Tail.self
    | broken | returned => exact Tail.never _

theorem rounds_succ (h : rounds test body update limit s = some r) :
    rounds test body update (limit + 1) s = some r := by
  induction limit generalizing s with
  | zero => cases h
  | succ limit ih =>
    rcases (tail_round _ _ _).cases h with ⟨s', hs', hround⟩ | hround
    · exact hround _ (ih hs')
    · exact hround _

theorem rounds_mono {more : Nat} (hle : limit ≤ more)
    (h : rounds test body update limit s = some r) : rounds test body update more s = some r := by
  induction hle with
  | refl => exact h
  | step _ ih => exact rounds_succ ih

theorem loop_eq_some : loop test body update s = some r ↔
    ∃ limit, rounds test body update limit s = some r := by
  unfold loop
  split
  · rename_i h
    refine ⟨fun hr => ⟨_, hr⟩, fun ⟨limit, hr⟩ => ?_⟩
    obtain ⟨r', hr'⟩ := Option.isSome_iff_exists.mp h.choose_spec
    have hmax := rounds_mono (le_max_right limit h.choose) hr'
    rw [rounds_mono (le_max_left limit h.choose) hr] at hmax
    rw [hr', hmax]
  · rename_i h
    exact ⟨nofun, fun ⟨limit, hr⟩ => absurd ⟨limit, by rw [hr]; rfl⟩ h⟩

theorem loop_eq (test : Comp σ Bool) (body : Comp σ Completion) (update : Comp σ Unit) :
    loop test body update = round test body update (loop test body update) := by
  funext s
  refine Option.ext fun r => loop_eq_some.trans ⟨fun ⟨limit, hr⟩ => ?_, fun hr => ?_⟩
  · cases limit with
    | zero => cases hr
    | succ limit =>
      rcases (tail_round _ _ _).cases hr with ⟨s', hs', hround⟩ | hround
      · exact hround _ (loop_eq_some.mpr ⟨limit, hs'⟩)
      · exact hround _
  · rcases (tail_round _ _ _).cases hr with ⟨s', hs', hround⟩ | hround
    · obtain ⟨limit, hs'⟩ := loop_eq_some.mp hs'
      exact ⟨limit + 1, hround _ hs'⟩
    · exact ⟨1, hround _⟩

theorem loop_never (body : Comp σ Completion) (update : Comp σ Unit) :
    loop (return false) body update = return .normal := by
  rw [loop_eq, round, pure_bind]
  rfl

end Loop

end Comp

end ScriptFold

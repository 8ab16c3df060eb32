import ScriptFold.Walk.Stage

/-!
Pipes of pipes. A row of stages may be cut into pipes, and the pipes into further pipes, in any way and
with empty ones between: a walk through them is the walk through the stages in a row. Nothing is asked
of the stages, which may pass on a path as often as they like, or never, or fail.
-/

namespace ScriptFold

variable {ε σ : Type}

namespace Stage

/-- The stage that passes on what it is handed. -/
def pass : Stage ε σ := {}

/-- One stage after another: the second is nearer to what is between the way in and the way out. -/
def andThen (outer inner : Stage ε σ) : Stage ε σ where
  inward path next := outer.inward path fun item => inner.inward item next
  outward path next := inner.outward path fun item => outer.outward item next

theorem pass_andThen (stage : Stage ε σ) : pass.andThen stage = stage := rfl

theorem andThen_assoc (a b c : Stage ε σ) : (a.andThen b).andThen c = a.andThen (b.andThen c) := rfl

theorem pipe_nil : pipe [] = (pass : Stage ε σ) := rfl

theorem pipe_cons (stage : Stage ε σ) (rest : List (Stage ε σ)) :
    pipe (stage :: rest) = stage.andThen (pipe rest) := rfl

theorem pipe_append (first last : List (Stage ε σ)) :
    pipe (first ++ last) = (pipe first).andThen (pipe last) := by
  induction first with
  | nil => rw [List.nil_append, pipe_nil, pass_andThen]
  | cons stage rest ih => rw [List.cons_append, pipe_cons, pipe_cons, ih, andThen_assoc]

theorem inward_pipe (stages : List (Stage ε σ)) (next : Next ε σ) (path : Path) :
    (pipe stages).inward path next =
      stages.foldr (fun stage next path => stage.inward path next) next path := by
  induction stages generalizing path with
  | nil => rfl
  | cons stage rest ih =>
    rw [pipe_cons, List.foldr_cons, andThen]
    exact congrArg (stage.inward path) (funext ih)

theorem outward_pipe (stages : List (Stage ε σ)) (next : Next ε σ) (path : Path) :
    (pipe stages).outward path next =
      stages.foldl (fun next stage path => stage.outward path next) next path := by
  induction stages generalizing next with
  | nil => rfl
  | cons stage rest ih =>
    rw [pipe_cons, List.foldl_cons, andThen]
    exact ih _

end Stage

/-- A row of stages some of which are cut off as pipes, which are such rows again. -/
inductive Nesting (ε σ : Type) where
  | nil
  | single (stage : Stage ε σ) (rest : Nesting ε σ)
  | pipe (inner rest : Nesting ε σ)

namespace Nesting

/-- What the outermost pipe is made of. -/
def entries : Nesting ε σ → List (Stage ε σ)
  | nil => []
  | single stage rest => stage :: rest.entries
  | pipe inner rest => .pipe inner.entries :: rest.entries

def stages : Nesting ε σ → List (Stage ε σ)
  | nil => []
  | single stage rest => stage :: rest.stages
  | pipe inner rest => inner.stages ++ rest.stages

theorem pipe_entries (row : Nesting ε σ) : Stage.pipe row.entries = Stage.pipe row.stages := by
  induction row with
  | nil => rfl
  | single stage rest ih => rw [entries, stages, Stage.pipe_cons, Stage.pipe_cons, ih]
  | pipe inner rest ihInner ihRest =>
    rw [entries, stages, Stage.pipe_cons, Stage.pipe_append, ihInner, ihRest]

end Nesting

/-- A state with the calls that were made to a consumer: what each was handed, and in which state. -/
structure Logged (σ : Type) where
  state : σ
  calls : List (Path × σ)

/-- A consumer whose calls are logged, also the one that fails. -/
def logCalls (consumer : Next ε σ) : Next ε (Logged σ) := fun path log =>
  match consumer path log.state with
  | .ok answer state => .ok answer ⟨state, log.calls ++ [(path, log.state)]⟩
  | .error e state => .error e ⟨state, log.calls ++ [(path, log.state)]⟩

/-- A walk through pipes of pipes is the walk through their stages in a row, from any path, with any
consumer and in any state: it has the same outcome, reaches the same state and makes the same calls. On
the way in the first stage is outermost, and on the way out the last. -/
theorem Nesting.walkWith_entries (row : Nesting ε σ) (logged : Nesting ε (Logged σ)) (start : Path)
    (consumer : Next ε σ) :
    (∀ s, (Stage.pipe row.entries).walkWith start consumer s =
      (Stage.pipe row.stages).walkWith start consumer s) ∧
    (Stage.pipe row.entries).walkWith start consumer =
      row.stages.foldr (fun stage next path => stage.inward path next)
        (row.stages.foldl (fun next stage path => stage.outward path next) consumer) start ∧
    ∀ s, (Stage.pipe logged.entries).walkWith start (logCalls consumer) ⟨s, []⟩ =
      (Stage.pipe logged.stages).walkWith start (logCalls consumer) ⟨s, []⟩ := by
  refine ⟨fun s => by rw [row.pipe_entries], ?_, fun s => by rw [logged.pipe_entries]⟩
  rw [row.pipe_entries, Stage.walkWith, Stage.inward_pipe]
  have hout : (fun path => (Stage.pipe row.stages).outward path consumer) =
      row.stages.foldl (fun next stage path => stage.outward path next) consumer :=
    funext fun path => Stage.outward_pipe row.stages consumer path
  rw [hout]

def Stage.tag (name : String) : Stage Empty (List String) where
  inward path next := do modify (· ++ [name ++ ".in"]); next path
  outward path next := do modify (· ++ [name ++ ".out"]); next path

example : (Stage.pipe (Nesting.single (.tag "a") (.pipe .nil
      (.pipe (.single (.tag "b") (.single (.tag "c") .nil)) .nil))).entries).walk default [] =
    .ok .proceed ["a.in", "b.in", "c.in", "c.out", "b.out", "a.out"] := rfl

end ScriptFold

import ScriptFold.Tree.Path

/-!
The edits of a tree step by step: look at the node, assign its slot in place, and count the edit if
something is different then. A step that fails leaves the tree as it is at that moment, so that what an
edit has done before stays done.
-/

namespace ScriptFold

abbrev EditM := EStateM TreeError Tree

namespace EditM

def writable (id : NodeId) : EditM (Node NodeId) := do
  let t ← get
  if t.isFrozen id then throw (.frozen id)
  return t.node id

/-- Changes a node in place. This is not counted. -/
def mutate (id : NodeId) (change : Node NodeId → Node NodeId) : EditM Unit :=
  modify fun t =>
    { t with cells := t.cells.modify id fun cell => { cell with node := change cell.node } }

def assign (owner : NodeId) (field : Field) (slot : Slot NodeId) : EditM Unit :=
  mutate owner fun node => node.setSlot field slot

def bump : EditM Unit :=
  modify fun t => { t with revision := t.revision + 1 }

def writeField (owner : NodeId) (field : Field) (new : Option NodeId) : EditM Bool := do
  let node ← writable owner
  match node.slot? field with
  | some (.required old) =>
    let some id := new | throw (.requiredField node.kind field)
    assign owner field (.required id)
    return old ≠ id
  | some (.optional old) =>
    assign owner field (.optional new)
    return old ≠ new
  | some (.list _) | some (.holey _) => throw (.listField node.kind field)
  | none => throw (.notAField node.kind field)

def writeItem (owner : NodeId) (field : Field) (index : Nat) (new : Option NodeId) :
    EditM Bool := do
  let node ← writable owner
  match node.slot? field with
  | some (.list items) =>
    let some old := items[index]? | throw (.indexOutOfBounds index items.length)
    match new with
    | some id =>
      assign owner field (.list (items.set index id))
      return old ≠ id
    | none =>
      assign owner field (.list (items.eraseIdx index))
      return true
  | some (.holey items) =>
    let some old := items[index]? | throw (.indexOutOfBounds index items.length)
    match new with
    | some id =>
      assign owner field (.holey (items.set index (some id)))
      return old ≠ some id
    | none =>
      assign owner field (.holey (items.eraseIdx index))
      return true
  | _ => throw (.notAField node.kind field)

def writeSlot (parent : Ref) (key : Key) (new : Option NodeId) : EditM Bool :=
  match parent, key with
  | .node owner, .field field => writeField owner field new
  | .list owner field, .index index => writeItem owner field index new
  | .node _, .index _ => throw .notAList
  | .list owner _, .field field => do throw (.notAField ((← get).node owner).kind field)
  | .null, _ => throw .detached

def counted (edit : EditM Bool) : EditM Bool := do
  let changed ← edit
  if changed then bump
  return changed

def write (parent : Ref) (key : Key) (new : Option NodeId) : EditM Bool :=
  counted (writeSlot parent key new)

def spliceItems (owner : NodeId) (field : Field) (start stop : Nat) (new : List NodeId) :
    EditM Unit := do
  let node ← writable owner
  match node.slot? field with
  | some (.list items) =>
    if start > stop || stop > items.length then throw (.indexOutOfBounds stop items.length)
    assign owner field (.list (items.take start ++ new ++ items.drop stop))
  | some (.holey items) =>
    if start > stop || stop > items.length then throw (.indexOutOfBounds stop items.length)
    assign owner field (.holey (items.take start ++ new.map some ++ items.drop stop))
  | _ => throw (.notAField node.kind field)

/-- Replaces a range of a list, and counts that unless nothing is taken out and nothing put in. -/
def splice (list : Ref) (start stop : Nat) (new : List NodeId) : EditM Unit := do
  let .list owner field := list | throw .notAList
  spliceItems owner field start stop new
  if start < stop || !new.isEmpty then bump

def truncate (list : Ref) (length : Nat) : EditM Bool := do
  let some current := (← get).listLength? list | throw .notAList
  if length ≥ current then return false
  splice list length current []
  return true

/-- Counts an edit, and then changes a node. -/
def modifyNode (id : NodeId) (change : Node NodeId → Node NodeId) : EditM Unit := do
  let _ ← writable id
  bump
  mutate id change

def alloc (node : Node NodeId) (flags : Flags) : EditM NodeId :=
  modifyGet fun t => t.alloc node flags

def setRoot (root : NodeId) : EditM Unit := do
  if (← get).root ≠ root then
    modify fun t => { t with root }
    bump

def replace (path : Path) (id : NodeId) : EditM Path :=
  match path with
  | .root _ => throw .detached
  | .child parent key _ => do
    let _ ← write parent.value key (some id)
    return path.withValue (.node id)

def remove (path : Path) : EditM Unit :=
  match path with
  | .root _ => throw .detached
  | .child parent key _ => do
    let _ ← write parent.value key none
    return ()

end EditM

end ScriptFold

import ScriptFold.Tree.Error

/-!
Reading and editing the slots of a tree.

A slot is named by what holds it and a key: a field of a node, or a position in a list. An edit
either gives the edited tree or says why it is refused; a refused edit leaves nothing behind.
The revision grows by one exactly when an edit changed something.
-/

namespace ScriptFold

namespace Slot

variable {α : Type}

/-- A list slot with other entries; a list without holes leaves them out. -/
def setItems : Slot α → List (Option α) → Slot α
  | .list _, items => .list (items.filterMap id)
  | .holey _, items => .holey items
  | slot, _ => slot

end Slot

namespace Tree

def slot? (t : Tree) (owner : NodeId) (field : Field) : Option (Slot NodeId) :=
  (t.node owner).slot? field

def listItems? (t : Tree) : Ref → Option (List (Option NodeId))
  | .list owner field => (t.slot? owner field).bind Slot.items?
  | _ => none

def listLength? (t : Tree) (list : Ref) : Option Nat :=
  (t.listItems? list).map List.length

/-- What a slot holds now. A key that leads nowhere finds nothing. -/
def read (t : Tree) : Ref → Key → Ref
  | .node owner, .field field =>
    match t.slot? owner field with
    | some (.required child) => .node child
    | some (.optional child) => child.elim .null .node
    | some (.list _) | some (.holey _) => .list owner field
    | none => .null
  | .list owner field, .index index =>
    match (t.listItems? (.list owner field)).bind fun items => items[index]? with
    | some (some child) => .node child
    | _ => .null
  | _, _ => .null

def setNode (t : Tree) (id : NodeId) (node : Node NodeId) : Tree :=
  { t with
    cells := t.cells.modify id fun cell => { cell with node := node }
    revision := t.revision + 1 }

def setSlot (t : Tree) (owner : NodeId) (field : Field) (slot : Slot NodeId) : Tree :=
  t.setNode owner ((t.node owner).setSlot field slot)

def checkWritable (t : Tree) (id : NodeId) : Except TreeError Unit :=
  if t.isFrozen id then .error (.frozen id) else .ok ()

def writeField (t : Tree) (owner : NodeId) (field : Field) (new : Option NodeId) :
    Except TreeError (Bool × Tree) :=
  let kind := (t.node owner).kind
  match t.slot? owner field, new with
  | none, _ => .error (.notAField kind field)
  | some (.required _), none => .error (.requiredField kind field)
  | some (.required old), some id =>
    .ok (if old = id then (false, t) else (true, t.setSlot owner field (.required id)))
  | some (.optional old), new =>
    .ok (if old = new then (false, t) else (true, t.setSlot owner field (.optional new)))
  | some (.list _), _ | some (.holey _), _ => .error (.listField kind field)

/-- Assigns a position of a list of a node that is not frozen, or takes it out of the list. -/
def writeItem (t : Tree) (owner : NodeId) (field : Field) (index : Nat) (new : Option NodeId) :
    Except TreeError (Bool × Tree) :=
  match t.slot? owner field with
  | none => .error (.notAField (t.node owner).kind field)
  | some slot =>
    match slot.items? with
    | none => .error (.notAField (t.node owner).kind field)
    | some items =>
      match items[index]?, new with
      | none, _ => .error (.indexOutOfBounds index items.length)
      | some _, none => .ok (true, t.setSlot owner field (slot.setItems (items.eraseIdx index)))
      | some old, some id =>
        .ok (if old = some id then (false, t)
          else (true, t.setSlot owner field (slot.setItems (items.set index (some id)))))

/-- Assigns a slot; `none` clears an optional field and takes a position out of a list. Tells
whether anything changed. -/
def write (t : Tree) (parent : Ref) (key : Key) (new : Option NodeId) :
    Except TreeError (Bool × Tree) :=
  match parent, key with
  | .node owner, .field field => do
    t.checkWritable owner
    t.writeField owner field new
  | .list owner field, .index index => do
    t.checkWritable owner
    t.writeItem owner field index new
  | .node _, .index _ => .error .notAList
  | .list owner _, .field field => .error (.notAField (t.node owner).kind field)
  | .null, _ => .error .detached

/-- Replaces the entries of a list from `start` to before `stop` by other nodes. -/
def splice (t : Tree) (list : Ref) (start stop : Nat) (new : List NodeId) :
    Except TreeError Tree :=
  match list with
  | .list owner field => do
    t.checkWritable owner
    match t.slot? owner field with
    | none => .error (.notAField (t.node owner).kind field)
    | some slot =>
      match slot.items? with
      | none => .error (.notAField (t.node owner).kind field)
      | some items =>
        if start > stop || stop > items.length then
          .error (.indexOutOfBounds stop items.length)
        -- nothing is taken out and nothing put in, so this is no edit
        else if start = stop && new.isEmpty then .ok t
        else
          let spliced := items.take start ++ new.map some ++ items.drop stop
          .ok (t.setSlot owner field (slot.setItems spliced))
  | _ => .error .notAList

def truncate (t : Tree) (list : Ref) (length : Nat) : Except TreeError (Bool × Tree) :=
  match t.listLength? list with
  | none => .error .notAList
  | some current =>
    if length ≥ current then .ok (false, t)
    else (t.splice list length current []).map fun t => (true, t)

/-- Changes a node in place. This counts as an edit whatever the change is. -/
def modifyNode (t : Tree) (id : NodeId) (change : Node NodeId → Node NodeId) :
    Except TreeError Tree := do
  t.checkWritable id
  return t.setNode id (change (t.node id))

end Tree

end ScriptFold

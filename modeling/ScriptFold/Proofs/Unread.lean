import ScriptFold.Proofs.RoundTrip

/-!
What reading passes over. A node object has members that its kind reads and others that nothing
looks at, and a member that is `null` counts as absent. Main statement: however often members of
the second sort are added, changed or dropped, or members that are `null` come and go, at any depth
at which there are nodes, the same tree is read or the same fault is found.
-/

namespace ScriptFold

def Json.items? : Json → Option (List Json)
  | .arr items => some items
  | _ => none

namespace Kind

def fields : Kind → List Field
  | .program | .blockStatement => [.body]
  | .expressionStatement => [.expression]
  | .emptyStatement | .debuggerStatement | .identifier | .literal | .thisExpression => []
  | .withStatement => [.body, .object]
  | .returnStatement | .throwStatement | .unaryExpression | .updateExpression => [.argument]
  | .labeledStatement => [.body, .label]
  | .breakStatement | .continueStatement => [.label]
  | .ifStatement | .conditionalExpression => [.alternate, .consequent, .test]
  | .switchStatement => [.cases, .discriminant]
  | .switchCase => [.consequent, .test]
  | .tryStatement => [.block, .finalizer, .handler]
  | .catchClause => [.body, .param]
  | .whileStatement | .doWhileStatement => [.body, .test]
  | .forStatement => [.body, .init, .test, .update]
  | .forInStatement => [.body, .left, .right]
  | .functionDeclaration | .functionExpression => [.body, .id, .params]
  | .arrowFunctionExpression => [.body, .params]
  | .variableDeclaration => [.declarations]
  | .variableDeclarator => [.id, .init]
  | .arrayExpression => [.elements]
  | .objectExpression => [.properties]
  | .property => [.key, .value]
  | .binaryExpression | .logicalExpression | .assignmentExpression => [.left, .right]
  | .callExpression | .newExpression => [.arguments, .callee]
  | .memberExpression => [.object, .property]
  | .sequenceExpression => [.expressions]

/-- The members besides `type` and the fields that are read for a kind. -/
def attributes : Kind → List String
  | .expressionStatement => ["directive"]
  | .functionDeclaration | .functionExpression => ["generator", "async"]
  | .arrowFunctionExpression => ["expression", "async"]
  | .variableDeclaration => ["kind"]
  | .identifier => ["name"]
  | .literal => ["regex", "value"]
  | .property => ["kind", "computed", "method", "shorthand"]
  | .unaryExpression | .binaryExpression | .logicalExpression | .assignmentExpression =>
    ["operator"]
  | .updateExpression => ["operator", "prefix"]
  | .memberExpression => ["computed"]
  | _ => []

end Kind

namespace Estree

def kind? (members : List (String × Json)) : Option Kind :=
  ((members.lookup "type").bind Json.str?).bind (unspell? Kind)

def readNames (members : List (String × Json)) : List String :=
  "type" :: (kind? members).elim [] fun kind => kind.attributes ++ kind.fields.map spell

/-- One change that reading does not see. It is made to the members of a node object, or further
down: in a node that a field holds, or in one of the nodes that a field lists. -/
inductive Unseen : Json → Json → Prop
  | add (before after : List (String × Json)) {name : String} {value : Json}
      (unread : name ∉ readNames (before ++ after)) :
      Unseen (.obj (before ++ after)) (.obj (before ++ (name, value) :: after))
  | replace (before after : List (String × Json)) {name : String} {value value' : Json}
      (unread : name ∉ readNames (before ++ (name, value) :: after)) :
      Unseen (.obj (before ++ (name, value) :: after)) (.obj (before ++ (name, value') :: after))
  | remove (before after : List (String × Json)) {name : String} {value : Json}
      (unread : name ∉ readNames (before ++ (name, value) :: after)) :
      Unseen (.obj (before ++ (name, value) :: after)) (.obj (before ++ after))
  | addNull (before after : List (String × Json)) {name : String} (type : name ≠ "type")
      (absent : name ∉ (before ++ after).map Prod.fst) :
      Unseen (.obj (before ++ after)) (.obj (before ++ (name, .null) :: after))
  | removeNull (before after : List (String × Json)) {name : String}
      (absent : name ∉ (before ++ after).map Prod.fst) :
      Unseen (.obj (before ++ (name, .null) :: after)) (.obj (before ++ after))
  | field (before after : List (String × Json)) {kind : Kind} {field : Field} {value value' : Json}
      (hkind : kind? (before ++ (spell field, value) :: after) = some kind)
      (hfield : field ∈ kind.fields) (below : Unseen value value') :
      Unseen (.obj (before ++ (spell field, value) :: after))
        (.obj (before ++ (spell field, value') :: after))
  | item (before after : List (String × Json)) {kind : Kind} {field : Field}
      (front back : List Json) {value value' : Json}
      (hkind : kind? (before ++ (spell field, .arr (front ++ value :: back)) :: after) = some kind)
      (hfield : field ∈ kind.fields) (below : Unseen value value') :
      Unseen (.obj (before ++ (spell field, .arr (front ++ value :: back)) :: after))
        (.obj (before ++ (spell field, .arr (front ++ value' :: back)) :: after))

/-- The value of a member, unless it is `null`. -/
def present? (members : List (String × Json)) (name : String) : Option Json :=
  (members.lookup name).filter fun value => !value.isNull

/-- All that is asked of the value of a field: which node it is, and the items of the list it is. -/
def outcome (value : Json) :
    Except ImportError Term × Option (List (Bool × Except ImportError Term)) :=
  (readTerm value, value.items?.map fun items => items.map fun item => (item.isNull, readTerm item))

section Members

variable {before after : List (String × Json)} {name other : String} {value : Json}

theorem lookup_cons_of_ne (h : other ≠ name) :
    (before ++ (name, value) :: after).lookup other = (before ++ after).lookup other := by
  simp [List.lookup_append, List.lookup_cons, beq_false_of_ne h]

theorem lookup_eq_none {members : List (String × Json)} (h : name ∉ members.map Prod.fst) :
    members.lookup name = none := by
  rw [List.lookup_eq_none_iff]
  intro member hmember
  simp only [bne_iff_ne]
  intro same
  exact h (List.mem_map.mpr ⟨member, hmember, same.symm⟩)

theorem present?_cons_of_ne (h : other ≠ name) :
    present? (before ++ (name, value) :: after) other = present? (before ++ after) other := by
  unfold present?
  rw [lookup_cons_of_ne h]

theorem present?_cons_null (absent : name ∉ (before ++ after).map Prod.fst) :
    present? (before ++ (name, .null) :: after) other = present? (before ++ after) other := by
  by_cases h : other = name
  · subst h
    have hnone := lookup_eq_none absent
    rw [List.map_append, List.mem_append, not_or] at absent
    unfold present?
    rw [hnone, List.lookup_append, lookup_eq_none absent.1, List.lookup_cons_self]
    rfl
  · exact present?_cons_of_ne h

theorem present?_map_outcome {value' : Json} (hnull : value'.isNull = value.isNull)
    (h : outcome value' = outcome value) :
    (present? (before ++ (name, value') :: after) other).map outcome =
      (present? (before ++ (name, value) :: after) other).map outcome := by
  by_cases hname : other = name
  · subst hname
    unfold present?
    rw [List.lookup_append, List.lookup_append, List.lookup_cons_self, List.lookup_cons_self]
    cases before.lookup other with
    | some first => rfl
    | none => cases hv : value.isNull <;> simp [Option.filter, hnull, hv, h]
  · rw [present?_cons_of_ne hname, present?_cons_of_ne hname]

end Members

namespace Record

variable {kind : Kind} {members members' : List (String × Json)} {name : String} {f : Field}

theorem get?_eq_present? : (mk kind (readMembers members)).get? name =
    (present? members name).map fun value => ⟨name, value, readTerm value, readItems value⟩ := by
  unfold present?
  cases h : members.lookup name with
  | none => exact get?_eq_none h
  | some value =>
    rw [get?_eq h]
    cases hv : value.isNull <;> simp [Option.filter, hv]

theorem required_eq_outcome : (mk kind (readMembers members)).required f =
    ((present? members (spell f)).map outcome).elim (.error (.missingField kind (spell f)))
      Prod.fst := by
  unfold required
  rw [get?_eq_present?]
  cases present? members (spell f) <;> rfl

theorem optional_eq_outcome : (mk kind (readMembers members)).optional f =
    ((present? members (spell f)).map outcome).elim (.ok none) fun seen => some <$> seen.1 := by
  unfold optional
  rw [get?_eq_present?]
  cases present? members (spell f) <;> rfl

theorem items_eq_outcome {α : Type} (g : Bool × Except ImportError Term → Except ImportError α) :
    ((mk kind (readMembers members)).items (spell f) >>= fun items =>
        items.mapM fun item => g (item.1.isNull, item.2)) =
      ((present? members (spell f)).map outcome).elim (.ok []) fun seen =>
        seen.2.elim (.error (.invalidField kind (spell f))) fun items => items.mapM g := by
  unfold Record.items
  rw [get?_eq_present?]
  cases present? members (spell f) with
  | none => rfl
  | some value =>
    cases value with
    | arr items =>
      change (readItems (.arr items)).mapM _ = (items.map _).mapM g
      rw [readItems, readList_eq, List.mapM_map, List.mapM_map]
      rfl
    | _ => rfl

theorem list_eq_outcome : (mk kind (readMembers members)).list f =
    ((present? members (spell f)).map outcome).elim (.ok []) fun seen =>
      seen.2.elim (.error (.invalidField kind (spell f))) fun items =>
        items.mapM fun item => if item.1 then .error (.invalidField kind (spell f)) else item.2 :=
  items_eq_outcome fun item => if item.1 then .error (.invalidField kind (spell f)) else item.2

theorem holey_eq_outcome : (mk kind (readMembers members)).holey f =
    ((present? members (spell f)).map outcome).elim (.ok []) fun seen =>
      seen.2.elim (.error (.invalidField kind (spell f))) fun items =>
        items.mapM fun item => if item.1 then .ok none else some <$> item.2 :=
  items_eq_outcome fun item => if item.1 then .ok none else some <$> item.2

/-- A record is read by its attributes and by what its fields are asked for. -/
theorem node_congr
    (hattributes : ∀ name ∈ kind.attributes, present? members' name = present? members name)
    (hfields : ∀ f ∈ kind.fields, (present? members' (spell f)).map outcome =
      (present? members (spell f)).map outcome) :
    (mk kind (readMembers members')).node = (mk kind (readMembers members)).node := by
  have hget : ∀ name ∈ kind.attributes, (mk kind (readMembers members')).get? name =
      (mk kind (readMembers members)).get? name := by
    intro name hname
    rw [get?_eq_present?, get?_eq_present?, hattributes name hname]
  have hrequired : ∀ f ∈ kind.fields, (mk kind (readMembers members')).required f =
      (mk kind (readMembers members)).required f := by
    intro f hf
    rw [required_eq_outcome, required_eq_outcome, hfields f hf]
  have hoptional : ∀ f ∈ kind.fields, (mk kind (readMembers members')).optional f =
      (mk kind (readMembers members)).optional f := by
    intro f hf
    rw [optional_eq_outcome, optional_eq_outcome, hfields f hf]
  have hlist : ∀ f ∈ kind.fields, (mk kind (readMembers members')).list f =
      (mk kind (readMembers members)).list f := by
    intro f hf
    rw [list_eq_outcome, list_eq_outcome, hfields f hf]
  have hholey : ∀ f ∈ kind.fields, (mk kind (readMembers members')).holey f =
      (mk kind (readMembers members)).holey f := by
    intro f hf
    rw [holey_eq_outcome, holey_eq_outcome, hfields f hf]
  generalize hr : mk kind (readMembers members) = r at *
  generalize hr' : mk kind (readMembers members') = r' at *
  have hkind : r.kind = kind ∧ r'.kind = kind := by
    rw [← hr, ← hr']
    exact ⟨rfl, rfl⟩
  cases kind <;>
    simp only [Kind.fields, Kind.attributes, List.mem_cons, List.not_mem_nil, or_false,
      forall_eq_or_imp, forall_eq] at hget hrequired hoptional hlist hholey <;>
    simp only [Record.node, flag, string?, string, operator, varKind, propertyKind,
      literal, missing, invalid, *]

end Record

theorem Kind.type_ne_field (f : Field) : spell f ≠ "type" := by
  cases f <;> decide

theorem Kind.attribute_ne_field {kind : Kind} {name : String} {f : Field}
    (hname : name ∈ kind.attributes) (hf : f ∈ kind.fields) : name ≠ spell f := by
  have disjoint : ∀ name ∈ kind.attributes, ∀ f ∈ kind.fields, name ≠ spell f := by
    cases kind <;> decide
  exact disjoint name hname f hf

def typeName? (members : List (String × Json)) : Option String :=
  (members.lookup "type").bind Json.str?

theorem typeName?_eq (members : List (String × Json)) :
    typeName? members = (present? members "type").bind Json.str? := by
  unfold typeName? present?
  cases members.lookup "type" with
  | none => rfl
  | some value => cases value <;> rfl

theorem readTerm_obj (members : List (String × Json)) : readTerm (.obj members) =
    (typeName? members).elim (.error .missingType) fun name =>
      (unspell? Kind name).elim (.error (.unknownType name)) fun kind =>
        Term.mk <$> (Record.mk kind (readMembers members)).node := by
  unfold readTerm typeName?
  cases members.lookup "type" with
  | none => rfl
  | some value =>
    cases value with
    | str name =>
      dsimp only [Option.bind_some, Json.str?, Option.elim]
      cases unspell? Kind name <;> rfl
    | _ => rfl

/-- Objects in which the same is read. -/
structure Alike (members members' : List (String × Json)) : Prop where
  type : present? members' "type" = present? members "type"
  attributes : ∀ kind, kind? members = some kind → ∀ name ∈ kind.attributes,
    present? members' name = present? members name
  fields : ∀ kind, kind? members = some kind → ∀ f ∈ kind.fields,
    (present? members' (spell f)).map outcome = (present? members (spell f)).map outcome

namespace Alike

variable {members members' : List (String × Json)}

theorem of_present
    (h : ∀ name ∈ readNames members, present? members' name = present? members name) :
    Alike members members' where
  type := h "type" List.mem_cons_self
  attributes := by
    intro kind hkind name hname
    apply h
    simp [readNames, hkind, hname]
  fields := by
    intro kind hkind f hf
    rw [h]
    simp only [readNames, hkind, Option.elim, List.mem_cons, List.mem_append, List.mem_map]
    exact .inr (.inr ⟨f, hf, rfl⟩)

theorem of_field {before after : List (String × Json)} {kind : Kind} {f : Field}
    {value value' : Json} (hkind : kind? (before ++ (spell f, value) :: after) = some kind)
    (hf : f ∈ kind.fields) (hnull : value'.isNull = value.isNull)
    (h : outcome value' = outcome value) :
    Alike (before ++ (spell f, value) :: after) (before ++ (spell f, value') :: after) where
  type := by
    rw [present?_cons_of_ne (Kind.type_ne_field f).symm,
      present?_cons_of_ne (Kind.type_ne_field f).symm]
  attributes := by
    intro other hother name hname
    obtain rfl : kind = other := Option.some.inj (hkind.symm.trans hother)
    have hne := Kind.attribute_ne_field hname hf
    rw [present?_cons_of_ne hne, present?_cons_of_ne hne]
  fields := by
    intro _ _ g _
    exact present?_map_outcome hnull h

theorem typeName?_eq (h : Alike members members') : typeName? members' = typeName? members := by
  rw [Estree.typeName?_eq, Estree.typeName?_eq, h.type]

theorem readTerm_eq (h : Alike members members') :
    readTerm (.obj members') = readTerm (.obj members) := by
  rw [readTerm_obj, readTerm_obj, h.typeName?_eq]
  cases hname : typeName? members with
  | none => rfl
  | some name =>
    dsimp only [Option.elim]
    cases hkind : unspell? Kind name with
    | none => rfl
    | some kind =>
      have hkind : kind? members = some kind := by
        unfold typeName? at hname
        rw [kind?, hname, Option.bind_some, hkind]
      dsimp only
      rw [Record.node_congr (h.attributes kind hkind) (h.fields kind hkind)]

theorem outcome_eq (h : Alike members members') :
    outcome (.obj members') = outcome (.obj members) := by
  unfold outcome
  rw [h.readTerm_eq]
  rfl

end Alike

theorem Unseen.alike {j j' : Json} (h : Unseen j j') :
    ∃ members members', j = .obj members ∧ j' = .obj members' ∧ Alike members members' := by
  induction h with
  | add _ _ unread =>
    refine ⟨_, _, rfl, rfl, Alike.of_present ?_⟩
    intro other hother
    apply present?_cons_of_ne
    rintro rfl
    exact unread hother
  | @replace _ _ name _ _ unread =>
    refine ⟨_, _, rfl, rfl, Alike.of_present ?_⟩
    intro other hother
    have hne : other ≠ name := by
      rintro rfl
      exact unread hother
    rw [present?_cons_of_ne hne, present?_cons_of_ne hne]
  | remove _ _ unread =>
    refine ⟨_, _, rfl, rfl, Alike.of_present ?_⟩
    intro other hother
    symm
    apply present?_cons_of_ne
    rintro rfl
    exact unread hother
  | addNull _ _ _ absent =>
    refine ⟨_, _, rfl, rfl, Alike.of_present ?_⟩
    intro other _
    exact present?_cons_null absent
  | removeNull _ _ absent =>
    refine ⟨_, _, rfl, rfl, Alike.of_present ?_⟩
    intro other _
    exact (present?_cons_null absent).symm
  | field _ _ hkind hfield _ ih =>
    obtain ⟨members, members', rfl, rfl, below⟩ := ih
    exact ⟨_, _, rfl, rfl, .of_field hkind hfield rfl below.outcome_eq⟩
  | item _ _ _ _ hkind hfield _ ih =>
    obtain ⟨members, members', rfl, rfl, below⟩ := ih
    refine ⟨_, _, rfl, rfl, .of_field hkind hfield rfl ?_⟩
    simp only [outcome, Json.items?, Option.map_some, List.map_append, List.map_cons,
      below.readTerm_eq]
    rfl

end Estree

open Estree

theorem Term.ofJson_obj (members : List (String × Json)) : ofJson (.obj members) =
    (typeName? members).elim (.error .missingType) fun name =>
      if name = spell Kind.program then readTerm (.obj members) else .error (.notProgram name) := by
  unfold ofJson typeName? Json.member?
  dsimp only
  cases members.lookup "type" with
  | none => rfl
  | some value => cases value <;> rfl

/-- Changes that reading does not see, any number of them, lead to the same tree or the same
fault. -/
theorem Tree.ofJson_eq_of_unseen {j j' : Json} (h : Relation.ReflTransGen Unseen j j') :
    ofJson j' = ofJson j := by
  induction h with
  | refl => rfl
  | tail _ step ih =>
    obtain ⟨members, members', rfl, rfl, alike⟩ := step.alike
    rw [← ih]
    unfold ofJson
    rw [Term.ofJson_obj, Term.ofJson_obj, alike.typeName?_eq, alike.readTerm_eq]

/-- A statement loses a `directive` that is `null`, and its literal and the program get members
that say where they stood in a text. -/
theorem Tree.ofJson_eq_of_unseen_located :
    let literal : List (String × Json) := [("type", .str "Literal"), ("value", .int 1)]
    let located := literal ++ [("raw", .str "1")]
    let statement (members : List (String × Json)) : List (String × Json) :=
      [("type", .str "ExpressionStatement"), ("expression", .obj members)]
    let program (members : List (String × Json)) : List (String × Json) :=
      [("type", .str "Program"), ("body", .arr [.obj members])]
    let before : Json := .obj (program (statement literal ++ [("directive", .null)]))
    let after : Json := .obj (program (statement located) ++ [("range", .arr [.int 0, .int 2])])
    Relation.ReflTransGen Unseen before after ∧ ofJson after = ofJson before := by
  intro literal located statement program before after
  have body {members members' : List (String × Json)} (h : Unseen (.obj members) (.obj members')) :
      Unseen (.obj (program members)) (.obj (program members')) :=
    @Unseen.item [("type", .str "Program")] [] .program .body [] [] _ _ rfl (by decide) h
  have expression {members members' : List (String × Json)}
      (h : Unseen (.obj members) (.obj members')) :
      Unseen (.obj (statement members)) (.obj (statement members')) :=
    @Unseen.field [("type", .str "ExpressionStatement")] [] .expressionStatement .expression _ _
      rfl (by decide) h
  have dropped : Unseen (.obj (statement literal ++ [("directive", .null)]))
      (.obj (statement literal)) := .removeNull (statement literal) [] (by decide)
  have inside : Unseen (.obj literal) (.obj located) := .add literal [] (by decide)
  have outside : Unseen (.obj (program (statement located))) after :=
    .add (program (statement located)) [] (by decide)
  have steps : Relation.ReflTransGen Unseen before after :=
    ((Relation.ReflTransGen.single (body dropped)).tail (body (expression inside))).tail outside
  exact ⟨steps, ofJson_eq_of_unseen steps⟩

end ScriptFold

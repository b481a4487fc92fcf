import GraphQLCheck.Proofs.BuiltSchemas

/-!
# Giving parts to a type

A type takes parts of its own kind: those of its definition, and later those of its extensions. The
checks on the way amount to one condition on the outcome: the type with the new parts at the end of
the old ones is `Clean`, so no name in it is given twice and no name of a field is reserved. This is
`addParts?_ok_iff`; the five kinds of parts are all added by `foldlM_push_iff`.
-/

namespace GraphQLCheck

/-! ### Adding one by one -/

/-- Adding members one by one, each of which must be admissible and of a new name, succeeds if
all of them are admissible and all names differ. -/
theorem foldlM_push_iff {ε α : Type} {step : List α → α → Except ε (List α)} {name : α → String}
    {Admissible : α → Prop}
    (hstep : ∀ list a more, step list a = .ok more ↔
      Admissible a ∧ name a ∉ list.map name ∧ more = list ++ [a])
    {old new more : List α} (hold : (old.map name).Nodup) :
    new.foldlM step old = .ok more ↔
      (∀ a ∈ new, Admissible a) ∧ ((old ++ new).map name).Nodup ∧ more = old ++ new := by
  induction new generalizing old with
  | nil =>
    simp only [List.foldlM_nil, List.append_nil, pure, Except.pure, Except.ok.injEq]
    constructor
    · rintro rfl
      exact ⟨by simp, hold, rfl⟩
    · rintro ⟨-, -, rfl⟩
      rfl
  | cons a new ih =>
    rw [List.foldlM_cons, bind_succeeds_iff]
    constructor
    · rintro ⟨middle, ha, hrest⟩
      obtain ⟨hadmissible, hname, rfl⟩ := (hstep _ _ _).mp ha
      have hmiddle : ((old ++ [a]).map name).Nodup := by
        simp only [List.map_append, List.map_cons, List.map_nil]
        exact List.Nodup.append hold (List.nodup_singleton _) (by simpa using hname)
      obtain ⟨hnew, hnodup, rfl⟩ := (ih hmiddle).mp hrest
      refine ⟨List.forall_mem_cons.mpr ⟨hadmissible, hnew⟩, ?_, by simp⟩
      simpa using hnodup
    · rintro ⟨hall, hnodup, rfl⟩
      obtain ⟨hadmissible, hnew⟩ := List.forall_mem_cons.mp hall
      have hsplit : old ++ a :: new = old ++ [a] ++ new := by simp
      rw [hsplit] at hnodup
      have hmiddle : ((old ++ [a]).map name).Nodup := by
        rw [List.map_append] at hnodup
        exact hnodup.of_append_left
      refine ⟨old ++ [a], (hstep _ _ _).mpr ⟨hadmissible, ?_, rfl⟩,
        (ih hmiddle).mpr ⟨hnew, hnodup, hsplit⟩⟩
      simp only [List.map_append, List.map_cons, List.map_nil] at hmiddle
      exact fun hmem => (List.disjoint_of_nodup_append hmiddle) hmem (by simp)

/-- Adding members one by one, each of which must be of a new name, succeeds if all names
differ. -/
theorem foldlM_pushNew_iff {ε α : Type} {step : List α → α → Except ε (List α)} {name : α → String}
    (hstep : ∀ list a more, step list a = .ok more ↔
      name a ∉ list.map name ∧ more = list ++ [a])
    {old new more : List α} (hold : (old.map name).Nodup) :
    new.foldlM step old = .ok more ↔ ((old ++ new).map name).Nodup ∧ more = old ++ new := by
  have hadmissible (list a more) : step list a = .ok more ↔
      (fun _ => True) a ∧ name a ∉ list.map name ∧ more = list ++ [a] := by simp [hstep]
  simpa using foldlM_push_iff hadmissible hold

/-- A member of a given name is looked for and not found if the name is new. -/
theorem find?_name_eq_none_iff {α : Type} {name : α → String} {list : List α} {wanted : String} :
    list.find? (name · = wanted) = none ↔ wanted ∉ list.map name := by
  simp [List.find?_eq_none, List.mem_map]

/-- A member is looked for by its name, and put at the end unless it is found. -/
theorem pushUnlessFound_iff {ε α : Type} {name : α → String} {list more : List α} {a : α}
    {pushed : Except ε (List α)}
    (hnew : list.find? (name · = name a) = none → pushed = .ok (list ++ [a]))
    (hfound : ∀ existing, list.find? (name · = name a) = some existing →
      ∃ fault, pushed = .error fault) :
    pushed = .ok more ↔ name a ∉ list.map name ∧ more = list ++ [a] := by
  rw [← find?_name_eq_none_iff]
  cases hfind : list.find? (name · = name a) with
  | none => simpa [hnew hfind] using eq_comm
  | some existing =>
    obtain ⟨fault, hfault⟩ := hfound existing hfind
    simp [hfault]

/-- Adding names one by one, each of which must be new, succeeds if all names differ. -/
theorem foldlM_pushName_iff {ε : Type} {fault : String → ε} {old new more : List String}
    (hold : old.Nodup) :
    new.foldlM (fun list a => if a ∈ list then .error (fault a) else .ok (list ++ [a])) old =
      Except.ok more ↔ (old ++ new).Nodup ∧ more = old ++ new := by
  have hstep (list : List String) (a : String) (more : List String) :
      (if a ∈ list then .error (fault a) else .ok (list ++ [a])) = Except.ok more ↔
        id a ∉ list.map id ∧ more = list ++ [a] := by
    rw [List.map_id]
    by_cases hmem : a ∈ list
    · simp [hmem]
    · simpa [hmem] using eq_comm
  rw [← List.map_id old] at hold
  simpa using foldlM_pushNew_iff hstep hold

/-! ### The parts of a body -/

namespace Sdl.TypeParts

/-- The fields that are given to an object type or interface. -/
def fields : TypeParts → List FieldNode
  | .object _ fields | .interface _ fields => fields
  | _ => []

/-- The interfaces that are given to an object type or interface. -/
def interfaces : TypeParts → List String
  | .object interfaces _ | .interface interfaces _ => interfaces
  | _ => []

/-- The members that are given to a union. -/
def members : TypeParts → List String
  | .union members => members
  | _ => []

/-- The values that are given to an enum. -/
def values : TypeParts → List EnumValueNode
  | .enum values => values
  | _ => []

/-- The fields that are given to an input object. -/
def inputFields : TypeParts → List InputValueNode
  | .inputObject fields => fields
  | _ => []

end Sdl.TypeParts

namespace TypeBody

open Assembly

/-- The fields of an object type or interface. -/
def fields : TypeBody → List FieldDefinition
  | .object fields _ | .interface fields _ => fields
  | _ => []

/-- The interfaces of an object type or interface. -/
def interfaces : TypeBody → List String
  | .object _ interfaces | .interface _ interfaces => interfaces
  | _ => []

/-- The members of a union. -/
def members : TypeBody → List String
  | .union members => members
  | _ => []

/-- The values of an enum. -/
def values : TypeBody → List EnumValue
  | .enum values => values
  | _ => []

/-- The fields of an input object. -/
def inputFields : TypeBody → List InputValue
  | .inputObject fields => fields
  | _ => []

/-- The kind of a type with this body. -/
def kind : TypeBody → TypeKind
  | .builtin _ | .scalar => .scalar
  | .object _ _ => .object
  | .interface _ _ => .interface
  | .union _ => .union
  | .enum _ => .enum
  | .inputObject _ => .inputObject

/-- The body that parts written in a file make up by themselves. -/
def ofParts (file : String) : Sdl.TypeParts → TypeBody
  | .scalar => .scalar
  | .object interfaces fields => .object (fields.map (fieldOf file)) interfaces
  | .interface interfaces fields => .interface (fields.map (fieldOf file)) interfaces
  | .union members => .union members
  | .enum values => .enum (values.map (enumValueOf file))
  | .inputObject fields => .inputObject (fields.map (inputValueOf file))

/-- A body with the parts of another one of its kind at the end. -/
def merge : TypeBody → TypeBody → TypeBody
  | .object fields interfaces, .object more others =>
    .object (fields ++ more) (interfaces ++ others)
  | .interface fields interfaces, .interface more others =>
    .interface (fields ++ more) (interfaces ++ others)
  | .union members, .union more => .union (members ++ more)
  | .enum values, .enum more => .enum (values ++ more)
  | .inputObject fields, .inputObject more => .inputObject (fields ++ more)
  | body, _ => body

@[simp] theorem kind_ofParts (file : String) (parts : Sdl.TypeParts) :
    (ofParts file parts).kind = kindOf parts := by
  cases parts <;> rfl

@[simp] theorem kind_merge (body other : TypeBody) : (body.merge other).kind = body.kind := by
  cases body <;> cases other <;> rfl

section Accessors

variable (file : String) (parts : Sdl.TypeParts)

@[simp] theorem fields_ofParts : (ofParts file parts).fields = parts.fields.map (fieldOf file) := by
  cases parts <;> rfl

@[simp] theorem interfaces_ofParts : (ofParts file parts).interfaces = parts.interfaces := by
  cases parts <;> rfl

@[simp] theorem members_ofParts : (ofParts file parts).members = parts.members := by
  cases parts <;> rfl

@[simp] theorem values_ofParts :
    (ofParts file parts).values = parts.values.map (enumValueOf file) := by
  cases parts <;> rfl

@[simp] theorem inputFields_ofParts :
    (ofParts file parts).inputFields = parts.inputFields.map (inputValueOf file) := by
  cases parts <;> rfl

variable {body other : TypeBody} (h : body.kind = other.kind)
include h

theorem fields_merge : (body.merge other).fields = body.fields ++ other.fields := by
  cases body <;> cases other <;> first | rfl | cases h

theorem interfaces_merge : (body.merge other).interfaces = body.interfaces ++ other.interfaces := by
  cases body <;> cases other <;> first | rfl | cases h

theorem members_merge : (body.merge other).members = body.members ++ other.members := by
  cases body <;> cases other <;> first | rfl | cases h

theorem values_merge : (body.merge other).values = body.values ++ other.values := by
  cases body <;> cases other <;> first | rfl | cases h

theorem inputFields_merge :
    (body.merge other).inputFields = body.inputFields ++ other.inputFields := by
  cases body <;> cases other <;> first | rfl | cases h

end Accessors

/-! ### Bodies without faults of their own -/

/-- No name in a body is given twice, and no name of a field is reserved. -/
@[mk_iff]
structure Clean (body : TypeBody) : Prop where
  /-- Fields have different names. -/
  fields : (body.fields.map (·.name)).Nodup
  /-- Fields have names that are not reserved. -/
  unreserved : ∀ f ∈ body.fields, isReserved f.name = false
  /-- Interfaces are declared once. -/
  interfaces : body.interfaces.Nodup
  /-- Members are listed once. -/
  members : body.members.Nodup
  /-- Values have different names. -/
  values : (body.values.map (·.name)).Nodup
  /-- Fields of input objects have different names. -/
  inputFields : (body.inputFields.map (·.name)).Nodup

/-- What is clean with more parts is clean without them. -/
theorem Clean.of_merge {body other : TypeBody} (hkind : body.kind = other.kind)
    (h : (body.merge other).Clean) : body.Clean where
  fields := by
    have := h.fields
    rw [fields_merge hkind, List.map_append] at this
    exact this.of_append_left
  unreserved f hf := by
    have := h.unreserved f
    rw [fields_merge hkind] at this
    exact this (List.mem_append_left _ hf)
  interfaces := by
    have := h.interfaces
    rw [interfaces_merge hkind] at this
    exact this.of_append_left
  members := by
    have := h.members
    rw [members_merge hkind] at this
    exact this.of_append_left
  values := by
    have := h.values
    rw [values_merge hkind, List.map_append] at this
    exact this.of_append_left
  inputFields := by
    have := h.inputFields
    rw [inputFields_merge hkind, List.map_append] at this
    exact this.of_append_left

theorem clean_builtin (scalar : BuiltinScalar) : (builtin scalar).Clean := by
  constructor <;> simp [TypeBody.fields, TypeBody.interfaces, TypeBody.members, TypeBody.values,
    TypeBody.inputFields]

theorem clean_scalar : scalar.Clean := by
  constructor <;> simp [TypeBody.fields, TypeBody.interfaces, TypeBody.members, TypeBody.values,
    TypeBody.inputFields]

theorem clean_object_iff {fields : List FieldDefinition} {interfaces : List String} :
    (object fields interfaces).Clean ↔
      (fields.map (·.name)).Nodup ∧ (∀ f ∈ fields, isReserved f.name = false) ∧
        interfaces.Nodup := by
  simp [clean_iff, TypeBody.fields, TypeBody.interfaces, TypeBody.members, TypeBody.values,
    TypeBody.inputFields]

theorem clean_interface_iff {fields : List FieldDefinition} {interfaces : List String} :
    (interface fields interfaces).Clean ↔
      (fields.map (·.name)).Nodup ∧ (∀ f ∈ fields, isReserved f.name = false) ∧
        interfaces.Nodup := by
  simp [clean_iff, TypeBody.fields, TypeBody.interfaces, TypeBody.members, TypeBody.values,
    TypeBody.inputFields]

theorem clean_union_iff {members : List String} : (union members).Clean ↔ members.Nodup := by
  simp [clean_iff, TypeBody.fields, TypeBody.interfaces, TypeBody.members, TypeBody.values,
    TypeBody.inputFields]

theorem clean_enum_iff {values : List EnumValue} :
    (enum values).Clean ↔ (values.map (·.name)).Nodup := by
  simp [clean_iff, TypeBody.fields, TypeBody.interfaces, TypeBody.members, TypeBody.values,
    TypeBody.inputFields]

theorem clean_inputObject_iff {fields : List InputValue} :
    (inputObject fields).Clean ↔ (fields.map (·.name)).Nodup := by
  simp [clean_iff, TypeBody.fields, TypeBody.interfaces, TypeBody.members, TypeBody.values,
    TypeBody.inputFields]

/-- A body takes parts of its own kind, unless it is that of a builtin scalar. -/
def Takes (body : TypeBody) (parts : Sdl.TypeParts) : Prop :=
  body.kind = kindOf parts ∧ ∀ scalar, body ≠ .builtin scalar

end TypeBody

theorem TypeDefinition.kind_eq (t : TypeDefinition) : t.kind = t.body.kind := by
  obtain ⟨name, location, body⟩ := t
  cases body <;> rfl

theorem TypeDefinition.interfaces_eq (t : TypeDefinition) : t.interfaces = t.body.interfaces := by
  obtain ⟨name, location, body⟩ := t
  cases body <;> rfl

namespace Assembly

/-! ### Adding parts -/

section Adding

variable {owner : String} {location : Location}

theorem addFields_ok_iff {fields new more : List FieldDefinition}
    (h : (fields.map (·.name)).Nodup) :
    new.foldlM (addField owner) fields = .ok more ↔
      (∀ f ∈ new, isReserved f.name = false) ∧ ((fields ++ new).map (·.name)).Nodup ∧
        more = fields ++ new := by
  refine foldlM_push_iff (fun list field more => ?_) h
  rw [addField]
  cases isReserved field.name with
  | true => simp
  | false =>
    simp only [Bool.false_eq_true, if_false, true_and]
    exact pushUnlessFound_iff (fun h => by rw [h]) fun _ h => ⟨_, by rw [h]⟩

theorem addInputFields_ok_iff {fields new more : List InputValue}
    (h : (fields.map (·.name)).Nodup) :
    new.foldlM (addInputField owner) fields = .ok more ↔
      ((fields ++ new).map (·.name)).Nodup ∧ more = fields ++ new := by
  refine foldlM_pushNew_iff (fun list field more => ?_) h
  exact pushUnlessFound_iff (fun h => by rw [addInputField, h]) fun _ h =>
    ⟨_, by rw [addInputField, h]⟩

theorem addEnumValues_ok_iff {values new more : List EnumValue}
    (h : (values.map (·.name)).Nodup) :
    new.foldlM (addEnumValue owner) values = .ok more ↔
      ((values ++ new).map (·.name)).Nodup ∧ more = values ++ new := by
  refine foldlM_pushNew_iff (fun list value more => ?_) h
  exact pushUnlessFound_iff (fun h => by rw [addEnumValue, h]) fun _ h =>
    ⟨_, by rw [addEnumValue, h]⟩

theorem addInterfaces_ok_iff {interfaces new more : List String} (h : interfaces.Nodup) :
    new.foldlM (addInterface owner location) interfaces = .ok more ↔
      (interfaces ++ new).Nodup ∧ more = interfaces ++ new :=
  foldlM_pushName_iff h

theorem addMembers_ok_iff {members new more : List String} (h : members.Nodup) :
    new.foldlM (addMember owner location) members = .ok more ↔
      (members ++ new).Nodup ∧ more = members ++ new :=
  foldlM_pushName_iff h

end Adding

/-- Fields and interfaces are added to an object type and to an interface in the same way. -/
theorem addFieldsAndInterfaces_ok_iff {make : List FieldDefinition → List String → TypeBody}
    {owner : String} {location : Location} {fields new : List FieldDefinition}
    {interfaces others : List String} {more : TypeBody}
    (hfields : (fields.map (·.name)).Nodup) (hinterfaces : interfaces.Nodup) :
    (do
      let fields ← new.foldlM (addField owner) fields
      let interfaces ← others.foldlM (addInterface owner location) interfaces
      return make fields interfaces) = Except.ok more ↔
      ((fields ++ new).map (·.name)).Nodup ∧ (∀ f ∈ new, isReserved f.name = false) ∧
        (interfaces ++ others).Nodup ∧ more = make (fields ++ new) (interfaces ++ others) := by
  simp only [bind_succeeds_iff, addFields_ok_iff hfields, addInterfaces_ok_iff hinterfaces, pure,
    Except.pure, Except.ok.injEq]
  constructor
  · rintro ⟨_, ⟨hreserved, hnames, rfl⟩, _, ⟨hothers, rfl⟩, rfl⟩
    exact ⟨hnames, hreserved, hothers, rfl⟩
  · rintro ⟨hnames, hreserved, hothers, rfl⟩
    exact ⟨_, ⟨hreserved, hnames, rfl⟩, _, ⟨hothers, rfl⟩, rfl⟩

/-- Unions, enums and input objects have parts of a single sort. -/
theorem addOnly_ok_iff {α : Type} {make : List α → TypeBody} {added : Except SchemaError (List α)}
    {outcome : List α} {more : TypeBody} {Fits : Prop}
    (h : ∀ list, added = .ok list ↔ Fits ∧ list = outcome) :
    (do return make (← added)) = Except.ok more ↔ Fits ∧ more = make outcome := by
  simp only [bind_succeeds_iff, h, pure, Except.pure, Except.ok.injEq]
  constructor
  · rintro ⟨_, ⟨hfits, rfl⟩, rfl⟩
    exact ⟨hfits, rfl⟩
  · rintro ⟨hfits, rfl⟩
    exact ⟨_, ⟨hfits, rfl⟩, rfl⟩

/-- Parts are added to a body that takes them if the outcome is clean. -/
theorem addParts?_ok_iff_clean {file : String} {node : Sdl.TypeNode} {body more : TypeBody}
    (hclean : body.Clean) (htakes : body.Takes node.parts) :
    addParts? file node body = some (.ok more) ↔
      (body.merge (.ofParts file node.parts)).Clean ∧
        more = body.merge (.ofParts file node.parts) := by
  obtain ⟨position, name, parts⟩ := node
  obtain ⟨hkind, hbuiltin⟩ := htakes
  cases body with
  | builtin scalar => exact absurd rfl (hbuiltin scalar)
  | scalar =>
    cases parts with
    | scalar => simpa [addParts?, TypeBody.merge, TypeBody.clean_scalar] using eq_comm
    | _ => cases hkind
  | object fields interfaces =>
    cases parts with
    | object others new =>
      obtain ⟨hfields, hreserved, hinterfaces⟩ := TypeBody.clean_object_iff.mp hclean
      simp only [addParts?, Option.some.injEq, TypeBody.merge, TypeBody.ofParts,
        addFieldsAndInterfaces_ok_iff hfields hinterfaces, TypeBody.clean_object_iff,
        List.forall_mem_append, and_assoc]
      tauto
    | _ => cases hkind
  | interface fields interfaces =>
    cases parts with
    | interface others new =>
      obtain ⟨hfields, hreserved, hinterfaces⟩ := TypeBody.clean_interface_iff.mp hclean
      simp only [addParts?, Option.some.injEq, TypeBody.merge, TypeBody.ofParts,
        addFieldsAndInterfaces_ok_iff hfields hinterfaces, TypeBody.clean_interface_iff,
        List.forall_mem_append, and_assoc]
      tauto
    | _ => cases hkind
  | union members =>
    cases parts with
    | union new =>
      have hold := TypeBody.clean_union_iff.mp hclean
      simp only [addParts?, Option.some.injEq, addOnly_ok_iff fun _ => addMembers_ok_iff hold]
      rw [← TypeBody.clean_union_iff]
      rfl
    | _ => cases hkind
  | enum values =>
    cases parts with
    | enum new =>
      have hold := TypeBody.clean_enum_iff.mp hclean
      simp only [addParts?, Option.some.injEq, addOnly_ok_iff fun _ => addEnumValues_ok_iff hold]
      rw [← TypeBody.clean_enum_iff]
      rfl
    | _ => cases hkind
  | inputObject fields =>
    cases parts with
    | inputObject new =>
      have hold := TypeBody.clean_inputObject_iff.mp hclean
      simp only [addParts?, Option.some.injEq, addOnly_ok_iff fun _ => addInputFields_ok_iff hold]
      rw [← TypeBody.clean_inputObject_iff]
      rfl
    | _ => cases hkind

theorem addParts?_eq_none_iff {file : String} {node : Sdl.TypeNode} {body : TypeBody} :
    addParts? file node body = none ↔ ¬ body.Takes node.parts := by
  obtain ⟨position, name, parts⟩ := node
  cases body <;> cases parts <;> simp [addParts?, TypeBody.Takes, TypeBody.kind, kindOf]

/-- The parts of a definition or extension can be added to a clean body if it takes them and the
outcome is clean. -/
theorem addParts?_ok_iff {file : String} {node : Sdl.TypeNode} {body more : TypeBody}
    (hclean : body.Clean) :
    addParts? file node body = some (.ok more) ↔
      body.Takes node.parts ∧ (body.merge (.ofParts file node.parts)).Clean ∧
        more = body.merge (.ofParts file node.parts) := by
  by_cases htakes : body.Takes node.parts
  · simp [addParts?_ok_iff_clean hclean htakes, htakes]
  · simp [addParts?_eq_none_iff.mpr htakes, htakes]

/-! ### The body of a new type -/

theorem clean_bareBody (parts : Sdl.TypeParts) : (bareBody parts).Clean := by
  cases parts with
  | scalar => exact TypeBody.clean_scalar
  | object _ _ => simp [bareBody, TypeBody.clean_object_iff]
  | interface _ _ => simp [bareBody, TypeBody.clean_interface_iff]
  | union _ => simp [bareBody, TypeBody.clean_union_iff]
  | enum _ => simp [bareBody, TypeBody.clean_enum_iff]
  | inputObject _ => simp [bareBody, TypeBody.clean_inputObject_iff]

theorem takes_bareBody (parts : Sdl.TypeParts) : (bareBody parts).Takes parts := by
  cases parts <;> exact ⟨rfl, by simp [bareBody]⟩

theorem merge_bareBody (file : String) (parts : Sdl.TypeParts) :
    (bareBody parts).merge (.ofParts file parts) = .ofParts file parts := by
  cases parts <;> rfl

/-- The definition of a type gives a body unless it is that of an enum without values or has parts
that are not clean. -/
theorem bodyOf_ok_iff {file : String} {node : Sdl.TypeNode} {body : TypeBody} :
    bodyOf file node = .ok body ↔
      node.parts ≠ .enum [] ∧ (TypeBody.ofParts file node.parts).Clean ∧
        body = .ofParts file node.parts := by
  have hadd : addParts? file node (bareBody node.parts) = some (.ok body) ↔
      (TypeBody.ofParts file node.parts).Clean ∧ body = .ofParts file node.parts := by
    rw [addParts?_ok_iff_clean (clean_bareBody node.parts) (takes_bareBody node.parts),
      merge_bareBody]
  unfold bodyOf
  split
  · rename_i hparts
    simp [hparts]
  · rename_i hparts
    rw [← hadd]
    cases hresult : addParts? file node (bareBody node.parts) with
    | none => exact absurd (takes_bareBody node.parts) (addParts?_eq_none_iff.mp hresult)
    | some result =>
      have hne : node.parts ≠ .enum [] := hparts
      simp [hne]

end Assembly

end GraphQLCheck

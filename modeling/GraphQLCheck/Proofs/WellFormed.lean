import GraphQLCheck.Proofs.Assembling.Parts
import Mathlib.Data.List.Perm.Basic

/-!
# Well-formed schema texts

What definitions should satisfy to make up a schema, said about the definitions alone: nothing is
registered, no order of loading matters, and an extension counts with the type that it extends
(`WellFormed`). It has two parts: the definitions fit together (`Consistent`), and all arguments of
fields and directives have types whose values can be given.

Arguments are collected by name before their types are looked at, so of an argument that a later one
of its name replaces nothing is asked. What is asked is `LooselyWellFormed`. It is the same where no
list of arguments repeats a name (`looselyWellFormed_iff_wellFormed`), and because it is said of the
definitions as a collection, it holds of them in every order (`LooselyWellFormed.perm`).
-/

namespace GraphQLCheck.Sdl

open Assembly

/-! ### Sorting out definitions -/

namespace Definition

/-- The type that is defined. -/
def type? : Definition → Option TypeNode
  | .type node => some node
  | _ => none

/-- The extension of a type. -/
def extension? : Definition → Option TypeNode
  | .extension node => some node
  | _ => none

/-- The directive that is defined. -/
def directive? : Definition → Option DirectiveNode
  | .directive node => some node
  | _ => none

/-- The block of root types. -/
def roots? : Definition → Option RootNode
  | .roots node => some node
  | _ => none

end Definition

/-- The name that a block gives for the root type of a kind of operation. -/
def RootNode.name? (node : RootNode) : OperationKind → Option String
  | .query => node.query?
  | .mutation => node.mutation?
  | .subscription => node.subscription?

section

variable (definitions : List Definition)

/-- The types that are defined. -/
def typeNodes : List TypeNode := definitions.filterMap Definition.type?

/-- The extensions of types. -/
def extensionNodes : List TypeNode := definitions.filterMap Definition.extension?

/-- The directives that are defined. -/
def directiveNodes : List DirectiveNode := definitions.filterMap Definition.directive?

/-- The names that blocks give for the root type of a kind of operation. -/
def rootNames (kind : OperationKind) : List String :=
  (definitions.filterMap Definition.roots?).filterMap (·.name? kind)

/-- All that a type is given, by its definition and by its extensions. -/
def TypeNode.given (node : TypeNode) : List TypeParts :=
  node.parts :: ((extensionNodes definitions).filter (·.name = node.name)).map (·.parts)

/-- The lists of arguments that are written: for the fields of types and of their extensions, and for
directives. -/
def parameterLists : List (List InputValueNode) :=
  ((typeNodes definitions ++ extensionNodes definitions).flatMap (·.parts.fields)).map
      (·.parameters) ++ (directiveNodes definitions).map (·.parameters)

/-- A name is that of a type of an allowed kind. -/
def Names (allowed : TypeKind → Bool) (name : String) : Prop :=
  (name ∈ BuiltinScalar.all.map (·.name) ∧ allowed .scalar = true) ∨
    ∃ node ∈ typeNodes definitions, node.name = name ∧ allowed (kindOf node.parts) = true

end

/-- The arguments that no later one of their name replaces. -/
def counted : List InputValueNode → List InputValueNode
  | [] => []
  | p :: rest => if p.name ∈ rest.map (·.name) then counted rest else p :: counted rest

theorem counted_subset (parameters : List InputValueNode) : counted parameters ⊆ parameters := by
  induction parameters with
  | nil => exact List.Subset.refl []
  | cons p rest ih =>
    rw [counted]
    split_ifs
    · exact List.subset_cons_of_subset p ih
    · exact List.cons_subset_cons p ih

/-- Among arguments of different names none is replaced. -/
theorem counted_eq_self {parameters : List InputValueNode}
    (h : (parameters.map (·.name)).Nodup) : counted parameters = parameters := by
  induction parameters with
  | nil => rfl
  | cons p rest ih =>
    rw [List.map_cons, List.nodup_cons] at h
    rw [counted, if_neg h.1, ih h.2]

/-! ### Well-formedness -/

/-- In what a type is given no name stands twice, and no name of a field is reserved. -/
@[mk_iff]
structure Distinct (given : List TypeParts) : Prop where
  /-- Fields have different names. -/
  fields : ((given.flatMap (·.fields)).map (·.name)).Nodup
  /-- Fields have names that are not reserved. -/
  unreserved : ∀ f ∈ given.flatMap (·.fields), isReserved f.name = false
  /-- Interfaces are declared once. -/
  interfaces : (given.flatMap (·.interfaces)).Nodup
  /-- Members are listed once. -/
  members : (given.flatMap (·.members)).Nodup
  /-- Values have different names. -/
  values : ((given.flatMap (·.values)).map (·.name)).Nodup
  /-- Fields of input objects have different names. -/
  inputFields : ((given.flatMap (·.inputFields)).map (·.name)).Nodup

/-- The types that parts mention, apart from those of arguments, are there and of the kind that their
place asks for. -/
@[mk_iff]
structure Resolved (definitions : List Definition) (parts : TypeParts) : Prop where
  /-- What is implemented is an interface. -/
  interfaces : ∀ name ∈ parts.interfaces, Names definitions (· = .interface) name
  /-- Members of unions are object types. -/
  members : ∀ name ∈ parts.members, Names definitions (· = .object) name
  /-- The type of a field is not an input object. -/
  fields : ∀ f ∈ parts.fields, Names definitions TypeKind.isOutput f.type.innermost
  /-- The values of a field of an input object can be given. -/
  inputFields : ∀ p ∈ parts.inputFields, Names definitions TypeKind.isInput p.type.innermost

/-- Definitions fit together, apart from the types of arguments. -/
@[mk_iff]
structure Consistent (definitions : List Definition) : Prop where
  /-- Types have different names. -/
  typeNames : ((typeNodes definitions).map (·.name)).Nodup
  /-- Types have names that are neither those of builtin scalars nor reserved. -/
  newTypes : ∀ node ∈ typeNodes definitions,
    node.name ∉ BuiltinScalar.all.map (·.name) ∧ isReserved node.name = false
  /-- The definition of an enum has a value. -/
  enums : ∀ node ∈ typeNodes definitions, node.parts ≠ .enum []
  /-- What a type is given by its definition and its extensions is distinct. -/
  distinct : ∀ node ∈ typeNodes definitions, Distinct (node.given definitions)
  /-- An extension is of a type that is defined and of its kind. -/
  extensions : ∀ extension ∈ extensionNodes definitions, ∃ node ∈ typeNodes definitions,
    node.name = extension.name ∧ kindOf node.parts = kindOf extension.parts
  /-- Directives have different names. -/
  directiveNames : ((directiveNodes definitions).map (·.name)).Nodup
  /-- Directives have names that are neither those of builtin directives nor reserved. -/
  newDirectives : ∀ node ∈ directiveNodes definitions,
    node.name ∉ DirectiveDefinition.builtins.map (·.name) ∧ isReserved node.name = false
  /-- The root type of a kind of operation is named at most once. -/
  rootsOnce : ∀ kind, (rootNames definitions kind).length ≤ 1
  /-- Different kinds of operation are given different root types. -/
  rootsApart : ∀ first second, ∀ name ∈ rootNames definitions first,
    name ∈ rootNames definitions second → first = second
  /-- A root type of queries is named, or there is an object type of the default name. -/
  query : rootNames definitions .query ≠ [] ∨ Names definitions (· = .object) "Query"
  /-- Root types are object types. -/
  roots : ∀ kind, ∀ name ∈ rootNames definitions kind, Names definitions (· = .object) name
  /-- The types that types and extensions mention are of the right kinds. -/
  resolved : ∀ node ∈ typeNodes definitions ++ extensionNodes definitions,
    Resolved definitions node.parts

/-- Definitions make up a schema as they should. -/
@[mk_iff]
structure WellFormed (definitions : List Definition) : Prop extends Consistent definitions where
  /-- The values of every argument of a field or directive can be given. -/
  parameters : ∀ list ∈ parameterLists definitions, ∀ p ∈ list,
    Names definitions TypeKind.isInput p.type.innermost

/-- Definitions make up a schema, but for arguments that a later one of their name replaces. -/
@[mk_iff]
structure LooselyWellFormed (definitions : List Definition) : Prop
    extends Consistent definitions where
  /-- The values of an argument of a field or directive can be given, unless it is replaced. -/
  parameters : ∀ list ∈ parameterLists definitions, ∀ p ∈ counted list,
    Names definitions TypeKind.isInput p.type.innermost

theorem forall_parameterLists_iff {definitions : List Definition}
    {P : List InputValueNode → Prop} :
    (∀ list ∈ parameterLists definitions, P list) ↔
      (∀ node ∈ typeNodes definitions ++ extensionNodes definitions, ∀ f ∈ node.parts.fields,
        P f.parameters) ∧
      ∀ node ∈ directiveNodes definitions, P node.parameters := by
  rw [parameterLists, List.forall_mem_append, List.forall_mem_map, List.forall_mem_map,
    List.forall_mem_flatMap]

/-- No list of arguments repeats a name. -/
def UnrepeatedParameters (definitions : List Definition) : Prop :=
  ∀ list ∈ parameterLists definitions, (list.map (·.name)).Nodup

theorem WellFormed.loosely {definitions : List Definition} (h : WellFormed definitions) :
    LooselyWellFormed definitions where
  toConsistent := h.toConsistent
  parameters list hlist p hp := h.parameters list hlist p (counted_subset list hp)

/-- Where no argument is replaced, definitions are well-formed if they are loosely so. -/
theorem looselyWellFormed_iff_wellFormed {definitions : List Definition}
    (h : UnrepeatedParameters definitions) :
    LooselyWellFormed definitions ↔ WellFormed definitions := by
  refine ⟨fun hloose => ⟨hloose.toConsistent, fun list hlist p hp => ?_⟩, WellFormed.loosely⟩
  refine hloose.parameters list hlist p ?_
  rwa [counted_eq_self (h list hlist)]

/-! ### Deciding -/

instance (parts : TypeParts) : Decidable (parts ≠ .enum []) :=
  match parts with
  | .enum [] => .isFalse fun h => h rfl
  | .enum (_ :: _) | .scalar | .object _ _ | .interface _ _ | .union _ | .inputObject _ =>
    .isTrue nofun

instance {P : OperationKind → Prop} [DecidablePred P] : Decidable (∀ kind, P kind) :=
  decidable_of_iff (P .query ∧ P .mutation ∧ P .subscription)
    ⟨fun ⟨hquery, hmutation, hsubscription⟩ kind =>
      match kind with
      | .query => hquery
      | .mutation => hmutation
      | .subscription => hsubscription,
    fun h => ⟨h .query, h .mutation, h .subscription⟩⟩

instance (definitions : List Definition) (allowed : TypeKind → Bool) (name : String) :
    Decidable (Names definitions allowed name) :=
  inferInstanceAs (Decidable (_ ∨ _))

instance (given : List TypeParts) : Decidable (Distinct given) :=
  decidable_of_iff' _ (distinct_iff given)

instance (definitions : List Definition) (parts : TypeParts) :
    Decidable (Resolved definitions parts) :=
  decidable_of_iff' _ (resolved_iff definitions parts)

instance (definitions : List Definition) : Decidable (Consistent definitions) :=
  decidable_of_iff' _ (consistent_iff definitions)

instance (definitions : List Definition) : Decidable (WellFormed definitions) :=
  decidable_of_iff' _ (wellFormed_iff definitions)

instance (definitions : List Definition) : Decidable (LooselyWellFormed definitions) :=
  decidable_of_iff' _ (looselyWellFormed_iff definitions)

instance (definitions : List Definition) : Decidable (UnrepeatedParameters definitions) :=
  inferInstanceAs (Decidable (∀ list ∈ parameterLists definitions, _))

/-! ### Every order -/

section Order

open scoped List

variable {definitions others : List Definition} (h : definitions ~ others)
include h

theorem typeNodes_perm : typeNodes definitions ~ typeNodes others := h.filterMap _

theorem extensionNodes_perm : extensionNodes definitions ~ extensionNodes others := h.filterMap _

theorem directiveNodes_perm : directiveNodes definitions ~ directiveNodes others := h.filterMap _

theorem rootNames_perm (kind : OperationKind) :
    rootNames definitions kind ~ rootNames others kind :=
  (h.filterMap _).filterMap _

theorem parameterLists_perm : parameterLists definitions ~ parameterLists others :=
  ((((typeNodes_perm h).append (extensionNodes_perm h)).flatMap_right _).map _).append
    ((directiveNodes_perm h).map _)

theorem given_perm (node : TypeNode) : node.given definitions ~ node.given others :=
  (((extensionNodes_perm h).filter _).map _).cons _

theorem Names.perm {allowed : TypeKind → Bool} {name : String}
    (hnames : Names definitions allowed name) : Names others allowed name := by
  rcases hnames with hbuiltin | ⟨node, hnode, hname⟩
  · exact .inl hbuiltin
  · exact .inr ⟨node, (typeNodes_perm h).mem_iff.mp hnode, hname⟩

theorem Resolved.perm {parts : TypeParts} (hparts : Resolved definitions parts) :
    Resolved others parts where
  interfaces name hname := (hparts.interfaces name hname).perm h
  members name hname := (hparts.members name hname).perm h
  fields f hf := (hparts.fields f hf).perm h
  inputFields p hp := (hparts.inputFields p hp).perm h

end Order

open scoped List in
theorem Distinct.perm {given others : List TypeParts} (h : given ~ others)
    (hdistinct : Distinct given) : Distinct others where
  fields := ((h.flatMap_right _).map _).nodup_iff.mp hdistinct.fields
  unreserved f hf := hdistinct.unreserved f ((h.flatMap_right _).mem_iff.mpr hf)
  interfaces := (h.flatMap_right _).nodup_iff.mp hdistinct.interfaces
  members := (h.flatMap_right _).nodup_iff.mp hdistinct.members
  values := ((h.flatMap_right _).map _).nodup_iff.mp hdistinct.values
  inputFields := ((h.flatMap_right _).map _).nodup_iff.mp hdistinct.inputFields

open scoped List in
/-- Definitions that fit together do so in every order. -/
theorem Consistent.perm {definitions others : List Definition} (h : definitions ~ others)
    (hfit : Consistent definitions) : Consistent others := by
  have htypes {node : TypeNode} : node ∈ typeNodes others → node ∈ typeNodes definitions :=
    (typeNodes_perm h).mem_iff.mpr
  have hdirectives {node : DirectiveNode} :
      node ∈ directiveNodes others → node ∈ directiveNodes definitions :=
    (directiveNodes_perm h).mem_iff.mpr
  have hroots {kind : OperationKind} {name : String} :
      name ∈ rootNames others kind → name ∈ rootNames definitions kind :=
    (rootNames_perm h kind).mem_iff.mpr
  constructor
  case typeNames => exact ((typeNodes_perm h).map _).nodup_iff.mp hfit.typeNames
  case newTypes => exact fun node hnode => hfit.newTypes node (htypes hnode)
  case enums => exact fun node hnode => hfit.enums node (htypes hnode)
  case distinct =>
    exact fun node hnode => (hfit.distinct node (htypes hnode)).perm (given_perm h node)
  case extensions =>
    intro extension hextension
    obtain ⟨node, hnode, hfits⟩ :=
      hfit.extensions extension ((extensionNodes_perm h).mem_iff.mpr hextension)
    exact ⟨node, (typeNodes_perm h).mem_iff.mp hnode, hfits⟩
  case directiveNames => exact ((directiveNodes_perm h).map _).nodup_iff.mp hfit.directiveNames
  case newDirectives => exact fun node hnode => hfit.newDirectives node (hdirectives hnode)
  case rootsOnce =>
    intro kind
    rw [← (rootNames_perm h kind).length_eq]
    exact hfit.rootsOnce kind
  case rootsApart =>
    exact fun first second name hfirst hsecond =>
      hfit.rootsApart first second name (hroots hfirst) (hroots hsecond)
  case query =>
    refine hfit.query.imp (fun hne => ?_) fun hquery => hquery.perm h
    intro heq
    have hperm := rootNames_perm h .query
    rw [heq] at hperm
    exact hne hperm.eq_nil
  case roots => exact fun kind name hname => (hfit.roots kind name (hroots hname)).perm h
  case resolved =>
    intro node hnode
    have hmem := ((typeNodes_perm h).append (extensionNodes_perm h)).mem_iff.mpr hnode
    exact (hfit.resolved node hmem).perm h

open scoped List in
/-- Definitions that make up a schema do so in every order. -/
theorem LooselyWellFormed.perm {definitions others : List Definition} (h : definitions ~ others)
    (hloose : LooselyWellFormed definitions) : LooselyWellFormed others where
  toConsistent := hloose.toConsistent.perm h
  parameters list hlist p hp :=
    (hloose.parameters list ((parameterLists_perm h).mem_iff.mpr hlist) p hp).perm h

end GraphQLCheck.Sdl

import GraphQLCheck.Proofs.SchemaAcceptance
import Mathlib.Data.List.Forall2
import Mathlib.Data.List.Induction

/-!
# Parts of a schema as they are written

When a part of a schema is the one that a node of a schema text writes down: it has the name, the
type, the default and the deprecation that stand there, and it is located there. The parameters of a
field or directive are collected of its arguments by name (`Sdl.Collected`). What is said here does
not mention how the one is made of the other; that what is made satisfies it is shown beside each
relation.
-/

namespace GraphQLCheck

open Assembly

/-- What is made of each entry is related to it. -/
theorem forall₂_map_self {α β : Type} {R : α → β → Prop} {f : α → β} (h : ∀ a, R a (f a))
    (list : List α) : List.Forall₂ R list (list.map f) :=
  List.forall₂_map_right_iff.mpr (List.forall₂_same.mpr fun a _ => h a)

/-! ### Deprecation -/

/-- An argument that gives a text as the reason. -/
def Argument.IsReason (a : Argument) (reason : String) : Prop :=
  a.name = "reason" ∧ a.value = .atom (.string reason)

/-- The reason that a directive gives: the first of its arguments that is one, or else the default
reason. -/
inductive Directive.Gives (d : Directive) : String → Prop where
  /-- An argument gives the reason. -/
  | argument {before after : List Argument} {a : Argument} {reason : String} :
      d.arguments = before ++ a :: after → (∀ b ∈ before, ∀ other, ¬ b.IsReason other) →
      a.IsReason reason → Gives d reason
  /-- No argument gives one. -/
  | default : (∀ a ∈ d.arguments, ∀ other, ¬ a.IsReason other) → Gives d Deprecation.defaultReason

namespace Deprecation

/-- What directives say about deprecation. The first one of the name counts. -/
inductive SaidBy (directives : List Directive) : Deprecation → Prop where
  /-- There is no such directive. -/
  | current : (∀ d ∈ directives, d.name ≠ "deprecated") → SaidBy directives .current
  /-- There is one, and it gives the reason. -/
  | deprecated {before after : List Directive} {d : Directive} {reason : String} :
      directives = before ++ d :: after → (∀ other ∈ before, other.name ≠ "deprecated") →
      d.name = "deprecated" → d.Gives reason → SaidBy directives (.deprecated reason)

theorem reasonOf?_eq_some_iff {a : Argument} {reason : String} :
    reasonOf? a = some reason ↔ a.IsReason reason := by
  unfold reasonOf? Argument.IsReason
  split
  · rename_i hname hvalue
    simp [hname, hvalue, eq_comm]
  · rename_i hother
    simp only [reduceCtorEq, false_iff, not_and]
    exact fun hname hvalue => hother reason hname hvalue

theorem reasonOf?_eq_none_iff {a : Argument} :
    reasonOf? a = none ↔ ∀ reason, ¬ a.IsReason reason := by
  simp only [Option.eq_none_iff_forall_ne_some, ne_eq, reasonOf?_eq_some_iff]

theorem gives_reason (d : Directive) :
    d.Gives ((d.arguments.findSome? reasonOf?).getD defaultReason) := by
  cases hfirst : d.arguments.findSome? reasonOf? with
  | none =>
    rw [List.findSome?_eq_none_iff] at hfirst
    exact .default fun a ha => reasonOf?_eq_none_iff.mp (hfirst a ha)
  | some reason =>
    obtain ⟨before, a, after, hsplit, ha, hbefore⟩ := List.findSome?_eq_some_iff.mp hfirst
    exact .argument hsplit (fun b hb => reasonOf?_eq_none_iff.mp (hbefore b hb))
      (reasonOf?_eq_some_iff.mp ha)

theorem saidBy_ofDirectives (directives : List Directive) :
    SaidBy directives (.ofDirectives directives) := by
  unfold ofDirectives
  split
  · rename_i hfind
    exact .current (by simpa using List.find?_eq_none.mp hfind)
  · rename_i d hfind
    obtain ⟨hname, before, after, hsplit, hbefore⟩ := List.find?_eq_some_iff_append.mp hfind
    exact .deprecated hsplit (by simpa using hbefore) (of_decide_eq_true hname) (gives_reason d)

end Deprecation

/-! ### Parameters -/

/-- A parameter or input field is the one that is written in a file. -/
structure InputValue.WrittenAs (file : String) (node : Sdl.InputValueNode) (v : InputValue) :
    Prop where
  /-- The name. -/
  name : v.name = node.name
  /-- The type. -/
  type : v.type = node.type
  /-- The default, as a value. -/
  default : v.default? = node.written?.map Written.toLiteral
  /-- Where it stands. -/
  location : v.location = .source file node.position

theorem writtenAs_inputValueOf (x : String × Sdl.InputValueNode) :
    (inputValueOf x.1 x.2).WrittenAs x.1 x.2 := ⟨rfl, rfl, rfl, rfl⟩

theorem eraseDups_append_singleton (names : List String) (name : String) :
    (names ++ [name]).eraseDups = names.eraseDups ++ if name ∈ names then [] else [name] := by
  rw [List.eraseDups_append]
  by_cases h : name ∈ names <;> simp [List.removeAll, List.eraseDups_cons, h]

/-- Names are as many as the different ones among them exactly if none is repeated. -/
theorem length_eraseDups_eq_iff (names : List String) :
    names.eraseDups.length = names.length ↔ names.Nodup := by
  have hle (names : List String) : names.eraseDups.length ≤ names.length := by
    induction names using List.reverseRecOn with
    | nil => simp
    | append_singleton names name ih =>
      rw [eraseDups_append_singleton, List.length_append, List.length_append]
      split_ifs <;> simp only [List.length_nil, List.length_singleton] <;> omega
  induction names using List.reverseRecOn with
  | nil => simp
  | append_singleton names name ih =>
    rw [eraseDups_append_singleton, List.nodup_append_comm, List.singleton_append, List.nodup_cons,
      List.length_append, List.length_append, List.length_singleton]
    by_cases h : name ∈ names
    · have hshort := hle names
      rw [if_pos h, List.length_nil]
      exact ⟨fun heq => by omega, fun hnew => absurd h hnew.1⟩
    · rw [if_neg h, List.length_singleton, Nat.add_right_cancel_iff, and_iff_right h]
      exact ih

/-- What is kept of the arguments that are written in a file. -/
structure Sdl.Collected (file : String) (written : List Sdl.InputValueNode)
    (parameters : List InputValue) : Prop where
  /-- There is one parameter for each name, in the order in which the names first stand. -/
  names : parameters.map (·.name) = (written.map (·.name)).eraseDups
  /-- It is the last argument of its name. -/
  last : ∀ p ∈ parameters, ∃ before node after, written = before ++ node :: after ∧
    node.name ∉ after.map (·.name) ∧ p.WrittenAs file node
  /-- There are as many parameters as arguments exactly if no name is repeated. -/
  length_eq_iff : parameters.length = written.length ↔ (written.map (·.name)).Nodup
  /-- If no name is repeated, the parameters are what is written, one by one. -/
  all : (written.map (·.name)).Nodup →
    List.Forall₂ (fun node p => p.WrittenAs file node) written parameters

/-- The arguments that count are those that no later one replaces. -/
theorem Sdl.mem_counted {node : Sdl.InputValueNode} {nodes : List Sdl.InputValueNode}
    (h : node ∈ Sdl.counted nodes) : ∃ before after, nodes = before ++ node :: after ∧
      node.name ∉ after.map (·.name) := by
  induction nodes with
  | nil => cases h
  | cons first rest ih =>
    have hrest (hmem : node ∈ Sdl.counted rest) : ∃ before after,
        first :: rest = before ++ node :: after ∧ node.name ∉ after.map (·.name) := by
      obtain ⟨before, after, rfl, hlast⟩ := ih hmem
      exact ⟨first :: before, after, rfl, hlast⟩
    rw [Sdl.counted] at h
    split_ifs at h with hrepeated
    · exact hrest h
    · rcases List.mem_cons.mp h with rfl | hmem
      · exact ⟨[], rest, rfl, hrepeated⟩
      · exact hrest hmem

namespace Assembly

theorem parametersOf_append_singleton (file : String) (nodes : List Sdl.InputValueNode)
    (node : Sdl.InputValueNode) :
    parametersOf file (nodes ++ [node]) =
      putParameter (parametersOf file nodes) (inputValueOf file node) := by
  simp [parametersOf]

theorem any_name_eq {parameters : List InputValue} {name : String} :
    parameters.any (·.name = name) = true ↔ name ∈ parameters.map (·.name) := by
  simp

theorem map_name_putParameter (parameters : List InputValue) (p : InputValue) :
    (putParameter parameters p).map (·.name) = parameters.map (·.name) ++
      if p.name ∈ parameters.map (·.name) then [] else [p.name] := by
  unfold putParameter
  simp only [any_name_eq]
  split_ifs with h
  · rw [List.map_map, List.append_nil]
    refine List.map_congr_left fun q _ => ?_
    by_cases hname : q.name = p.name <;> simp [hname]
  · simp

theorem map_name_parametersOf (file : String) (nodes : List Sdl.InputValueNode) :
    (parametersOf file nodes).map (·.name) = (nodes.map (·.name)).eraseDups := by
  induction nodes using List.reverseRecOn with
  | nil => rfl
  | append_singleton nodes node ih =>
    have hname : (inputValueOf file node).name = node.name := rfl
    rw [parametersOf_append_singleton, map_name_putParameter, ih, List.map_append, List.map_cons,
      List.map_nil, eraseDups_append_singleton, hname]
    simp only [List.mem_eraseDups]

/-- Arguments of different names are all kept. -/
theorem parametersOf_eq_map {file : String} {nodes : List Sdl.InputValueNode}
    (h : (nodes.map (·.name)).Nodup) : parametersOf file nodes = nodes.map (inputValueOf file) := by
  induction nodes using List.reverseRecOn with
  | nil => rfl
  | append_singleton nodes node ih =>
    rw [List.map_append, List.map_cons, List.map_nil, List.nodup_append_comm, List.singleton_append,
      List.nodup_cons] at h
    have hnew : ¬ (parametersOf file nodes).any (·.name = (inputValueOf file node).name) = true := by
      rw [any_name_eq, map_name_parametersOf, List.mem_eraseDups]
      exact h.1
    rw [parametersOf_append_singleton, putParameter, if_neg hnew, ih h.2, List.map_append]
    rfl

theorem collected_parametersOf (file : String) (nodes : List Sdl.InputValueNode) :
    Sdl.Collected file nodes (parametersOf file nodes) where
  names := map_name_parametersOf file nodes
  last p hp := by
    obtain ⟨node, hnode, rfl⟩ := mem_parametersOf_iff.mp hp
    obtain ⟨before, after, hsplit, hlast⟩ := Sdl.mem_counted hnode
    exact ⟨before, node, after, hsplit, hlast, writtenAs_inputValueOf (file, node)⟩
  length_eq_iff := by
    have hlength := congrArg List.length (map_name_parametersOf file nodes)
    rw [List.length_map] at hlength
    rw [hlength, ← length_eraseDups_eq_iff, List.length_map]
  all hnodup := by
    rw [parametersOf_eq_map hnodup]
    exact forall₂_map_self (fun node => writtenAs_inputValueOf (file, node)) nodes

end Assembly

/-! ### Fields, values and directives -/

/-- A field is the one that is written in a file. -/
structure FieldDefinition.WrittenAs (file : String) (node : Sdl.FieldNode) (f : FieldDefinition) :
    Prop where
  /-- The name. -/
  name : f.name = node.name
  /-- The type. -/
  type : f.type = node.type
  /-- The parameters. -/
  parameters : Sdl.Collected file node.parameters f.parameters
  /-- The deprecation. -/
  deprecation : f.deprecation.SaidBy node.directives
  /-- Where it stands. -/
  location : f.location = .source file node.position

/-- A value of an enum is the one that is written in a file. -/
structure EnumValue.WrittenAs (file : String) (node : Sdl.EnumValueNode) (v : EnumValue) :
    Prop where
  /-- The name. -/
  name : v.name = node.name
  /-- The deprecation. -/
  deprecation : v.deprecation.SaidBy node.directives
  /-- Where it stands. -/
  location : v.location = .source file node.position

/-- A directive is the one that is written in a file. -/
structure DirectiveDefinition.WrittenAs (file : String) (node : Sdl.DirectiveNode)
    (d : DirectiveDefinition) : Prop where
  /-- The name. -/
  name : d.name = node.name
  /-- The parameters. -/
  parameters : Sdl.Collected file node.parameters d.parameters
  /-- Whether it may stand several times at one place. -/
  repeatable : d.repeatable = node.repeatable
  /-- Where it may stand. -/
  locations : d.locations = node.locations
  /-- Where it is defined. -/
  location : d.location = .source file node.position

theorem writtenAs_fieldOf (x : String × Sdl.FieldNode) : (fieldOf x.1 x.2).WrittenAs x.1 x.2 :=
  ⟨rfl, rfl, collected_parametersOf x.1 x.2.parameters,
    Deprecation.saidBy_ofDirectives x.2.directives, rfl⟩

theorem writtenAs_enumValueOf (x : String × Sdl.EnumValueNode) :
    (enumValueOf x.1 x.2).WrittenAs x.1 x.2 :=
  ⟨rfl, Deprecation.saidBy_ofDirectives x.2.directives, rfl⟩

theorem writtenAs_directiveOf (x : String × Sdl.DirectiveNode) :
    (directiveOf x).WrittenAs x.1 x.2 :=
  ⟨rfl, collected_parametersOf x.1 x.2.parameters, rfl, rfl, rfl⟩

/-! ### Types -/

/-- The parts of one sort that are written for a type, each with its file. -/
def Sdl.writtenParts {α : Type} (part : Sdl.TypeParts → List α)
    (writings : List (String × Sdl.TypeNode)) : List (String × α) :=
  writings.flatMap fun x => (part x.2.parts).map (x.1, ·)

/-- What is written for a type is of its kind, and the type has all the parts that are written, in
their order, and no others. -/
structure TypeBody.WrittenAs (writings : List (String × Sdl.TypeNode)) (body : TypeBody) :
    Prop where
  /-- All is of the kind of the type. -/
  kind : ∀ x ∈ writings, kindOf x.2.parts = body.kind
  /-- The type is not a builtin scalar. -/
  new : ∀ scalar, body ≠ .builtin scalar
  /-- The fields of an object type or interface. -/
  fields : List.Forall₂ (fun x f => f.WrittenAs x.1 x.2)
    (Sdl.writtenParts Sdl.TypeParts.fields writings) body.fields
  /-- The fields of an input object. -/
  inputFields : List.Forall₂ (fun x v => v.WrittenAs x.1 x.2)
    (Sdl.writtenParts Sdl.TypeParts.inputFields writings) body.inputFields
  /-- The values of an enum. -/
  values : List.Forall₂ (fun x v => v.WrittenAs x.1 x.2)
    (Sdl.writtenParts Sdl.TypeParts.values writings) body.values
  /-- The declared interfaces. -/
  interfaces : body.interfaces = writings.flatMap (·.2.parts.interfaces)
  /-- The members of a union. -/
  members : body.members = writings.flatMap (·.2.parts.members)

namespace Assembly

variable {entries : List Entry} {e : String × Sdl.TypeNode}

/-- The parts of a type with its extensions are made of what is written, entry by entry. -/
theorem part_extended_eq_map {α β : Type} {part : TypeBody → List β}
    {written : Sdl.TypeParts → List α} {make : String → α → β}
    (hpart : ∀ {body other : TypeBody}, body.kind = other.kind →
      part (body.merge other) = part body ++ part other)
    (hmake : ∀ file parts, part (.ofParts file parts) = (written parts).map (make file))
    (hfit : (typeOf e).Fitting (loaded entries).extensions) :
    part ((typeOf e).extended (loaded entries).extensions).body =
      (Sdl.writtenParts written (ownEntries entries e)).map fun x => make x.1 x.2 := by
  rw [part_extended hfit hpart, Sdl.writtenParts, List.map_flatMap]
  simp only [hmake, List.map_map, Function.comp_def]

/-- A type with its extensions is the one that is written. -/
theorem writtenAs_extended (hfit : (typeOf e).Fitting (loaded entries).extensions) :
    ((typeOf e).extended (loaded entries).extensions).body.WrittenAs (ownEntries entries e) where
  kind := by
    rw [← TypeDefinition.kind_eq, TypeDefinition.kind_extended]
    rw [TypeDefinition.fitting_iff] at hfit
    intro x hx
    rcases List.mem_cons.mp hx with rfl | hx
    · exact (kind_typeOf x).symm
    · obtain ⟨hmem, hname⟩ := List.mem_filter.mp hx
      rw [TypeDefinition.kind_eq]
      exact (hfit x hmem (of_decide_eq_true hname)).symm
  new := (TypeDefinition.takes_extended_iff.mpr (takes_typeOf_iff.mpr rfl)).2
  fields := by
    rw [part_extended_eq_map TypeBody.fields_merge TypeBody.fields_ofParts hfit]
    exact forall₂_map_self writtenAs_fieldOf _
  inputFields := by
    rw [part_extended_eq_map TypeBody.inputFields_merge TypeBody.inputFields_ofParts hfit]
    exact forall₂_map_self writtenAs_inputValueOf _
  values := by
    rw [part_extended_eq_map TypeBody.values_merge TypeBody.values_ofParts hfit]
    exact forall₂_map_self writtenAs_enumValueOf _
  interfaces := by
    rw [part_extended hfit TypeBody.interfaces_merge]
    simp only [TypeBody.interfaces_ofParts]
  members := by
    rw [part_extended hfit TypeBody.members_merge]
    simp only [TypeBody.members_ofParts]

end Assembly

end GraphQLCheck

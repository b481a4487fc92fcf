import GraphQLCheck.Proofs.Overlap.Fields
import Mathlib.Data.List.Sigma

/-!
# The fields of a document and their types

`d.typedFields schema` lists the fields of a document in the order of the text, at any depth, each
with the type of the set in which it stands and with its definition on that type. A field is told
apart from all others by the address of its own set.

The walk enters these fields in this order. The definition that is in its scope then is that of the
field, and the type that it has for the set is the one listed, if that is composite
(`fieldView?_visits`).
-/

namespace GraphQLCheck

open Overlap

namespace Selection

mutual

/-- The fields of a selection from a type whose own set has the given address: a field itself, and
those inside a field or an inline fragment. -/
def typedField (schema : Schema) (parent? : Option TypeDefinition) (address : Address) :
    Selection → List Occurrence
  | field node _ items =>
    .ofField schema parent? address node items ::
      typedFields schema (node.type? schema parent?) address 0 items
  | spread _ => []
  | inline node _ items => typedFields schema (node.type? schema parent?) address 0 items

/-- The fields of selections from a type in a set at an address, from the given number on. -/
def typedFields (schema : Schema) (parent? : Option TypeDefinition) (address : Address)
    (index : ℕ) : List Selection → List Occurrence
  | [] => []
  | item :: rest =>
    typedField schema parent? (index :: address) item ++
      typedFields schema parent? address (index + 1) rest

end

end Selection

/-- The fields of the definition of a given number. -/
def Definition.typedFields (schema : Schema) (number : ℕ) (definition : Definition) :
    List Occurrence :=
  match definition.operation?, definition.fragment? with
  | some o, _ => Selection.typedFields schema (schema.root? o.kind) [number] 0 o.selectionSet.items
  | none, some f =>
    Selection.typedFields schema (schema.type? f.condition) [number] 0 f.selectionSet.items
  | none, none => []

/-- The fields of a document in the order of the text. -/
def Document.typedFields (schema : Schema) (d : Document) : List Occurrence :=
  d.definitions.zipIdx.flatMap fun numbered => numbered.1.typedFields schema numbered.2

section

variable {schema : Schema} {d : Document} {type? parent? : Option TypeDefinition}
  {address : Address} {items : List Selection} {o : Occurrence}

theorem Definition.typedFields_operation {definition : Definition} {p : Operation}
    (h : definition.operation? = some p) (schema : Schema) (number : ℕ) :
    definition.typedFields schema number =
      Selection.typedFields schema (schema.root? p.kind) [number] 0 p.selectionSet.items := by
  rw [Definition.typedFields, h]

/-! ### The fields listed are those of the sets -/

namespace Document

/-- A field of a set, with the type that the set selects from and its definition on it. -/
def HasField (schema : Schema) (d : Document) (o : Occurrence) : Prop :=
  ∃ address items, ∃ index : ℕ, ∃ span, d.HasSet schema o.parent? address items ∧
    items[index]? = some (.field o.node span o.items) ∧
    o = .ofField schema o.parent? (index :: address) o.node o.items

theorem HasSet.hasField (h : d.HasSet schema parent? address items) {index : ℕ} {node : Field}
    {span : Span} {own : List Selection} (hitem : items[index]? = some (.field node span own)) :
    d.HasField schema (.ofField schema parent? (index :: address) node own) :=
  ⟨address, items, index, span, h, hitem, rfl⟩

theorem hasField_of_mem_typedFields {full : List Selection} {index : ℕ}
    (hset : d.HasSet schema parent? address full) (hdrop : full.drop index = items)
    (ho : o ∈ Selection.typedFields schema parent? address index items) : d.HasField schema o := by
  induction items using Selection.items_induction generalizing parent? address full index with
  | nil => simp [Selection.typedFields] at ho
  | field node span own rest ihOwn ihRest =>
    obtain ⟨hitem, hrest⟩ := drop_eq_cons hdrop
    rw [Selection.typedFields, Selection.typedField, List.mem_append, List.mem_cons] at ho
    rcases ho with (rfl | ho) | ho
    · exact hset.hasField hitem
    · exact ihOwn (hset.field hitem) rfl ho
    · exact ihRest hset hrest ho
  | spread node rest ihRest =>
    rw [Selection.typedFields, Selection.typedField, List.nil_append] at ho
    exact ihRest hset (drop_eq_cons hdrop).2 ho
  | inline node span own rest ihOwn ihRest =>
    obtain ⟨hitem, hrest⟩ := drop_eq_cons hdrop
    rw [Selection.typedFields, Selection.typedField, List.mem_append] at ho
    rcases ho with ho | ho
    · exact ihOwn (hset.inline hitem) rfl ho
    · exact ihRest hset hrest ho

end Document

theorem Selection.typedField_subset {item : Selection} {k : ℕ} (hitem : items[k]? = some item)
    (index : ℕ) :
    item.typedField schema parent? ((index + k) :: address) ⊆
      typedFields schema parent? address index items := by
  induction items generalizing index k with
  | nil => cases hitem
  | cons first rest ih =>
    rw [typedFields]
    cases k with
    | zero =>
      obtain rfl := Option.some.inj hitem
      exact List.subset_append_left _ _
    | succ k =>
      have hrest := ih hitem (index + 1)
      rw [Nat.add_right_comm] at hrest
      exact List.Subset.trans hrest (List.subset_append_right _ _)

namespace Document

theorem typedFields_subset_of_definition {number : ℕ} {definition : Definition}
    (h : d.definitions[number]? = some definition) :
    definition.typedFields schema number ⊆ d.typedFields schema := fun _ ho =>
  List.mem_flatMap.mpr ⟨(definition, number), List.mk_mem_zipIdx_iff_getElem?.mpr h, ho⟩

/-- The fields in a set are listed. -/
theorem HasSet.typedFields_subset (h : d.HasSet schema type? address items) :
    Selection.typedFields schema type? address 0 items ⊆ d.typedFields schema := by
  induction h with
  | @operation number definition o hnumber ho =>
    rw [← Definition.typedFields_operation ho]
    exact typedFields_subset_of_definition hnumber
  | fragment hnumber => exact typedFields_subset_of_definition hnumber
  | @field parent? address items index node span own _ hitem ih =>
    refine List.Subset.trans ?_ ih
    refine List.Subset.trans ?_ (Selection.typedField_subset hitem 0)
    rw [Nat.zero_add, Selection.typedField]
    exact List.subset_cons_self _ _
  | @inline parent? address items index node span own _ hitem ih =>
    refine List.Subset.trans ?_ ih
    refine List.Subset.trans ?_ (Selection.typedField_subset hitem 0)
    rw [Nat.zero_add, Selection.typedField]
    exact List.Subset.refl _

/-- The fields listed are the fields of the sets of the document. -/
theorem mem_typedFields : o ∈ d.typedFields schema ↔ d.HasField schema o := by
  constructor
  · intro ho
    obtain ⟨⟨definition, number⟩, hmem, ho⟩ := List.mem_flatMap.mp ho
    have hnumber := List.mk_mem_zipIdx_iff_getElem?.mp hmem
    rcases definition.operation_or_fragment with ⟨p, hp, -⟩ | ⟨f, rfl⟩
    · rw [Definition.typedFields_operation hp] at ho
      exact hasField_of_mem_typedFields (.operation hnumber hp) rfl ho
    · exact hasField_of_mem_typedFields (.fragment hnumber) rfl ho
  · rintro ⟨address, items, index, span, hset, hitem, heq⟩
    refine hset.typedFields_subset (Selection.typedField_subset hitem 0 ?_)
    rw [Nat.zero_add, Selection.typedField, heq]
    exact List.mem_cons_self

/-- The own set of a field of the document. -/
theorem HasField.own (h : d.HasField schema o) :
    d.HasSet schema (o.type? schema) o.address o.items := by
  obtain ⟨address, items, index, span, hset, hitem, heq⟩ := h
  have hown := hset.field hitem
  rw [heq]
  exact hown

end Document

/-! ### Different fields have different addresses -/

theorem Selection.entersFrom_of_mem_typedFields {index : ℕ}
    (h : o ∈ typedFields schema parent? address index items) :
    o.address.EntersFrom address index := by
  induction items using items_induction generalizing parent? address index with
  | nil => simp [typedFields] at h
  | field node span own rest ihOwn ihRest =>
    rw [typedFields, typedField, List.mem_append, List.mem_cons] at h
    rcases h with (rfl | h) | h
    · exact .of_suffix List.suffix_rfl
    · exact (ihOwn h).of_nested
    · exact (ihRest h).of_later
  | spread node rest ihRest =>
    rw [typedFields, typedField, List.nil_append] at h
    exact (ihRest h).of_later
  | inline node span own rest ihOwn ihRest =>
    rw [typedFields, typedField, List.mem_append] at h
    rcases h with h | h
    · exact (ihOwn h).of_nested
    · exact (ihRest h).of_later

theorem Selection.pairwise_typedFields (schema : Schema) (parent? : Option TypeDefinition)
    (address : Address) (index : ℕ) (items : List Selection) :
    (typedFields schema parent? address index items).Pairwise (·.address ≠ ·.address) := by
  induction items using items_induction generalizing parent? address index with
  | nil => exact .nil
  | field node span own rest ihOwn ihRest =>
    rw [typedFields, typedField, List.pairwise_append, List.pairwise_cons]
    refine ⟨⟨fun o ho heq => ?_, ihOwn _ _ _⟩, ihRest _ _ _, fun x hx y hy => ?_⟩
    · obtain ⟨j, -, hj⟩ := entersFrom_of_mem_typedFields ho
      rw [← heq] at hj
      exact absurd hj.length_le (by simp [Occurrence.ofField])
    · refine (entersFrom_of_mem_typedFields hy).ne ?_
      rcases List.mem_cons.mp hx with rfl | hx
      · exact List.suffix_rfl
      · exact (entersFrom_of_mem_typedFields hx).suffix
  | spread node rest ihRest =>
    rw [typedFields, typedField, List.nil_append]
    exact ihRest _ _ _
  | inline node span own rest ihOwn ihRest =>
    rw [typedFields, typedField, List.pairwise_append]
    refine ⟨ihOwn _ _ _, ihRest _ _ _, fun x hx y hy => ?_⟩
    exact (entersFrom_of_mem_typedFields hy).ne (entersFrom_of_mem_typedFields hx).suffix

theorem Definition.pairwise_typedFields (schema : Schema) (number : ℕ) (definition : Definition) :
    (definition.typedFields schema number).Pairwise (·.address ≠ ·.address) := by
  rcases definition.operation_or_fragment with ⟨p, hp, -⟩ | ⟨f, rfl⟩
  · rw [typedFields_operation hp]
    exact Selection.pairwise_typedFields _ _ _ _ _
  · exact Selection.pairwise_typedFields _ _ _ _ _

theorem Definition.suffix_of_mem_typedFields {number : ℕ} {definition : Definition}
    (h : o ∈ definition.typedFields schema number) : [number] <:+ o.address := by
  have hfields : ∃ type? items, o ∈ Selection.typedFields schema type? [number] 0 items := by
    rcases definition.operation_or_fragment with ⟨p, hp, -⟩ | ⟨f, rfl⟩
    · rw [typedFields_operation hp] at h
      exact ⟨_, _, h⟩
    · exact ⟨_, _, h⟩
  obtain ⟨type?, items, h⟩ := hfields
  exact (Selection.entersFrom_of_mem_typedFields h).suffix

/-- No two fields have the same address. -/
theorem Document.nodup_typedFields (schema : Schema) (d : Document) :
    ((d.typedFields schema).map (·.address)).Nodup := by
  have hnumbers : d.definitions.zipIdx.Pairwise (·.2 ≠ ·.2) :=
    List.pairwise_map.mp (List.nodup_zipIdx_map_snd _)
  refine List.pairwise_map.mpr (List.pairwise_flatMap.mpr ⟨fun numbered _ => ?_, ?_⟩)
  · exact Definition.pairwise_typedFields schema numbered.2 numbered.1
  · refine hnumbers.imp fun hne x hx y hy heq => hne ?_
    have hy' := Definition.suffix_of_mem_typedFields hy
    rw [← heq] at hy'
    exact Address.branch_unique (Definition.suffix_of_mem_typedFields hx) hy'

end

/-! ### The fields that the walk enters -/

/-- A field as it is seen by a rule: its own selections, its definition and the type that it is
selected from. -/
structure FieldView where
  /-- The field. -/
  node : Field
  /-- Its own selections. -/
  items : List Selection
  /-- Its definition. -/
  definition? : Option FieldDefinition
  /-- The type that it is selected from. -/
  parent? : Option TypeDefinition
  deriving Repr, Inhabited

/-- A field without its address. -/
def Overlap.Occurrence.view (o : Occurrence) : FieldView :=
  ⟨o.node, o.items, o.definition?, o.parent?⟩

/-- The field that a visit enters, as the scope shows it. -/
def Visit.fieldView? (v : Visit) : Option FieldView :=
  match v.hook with
  | .enter (.field node set) => some ⟨node, set.items, v.scope.field?, v.scope.parent?⟩
  | _ => none

namespace Visit

variable {schema : Schema} {s : Scope} {type? : Option TypeDefinition}

theorem fieldView?_along_details {hooks : List Hook} (h : Hook.Only Hook.isDetail hooks) :
    (along schema s hooks).filterMap fieldView? = [] := by
  rw [List.filterMap_eq_nil_iff]
  rintro ⟨hook, t⟩ hv
  have hdetail := h hook (hook_mem_of_mem_along hv)
  cases hook with
  | enter node => cases node <;> first | rfl | cases hdetail
  | leave node | arguments position list | directives list => rfl

theorem filterMap_along_around {α : Type} (choose : Visit → Option α) (node : Node)
    (inside : List Hook) :
    (along schema s (Hook.around node inside)).filterMap choose =
      (choose ⟨.enter node, s.enter schema node⟩).toList ++
        ((along schema (s.enter schema node) inside).filterMap choose ++
          (choose ⟨.leave node, Scope.after schema (s.enter schema node) inside⟩).toList) := by
  rw [along_around, List.filterMap_cons, List.filterMap_append, List.filterMap_cons,
    List.filterMap_nil]
  cases choose ⟨.enter node, s.enter schema node⟩ <;>
    cases choose ⟨.leave node, Scope.after schema (s.enter schema node) inside⟩ <;> rfl

/-- The fields that are entered in a selection: the selection itself if it is a field, and those of
its own set. -/
theorem fieldView?_along_ofSelection (hs : s.Idle) (address : Address) (item : Selection) :
    (along schema s (Hook.ofSelection address item)).filterMap fieldView? =
      (fieldView? ⟨.enter item.node, s.enter schema item.node⟩).toList ++
        (along schema (s.enter schema item.node) (item.ownSet address)).filterMap fieldView? := by
  have hitem := hs.item schema item
  rw [Hook.ofSelection_eq, filterMap_along_around, along_append, List.filterMap_append,
    fieldView?_along_details (Hook.detail_details item), Scope.after_details hitem]
  exact congrArg _ (List.append_nil _)

theorem fieldView?_along_ofSelectionSet (address : Address) (set : SelectionSet) :
    (along schema s (Hook.ofSelectionSet address set)).filterMap fieldView? =
      (along schema (s.enter schema (.selectionSet address set))
        (Hook.ofSelections address 0 set.items)).filterMap fieldView? := by
  rw [Hook.ofSelectionSet, filterMap_along_around]
  exact List.append_nil _

/-- The fields that are entered in a set are those that it lists. -/
theorem fieldView?_along_ofSelections (hs : s.Inside type?) (hknows : schema.Knows type?)
    (address : Address) (index : ℕ) (items : List Selection) :
    (along schema s (Hook.ofSelections address index items)).filterMap fieldView? =
      (Selection.typedFields schema type? address index items).map (·.known.view) := by
  induction items using Selection.items_induction generalizing s type? address index with
  | nil => rfl
  | field node span own rest ihOwn ihRest =>
    have hself : fieldView? ⟨.enter (.field node ⟨span, own⟩),
        s.enter schema (.field node ⟨span, own⟩)⟩ =
          some (Occurrence.ofField schema type? (index :: address) node own).known.view := by
      have hdefinition : s.parent?.bind (schema.selectedField? · node.name) =
          type?.bind (schema.selectedField? · node.name) := by
        rw [hs.parent, hknows.selectedField?]
      change some (FieldView.mk node own (s.parent?.bind (schema.selectedField? · node.name))
        s.parent?) = _
      rw [hdefinition, hs.parent]
      rfl
    have hown : (along schema (s.enter schema (.field node ⟨span, own⟩))
        (Selection.ownSet (index :: address) (.field node span own))).filterMap fieldView? =
          (Selection.typedFields schema (node.type? schema type?) (index :: address) 0 own).map
            (·.known.view) := by
      cases own with
      | nil => rfl
      | cons first own =>
        have hidle := hs.idle.item schema (.field node span (first :: own))
        rw [Selection.ownSet, fieldView?_along_ofSelectionSet]
        exact ihOwn (Scope.inside_selectionSet hidle (hs.type?_field _ hknows node))
          (Field.knows_type? schema type? node) _ _
    rw [Hook.ofSelections, along_append, Scope.after_ofSelection hs.idle, List.filterMap_append,
      fieldView?_along_ofSelection hs.idle, ihRest hs hknows, Selection.typedFields,
      Selection.typedField, List.map_append, List.map_cons, ← hown]
    exact congrArg (fun o? : Option FieldView => o?.toList ++ _ ++ _) hself
  | spread node rest ihRest =>
    rw [Hook.ofSelections, along_append, Scope.after_ofSelection hs.idle, List.filterMap_append,
      fieldView?_along_ofSelection hs.idle, ihRest hs hknows, Selection.typedFields,
      Selection.typedField, List.nil_append]
    rfl
  | inline node span own rest ihOwn ihRest =>
    have hown : (along schema (s.enter schema (.inline node))
        (Selection.ownSet (index :: address) (.inline node span own))).filterMap fieldView? =
          (Selection.typedFields schema (node.type? schema type?) (index :: address) 0 own).map
            (·.known.view) := by
      have hidle := hs.idle.item schema (.inline node span own)
      rw [Selection.ownSet, fieldView?_along_ofSelectionSet]
      exact ihOwn (Scope.inside_selectionSet hidle (hs.type?_inline schema node))
        (InlineFragment.knows_type? hknows node) _ _
    rw [Hook.ofSelections, along_append, Scope.after_ofSelection hs.idle, List.filterMap_append,
      fieldView?_along_ofSelection hs.idle, ihRest hs hknows, Selection.typedFields,
      Selection.typedField, List.map_append, ← hown]
    rfl

theorem fieldView?_along_ofDefinitions (hs : s.Idle) (number operations : ℕ)
    (definitions : List Definition) :
    (along schema s (Hook.ofDefinitions number operations definitions)).filterMap fieldView? =
      ((definitions.zipIdx number).flatMap fun numbered =>
        numbered.1.typedFields schema numbered.2).map (·.known.view) := by
  induction definitions generalizing number operations with
  | nil => rfl
  | cons definition rest ih =>
    rw [List.zipIdx_cons, List.flatMap_cons, List.map_append]
    rcases definition.operation_or_fragment with ⟨o, ho, -⟩ | ⟨f, rfl⟩
    · have hdetails := (Hook.Only.flatMap Hook.detail_ofVariableDefinition o.declared).append
        (Hook.detail_ofDirectives o.directives)
      have hafter : Scope.after schema (s.enter schema (.operation operations o))
          (o.declared.flatMap Hook.ofVariableDefinition ++ Hook.ofDirectives o.directives) =
            s.enter schema (.operation operations o) := by
        rw [Scope.after_append, Scope.after_flatMap fun x _ =>
          Scope.after_ofVariableDefinition _ _ x, Scope.after_ofDirectives hs.operation]
      rw [Hook.ofDefinitions_operation ho, along_append, Scope.after_ofOperation hs,
        List.filterMap_append, ih, Definition.typedFields_operation ho]
      congr 1
      rw [Hook.ofOperation, filterMap_along_around, along_append, hafter, List.filterMap_append,
        fieldView?_along_details hdetails, fieldView?_along_ofSelectionSet,
        fieldView?_along_ofSelections (Scope.inside_selectionSet hs.operation rfl)
          (schema.knows_root? o.kind)]
      exact List.append_nil _
    · rw [Hook.ofDefinitions_fragment, along_append, Scope.after_ofFragmentDefinition hs,
        List.filterMap_append, ih]
      congr 1
      rw [Hook.ofFragmentDefinition, filterMap_along_around, along_append,
        Scope.after_ofDirectives hs.fragmentDefinition, List.filterMap_append,
        fieldView?_along_details (Hook.detail_ofDirectives f.directives),
        fieldView?_along_ofSelectionSet,
        fieldView?_along_ofSelections (Scope.inside_selectionSet hs.fragmentDefinition rfl)
          (schema.knows_type? f.condition)]
      exact List.append_nil _

end Visit

/-- The walk enters the fields of a document in their order, with their definitions and with the
types that they are selected from, if these are composite. -/
theorem Document.fieldView?_visits (schema : Schema) (d : Document) :
    (d.visits schema).filterMap Visit.fieldView? =
      (d.typedFields schema).map (·.known.view) := by
  rw [visits, hooks, Visit.filterMap_along_around, ← topScope,
    Visit.fieldView?_along_ofDefinitions (d.idle_topScope schema)]
  exact List.append_nil _

end GraphQLCheck

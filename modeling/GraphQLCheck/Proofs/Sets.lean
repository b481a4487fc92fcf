import GraphQLCheck.Proofs.Walk

/-!
# The selection sets of a document

`d.HasSet schema type? address items` says that the selections `items` form the set at `address` and
select from `type?`: the root type of an operation, the type that a fragment applies to, or the type
of a field. A walk keeps that type in its scope; as the type that fields are selected from it keeps
it only if it is composite. The others have no fields, so nothing is lost (`Knows.selectedField?`).

A walk enters these sets and no others, those of fields only if they select something
(`HasSet.walked`, `AtSet`).
-/

namespace GraphQLCheck

namespace Schema

variable {schema : Schema} {type? : Option TypeDefinition}

/-- The type, if there is one, is that of its name in the schema. -/
def Knows (schema : Schema) (type? : Option TypeDefinition) : Prop :=
  ∀ t, type? = some t → schema.type? t.name = some t

theorem knows_type? (schema : Schema) (name : String) : schema.Knows (schema.type? name) := by
  intro t ht
  have hname : t.name = name := by simpa using List.find?_some ht
  rw [hname, ht]

theorem knows_bind_type? {α : Type} (schema : Schema) (a? : Option α) (name : α → String) :
    schema.Knows (a?.bind fun a => schema.type? (name a)) := by
  cases a? with
  | none => intro t ht; cases ht
  | some a => exact schema.knows_type? (name a)

theorem Knows.filter (h : schema.Knows type?) (p : TypeDefinition → Bool) :
    schema.Knows (type?.filter p) :=
  fun t ht => h t (Option.eq_some_of_filter_eq_some ht)

theorem knows_root? (schema : Schema) (kind : OperationKind) : schema.Knows (schema.root? kind) :=
  schema.knows_bind_type? (schema.rootName? kind) id

/-- A type that is not composite has no fields. -/
theorem selectedField?_of_not_composite {t : TypeDefinition} (h : schema.type? t.name = some t)
    (hcomposite : t.isComposite = false) (name : String) : schema.selectedField? t name = none := by
  have hfields : t.fields? = none := by
    obtain ⟨tname, location, body⟩ := t
    cases body with
    | object _ _ | interface _ _ => cases hcomposite
    | builtin _ | scalar | union _ | enum _ | inputObject _ => rfl
  simp [selectedField?, hcomposite, fieldOf?, h, TypeDefinition.field?, hfields]

/-- A field is selected in the same way from a type and from that type if it is composite. -/
theorem Knows.selectedField? (h : schema.Knows type?) (name : String) :
    (type?.filter (·.isComposite)).bind (schema.selectedField? · name) =
      type?.bind (schema.selectedField? · name) := by
  cases type? with
  | none => rfl
  | some t =>
    cases hcomposite : t.isComposite with
    | true => simp [Option.filter, hcomposite]
    | false =>
      simp [Option.filter, hcomposite, selectedField?_of_not_composite (h t rfl) hcomposite]

end Schema

/-- The type that the selections of an inline fragment select from. -/
def InlineFragment.type? (schema : Schema) (parent? : Option TypeDefinition) (i : InlineFragment) :
    Option TypeDefinition :=
  match i.condition? with
  | some name => schema.type? name
  | none => parent?

/-- The type that the own selections of a field select from, given the one it is selected from. -/
def Field.type? (schema : Schema) (parent? : Option TypeDefinition) (f : Field) :
    Option TypeDefinition :=
  (parent?.bind (schema.selectedField? · f.name)).bind fun definition =>
    schema.type? definition.type.innermost

theorem InlineFragment.knows_type? {schema : Schema} {parent? : Option TypeDefinition}
    (h : schema.Knows parent?) (i : InlineFragment) : schema.Knows (i.type? schema parent?) := by
  unfold InlineFragment.type?
  cases i.condition? with
  | none => exact h
  | some name => exact schema.knows_type? name

theorem Field.knows_type? (schema : Schema) (parent? : Option TypeDefinition) (f : Field) :
    schema.Knows (f.type? schema parent?) :=
  schema.knows_bind_type? _ fun definition : FieldDefinition => definition.type.innermost

namespace Document

/-- The selections at an address and the type that they select from. -/
inductive HasSet (schema : Schema) (d : Document) :
    Option TypeDefinition → Address → List Selection → Prop where
  /-- The set of an operation. -/
  | operation {number : ℕ} {definition : Definition} {o : Operation} :
      d.definitions[number]? = some definition → definition.operation? = some o →
      HasSet schema d (schema.root? o.kind) [number] o.selectionSet.items
  /-- The set of a fragment. -/
  | fragment {number : ℕ} {f : FragmentDefinition} :
      d.definitions[number]? = some (.fragment f) →
      HasSet schema d (schema.type? f.condition) [number] f.selectionSet.items
  /-- The own set of a field. -/
  | field {parent? : Option TypeDefinition} {address : Address} {items : List Selection} {index : ℕ}
      {node : Field} {span : Span} {own : List Selection} :
      HasSet schema d parent? address items → items[index]? = some (.field node span own) →
      HasSet schema d (node.type? schema parent?) (index :: address) own
  /-- The set of an inline fragment. -/
  | inline {parent? : Option TypeDefinition} {address : Address} {items : List Selection}
      {index : ℕ} {node : InlineFragment} {span : Span} {own : List Selection} :
      HasSet schema d parent? address items → items[index]? = some (.inline node span own) →
      HasSet schema d (node.type? schema parent?) (index :: address) own

variable {schema : Schema} {d : Document} {type? : Option TypeDefinition} {address : Address}
  {items : List Selection}

theorem HasSet.knows (h : d.HasSet schema type? address items) : schema.Knows type? := by
  induction h with
  | operation _ _ => exact schema.knows_root? _
  | fragment _ => exact schema.knows_type? _
  | field _ _ _ => exact Field.knows_type? schema _ _
  | inline _ _ ih => exact InlineFragment.knows_type? ih _

theorem HasSet.address_ne_nil (h : d.HasSet schema type? address items) : address ≠ [] := by
  cases h <;> simp

/-- There is one set at an address. -/
theorem HasSet.unique {type'? : Option TypeDefinition} {items' : List Selection}
    (h : d.HasSet schema type? address items) (h' : d.HasSet schema type'? address items') :
    type? = type'? ∧ items = items' := by
  induction h generalizing type'? items' with
  | operation hnumber hoperation =>
    cases h' with
    | operation hnumber' hoperation' =>
      obtain rfl := Option.some.inj (hnumber.symm.trans hnumber')
      obtain rfl := Option.some.inj (hoperation.symm.trans hoperation')
      exact ⟨rfl, rfl⟩
    | fragment hnumber' =>
      obtain rfl := Option.some.inj (hnumber.symm.trans hnumber')
      cases hoperation
    | field h' _ => exact absurd rfl h'.address_ne_nil
    | inline h' _ => exact absurd rfl h'.address_ne_nil
  | fragment hnumber =>
    cases h' with
    | operation hnumber' hoperation' =>
      obtain rfl := Option.some.inj (hnumber.symm.trans hnumber')
      cases hoperation'
    | fragment hnumber' =>
      obtain rfl := Definition.fragment.inj (Option.some.inj (hnumber.symm.trans hnumber'))
      exact ⟨rfl, rfl⟩
    | field h' _ => exact absurd rfl h'.address_ne_nil
    | inline h' _ => exact absurd rfl h'.address_ne_nil
  | field h hitem ih =>
    cases h' with
    | operation _ _ => exact absurd rfl h.address_ne_nil
    | fragment _ => exact absurd rfl h.address_ne_nil
    | field h' hitem' =>
      obtain ⟨rfl, rfl⟩ := ih h'
      obtain ⟨rfl, -, rfl⟩ := Selection.field.inj (Option.some.inj (hitem.symm.trans hitem'))
      exact ⟨rfl, rfl⟩
    | inline h' hitem' =>
      obtain ⟨rfl, rfl⟩ := ih h'
      cases hitem.symm.trans hitem'
  | inline h hitem ih =>
    cases h' with
    | operation _ _ => exact absurd rfl h.address_ne_nil
    | fragment _ => exact absurd rfl h.address_ne_nil
    | field h' hitem' =>
      obtain ⟨rfl, rfl⟩ := ih h'
      cases hitem.symm.trans hitem'
    | inline h' hitem' =>
      obtain ⟨rfl, rfl⟩ := ih h'
      obtain ⟨rfl, -, rfl⟩ := Selection.inline.inj (Option.some.inj (hitem.symm.trans hitem'))
      exact ⟨rfl, rfl⟩

end Document

/-! ### Sets and the walk -/

/-- The scope inside a set that selects from a type. -/
structure Scope.Inside (s : Scope) (type? : Option TypeDefinition) : Prop where
  /-- There is no parameter and no directive at hand. -/
  idle : s.Idle
  /-- The innermost field, fragment or operation has that type. -/
  type : s.type? = type?
  /-- Fields are selected from that type, if it is composite. -/
  parent : s.parent? = type?.filter (·.isComposite)

section Inside

variable {schema : Schema} {s : Scope} {type? : Option TypeDefinition} {address : Address}
  {set : SelectionSet}

theorem Scope.inside_selectionSet (h : s.Idle) (htype : s.type? = type?) :
    (s.enter schema (.selectionSet address set)).Inside type? :=
  ⟨h.selectionSet, htype, by rw [← htype]; rfl⟩

theorem Scope.Inside.type?_field (h : s.Inside type?) (set : SelectionSet)
    (hknows : schema.Knows type?) (node : Field) :
    (s.enter schema (.field node set)).type? = node.type? schema type? := by
  rw [Field.type?, ← hknows.selectedField?, ← h.parent]
  rfl

theorem Scope.Inside.type?_inline (h : s.Inside type?) (schema : Schema) (node : InlineFragment) :
    (s.enter schema (.inline node)).type? = node.type? schema type? := by
  rw [← h.type]
  rfl

/-- The parameter of an argument of a field that is selected from a type. -/
theorem Scope.Inside.parameter?_argument (h : s.Inside type?) (hknows : schema.Knows type?)
    (node : Field) (position : Position) (a : Argument) :
    ((s.enter schema (.field node set)).enter schema (.argument position a)).parameter? =
      (type?.bind (schema.selectedField? · node.name)).bind (·.parameter? a.name) := by
  rw [← hknows.selectedField?, ← h.parent]
  rfl

end Inside

/-- The first of the selections from a number on is the one of that number. -/
theorem drop_eq_cons {full rest : List Selection} {index : ℕ} {item : Selection}
    (h : full.drop index = item :: rest) :
    full[index]? = some item ∧ full.drop (index + 1) = rest := by
  constructor
  · rw [← List.head?_drop, h, List.head?_cons]
  · rw [← List.tail_drop, h, List.tail_cons]

namespace Document

variable {schema : Schema} {d : Document} {type? : Option TypeDefinition} {address : Address}
  {items : List Selection}

/-- The set is entered by the walk, and so are all its selections. -/
structure Walked (schema : Schema) (d : Document) (type? : Option TypeDefinition)
    (address : Address) (items : List Selection) (s : Scope) : Prop where
  /-- The scope inside the set. -/
  inside : s.Inside type?
  /-- The set is entered. -/
  entered : ∃ span, ⟨.enter (.selectionSet address ⟨span, items⟩), s⟩ ∈ d.visits schema
  /-- The visits of its selections are among the visits of the document. -/
  visits : Visit.along schema s (Hook.ofSelections address 0 items) ⊆ d.visits schema

/-- The visits of a set that is walked as a part of the document. -/
theorem walked_of_subset {s : Scope} (hs : s.Idle) (htype : s.type? = type?) (span : Span)
    (hsub : Visit.along schema s (Hook.ofSelectionSet address ⟨span, items⟩) ⊆ d.visits schema) :
    d.Walked schema type? address items
      (s.enter schema (.selectionSet address ⟨span, items⟩)) where
  inside := Scope.inside_selectionSet hs htype
  entered := ⟨span, hsub (Visit.mem_along_around.mpr (.inl rfl))⟩
  visits := fun _ hv => hsub (Visit.mem_along_around.mpr (.inr (.inl hv)))

/-- The visits of a selection of a set that is walked. -/
theorem Walked.visits_item {s : Scope} (h : d.Walked schema type? address items s) {index : ℕ}
    {item : Selection} (hitem : items[index]? = some item) {v : Visit}
    (hv : v = ⟨.enter item.node, s.enter schema item.node⟩ ∨
      v ∈ Visit.along schema (s.enter schema item.node) item.details ∨
      v ∈ Visit.along schema (s.enter schema item.node) (item.ownSet (index :: address)) ∨
      v = ⟨.leave item.node, s.enter schema item.node⟩) :
    v ∈ d.visits schema := by
  refine h.visits ((Visit.mem_along_ofSelections h.inside.idle).mpr ⟨index, item, hitem, ?_⟩)
  rw [Nat.zero_add]
  exact (Visit.mem_along_ofSelection h.inside.idle).mpr hv

/-- Every set is walked, that of a field if it selects something. -/
theorem HasSet.walked (h : d.HasSet schema type? address items) (hne : items ≠ []) :
    ∃ s, d.Walked schema type? address items s := by
  have htop := d.idle_topScope schema
  induction h with
  | @operation number definition o hnumber hoperation =>
    have hidle : ((d.topScope schema).enter schema
        (.operation (Definition.operationsBefore d.definitions number) o)).Idle := htop.operation
    refine ⟨_, walked_of_subset hidle rfl o.selectionSet.span fun v hv => ?_⟩
    refine mem_visits.mpr (.inr (.inl ⟨number, definition, o, hnumber, hoperation, ?_⟩))
    exact (Visit.mem_along_ofOperation htop).mpr (.inr (.inr (.inr (.inl hv))))
  | @fragment number f hnumber =>
    have hidle : ((d.topScope schema).enter schema (.fragmentDefinition f)).Idle :=
      htop.fragmentDefinition
    refine ⟨_, walked_of_subset hidle rfl f.selectionSet.span fun v hv => ?_⟩
    refine mem_visits.mpr (.inr (.inr (.inl ⟨number, f, hnumber, ?_⟩)))
    exact (Visit.mem_along_ofFragmentDefinition htop).mpr (.inr (.inr (.inl hv)))
  | @field parent? address items index node span own h hitem ih =>
    obtain ⟨s, hs⟩ := ih (List.ne_nil_of_mem (List.mem_of_getElem? hitem))
    obtain ⟨first, rest, rfl⟩ := List.exists_cons_of_ne_nil hne
    have htype := hs.inside.type?_field ⟨span, first :: rest⟩ h.knows node
    have hidle := hs.inside.idle.item schema (.field node span (first :: rest))
    refine ⟨_, walked_of_subset hidle htype span fun v hv => ?_⟩
    exact hs.visits_item hitem (.inr (.inr (.inl hv)))
  | @inline parent? address items index node span own h hitem ih =>
    obtain ⟨s, hs⟩ := ih (List.ne_nil_of_mem (List.mem_of_getElem? hitem))
    have htype := hs.inside.type?_inline schema node
    have hidle := hs.inside.idle.item schema (.inline node span own)
    refine ⟨_, walked_of_subset hidle htype span fun v hv => ?_⟩
    exact hs.visits_item hitem (.inr (.inr (.inl hv)))

/-- A set with a selection is walked. -/
theorem HasSet.walked_of_mem (h : d.HasSet schema type? address items) {item : Selection}
    (hitem : item ∈ items) : ∃ s, d.Walked schema type? address items s :=
  h.walked (List.ne_nil_of_mem hitem)

/-- The visits of sets and of their selections. -/
inductive AtSet (schema : Schema) (d : Document) : Visit → Prop where
  /-- A set is entered. -/
  | enter {type? : Option TypeDefinition} {address : Address} {set : SelectionSet} {s : Scope} :
      d.HasSet schema type? address set.items → s.Inside type? →
      AtSet schema d ⟨.enter (.selectionSet address set), s⟩
  /-- A set is left. -/
  | leave {type? : Option TypeDefinition} {address : Address} {set : SelectionSet} {s : Scope} :
      d.HasSet schema type? address set.items → s.Inside type? →
      AtSet schema d ⟨.leave (.selectionSet address set), s⟩
  /-- A selection is entered. -/
  | enterItem {type? : Option TypeDefinition} {address : Address} {items : List Selection}
      {s : Scope} {item : Selection} :
      d.HasSet schema type? address items → s.Inside type? → item ∈ items →
      AtSet schema d ⟨.enter item.node, s.enter schema item.node⟩
  /-- A selection is left. -/
  | leaveItem {type? : Option TypeDefinition} {address : Address} {items : List Selection}
      {s : Scope} {item : Selection} :
      d.HasSet schema type? address items → s.Inside type? → item ∈ items →
      AtSet schema d ⟨.leave item.node, s.enter schema item.node⟩
  /-- An argument or a directive of a selection is visited. -/
  | detail {type? : Option TypeDefinition} {address : Address} {items : List Selection}
      {s : Scope} {item : Selection} {v : Visit} :
      d.HasSet schema type? address items → s.Inside type? → item ∈ items →
      v ∈ Visit.along schema (s.enter schema item.node) item.details → AtSet schema d v

/-- The visits of a set, given those of its selections. -/
theorem atSet_ofSelectionSet {s : Scope} {span : Span} {v : Visit}
    (hset : d.HasSet schema type? address items) (hs : s.Idle) (htype : s.type? = type?)
    (hitems : ∀ s : Scope, s.Inside type? →
      ∀ v ∈ Visit.along schema s (Hook.ofSelections address 0 items), d.AtSet schema v)
    (hv : v ∈ Visit.along schema s (Hook.ofSelectionSet address ⟨span, items⟩)) :
    d.AtSet schema v := by
  have hinside : (s.enter schema (.selectionSet address ⟨span, items⟩)).Inside type? :=
    Scope.inside_selectionSet hs htype
  rcases (Visit.mem_along_ofSelectionSet hs).mp hv with rfl | hv | rfl
  · exact .enter hset hinside
  · exact hitems _ hinside v hv
  · exact .leave hset hinside

/-- The visits of a selection, given those of its own set. -/
theorem atSet_ofSelection {s : Scope} {item : Selection} {index : ℕ} {v : Visit}
    (hset : d.HasSet schema type? address items) (hs : s.Inside type?)
    (hitem : items[index]? = some item)
    (hown : ∀ v ∈ Visit.along schema (s.enter schema item.node) (item.ownSet (index :: address)),
      d.AtSet schema v)
    (hv : v ∈ Visit.along schema s (Hook.ofSelection (index :: address) item)) :
    d.AtSet schema v := by
  have hmem := List.mem_of_getElem? hitem
  rcases (Visit.mem_along_ofSelection hs.idle).mp hv with rfl | hv | hv | rfl
  · exact .enterItem hset hs hmem
  · exact .detail hset hs hmem hv
  · exact hown v hv
  · exact .leaveItem hset hs hmem

theorem atSet_ofSelections {s : Scope} {full : List Selection} {index : ℕ}
    (hset : d.HasSet schema type? address full) (hs : s.Inside type?)
    (hdrop : full.drop index = items) {v : Visit}
    (hv : v ∈ Visit.along schema s (Hook.ofSelections address index items)) :
    d.AtSet schema v := by
  induction items using Selection.items_induction generalizing type? address full index s v with
  | nil => cases hv
  | field node span own rest ihOwn ihRest =>
    obtain ⟨hitem, hrest⟩ := drop_eq_cons hdrop
    rcases (Visit.mem_along_ofSelections_cons hs.idle).mp hv with hv | hv
    · refine atSet_ofSelection hset hs hitem (fun v hv => ?_) hv
      cases own with
      | nil => cases hv
      | cons first own =>
        have hidle := hs.idle.item schema (.field node span (first :: own))
        exact atSet_ofSelectionSet (hset.field hitem) hidle (hs.type?_field _ hset.knows node)
          (fun s hs v hv => ihOwn (hset.field hitem) hs rfl hv) hv
    · exact ihRest hset hs hrest hv
  | spread node rest ihRest =>
    obtain ⟨hitem, hrest⟩ := drop_eq_cons hdrop
    rcases (Visit.mem_along_ofSelections_cons hs.idle).mp hv with hv | hv
    · exact atSet_ofSelection hset hs hitem (fun v hv => absurd hv List.not_mem_nil) hv
    · exact ihRest hset hs hrest hv
  | inline node span own rest ihOwn ihRest =>
    obtain ⟨hitem, hrest⟩ := drop_eq_cons hdrop
    rcases (Visit.mem_along_ofSelections_cons hs.idle).mp hv with hv | hv
    · refine atSet_ofSelection hset hs hitem (fun v hv => ?_) hv
      have hidle := hs.idle.item schema (.inline node span own)
      exact atSet_ofSelectionSet (hset.inline hitem) hidle (hs.type?_inline schema node)
        (fun s hs v hv => ihOwn (hset.inline hitem) hs rfl hv) hv
    · exact ihRest hset hs hrest hv

/-- The visits of the set of a definition. -/
theorem HasSet.atSet {s : Scope} {set : SelectionSet} (h : d.HasSet schema type? address set.items)
    (hs : s.Idle) (htype : s.type? = type?) {v : Visit}
    (hv : v ∈ Visit.along schema s (Hook.ofSelectionSet address set)) : d.AtSet schema v :=
  atSet_ofSelectionSet h hs htype (fun _ hs _ hv => atSet_ofSelections h hs rfl hv) hv

/-- The directives of a definition and the scope in which they are walked. -/
inductive HasDirectives (schema : Schema) (d : Document) : Scope → List Directive → Prop where
  /-- The directives of an operation. -/
  | operation {number : ℕ} {definition : Definition} {o : Operation} :
      d.definitions[number]? = some definition → definition.operation? = some o →
      HasDirectives schema d ((d.topScope schema).enter schema
        (.operation (Definition.operationsBefore d.definitions number) o)) o.directives
  /-- The directives of the definition of a fragment. -/
  | fragment {number : ℕ} {f : FragmentDefinition} :
      d.definitions[number]? = some (.fragment f) →
      HasDirectives schema d ((d.topScope schema).enter schema (.fragmentDefinition f)) f.directives

theorem HasDirectives.idle {s : Scope} {list : List Directive}
    (h : d.HasDirectives schema s list) : s.Idle := by
  cases h with
  | operation _ _ => exact (d.idle_topScope schema).operation
  | fragment _ => exact (d.idle_topScope schema).fragmentDefinition

theorem HasDirectives.visits_subset {s : Scope} {list : List Directive}
    (h : d.HasDirectives schema s list) :
    Visit.along schema s (Hook.ofDirectives list) ⊆ d.visits schema := by
  have htop := d.idle_topScope schema
  intro v hv
  cases h with
  | @operation number definition o hnumber ho =>
    refine mem_visits.mpr (.inr (.inl ⟨number, definition, o, hnumber, ho, ?_⟩))
    exact (Visit.mem_along_ofOperation htop).mpr (.inr (.inr (.inl hv)))
  | @fragment number f hnumber =>
    refine mem_visits.mpr (.inr (.inr (.inl ⟨number, f, hnumber, ?_⟩)))
    exact (Visit.mem_along_ofFragmentDefinition htop).mpr (.inr (.inl hv))

end Document

/-- Whether a step enters or leaves the document, a definition, the definition of a variable or a
literal. -/
def Hook.isOuter : Hook → Bool
  | .enter (.document _) | .leave (.document _) => true
  | .enter (.operation _ _) | .leave (.operation _ _) => true
  | .enter (.fragmentDefinition _) | .leave (.fragmentDefinition _) => true
  | .enter (.variableDefinition _) | .leave (.variableDefinition _) => true
  | .enter (.value _ _) | .leave (.value _ _) => true
  | _ => false

namespace Document

variable {schema : Schema} {d : Document} {address : Address} {s : Scope} {v : Visit}

/-- The visits of a document: those of its sets, those of the directives of its definitions, and
those around them. -/
theorem visit_cases (hv : v ∈ d.visits schema) :
    d.AtSet schema v ∨
      (∃ s list, d.HasDirectives schema s list ∧
        v ∈ Visit.along schema s (Hook.ofDirectives list)) ∨ v.hook.isOuter = true := by
  have htop := d.idle_topScope schema
  rcases mem_visits.mp hv with rfl | ⟨j, definition, o, hj, ho, h⟩ | ⟨j, f, hj, h⟩ | rfl
  · exact .inr (.inr rfl)
  · rcases (Visit.mem_along_ofOperation htop).mp h with rfl | ⟨x, -, h⟩ | h | h | rfl
    · exact .inr (.inr rfl)
    · have houter := Hook.only_ofVariableDefinition (P := Hook.isOuter) (fun _ _ => ⟨rfl, rfl⟩)
        (fun _ => ⟨rfl, rfl⟩) x
      exact .inr (.inr (houter _ (Visit.hook_mem_of_mem_along h)))
    · exact .inr (.inl ⟨_, _, .operation hj ho, h⟩)
    · exact .inl ((HasSet.operation hj ho).atSet htop.operation rfl h)
    · exact .inr (.inr rfl)
  · rcases (Visit.mem_along_ofFragmentDefinition htop).mp h with rfl | h | h | rfl
    · exact .inr (.inr rfl)
    · exact .inr (.inl ⟨_, _, .fragment hj, h⟩)
    · exact .inl ((HasSet.fragment hj).atSet htop.fragmentDefinition rfl h)
    · exact .inr (.inr rfl)
  · exact .inr (.inr rfl)

/-- A step of a walk of arguments or directives is about them. -/
theorem isDetail_of_mem_along {hooks : List Hook} (h : Hook.Only Hook.isDetail hooks)
    (hv : v ∈ Visit.along schema s hooks) : v.hook.isDetail = true :=
  h _ (Visit.hook_mem_of_mem_along hv)

/-- A visit that enters a set enters one of the document. -/
theorem hasSet_of_mem_visits {set : SelectionSet}
    (hv : ⟨.enter (.selectionSet address set), s⟩ ∈ d.visits schema) :
    ∃ type?, d.HasSet schema type? address set.items ∧ s.Inside type? := by
  rcases visit_cases hv with h | ⟨t, list, -, h⟩ | h
  · generalize hw : (⟨.enter (.selectionSet address set), s⟩ : Visit) = w at h
    cases h with
    | enter hset hs =>
      obtain ⟨heq, rfl⟩ := Visit.mk.inj hw
      cases heq
      exact ⟨_, hset, hs⟩
    | leave _ _ => cases hw
    | @enterItem _ _ _ _ item _ _ _ => cases item <;> cases hw
    | leaveItem _ _ _ => cases hw
    | detail _ _ _ h => cases hw ▸ isDetail_of_mem_along (Hook.detail_details _) h
  · cases isDetail_of_mem_along (Hook.detail_ofDirectives list) h
  · cases h

/-- A visit that enters a selection enters one of a set. -/
theorem item_of_mem_visits (other : Selection)
    (hv : ⟨.enter other.node, s⟩ ∈ d.visits schema) :
    ∃ type? address items, ∃ t : Scope, ∃ item ∈ items, d.HasSet schema type? address items ∧
      t.Inside type? ∧ item.node = other.node ∧ s = t.enter schema other.node := by
  rcases visit_cases hv with h | ⟨t, list, -, h⟩ | h
  · generalize hw : (⟨.enter other.node, s⟩ : Visit) = w at h
    cases h with
    | enter _ _ => cases other <;> cases hw
    | leave _ _ => cases hw
    | @enterItem type? address items t item hset ht hitem =>
      obtain ⟨heq, rfl⟩ := Visit.mk.inj hw
      have hnode := Hook.enter.inj heq
      exact ⟨type?, address, items, t, item, hitem, hset, ht, hnode.symm, by rw [hnode]⟩
    | leaveItem _ _ _ => cases hw
    | detail _ _ _ h =>
      have hdetail := hw ▸ isDetail_of_mem_along (Hook.detail_details _) h
      cases other <;> cases hdetail
  · have hdetail := isDetail_of_mem_along (Hook.detail_ofDirectives list) h
    cases other <;> cases hdetail
  · cases other <;> cases h

/-! ### Arguments and directives are visited -/

section Details

variable {type? : Option TypeDefinition} {items : List Selection}

/-- The directives of a selection are walked with it. -/
theorem Walked.directives_subset (h : d.Walked schema type? address items s) {index : ℕ}
    {item : Selection} (hitem : items[index]? = some item) :
    Visit.along schema (s.enter schema item.node) (Hook.ofDirectives item.directives) ⊆
      d.visits schema := by
  intro v hv
  refine h.visits_item hitem (.inr (.inl ?_))
  cases item with
  | field node span own =>
    have hidle := h.inside.idle.item schema (.field node span own)
    exact (Visit.mem_along_append (Scope.after_ofArguments hidle.1 _ _)).mpr (.inr hv)
  | spread node => exact hv
  | inline node span own => exact hv

/-- The arguments of a field are visited. -/
theorem Walked.argument_visited (h : d.Walked schema type? address items s) {index : ℕ}
    {node : Field} {span : Span} {own : List Selection}
    (hitem : items[index]? = some (.field node span own)) {a : Argument} (ha : a ∈ node.arguments) :
    ⟨.enter (.argument node.position a), (s.enter schema (.field node ⟨span, own⟩)).enter schema
      (.argument node.position a)⟩ ∈ d.visits schema := by
  have hidle := h.inside.idle.item schema (.field node span own)
  refine h.visits_item hitem (.inr (.inl ?_))
  refine (Visit.mem_along_append (Scope.after_ofArguments hidle.1 _ _)).mpr (.inl ?_)
  exact (Visit.mem_along_ofArguments hidle.1).mpr (.inr ⟨a, ha, .inl rfl⟩)

variable {list : List Directive} {directive : Directive}

theorem directive_visited (hs : s.Idle)
    (hsub : Visit.along schema s (Hook.ofDirectives list) ⊆ d.visits schema)
    (hdirective : directive ∈ list) :
    ⟨.enter (.directive directive), s.enter schema (.directive directive)⟩ ∈ d.visits schema :=
  hsub ((Visit.mem_along_ofDirectives hs).mpr (.inr ⟨directive, hdirective, .inl rfl⟩))

/-- The arguments of a directive are visited. -/
theorem directive_argument_visited (hs : s.Idle)
    (hsub : Visit.along schema s (Hook.ofDirectives list) ⊆ d.visits schema)
    (hdirective : directive ∈ list) {a : Argument} (ha : a ∈ directive.arguments) :
    ⟨.enter (.argument directive.position a), (s.enter schema (.directive directive)).enter schema
      (.argument directive.position a)⟩ ∈ d.visits schema := by
  have hparameter : (s.enter schema (.directive directive)).parameter? = none := hs.1
  refine hsub ((Visit.mem_along_ofDirectives hs).mpr
    (.inr ⟨directive, hdirective, .inr (.inl ?_)⟩))
  exact (Visit.mem_along_ofArguments hparameter).mpr (.inr ⟨a, ha, .inl rfl⟩)

end Details

/-! ### Definitions by their numbers -/

theorem exists_operation_number {o : Operation} (ho : o ∈ d.operations) :
    ∃ (number : ℕ) (definition : Definition), d.definitions[number]? = some definition ∧
      definition.operation? = some o := by
  obtain ⟨definition, hdefinition, hoperation⟩ := List.mem_filterMap.mp ho
  obtain ⟨number, hnumber⟩ := List.getElem?_of_mem hdefinition
  exact ⟨number, definition, hnumber, hoperation⟩

theorem exists_fragment_number {name : String} {f : FragmentDefinition}
    (hf : d.fragment? name = some f) : ∃ number : ℕ, d.definitions[number]? = some (.fragment f) := by
  obtain ⟨definition, hdefinition, hfragment⟩ := List.mem_filterMap.mp (mem_of_fragment? hf)
  obtain ⟨number, hnumber⟩ := List.getElem?_of_mem hdefinition
  cases definition with
  | fragment g =>
    obtain rfl := Option.some.inj hfragment
    exact ⟨number, hnumber⟩
  | operation _ | bare _ => cases hfragment

/-- An operation is found by the number under which it is walked. -/
theorem getElem?_operations {number : ℕ} {definition : Definition} {o : Operation}
    (hnumber : d.definitions[number]? = some definition) (ho : definition.operation? = some o) :
    d.operations[Definition.operationsBefore d.definitions number]? = some o := by
  obtain ⟨hlt, hget⟩ := List.getElem?_eq_some_iff.mp hnumber
  have hsplit : d.definitions =
      d.definitions.take number ++ definition :: d.definitions.drop (number + 1) := by
    rw [← hget, ← List.drop_eq_getElem_cons hlt, List.take_append_drop]
  have hoperations : d.operations = (d.definitions.take number).filterMap Definition.operation? ++
      o :: (d.definitions.drop (number + 1)).filterMap Definition.operation? := by
    conv_lhs => rw [operations, hsplit]
    rw [List.filterMap_append, List.filterMap_cons_some ho]
  rw [hoperations, Definition.operationsBefore, List.getElem?_append_right le_rfl, Nat.sub_self]
  rfl

end Document

/-! ### Where operations are entered and left -/

/-- An operation is found among the definitions by the number under which it is walked. -/
theorem Definition.exists_number {definitions : List Definition} {i : ℕ} {o : Operation}
    (h : (definitions.filterMap operation?)[i]? = some o) :
    ∃ (number : ℕ) (definition : Definition), definitions[number]? = some definition ∧
      definition.operation? = some o ∧ operationsBefore definitions number = i := by
  induction definitions generalizing i with
  | nil => simp at h
  | cons definition rest ih =>
    cases hoperation : definition.operation? with
    | none =>
      rw [List.filterMap_cons_none hoperation] at h
      obtain ⟨number, other, hnumber, hother, hbefore⟩ := ih h
      refine ⟨number + 1, other, hnumber, hother, ?_⟩
      rw [operationsBefore, List.take_succ_cons, List.filterMap_cons_none hoperation]
      exact hbefore
    | some p =>
      rw [List.filterMap_cons_some hoperation] at h
      cases i with
      | zero =>
        obtain rfl := Option.some.inj h
        exact ⟨0, definition, rfl, hoperation, rfl⟩
      | succ i =>
        obtain ⟨number, other, hnumber, hother, hbefore⟩ := ih h
        refine ⟨number + 1, other, hnumber, hother, ?_⟩
        rw [operationsBefore, List.take_succ_cons, List.filterMap_cons_some hoperation,
          List.length_cons]
        exact congrArg (· + 1) hbefore

namespace Hook

/-- A step enters or leaves the operation of a given number. -/
def OfOperation (i : ℕ) (o : Operation) (hook : Hook) : Prop :=
  hook = .enter (.operation i o) ∨ hook = .leave (.operation i o)

theorem OfOperation.not_inner {i : ℕ} {o : Operation} {hook : Hook} (h : hook.OfOperation i o) :
    hook.isInner = false := by
  rcases h with rfl | rfl <;> rfl

/-- Inside a node no operation is entered or left. -/
theorem OfOperation.node_eq {i : ℕ} {o : Operation} {hook : Hook} {node : Node}
    {inside : List Hook} (h : hook.OfOperation i o) (hinside : Only isInner inside)
    (hmem : hook ∈ around node inside) : node = .operation i o := by
  rw [around, List.mem_cons, List.mem_append, List.mem_singleton] at hmem
  rcases hmem with rfl | hmem | rfl
  · rcases h with h | h
    · exact Hook.enter.inj h
    · cases h
  · have := hinside hook hmem
    rw [h.not_inner] at this
    cases this
  · rcases h with h | h
    · cases h
    · exact Hook.leave.inj h

end Hook

namespace Document

variable {schema : Schema} {d : Document} {i : ℕ} {o : Operation}

/-- Where the operation of a number is entered or left, it is the operation of that number. -/
theorem getElem?_operations_of_visit {visit : Visit} (hvisit : visit ∈ d.visits schema)
    (h : visit.hook.OfOperation i o) : d.operations[i]? = some o := by
  rcases mem_visits.mp hvisit with rfl | ⟨j, definition, p, hj, hp, hv⟩ | ⟨j, f, hj, hv⟩ | rfl
  · rcases h with h | h <;> cases h
  · obtain ⟨rfl, rfl⟩ := Node.operation.inj
      (h.node_eq (Hook.inner_inOperation [j] p) (Visit.hook_mem_of_mem_along hv))
    exact getElem?_operations hj hp
  · cases h.node_eq (Hook.inner_inFragment [j] f) (Visit.hook_mem_of_mem_along hv)
  · rcases h with h | h <;> cases h

/-- Every operation is entered and left, and its declared variables are visited. -/
theorem exists_visits_of_operation (schema : Schema) (h : d.operations[i]? = some o) :
    ∃ s, ⟨.enter (.operation i o), s⟩ ∈ d.visits schema ∧
      ⟨.leave (.operation i o), s⟩ ∈ d.visits schema ∧
      ∀ x ∈ o.declared, ∃ s, ⟨.enter (.variableDefinition x), s⟩ ∈ d.visits schema := by
  obtain ⟨number, definition, hnumber, hoperation, hindex⟩ := Definition.exists_number h
  have htop := d.idle_topScope schema
  have hvisits {visit : Visit} (h : visit ∈ Visit.along schema (d.topScope schema)
      (Hook.ofOperation [number] i o)) : visit ∈ d.visits schema := by
    rw [← hindex] at h
    exact mem_visits.mpr (.inr (.inl ⟨number, definition, o, hnumber, hoperation, h⟩))
  refine ⟨_, hvisits ((Visit.mem_along_ofOperation htop).mpr (.inl rfl)),
    hvisits ((Visit.mem_along_ofOperation htop).mpr (.inr (.inr (.inr (.inr rfl))))), ?_⟩
  intro x hx
  refine ⟨((d.topScope schema).enter schema (.operation i o)).enter schema
    (.variableDefinition x), hvisits ?_⟩
  refine (Visit.mem_along_ofOperation htop).mpr (.inr (.inl ⟨x, hx, ?_⟩))
  exact Visit.mem_along_around.mpr (.inl rfl)

end Document

end GraphQLCheck

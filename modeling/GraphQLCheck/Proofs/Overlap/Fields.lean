import GraphQLCheck.Proofs.Overlap.Reference

/-!
# Where the fields of a set stand

The fields of a set stand in the set itself or in inline fragments in it, one inside another
(`fieldsOf_induction`). So each has an address of its own that goes through the set, less is nested
in it than in the set, and a field of two different sets is told apart unless one of the sets is that
of an inline fragment in the other (`eq_of_common_field`).
-/

namespace GraphQLCheck

namespace Selection

/-- What is nested in a selection of a set is nested in the set. -/
theorem nested_of_mem {item : Selection} {items own : List Selection} (hmem : item ∈ items)
    (hown : item.nested? = some own) :
    spreadsWithin own ⊆ spreadsWithin items ∧ setCounts own < setCounts items := by
  induction items with
  | nil => cases hmem
  | cons first rest ih =>
    rcases List.mem_cons.mp hmem with rfl | hmem
    · cases item with
      | field node span items =>
        obtain rfl := Option.some.inj hown
        rw [spreadsWithin_field, setCounts, setCount]
        exact ⟨List.subset_append_left _ _, by omega⟩
      | spread node => cases hown
      | inline node span items =>
        obtain rfl := Option.some.inj hown
        rw [spreadsWithin_inline, setCounts, setCount]
        exact ⟨List.subset_append_left _ _, by omega⟩
    · obtain ⟨hspreads, hcount⟩ := ih hmem
      refine ⟨List.Subset.trans hspreads ?_, by rw [setCounts]; omega⟩
      cases first with
      | field node span items =>
        rw [spreadsWithin_field]
        exact List.subset_append_right _ _
      | spread node =>
        rw [spreadsWithin_spread]
        exact List.subset_cons_self _ _
      | inline node span items =>
        rw [spreadsWithin_inline]
        exact List.subset_append_right _ _

end Selection

namespace Overlap

variable {schema : Schema} {d : Document} {parent? other? : Option TypeDefinition}
  {address : Address} {items : List Selection} {o : Occurrence} {name : String}

/-- A fragment that a set refers to, also inside inline fragments, is nested in it. -/
theorem exists_spread_of_mem_namesOf (h : name ∈ namesOf items) :
    ∃ s ∈ Selection.spreadsWithin items, s.name = name := by
  induction items using Selection.items_induction with
  | nil => simp [namesOf] at h
  | field node span own rest ihOwn ihRest =>
    rw [namesOf, namesOfItem, List.nil_append] at h
    obtain ⟨s, hs, hname⟩ := ihRest h
    exact ⟨s, by simp [hs], hname⟩
  | spread node rest ihRest =>
    rw [namesOf, namesOfItem, List.singleton_append, List.mem_cons] at h
    rcases h with rfl | h
    · exact ⟨node, by simp, rfl⟩
    · obtain ⟨s, hs, hname⟩ := ihRest h
      exact ⟨s, by simp [hs], hname⟩
  | inline node span own rest ihOwn ihRest =>
    rw [namesOf, namesOfItem, List.mem_append] at h
    rcases h with h | h
    · obtain ⟨s, hs, hname⟩ := ihOwn h
      exact ⟨s, by simp [hs], hname⟩
    · obtain ⟨s, hs, hname⟩ := ihRest h
      exact ⟨s, by simp [hs], hname⟩

/-- Induction over the inline fragments around a field of a set. -/
theorem fieldsOf_induction
    {P : Option TypeDefinition → Address → List Selection → Occurrence → Prop}
    (field : ∀ parent? address items (index : ℕ) node span own,
      items[index]? = some (.field node span own) →
      P parent? address items (.ofField schema parent? (index :: address) node own))
    (inline : ∀ parent? address items (index : ℕ) node span own o,
      items[index]? = some (.inline node span own) →
      P (node.type? schema parent?) (index :: address) own o → P parent? address items o)
    (h : o ∈ fieldsOf schema parent? address items) : P parent? address items o := by
  -- The selections from a number on are those that the induction has not passed yet.
  suffices hfrom : ∀ rest parent? address items (index : ℕ), items.drop index = rest →
      o ∈ fieldsFrom schema parent? address index rest → P parent? address items o from
    hfrom items parent? address items 0 rfl h
  intro rest
  induction rest using Selection.items_induction with
  | nil =>
    intro parent? address items index _ ho
    simp [fieldsFrom] at ho
  | field node span own rest ihOwn ihRest =>
    intro parent? address items index hdrop ho
    obtain ⟨hitem, hrest⟩ := drop_eq_cons hdrop
    rw [fieldsFrom, fieldsOfItem, List.singleton_append, List.mem_cons] at ho
    rcases ho with rfl | ho
    · exact field parent? address items index node span own hitem
    · exact ihRest parent? address items (index + 1) hrest ho
  | spread node rest ihRest =>
    intro parent? address items index hdrop ho
    rw [fieldsFrom, fieldsOfItem, List.nil_append] at ho
    exact ihRest parent? address items (index + 1) (drop_eq_cons hdrop).2 ho
  | inline node span own rest ihOwn ihRest =>
    intro parent? address items index hdrop ho
    obtain ⟨hitem, hrest⟩ := drop_eq_cons hdrop
    rw [fieldsFrom, fieldsOfItem, List.mem_append] at ho
    rcases ho with ho | ho
    · exact inline parent? address items index node span own o hitem
        (ihOwn _ (index :: address) own 0 rfl ho)
    · exact ihRest parent? address items (index + 1) hrest ho

/-- Less is nested in a field of a set than in the set. -/
theorem nested_of_mem_fieldsOf (h : o ∈ fieldsOf schema parent? address items) :
    Selection.spreadsWithin o.items ⊆ Selection.spreadsWithin items ∧
      Selection.setCounts o.items < Selection.setCounts items := by
  refine fieldsOf_induction (P := fun _ _ items o => Selection.spreadsWithin o.items ⊆
    Selection.spreadsWithin items ∧ Selection.setCounts o.items < Selection.setCounts items)
    ?_ ?_ h
  · intro parent? address items index node span own hitem
    exact Selection.nested_of_mem (List.mem_of_getElem? hitem) rfl
  · rintro parent? address items index node span own o hitem ⟨hspreads, hcount⟩
    obtain ⟨hspreads', hcount'⟩ := Selection.nested_of_mem (List.mem_of_getElem? hitem) rfl
    exact ⟨List.Subset.trans hspreads hspreads', hcount.trans hcount'⟩

/-! ### Addresses -/

/-- The address of a field goes through the set that it belongs to. -/
theorem entersFrom_of_mem_fieldsFrom {index : ℕ}
    (h : o ∈ fieldsFrom schema parent? address index items) :
    o.address.EntersFrom address index := by
  induction items using Selection.items_induction generalizing parent? address index with
  | nil => simp [fieldsFrom] at h
  | field node span own rest ihOwn ihRest =>
    rw [fieldsFrom, fieldsOfItem, List.singleton_append, List.mem_cons] at h
    rcases h with rfl | h
    · exact .of_suffix List.suffix_rfl
    · exact (ihRest h).of_later
  | spread node rest ihRest =>
    rw [fieldsFrom, fieldsOfItem, List.nil_append] at h
    exact (ihRest h).of_later
  | inline node span own rest ihOwn ihRest =>
    rw [fieldsFrom, fieldsOfItem, List.mem_append] at h
    rcases h with h | h
    · exact (ihOwn h).of_nested
    · exact (ihRest h).of_later

/-- The fields of a set have different addresses. -/
theorem pairwise_fieldsFrom (schema : Schema) (parent? : Option TypeDefinition) (address : Address)
    (index : ℕ) (items : List Selection) :
    (fieldsFrom schema parent? address index items).Pairwise (·.address ≠ ·.address) := by
  induction items using Selection.items_induction generalizing parent? address index with
  | nil => exact .nil
  | field node span own rest ihOwn ihRest =>
    rw [fieldsFrom, fieldsOfItem, List.singleton_append, List.pairwise_cons]
    refine ⟨fun o ho => ?_, ihRest _ _ _⟩
    exact (entersFrom_of_mem_fieldsFrom ho).ne List.suffix_rfl
  | spread node rest ihRest =>
    rw [fieldsFrom, fieldsOfItem, List.nil_append]
    exact ihRest _ _ _
  | inline node span own rest ihOwn ihRest =>
    rw [fieldsFrom, fieldsOfItem, List.pairwise_append]
    refine ⟨ihOwn _ _ _, ihRest _ _ _, fun x hx y hy => ?_⟩
    exact (entersFrom_of_mem_fieldsFrom hy).ne (entersFrom_of_mem_fieldsFrom hx).suffix

/-- The address is not that of the set of an inline fragment. -/
def Whole (schema : Schema) (d : Document) (address : Address) : Prop :=
  ∀ type? place items (index : ℕ) node span own, d.HasSet schema type? place items →
    items[index]? = some (.inline node span own) → address ≠ index :: place

/-- The set at one address is that at another, or that of inline fragments in it, one inside
another. -/
inductive InlineWithin (schema : Schema) (d : Document) (outer : Address) : Address → Prop where
  /-- The set itself. -/
  | refl : InlineWithin schema d outer outer
  /-- The set of an inline fragment. -/
  | inline {type? : Option TypeDefinition} {address : Address} {items : List Selection} {index : ℕ}
      {node : InlineFragment} {span : Span} {own : List Selection} :
      InlineWithin schema d outer address → d.HasSet schema type? address items →
      items[index]? = some (.inline node span own) →
      InlineWithin schema d outer (index :: address)

theorem InlineWithin.trans {outer middle inner : Address} (h : InlineWithin schema d outer middle)
    (h' : InlineWithin schema d middle inner) : InlineWithin schema d outer inner := by
  induction h' with
  | refl => exact h
  | inline _ hset hitem ih => exact .inline ih hset hitem

/-- An address lies within one set only that is not that of an inline fragment. -/
theorem InlineWithin.unique {outer other inner : Address} (h : InlineWithin schema d outer inner)
    (h' : InlineWithin schema d other inner) (houter : Whole schema d outer)
    (hother : Whole schema d other) : outer = other := by
  induction h with
  | refl =>
    cases h' with
    | refl => rfl
    | inline _ hset hitem => exact absurd rfl (houter _ _ _ _ _ _ _ hset hitem)
  | inline _ hset hitem ih =>
    cases h' with
    | refl => exact absurd rfl (hother _ _ _ _ _ _ _ hset hitem)
    | inline h' _ _ => exact ih h'

/-- A field stands in a set; it may hold any type that agrees with the one that the set selects
from. -/
structure Placed (schema : Schema) (d : Document) (o : Occurrence) : Prop where
  /-- The own set of the field. -/
  own : d.HasSet schema (o.type? schema) o.address o.items
  /-- The own set is not that of an inline fragment. -/
  whole : Whole schema d o.address
  /-- The own set is not that of a definition. -/
  inside : ∀ number, o.address ≠ [number]

/-- A field of a set stands in the set or in an inline fragment in it. -/
theorem exists_set_of_mem_fieldsOf (hset : d.HasSet schema parent? address items)
    (h : o ∈ fieldsOf schema parent? address items) :
    ∃ type? inner around, ∃ index : ℕ, ∃ span, InlineWithin schema d address inner ∧
      d.HasSet schema type? inner around ∧ around[index]? = some (.field o.node span o.items) ∧
      o = .ofField schema type? (index :: inner) o.node o.items := by
  refine fieldsOf_induction (P := fun parent? address items o =>
    d.HasSet schema parent? address items → ∃ type? inner around, ∃ index : ℕ, ∃ span,
      InlineWithin schema d address inner ∧ d.HasSet schema type? inner around ∧
      around[index]? = some (.field o.node span o.items) ∧
      o = .ofField schema type? (index :: inner) o.node o.items) ?_ ?_ h hset
  · intro parent? address items index node span own hitem hset
    exact ⟨parent?, address, items, index, span, .refl, hset, hitem, rfl⟩
  · intro parent? address items index node span own o hitem ih hset
    obtain ⟨type?, inner, around, j, span', hwithin, hrest⟩ := ih (hset.inline hitem)
    have hstep : InlineWithin schema d address (index :: address) := .inline .refl hset hitem
    exact ⟨type?, inner, around, j, span', hstep.trans hwithin, hrest⟩

theorem placed_of_mem_fieldsOf (hset : d.HasSet schema parent? address items)
    (h : o ∈ fieldsOf schema parent? address items) : Placed schema d o := by
  obtain ⟨type?, inner, around, index, span, -, hinner, hitem, ho⟩ :=
    exists_set_of_mem_fieldsOf hset h
  refine ⟨?_, ?_, ?_⟩
  · have hown := hinner.field hitem
    rw [ho]
    exact hown
  · intro type'? place items' index' node span' own hset' hitem' heq
    rw [ho] at heq
    obtain ⟨rfl, rfl⟩ := List.cons.inj heq
    obtain ⟨-, rfl⟩ := hinner.unique hset'
    cases hitem.symm.trans hitem'
  · intro number heq
    rw [ho] at heq
    exact hinner.address_ne_nil (List.cons.inj heq).2

/-- Sets that have a field in common are the same, unless one is that of an inline fragment. -/
theorem eq_of_common_field {place : Address} {others : List Selection} {x y : Occurrence}
    (hset : d.HasSet schema parent? address items) (hwhole : Whole schema d address)
    (hset' : d.HasSet schema other? place others) (hwhole' : Whole schema d place)
    (hx : x ∈ fieldsOf schema parent? address items)
    (hy : y ∈ fieldsOf schema other? place others) (heq : x.address = y.address) :
    address = place := by
  obtain ⟨_, inner, _, i, _, hwithin, -, -, hx⟩ := exists_set_of_mem_fieldsOf hset hx
  obtain ⟨_, inner', _, j, _, hwithin', -, -, hy⟩ := exists_set_of_mem_fieldsOf hset' hy
  rw [hx, hy] at heq
  obtain ⟨-, rfl⟩ := List.cons.inj heq
  exact hwithin.unique hwithin' hwhole hwhole'

/-! ### Types that agree -/

/-- Two types from which the same fields are selected: both are of the schema, and they are the same
if one of them is composite. -/
structure Agree (schema : Schema) (parent? other? : Option TypeDefinition) : Prop where
  /-- One type is of the schema. -/
  left : schema.Knows parent?
  /-- The other type is of the schema. -/
  right : schema.Knows other?
  /-- They are the same if one of them is composite. -/
  composite : parent?.filter (·.isComposite) = other?.filter (·.isComposite)

/-- The type that a set selects from agrees with itself. -/
theorem Agree.of_set {type? : Option TypeDefinition} (h : d.HasSet schema type? address items) :
    Agree schema type? type? :=
  ⟨h.knows, h.knows, rfl⟩

theorem known_ofField (h : Agree schema parent? other?) (address : Address) (node : Field)
    (items : List Selection) :
    (Occurrence.ofField schema parent? address node items).known =
      (Occurrence.ofField schema other? address node items).known := by
  have hdefinition : parent?.bind (schema.selectedField? · node.name) =
      other?.bind (schema.selectedField? · node.name) := by
    rw [← h.left.selectedField?, h.composite, h.right.selectedField?]
  simp only [Occurrence.ofField, Occurrence.known, hdefinition, h.composite]

/-- The fields selected from types that agree are the same but for the type that they hold. -/
theorem map_known_fieldsFrom (h : Agree schema parent? other?) (address : Address) (index : ℕ)
    (items : List Selection) :
    (fieldsFrom schema parent? address index items).map Occurrence.known =
      (fieldsFrom schema other? address index items).map Occurrence.known := by
  induction items using Selection.items_induction generalizing parent? other? address index with
  | nil => rfl
  | field node span own rest ihOwn ihRest =>
    simp only [fieldsFrom, fieldsOfItem, List.map_append, List.map_cons, List.map_nil]
    rw [known_ofField h, ihRest h]
  | spread node rest ihRest =>
    simp only [fieldsFrom, fieldsOfItem, List.nil_append]
    exact ihRest h _ _
  | inline node span own rest ihOwn ihRest =>
    have htype : Agree schema (node.type? schema parent?) (node.type? schema other?) := by
      unfold InlineFragment.type?
      cases node.condition? with
      | none => exact h
      | some name => exact ⟨schema.knows_type? name, schema.knows_type? name, rfl⟩
    simp only [fieldsFrom, fieldsOfItem, List.map_append]
    rw [ihOwn htype, ihRest h]

end Overlap

end GraphQLCheck

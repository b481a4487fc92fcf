import GraphQLCheck.Proofs.BuiltSchemas
import GraphQLCheck.Proofs.Sets
import GraphQLCheck.Rule.Overlap.Search
import Mathlib.Data.List.Nodup
import Mathlib.Data.List.Perm.Subperm

/-!
# When fields cannot be merged

The plain meaning of the rule that fields under one response name can be merged, without an order of
comparisons and without a memory. A set selects the fields that are found by looking through inline
fragments and, again and again, through references to fragments (`Selects`). Two fields conflict if
they differ for themselves or if fields that they select conflict (`Conflicts`), and a document has a
clash if two fields that one of its sets selects under one response name conflict (`Clash`).

What it means that arguments differ is a parameter: `sameArguments` depends on the order of its two
lists, if one of them gives two values to one name. `Differ` is taken in the given order,
`DifferBothWays` in both orders and `DifferEitherWay` in one of them.
-/

namespace GraphQLCheck.Overlap

/-! ### The fields that a set selects -/

/-- A field whose own set has the given address, selected from a type. -/
def Occurrence.ofField (schema : Schema) (parent? : Option TypeDefinition) (address : Address)
    (node : Field) (items : List Selection) : Occurrence :=
  ⟨node, address, items, parent?.bind (schema.selectedField? · node.name), parent?⟩

/-- The type that the own selections of a field select from. -/
def Occurrence.type? (schema : Schema) (o : Occurrence) : Option TypeDefinition :=
  o.definition?.bind (schema.type? ·.type.innermost)

mutual

/-- The fields of a selection whose own set has the given address: a field itself, and those of an
inline fragment. -/
def fieldsOfItem (schema : Schema) (parent? : Option TypeDefinition) (address : Address) :
    Selection → List Occurrence
  | .field node _ items => [Occurrence.ofField schema parent? address node items]
  | .spread _ => []
  | .inline node _ items => fieldsFrom schema (node.type? schema parent?) address 0 items

/-- The fields of the selections of a set at an address, from the given number on. -/
def fieldsFrom (schema : Schema) (parent? : Option TypeDefinition) (address : Address)
    (index : ℕ) : List Selection → List Occurrence
  | [] => []
  | item :: rest =>
    fieldsOfItem schema parent? (index :: address) item ++
      fieldsFrom schema parent? address (index + 1) rest

end

/-- The fields of a set at an address, those of inline fragments included. -/
def fieldsOf (schema : Schema) (parent? : Option TypeDefinition) (address : Address)
    (items : List Selection) : List Occurrence :=
  fieldsFrom schema parent? address 0 items

/-- The field is one of the set at an address or of an inline fragment in it. -/
abbrev FieldOf (schema : Schema) (parent? : Option TypeDefinition) (address : Address)
    (items : List Selection) (o : Occurrence) : Prop :=
  o ∈ fieldsOf schema parent? address items

mutual

/-- The names of the fragments that a selection refers to, also inside an inline fragment. -/
def namesOfItem : Selection → List String
  | .field _ _ _ => []
  | .spread node => [node.name]
  | .inline _ _ items => namesOf items

/-- The names of the fragments that a set refers to, also inside inline fragments. -/
def namesOf : List Selection → List String
  | [] => []
  | item :: rest => namesOfItem item ++ namesOf rest

end

/-- The set selects the field, itself or through fragments. A fragment is looked up by its first
definition; a name without definition selects nothing. -/
inductive Selects (schema : Schema) (d : Document) :
    Option TypeDefinition → Address → List Selection → Occurrence → Prop where
  /-- A field of the set. -/
  | field {parent? : Option TypeDefinition} {address : Address} {items : List Selection}
      {o : Occurrence} :
      o ∈ fieldsOf schema parent? address items → Selects schema d parent? address items o
  /-- A field that a fragment selects to which the set refers. -/
  | fragment {parent? : Option TypeDefinition} {address place : Address} {items : List Selection}
      {name : String} {f : FragmentDefinition} {o : Occurrence} :
      name ∈ namesOf items → d.placedFragment? name = some (place, f) →
      Selects schema d (schema.type? f.condition) place f.selectionSet.items o →
      Selects schema d parent? address items o

/-- The fragment of a name selects the field, itself or through fragments. -/
def FragmentSelects (schema : Schema) (d : Document) (name : String) (o : Occurrence) : Prop :=
  ∃ place f, d.placedFragment? name = some (place, f) ∧
    Selects schema d (schema.type? f.condition) place f.selectionSet.items o

theorem selects_iff {schema : Schema} {d : Document} {parent? : Option TypeDefinition}
    {address : Address} {items : List Selection} {o : Occurrence} :
    Selects schema d parent? address items o ↔
      o ∈ fieldsOf schema parent? address items ∨
        ∃ name ∈ namesOf items, FragmentSelects schema d name o := by
  constructor
  · intro h
    cases h with
    | field ho => exact .inl ho
    | fragment hname hplaced ho => exact .inr ⟨_, hname, _, _, hplaced, ho⟩
  · rintro (ho | ⟨name, hname, place, f, hplaced, ho⟩)
    · exact .field ho
    · exact .fragment hname hplaced ho

/-! ### Conflicts -/

/-- Arguments of which none is given twice are the same as others if both give the same names, and
values with one text to each of them. -/
theorem sameArguments_iff_perm {first second : List Argument}
    (hfirst : (first.map (·.name)).Nodup) :
    sameArguments first second = true ↔
      (first.map (·.name)).Perm (second.map (·.name)) ∧
        ∀ a ∈ first, ∀ b ∈ second, a.name = b.name → a.value.render = b.value.render := by
  rw [sameArguments, Bool.and_eq_true, decide_eq_true_eq, List.all_eq_true]
  constructor
  · rintro ⟨hlength, hall⟩
    have hfound {a : Argument} (ha : a ∈ first) : ∃ b,
        second.find? (·.name = a.name) = some b ∧ a.value.render = b.value.render := by
      simpa [Option.any_eq_true] using hall a ha
    have hsubset : first.map (·.name) ⊆ second.map (·.name) := by
      intro name hname
      obtain ⟨a, ha, rfl⟩ := List.mem_map.mp hname
      obtain ⟨b, hb, -⟩ := hfound ha
      have hname : b.name = a.name := by simpa using List.find?_some hb
      exact List.mem_map.mpr ⟨b, List.mem_of_find?_eq_some hb, hname⟩
    -- There are as many names in the second list, so these are all, each of them once.
    have hperm : (first.map (·.name)).Perm (second.map (·.name)) :=
      (hfirst.subperm hsubset).perm_of_length_le (by simp [hlength])
    refine ⟨hperm, fun a ha b hb hname => ?_⟩
    obtain ⟨b', hb', hvalue⟩ := hfound ha
    rw [hname, find?_of_nodup (hperm.nodup hfirst) hb] at hb'
    rw [hvalue, Option.some.inj hb']
  · rintro ⟨hperm, hvalues⟩
    refine ⟨by simpa using hperm.length_eq, fun a ha => ?_⟩
    obtain ⟨b, hb, hname⟩ := List.mem_map.mp (hperm.mem_iff.mp (List.mem_map_of_mem ha))
    rw [← hname, find?_of_nodup (hperm.nodup hfirst) hb]
    simpa using hvalues a ha b hb hname.symm

/-- Two lists of arguments differ. -/
def Differ (first second : List Argument) : Prop := sameArguments first second = false

/-- Two lists of arguments differ in either order. -/
def DifferBothWays (first second : List Argument) : Prop :=
  Differ first second ∧ Differ second first

/-- Two lists of arguments differ in one of the two orders. -/
def DifferEitherWay (first second : List Argument) : Prop :=
  Differ first second ∨ Differ second first

/-- Two fields under one response name conflict; `exclusive` says that fields around them exclude
one another. -/
inductive Conflicts (schema : Schema) (d : Document) (differ : List Argument → List Argument → Prop) :
    Bool → Occurrence → Occurrence → Prop where
  /-- They can be selected both and are different fields. -/
  | names {exclusive : Bool} {a b : Occurrence} :
      (exclusive || fromDifferentObjects a b) = false → a.node.name ≠ b.node.name →
      Conflicts schema d differ exclusive a b
  /-- They can be selected both and their arguments differ. -/
  | arguments {exclusive : Bool} {a b : Occurrence} :
      (exclusive || fromDifferentObjects a b) = false →
      differ a.node.arguments b.node.arguments → Conflicts schema d differ exclusive a b
  /-- Their values cannot be merged. -/
  | types {exclusive : Bool} {a b : Occurrence} {f g : FieldDefinition} :
      a.definition? = some f → b.definition? = some g → typesConflict schema f.type g.type = true →
      Conflicts schema d differ exclusive a b
  /-- A field that the own set of one selects and one that the own set of the other selects
  conflict. -/
  | parts {exclusive : Bool} {a b x y : Occurrence} :
      Selects schema d (a.type? schema) a.address a.items x →
      Selects schema d (b.type? schema) b.address b.items y →
      x.address ≠ y.address → x.node.responseName = y.node.responseName →
      Conflicts schema d differ (exclusive || fromDifferentObjects a b) x y →
      Conflicts schema d differ exclusive a b

/-- Among these fields and those there are two different ones with the same response name that are
related. -/
def Meet (related : Occurrence → Occurrence → Prop) (these those : Occurrence → Prop) : Prop :=
  ∃ x y, these x ∧ those y ∧ x.address ≠ y.address ∧
    x.node.responseName = y.node.responseName ∧ related x y

/-- Some set of the document selects two fields that conflict. -/
def Clash (schema : Schema) (d : Document) (differ : List Argument → List Argument → Prop) : Prop :=
  ∃ type? address items, d.HasSet schema type? address items ∧
    Meet (Conflicts schema d differ false) (Selects schema d type? address items)
      (Selects schema d type? address items)

/-! ### Conflicts do not depend on an order -/

theorem fromDifferentObjects_comm (a b : Occurrence) :
    fromDifferentObjects a b = fromDifferentObjects b a := by
  unfold fromDifferentObjects
  cases a.parent? with
  | none => cases b.parent? <;> rfl
  | some p =>
    cases b.parent? with
    | none => rfl
    | some q =>
      have hname : decide (p.name ≠ q.name) = decide (q.name ≠ p.name) :=
        decide_eq_decide.mpr ne_comm
      simp only [hname, Bool.and_assoc, Bool.and_comm p.isObject]

theorem typesConflict_comm (schema : Schema) (s t : TypeRef) :
    typesConflict schema s t = typesConflict schema t s := by
  induction s generalizing t with
  | named name n =>
    cases t with
    | named other m =>
      rw [typesConflict, typesConflict, bne_comm, bne_comm (a := name), Bool.or_comm (isLeafName _ _)]
    | list item m => rfl
  | list item n ih =>
    cases t with
    | named other m => rfl
    | list other m => rw [typesConflict, typesConflict, bne_comm, ih]

theorem differBothWays_symm {f g : List Argument} (h : DifferBothWays f g) : DifferBothWays g f :=
  ⟨h.2, h.1⟩

theorem differEitherWay_symm {f g : List Argument} (h : DifferEitherWay f g) :
    DifferEitherWay g f := h.symm

section Conflicts

variable {schema : Schema} {d : Document} {differ : List Argument → List Argument → Prop}
  {exclusive weaker : Bool} {a b : Occurrence}

theorem Conflicts.symm (hdiffer : ∀ {f g}, differ f g → differ g f)
    (h : Conflicts schema d differ exclusive a b) : Conflicts schema d differ exclusive b a := by
  induction h with
  | names hexclusive hname => exact .names (by rwa [fromDifferentObjects_comm]) hname.symm
  | arguments hexclusive harguments =>
    exact .arguments (by rwa [fromDifferentObjects_comm]) (hdiffer harguments)
  | types hf hg htypes => exact .types hg hf (by rwa [typesConflict_comm])
  | parts hx hy hne hname _ ih =>
    rw [fromDifferentObjects_comm] at ih
    exact .parts hy hx hne.symm hname.symm ih

/-- Fields that conflict although others around them exclude one another conflict without that. -/
theorem Conflicts.weaken (h : Conflicts schema d differ exclusive a b)
    (hweaker : weaker = true → exclusive = true) : Conflicts schema d differ weaker a b := by
  have hor {e w : Bool} (hle : w = true → e = true) (f : Bool) : (w || f) = true → (e || f) = true := by
    cases w <;> cases e <;> cases f <;> simp_all
  induction h generalizing weaker with
  | names hexclusive hname =>
    refine .names (Bool.eq_false_iff.mpr fun h => ?_) hname
    rw [hor hweaker _ h] at hexclusive
    cases hexclusive
  | arguments hexclusive harguments =>
    refine .arguments (Bool.eq_false_iff.mpr fun h => ?_) harguments
    rw [hor hweaker _ h] at hexclusive
    cases hexclusive
  | types hf hg htypes => exact .types hf hg htypes
  | parts hx hy hne hname _ ih => exact .parts hx hy hne hname (ih (hor hweaker _))

end Conflicts

/-! ### The type that a field is selected from -/

/-- A field with the type that it is selected from only if that is composite. -/
def Occurrence.known (o : Occurrence) : Occurrence :=
  { o with parent? := o.parent?.filter (·.isComposite) }

theorem fromDifferentObjects_known (a b : Occurrence) :
    fromDifferentObjects a.known b.known = fromDifferentObjects a b := by
  have hobject {t : TypeDefinition} (h : t.isComposite = false) : t.isObject = false := by
    obtain ⟨name, location, body⟩ := t
    cases body <;> first | rfl | cases h
  unfold fromDifferentObjects Occurrence.known
  cases a.parent? with
  | none => rfl
  | some p =>
    cases b.parent? with
    | none => cases hp : p.isComposite <;> simp [Option.filter, hp]
    | some q =>
      cases hp : p.isComposite <;> cases hq : q.isComposite <;>
        simp [Option.filter, hp, hq, hobject]

/-- Conflicts depend on the type that a field is selected from only if that is composite. -/
theorem Conflicts.congr {schema : Schema} {d : Document}
    {differ : List Argument → List Argument → Prop} {exclusive : Bool} {a b a' b' : Occurrence}
    (ha : a.known = a'.known) (hb : b.known = b'.known)
    (h : Conflicts schema d differ exclusive a b) : Conflicts schema d differ exclusive a' b' := by
  have hobjects : fromDifferentObjects a b = fromDifferentObjects a' b' := by
    rw [← fromDifferentObjects_known, ha, hb, fromDifferentObjects_known]
  obtain ⟨node, address, items, definition?, parent?⟩ := a
  obtain ⟨node', address', items', definition'?, parent'?⟩ := a'
  obtain ⟨rfl, rfl, rfl, rfl, -⟩ := Occurrence.mk.inj ha
  obtain ⟨other, place, own, otherDefinition?, otherParent?⟩ := b
  obtain ⟨other', place', own', otherDefinition'?, otherParent'?⟩ := b'
  obtain ⟨rfl, rfl, rfl, rfl, -⟩ := Occurrence.mk.inj hb
  cases h with
  | names hexclusive hname => exact .names (by rwa [← hobjects]) hname
  | arguments hexclusive harguments => exact .arguments (by rwa [← hobjects]) harguments
  | types hf hg htypes => exact .types hf hg htypes
  | parts hx hy hne hname hxy =>
    rw [hobjects] at hxy
    exact .parts hx hy hne hname hxy

end GraphQLCheck.Overlap

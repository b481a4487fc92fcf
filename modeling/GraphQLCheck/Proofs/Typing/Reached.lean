import GraphQLCheck.Proofs.Overlap.Ranks
import GraphQLCheck.Proofs.Typing.Fields
import GraphQLCheck.Usage

/-!
# The fields that the search for variables reaches

The search for the uses of variables passes the type of a set on as an argument and keeps nothing of
it but the uses. Here it is made once more in a form that keeps what it comes across: the directives,
and the fields with their places and their definitions. Its uses are those of what is kept
(`Operation.variableUses_eq_flatMap`), so a field that is kept has the definition that the search
takes for it; and that is the definition of a field of the document (`Operation.hasField_of_reached`).
-/

namespace GraphQLCheck

open Overlap

namespace VariableUse

/-- What the search for uses of variables comes across. -/
inductive Reached where
  /-- A field, with its definition. -/
  | field (o : Occurrence)
  /-- The directives of an operation, a fragment or a selection. -/
  | directives (list : List Directive)
  deriving Repr, Inhabited

/-- The uses of variables in what is reached, apart from what is reached inside it. -/
def Reached.uses (schema : Schema) : Reached → List VariableUse
  | field o => inField schema o.definition? o.node
  | directives list => inDirectives schema list

/-- What was reached so far and the fragments followed so far. -/
structure Trail where
  /-- The names of the fragments referred to. -/
  followed : List String
  /-- What was reached, in order. -/
  reached : List Reached
  deriving Repr, Inhabited

namespace Trail

/-- Something more is reached. -/
def add (t : Trail) (r : Reached) : Trail := { t with reached := t.reached ++ [r] }

/-- Follow a reference to a fragment, unless one of its name was followed before. -/
def follow (d : Document) (enter : Address → FragmentDefinition → Trail → Trail) (name : String)
    (t : Trail) : Trail :=
  if name ∈ t.followed then t
  else
    let t := { t with followed := name :: t.followed }
    match d.placedFragment? name with
    | some (place, f) => enter place f t
    | none => t

mutual

/-- Go through a selection from a type whose own set has the given address, given what to do with a
fragment. -/
def selection (schema : Schema) (d : Document)
    (enter : Address → FragmentDefinition → Trail → Trail) (parent? : Option TypeDefinition)
    (address : Address) : Selection → Trail → Trail
  | .field node _ items, t =>
    selections schema d enter (node.type? schema parent?) address 0 items
      ((t.add (.field (.ofField schema parent? address node items))).add
        (.directives node.directives))
  | .spread node, t => (t.add (.directives node.directives)).follow d enter node.name
  | .inline node _ items, t =>
    selections schema d enter (node.type? schema parent?) address 0 items
      (t.add (.directives node.directives))

/-- Go through selections from a type in a set at an address, from the given number on. -/
def selections (schema : Schema) (d : Document)
    (enter : Address → FragmentDefinition → Trail → Trail) (parent? : Option TypeDefinition)
    (address : Address) (index : ℕ) : List Selection → Trail → Trail
  | [], t => t
  | item :: rest, t =>
    selections schema d enter parent? address (index + 1) rest
      (selection schema d enter parent? (index :: address) item t)

end

/-- Go through a fragment at a place, following at most so many fragments one inside another. -/
def fragment (schema : Schema) (d : Document) :
    (depth : ℕ) → Address → FragmentDefinition → Trail → Trail
  | 0, _, _, t => t
  | depth + 1, place, f, t =>
    selections schema d (fragment schema d depth) (schema.type? f.condition) place 0
      f.selectionSet.items (t.add (.directives f.directives))

/-! ### The uses of what is reached -/

/-- What the search has found when it has reached so much. -/
def found (schema : Schema) (t : Trail) : Found :=
  ⟨t.followed, t.reached.flatMap (·.uses schema)⟩

variable {schema : Schema} {d : Document} {t : Trail}

theorem found_add (schema : Schema) (t : Trail) (r : Reached) :
    (t.add r).found schema = (t.found schema).add (r.uses schema) := by
  simp [found, add, Found.add]

section Enter

variable {enter : Address → FragmentDefinition → Trail → Trail}
  {enter' : FragmentDefinition → Found → Found}

theorem found_follow (henter : ∀ place f t, (enter place f t).found schema =
    enter' f (t.found schema)) (name : String) (t : Trail) :
    (t.follow d enter name).found schema = (t.found schema).follow d enter' name := by
  by_cases hname : name ∈ t.followed
  · rw [follow, if_pos hname, Found.follow, if_pos (show name ∈ (t.found schema).followed from hname)]
  · rw [follow, if_neg hname, Found.follow,
      if_neg (show name ∉ (t.found schema).followed from hname), ← d.map_placedFragment? name]
    cases d.placedFragment? name with
    | none => rfl
    | some placed => exact henter placed.1 placed.2 _

theorem found_selections (henter : ∀ place f t, (enter place f t).found schema =
    enter' f (t.found schema)) (parent? : Option TypeDefinition) (address : Address) (index : ℕ)
    (items : List Selection) (t : Trail) :
    (selections schema d enter parent? address index items t).found schema =
      Found.selections schema d enter' parent? items (t.found schema) := by
  induction items using Selection.items_induction generalizing parent? address index t with
  | nil => rfl
  | field node span own rest ihOwn ihRest =>
    rw [selections, selection, ihRest, ihOwn, found_add, found_add, Found.selections,
      Found.selection]
    rfl
  | spread node rest ihRest =>
    rw [selections, selection, ihRest, found_follow henter, found_add, Found.selections,
      Found.selection]
    rfl
  | inline node span own rest ihOwn ihRest =>
    rw [selections, selection, ihRest, ihOwn, found_add, Found.selections, Found.selection]
    rfl

end Enter

theorem found_fragment (schema : Schema) (d : Document) (depth : ℕ) (place : Address)
    (f : FragmentDefinition) (t : Trail) :
    (fragment schema d depth place f t).found schema =
      Found.fragment schema d depth f (t.found schema) := by
  induction depth generalizing place f t with
  | zero => rfl
  | succ depth ih =>
    rw [fragment, found_selections ih, found_add]
    rfl

/-! ### The fields that are reached -/

/-- All fields reached are fields of the document with their definitions. -/
def Typed (schema : Schema) (d : Document) (t : Trail) : Prop :=
  ∀ o, .field o ∈ t.reached → d.HasField schema o

theorem Typed.directives (h : t.Typed schema d) (list : List Directive) :
    (t.add (.directives list)).Typed schema d := by
  intro o ho
  rcases List.mem_append.mp ho with ho | ho
  · exact h o ho
  · cases List.mem_singleton.mp ho

theorem Typed.field (h : t.Typed schema d) {o : Occurrence} (ho : d.HasField schema o) :
    (t.add (.field o)).Typed schema d := by
  intro x hx
  rcases List.mem_append.mp hx with hx | hx
  · exact h x hx
  · obtain rfl := Reached.field.inj (List.mem_singleton.mp hx)
    exact ho

/-- What is done with a fragment keeps a trail typed. -/
def Enters (schema : Schema) (d : Document)
    (enter : Address → FragmentDefinition → Trail → Trail) : Prop :=
  ∀ {place f t}, d.HasSet schema (schema.type? f.condition) place f.selectionSet.items →
    t.Typed schema d → (enter place f t).Typed schema d

variable {enter : Address → FragmentDefinition → Trail → Trail}

theorem Typed.follow (h : t.Typed schema d) (henter : Enters schema d enter) (name : String) :
    (t.follow d enter name).Typed schema d := by
  unfold Trail.follow
  split
  · exact h
  · cases hplaced : d.placedFragment? name with
    | none => exact h
    | some placed => exact henter (Document.hasSet_of_placedFragment? schema hplaced) h

theorem Typed.selections (h : t.Typed schema d) (henter : Enters schema d enter)
    {parent? : Option TypeDefinition} {address : Address} {full items : List Selection} {index : ℕ}
    (hset : d.HasSet schema parent? address full) (hdrop : full.drop index = items) :
    (Trail.selections schema d enter parent? address index items t).Typed schema d := by
  induction items using Selection.items_induction generalizing parent? address full index t with
  | nil => exact h
  | field node span own rest ihOwn ihRest =>
    obtain ⟨hitem, hrest⟩ := drop_eq_cons hdrop
    rw [Trail.selections, selection]
    have hself := (h.field (hset.hasField hitem)).directives node.directives
    exact ihRest (ihOwn hself (hset.field hitem) rfl) hset hrest
  | spread node rest ihRest =>
    rw [Trail.selections, selection]
    exact ihRest ((h.directives node.directives).follow henter node.name) hset
      (drop_eq_cons hdrop).2
  | inline node span own rest ihOwn ihRest =>
    obtain ⟨hitem, hrest⟩ := drop_eq_cons hdrop
    rw [Trail.selections, selection]
    exact ihRest (ihOwn (h.directives node.directives) (hset.inline hitem) rfl) hset hrest

theorem enters_fragment (schema : Schema) (d : Document) (depth : ℕ) :
    Enters schema d (fragment schema d depth) := by
  induction depth with
  | zero => exact fun _ h => h
  | succ depth ih =>
    intro place f t hset h
    exact (h.directives f.directives).selections ih hset rfl

end Trail

end VariableUse

namespace Operation

open VariableUse

/-- What the search for the uses of an operation reaches; the operation is defined under the given
number. -/
def reached (schema : Schema) (d : Document) (number : ℕ) (o : Operation) : List Reached :=
  (Trail.selections schema d (Trail.fragment schema d d.fragments.length) (schema.root? o.kind)
    [number] 0 o.selectionSet.items ⟨[], [.directives o.directives]⟩).reached

/-- The uses of an operation are those of what the search reaches. -/
theorem variableUses_eq_flatMap (schema : Schema) (d : Document) (number : ℕ) (o : Operation) :
    o.variableUses schema d = (o.reached schema d number).flatMap (·.uses schema) := by
  have hfound := Trail.found_selections (d := d)
    (Trail.found_fragment schema d d.fragments.length) (schema.root? o.kind) [number] 0
    o.selectionSet.items ⟨[], [.directives o.directives]⟩
  have hstart : (⟨[], [.directives o.directives]⟩ : Trail).found schema =
      ⟨[], inDirectives schema o.directives⟩ := by
    simp [Trail.found, Reached.uses]
  rw [hstart] at hfound
  exact (congrArg Found.uses hfound).symm

/-- A field that the search reaches is one of the document, with its definition. -/
theorem hasField_of_reached {schema : Schema} {d : Document} {number : ℕ} {definition : Definition}
    {o : Operation} (hnumber : d.definitions[number]? = some definition)
    (ho : definition.operation? = some o) {x : Occurrence}
    (hx : .field x ∈ o.reached schema d number) : d.HasField schema x := by
  have hstart : (⟨[], [.directives o.directives]⟩ : Trail).Typed schema d := by
    intro y hy
    cases List.mem_singleton.mp hy
  exact hstart.selections (Trail.enters_fragment schema d d.fragments.length)
    (.operation hnumber ho) rfl x hx

end Operation

end GraphQLCheck

import GraphQLCheck.Proofs.BuiltSchemas
import Mathlib.Data.List.Induction

/-!
# The index of possible types

The index is made by going through the registry once. What it has under a name in the end is what
the types of the registry have for that name, in the order of the registry (`under_ofTypes`): an
object type stands under the interfaces that it declares, and the members of a union under its name.
For this no type may declare a union, so that what stands under the name of a union is not replaced
or added to.
-/

namespace GraphQLCheck

/-- The object types that a type puts under a name. -/
def TypeDefinition.possibleFor (t : TypeDefinition) (name : String) : List String :=
  match t.body with
  | .object _ interfaces => (interfaces.filter (· = name)).map fun _ => t.name
  | .union members => if t.name = name then members else []
  | _ => []

namespace Assembly.PossibleIndex

/-- What an index has under a name. -/
def under (index : PossibleIndex) (name : String) : List String := (index.lookup name).getD []

theorem under_nil (name : String) : under [] name = [] := rfl

theorem under_cons (key : String) (objects : List String) (index : PossibleIndex) (name : String) :
    under ((key, objects) :: index) name = if key = name then objects else index.under name := by
  by_cases h : key = name
  · simp [under, h]
  · have hne : (name == key) = false := by simpa using Ne.symm h
    simp [under, List.lookup_cons, h, hne]

/-! ### One entry -/

theorem under_push (index : PossibleIndex) (interface object name : String) :
    (index.push interface object).under name =
      index.under name ++ if interface = name then [object] else [] := by
  induction index with
  | nil => rw [push, under_cons, under_nil, List.nil_append]
  | cons entry index ih =>
    obtain ⟨key, objects⟩ := entry
    by_cases hkey : key = interface
    · by_cases hname : interface = name <;> simp [push, under_cons, hkey, hname]
    · rw [push, if_neg hkey, under_cons, under_cons, ih]
      by_cases hname : key = name
      · have hne : interface ≠ name := fun h => hkey (hname.trans h.symm)
        simp [hname, hne]
      · simp [hname]

theorem under_ensure (index : PossibleIndex) (interface name : String) :
    (index.ensure interface).under name = index.under name := by
  have hempty : under (index ++ [(interface, [])]) name = index.under name := by
    induction index with
    | nil => simp [under_cons, under_nil]
    | cons entry index ih =>
      obtain ⟨key, objects⟩ := entry
      rw [List.cons_append, under_cons, under_cons, ih]
  unfold ensure
  split
  · rfl
  · exact hempty

theorem under_put (index : PossibleIndex) (union : String) (members : List String) (name : String) :
    (index.put union members).under name = if union = name then members else index.under name := by
  induction index with
  | nil => rw [put, under_cons]
  | cons entry index ih =>
    obtain ⟨key, objects⟩ := entry
    by_cases hkey : key = union
    · by_cases hname : union = name <;> simp [put, under_cons, hkey, hname]
    · rw [put, if_neg hkey, under_cons, under_cons, ih]
      by_cases hname : key = name
      · have hne : union ≠ name := fun h => hkey (hname.trans h.symm)
        simp [hname, hne]
      · simp [hname]

/-! ### One type -/

theorem under_foldl_push (interfaces : List String) (index : PossibleIndex) (object name : String) :
    under (interfaces.foldl (fun index i => push index i object) index) name =
      index.under name ++ (interfaces.filter (· = name)).map fun _ => object := by
  induction interfaces generalizing index with
  | nil => simp
  | cons interface interfaces ih =>
    rw [List.foldl_cons, ih, under_push, List.append_assoc]
    by_cases h : interface = name <;> simp [h]

/-- A type adds what it has for a name, if there is nothing yet under the name of a union. -/
theorem under_add {index : PossibleIndex} {t : TypeDefinition}
    (hunion : t.kind = .union → index.under t.name = []) (name : String) :
    (index.add t).under name = index.under name ++ t.possibleFor name := by
  obtain ⟨typeName, location, body⟩ := t
  cases body with
  | builtin _ | scalar | enum _ | inputObject _ => simp [add, TypeDefinition.possibleFor]
  | object fields interfaces => exact under_foldl_push interfaces index typeName name
  | interface fields interfaces => simp [add, TypeDefinition.possibleFor, under_ensure]
  | union members =>
    rw [add, under_put]
    by_cases h : typeName = name
    · have hnone : index.under name = [] := h ▸ hunion rfl
      simp [TypeDefinition.possibleFor, h, hnone]
    · simp [TypeDefinition.possibleFor, h]

/-! ### The whole registry -/

/-- A union gets nothing from another type. -/
theorem possibleFor_union {t u : TypeDefinition} (hname : u.name ≠ t.name)
    (hdeclared : t.name ∉ u.interfaces) : u.possibleFor t.name = [] := by
  obtain ⟨name, location, body⟩ := u
  cases body with
  | object fields interfaces =>
    have hne : ∀ i ∈ interfaces, i ≠ t.name := fun i hi h => hdeclared (h ▸ hi)
    simpa [TypeDefinition.possibleFor] using hne
  | union members => simp_all [TypeDefinition.possibleFor]
  | builtin _ | scalar | enum _ | inputObject _ | interface _ _ => rfl

/-- The index has under a name what the types of the registry have for it. -/
theorem under_ofTypes {types : List TypeDefinition} (hnames : (types.map (·.name)).Nodup)
    (hdeclared : ∀ u ∈ types, ∀ t ∈ types, t.name ∈ u.interfaces → t.kind = .interface)
    (name : String) : (ofTypes types).under name = types.flatMap (·.possibleFor name) := by
  -- From the last type on, as a union replaces what the types before it left under its name.
  induction types using List.reverseRecOn generalizing name with
  | nil => rfl
  | append_singleton types t ih =>
    rw [List.map_append, List.nodup_append'] at hnames
    obtain ⟨hbefore, -, hdisjoint⟩ := hnames
    have hindex := ih hbefore fun u hu v hv =>
      hdeclared u (List.mem_append_left _ hu) v (List.mem_append_left _ hv)
    have hunion : t.kind = .union → (ofTypes types).under t.name = [] := by
      intro hkind
      rw [hindex, List.flatMap_eq_nil_iff]
      intro u hu
      refine possibleFor_union (fun h => ?_) fun hmem => ?_
      · exact hdisjoint (List.mem_map_of_mem hu) (by simp [h])
      · have := hdeclared u (List.mem_append_left _ hu) t (by simp) hmem
        rw [hkind] at this
        cases this
    have hstep : ofTypes (types ++ [t]) = (ofTypes types).add t := by
      rw [ofTypes, List.foldl_append]
      rfl
    rw [hstep, under_add hunion, hindex]
    simp

end Assembly.PossibleIndex

end GraphQLCheck

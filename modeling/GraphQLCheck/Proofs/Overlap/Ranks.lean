import GraphQLCheck.Proofs.Overlap.Fields

/-!
# How deep fields are nested

In a document without cycles of fragments a `Ranking` numbers the fragments such that every
reference goes to a smaller number. Numbers bound what can be reached from a set (`Below`), and with
the number of sets they bound how deep the fields that it selects are nested (`Fits`), which is why
the depths given to the search are never used up.
-/

namespace GraphQLCheck

namespace Document

variable {d : Document} {name : String} {place : Address} {f : FragmentDefinition}

theorem map_placedFragment? (d : Document) (name : String) :
    (d.placedFragment? name).map (·.2) = d.fragment? name := by
  unfold placedFragment? fragment? fragments
  generalize d.definitions = definitions
  suffices h : ∀ start : ℕ, ((definitions.zipIdx start).findSome? fun p =>
      (p.1.fragment?.filter (·.name = name)).map fun f => ([p.2], f)).map (·.2) =
      (definitions.filterMap Definition.fragment?).find? (·.name = name) from h 0
  induction definitions with
  | nil => intro start; rfl
  | cons definition rest ih =>
    intro start
    simp only [List.zipIdx_cons, List.findSome?_cons, List.filterMap_cons]
    cases hfragment : definition.fragment? with
    | none => exact ih (start + 1)
    | some f =>
      by_cases hname : f.name = name
      · simp [hname, Option.filter]
      · simpa [hname, Option.filter, List.find?_cons] using ih (start + 1)

/-- The first definition of a fragment is one of the definitions. -/
theorem placedFragment?_spec (h : d.placedFragment? name = some (place, f)) :
    d.fragment? name = some f ∧
      ∃ number, place = [number] ∧ d.definitions[number]? = some (.fragment f) := by
  constructor
  · rw [← map_placedFragment?, h, Option.map_some]
  · obtain ⟨⟨definition, number⟩, hmem, heq⟩ := List.exists_of_findSome?_eq_some h
    obtain ⟨g, hg, heq⟩ := Option.map_eq_some_iff.mp heq
    obtain ⟨rfl, rfl⟩ := Prod.mk.inj heq
    have hfragment := Option.eq_some_of_filter_eq_some hg
    rcases definition.operation_or_fragment with ⟨o, -, hnone⟩ | ⟨f, rfl⟩
    · rw [hnone] at hfragment
      cases hfragment
    · obtain rfl := Option.some.inj hfragment
      exact ⟨number, rfl, List.mk_mem_zipIdx_iff_getElem?.mp hmem⟩

theorem hasSet_of_placedFragment? (schema : Schema)
    (h : d.placedFragment? name = some (place, f)) :
    d.HasSet schema (schema.type? f.condition) place f.selectionSet.items := by
  obtain ⟨-, number, rfl, hnumber⟩ := placedFragment?_spec h
  exact .fragment hnumber

/-- Fragments at one place have the same name. -/
theorem eq_of_placedFragment? {other : String} {g : FragmentDefinition}
    (h : d.placedFragment? name = some (place, f))
    (h' : d.placedFragment? other = some (place, g)) : name = other := by
  obtain ⟨hf, number, rfl, hnumber⟩ := placedFragment?_spec h
  obtain ⟨hg, number', heq, hnumber'⟩ := placedFragment?_spec h'
  obtain ⟨rfl, -⟩ := List.cons.inj heq
  obtain rfl := Definition.fragment.inj (Option.some.inj (hnumber.symm.trans hnumber'))
  rw [← name_of_fragment? hf, name_of_fragment? hg]

end Document

namespace Overlap

/-! ### Ranks of fragments -/

/-- Numbers of names such that every reference goes to a smaller one. Only names without definition
have the number zero. -/
structure Ranking (d : Document) (rank : String → ℕ) : Prop where
  /-- A defined fragment has another number than zero. -/
  positive : ∀ {name place f}, d.placedFragment? name = some (place, f) → 0 < rank name
  /-- A fragment refers to smaller numbers only. -/
  falls : ∀ {name place f}, d.placedFragment? name = some (place, f) →
    ∀ s ∈ Selection.spreadsWithin f.selectionSet.items, rank s.name < rank name
  /-- The number of fragments bounds all numbers. -/
  bounded : ∀ name, rank name ≤ d.fragments.length

theorem exists_ranking {d : Document} (h : d.Acyclic) : ∃ rank, Ranking d rank := by
  obtain ⟨rank, hfalls, hbounded⟩ := h.exists_rank
  have hdefined {name : String} {place : Address} {f : FragmentDefinition}
      (h : d.placedFragment? name = some (place, f)) : (d.fragment? name).isSome := by
    rw [(Document.placedFragment?_spec h).1, Option.isSome_some]
  refine ⟨fun name => if (d.fragment? name).isSome then rank name + 1 else 0, ?_, ?_, ?_⟩
  · intro name place f hplaced
    simp [hdefined hplaced]
  · intro name place f hplaced s hs
    rw [if_pos (hdefined hplaced)]
    split
    · rename_i hs'
      have := hfalls name s.name
        ((Document.refers_iff (Document.placedFragment?_spec hplaced).1).mpr ⟨⟨s, hs, rfl⟩, hs'⟩)
      omega
    · omega
  · intro name
    split
    · rename_i hname
      exact hbounded name hname
    · omega

/-- All references nested in the selections go to numbers below a bound. -/
def Below (rank : String → ℕ) (bound : ℕ) (items : List Selection) : Prop :=
  ∀ s ∈ Selection.spreadsWithin items, rank s.name < bound

section Below

variable {schema : Schema} {d : Document} {rank : String → ℕ} {bound : ℕ}
  {parent? : Option TypeDefinition} {address place : Address} {items own : List Selection}
  {o : Occurrence} {name : String} {f : FragmentDefinition} {item : Selection}

theorem Below.mono (h : Below rank bound items) {more : ℕ} (hle : bound ≤ more) :
    Below rank more items :=
  fun s hs => lt_of_lt_of_le (h s hs) hle

theorem Below.subset (h : Below rank bound items)
    (hsub : Selection.spreadsWithin own ⊆ Selection.spreadsWithin items) : Below rank bound own :=
  fun s hs => h s (hsub hs)

theorem Below.mentioned (h : Below rank bound items) (hname : name ∈ namesOf items) :
    rank name < bound := by
  obtain ⟨s, hs, rfl⟩ := exists_spread_of_mem_namesOf hname
  exact h s hs

theorem Below.field (h : Below rank bound items) (ho : o ∈ fieldsOf schema parent? address items) :
    Below rank bound o.items :=
  h.subset (nested_of_mem_fieldsOf ho).1

theorem Ranking.below (h : Ranking d rank) (hplaced : d.placedFragment? name = some (place, f)) :
    Below rank (rank name) f.selectionSet.items :=
  h.falls hplaced

/-- A field that a set selects is one of its own or one of a fragment below it. -/
theorem Ranking.exists_fragment (h : Ranking d rank)
    (ho : Selects schema d parent? address items o) :
    o ∈ fieldsOf schema parent? address items ∨
      ∃ name place f, d.placedFragment? name = some (place, f) ∧
        o ∈ fieldsOf schema (schema.type? f.condition) place f.selectionSet.items ∧
        ∀ bound, Below rank bound items → rank name < bound := by
  induction ho with
  | field ho => exact .inl ho
  | @fragment parent? address place items name f o hname hplaced _ ih =>
    right
    rcases ih with ho | ⟨inner, place', g, hplaced', ho, hinner⟩
    · exact ⟨name, place, f, hplaced, ho, fun bound hbound => hbound.mentioned hname⟩
    · refine ⟨inner, place', g, hplaced', ho, fun bound hbound => ?_⟩
      exact (hinner (rank name) (h.below hplaced)).trans (hbound.mentioned hname)

theorem Ranking.below_of_selects (h : Ranking d rank) (hbound : Below rank bound items)
    (ho : Selects schema d parent? address items o) : Below rank bound o.items := by
  rcases h.exists_fragment ho with ho | ⟨name, place, f, hplaced, ho, hname⟩
  · exact hbound.field ho
  · exact ((h.below hplaced).field ho).mono (hname bound hbound).le

theorem placed_of_selects (hset : d.HasSet schema parent? address items)
    (ho : Selects schema d parent? address items o) : Placed schema d o := by
  induction ho with
  | field ho => exact placed_of_mem_fieldsOf hset ho
  | fragment _ hplaced _ ih => exact ih (Document.hasSet_of_placedFragment? schema hplaced)

end Below

/-! ### Depths -/

theorem setCounts_lt_stackCount {items : List Selection} {stack : List (List Selection)}
    (h : items ∈ stack) : Selection.setCounts items < SelectionSet.stackCount stack := by
  induction stack with
  | nil => cases h
  | cons first stack ih =>
    rw [SelectionSet.stackCount]
    rcases List.mem_cons.mp h with rfl | h
    · omega
    · have := ih h
      omega

theorem length_le_stackCount (stack : List (List Selection)) :
    stack.length ≤ SelectionSet.stackCount stack := by
  induction stack with
  | nil => exact le_rfl
  | cons first stack ih =>
    rw [SelectionSet.stackCount, List.length_cons]
    omega

section Depth

variable {schema : Schema} {d : Document} {rank : String → ℕ} {depth : ℕ}
  {parent? : Option TypeDefinition} {address place : Address} {items : List Selection}
  {o : Occurrence} {name : String} {f : FragmentDefinition}

/-- Fewer sets are nested in a set of a document than it has. -/
theorem setCounts_lt_setCount (h : d.HasSet schema parent? address items) :
    Selection.setCounts items < d.setCount := by
  induction h with
  | @operation number definition o hnumber hoperation =>
    refine setCounts_lt_stackCount (List.mem_map.mpr ⟨o.selectionSet, ?_, rfl⟩)
    refine List.mem_filterMap.mpr ⟨definition, List.mem_of_getElem? hnumber, ?_⟩
    simp [hoperation]
  | @fragment number f hnumber =>
    refine setCounts_lt_stackCount (List.mem_map.mpr ⟨f.selectionSet, ?_, rfl⟩)
    exact List.mem_filterMap.mpr ⟨.fragment f, List.mem_of_getElem? hnumber, rfl⟩
  | field _ hitem ih =>
    exact (Selection.nested_of_mem (List.mem_of_getElem? hitem) rfl).2.trans ih
  | inline _ hitem ih =>
    exact (Selection.nested_of_mem (List.mem_of_getElem? hitem) rfl).2.trans ih

/-- There are no more fragments than sets. -/
theorem length_fragments_le_setCount (d : Document) : d.fragments.length ≤ d.setCount := by
  have hsets : d.fragments.length ≤ d.selectionSets.length := by
    unfold Document.fragments Document.selectionSets
    induction d.definitions with
    | nil => exact le_rfl
    | cons definition rest ih =>
      rcases definition.operation_or_fragment with ⟨o, ho, hnone⟩ | ⟨f, rfl⟩
      · simp only [List.filterMap_cons, ho, hnone, List.length_cons]
        omega
      · simpa [List.filterMap_cons, Definition.fragment?, Definition.operation?] using ih
  calc d.fragments.length ≤ d.selectionSets.length := hsets
    _ = (d.selectionSets.map (·.items)).length := (List.length_map _).symm
    _ ≤ d.setCount := length_le_stackCount _

/-- A depth to which fields can be compared that the set selects: a new fragment allows for all sets
of the document once more. -/
def Fits (d : Document) (rank : String → ℕ) (depth : ℕ) (items : List Selection) : Prop :=
  ∃ bound, Below rank bound items ∧
    bound * (d.setCount + 1) + Selection.setCounts items < depth

/-- The fields that a set selects need less depth than the set. -/
theorem Fits.of_selects (hrank : Ranking d rank) (h : Fits d rank (depth + 1) items)
    (ho : Selects schema d parent? address items o) : Fits d rank depth o.items := by
  obtain ⟨bound, hbound, hdepth⟩ := h
  rcases hrank.exists_fragment ho with ho | ⟨name, place, f, hplaced, ho, hname⟩
  · have hcount := (nested_of_mem_fieldsOf ho).2
    exact ⟨bound, hbound.field ho, by omega⟩
  · refine ⟨rank name, (hrank.below hplaced).field ho, ?_⟩
    have hcount := (nested_of_mem_fieldsOf ho).2
    have hset := setCounts_lt_setCount (Document.hasSet_of_placedFragment? schema hplaced)
    have hmul : (rank name + 1) * (d.setCount + 1) ≤ bound * (d.setCount + 1) :=
      Nat.mul_le_mul_right _ (hname bound hbound)
    rw [Nat.add_mul, Nat.one_mul] at hmul
    omega

/-- The depth of the search is enough for all sets of the document. -/
theorem fits_searchDepth (hrank : Ranking d rank) (hset : d.HasSet schema parent? address items) :
    Fits d rank (searchDepth d + 1) items := by
  refine ⟨d.fragments.length + 1, fun s _ => Nat.lt_succ_of_le (hrank.bounded s.name), ?_⟩
  have hcount := setCounts_lt_setCount hset
  have hfragments := length_fragments_le_setCount d
  have hmul : (d.fragments.length + 1) * (d.setCount + 1) ≤ (d.setCount + 1) * (d.setCount + 1) :=
    Nat.mul_le_mul_right _ (by omega)
  have hsquare : d.setCount + 1 ≤ (d.setCount + 1) * (d.setCount + 1) := Nat.le_mul_self _
  have hsearch : 2 * ((d.setCount + 1) * (d.setCount + 1)) ≤ searchDepth d :=
    Nat.le_mul_of_pos_right _ (Nat.succ_pos _)
  omega

/-- Where a field stands does not depend on the type that it holds. -/
theorem Placed.congr {o' : Occurrence} (h : Placed schema d o) (heq : o.known = o'.known) :
    Placed schema d o' := by
  obtain ⟨node, address, items, definition?, parent?⟩ := o
  obtain ⟨node', address', items', definition'?, parent'?⟩ := o'
  obtain ⟨rfl, rfl, rfl, rfl, -⟩ := Occurrence.mk.inj heq
  exact ⟨h.own, h.whole, h.inside⟩

/-- A field can be compared to a depth, and a bound for what is nested in it is known. -/
structure Ready (schema : Schema) (d : Document) (rank : String → ℕ) (depth bound : ℕ)
    (o : Occurrence) : Prop where
  /-- It stands in the document. -/
  placed : Placed schema d o
  /-- References nested in it go to numbers below the bound. -/
  below : Below rank bound o.items
  /-- The depth is enough. -/
  fits : Fits d rank depth o.items

theorem Ready.mono {bound more : ℕ} (h : Ready schema d rank depth bound o) (hle : bound ≤ more) :
    Ready schema d rank depth more o :=
  ⟨h.placed, h.below.mono hle, h.fits⟩

theorem Ready.congr {bound : ℕ} {o' : Occurrence} (h : Ready schema d rank depth bound o)
    (heq : o.known = o'.known) : Ready schema d rank depth bound o' := by
  obtain ⟨-, -, hitems, -⟩ := Occurrence.mk.inj heq
  exact ⟨h.placed.congr heq, hitems ▸ h.below, hitems ▸ h.fits⟩

theorem ready_of_selects {bound : ℕ} (hrank : Ranking d rank)
    (hset : d.HasSet schema parent? address items) (hbound : Below rank bound items)
    (hfits : Fits d rank (depth + 1) items) (ho : Selects schema d parent? address items o) :
    Ready schema d rank depth bound o :=
  ⟨placed_of_selects hset ho, hrank.below_of_selects hbound ho, hfits.of_selects hrank ho⟩

end Depth

/-! ### Sets and fragments apart -/

/-- The set and the fragments with numbers below the bound have no field in common. -/
structure Apart (schema : Schema) (d : Document) (rank : String → ℕ) (bound : ℕ)
    (parent? : Option TypeDefinition) (address : Address) (items : List Selection) : Prop where
  /-- The set is not that of such a fragment. -/
  places : ∀ {name place f}, rank name < bound → d.placedFragment? name = some (place, f) →
    place ≠ address
  /-- The fields of the set are not those of such a fragment. -/
  fields : ∀ {name place f}, rank name < bound → d.placedFragment? name = some (place, f) →
    ∀ x ∈ fieldsOf schema parent? address items,
    ∀ y ∈ fieldsOf schema (schema.type? f.condition) place f.selectionSet.items,
    x.address ≠ y.address

section Apart

variable {schema : Schema} {d : Document} {rank : String → ℕ} {bound : ℕ}
  {parent? : Option TypeDefinition} {address place : Address} {items : List Selection}
  {o : Occurrence} {name : String} {f : FragmentDefinition}

theorem whole_of_placedFragment? (schema : Schema)
    (h : d.placedFragment? name = some (place, f)) : Whole schema d place := by
  obtain ⟨-, number, rfl, -⟩ := Document.placedFragment?_spec h
  intro type? outer items index node span own hset _ heq
  exact hset.address_ne_nil (List.cons.inj heq).2.symm

/-- The own set of a field has no field in common with a fragment. -/
theorem Placed.apart (h : Placed schema d o) (rank : String → ℕ) (bound : ℕ) :
    Apart schema d rank bound (o.type? schema) o.address o.items := by
  have hplaces {name : String} {place : Address} {f : FragmentDefinition}
      (hplaced : d.placedFragment? name = some (place, f)) : place ≠ o.address := by
    obtain ⟨-, number, rfl, -⟩ := Document.placedFragment?_spec hplaced
    exact (h.inside number).symm
  refine ⟨fun _ hplaced => hplaces hplaced, fun _ hplaced x hx y hy heq => ?_⟩
  have hset := Document.hasSet_of_placedFragment? schema hplaced
  have hwhole := whole_of_placedFragment? schema hplaced
  exact hplaces hplaced (eq_of_common_field h.own h.whole hset hwhole hx hy heq).symm

/-- The number of a fragment bounds what is nested in its definition. -/
theorem Ranking.below_of_getLast? (hrank : Ranking d rank)
    (hset : d.HasSet schema parent? address items)
    (hplaced : d.placedFragment? name = some (place, f))
    (hlast : address.getLast? = place.getLast?) : Below rank (rank name) items := by
  obtain ⟨-, number, rfl, hnumber⟩ := Document.placedFragment?_spec hplaced
  induction hset with
  | operation hnumber' hoperation =>
    obtain rfl := Option.some.inj hlast
    obtain rfl := Option.some.inj (hnumber.symm.trans hnumber')
    cases hoperation
  | fragment hnumber' =>
    obtain rfl := Option.some.inj hlast
    obtain rfl := Definition.fragment.inj (Option.some.inj (hnumber.symm.trans hnumber'))
    exact hrank.below hplaced
  | field hset hitem ih =>
    rw [List.getLast?_cons_of_ne_nil hset.address_ne_nil] at hlast
    exact (ih hlast).subset (Selection.nested_of_mem (List.mem_of_getElem? hitem) rfl).1
  | inline hset hitem ih =>
    rw [List.getLast?_cons_of_ne_nil hset.address_ne_nil] at hlast
    exact (ih hlast).subset (Selection.nested_of_mem (List.mem_of_getElem? hitem) rfl).1

theorem getLast?_of_mem_fieldsOf (hset : d.HasSet schema parent? address items)
    (ho : o ∈ fieldsOf schema parent? address items) :
    o.address.getLast? = address.getLast? := by
  obtain ⟨j, -, before, hsuffix⟩ := entersFrom_of_mem_fieldsFrom ho
  obtain ⟨last, hlast⟩ := Option.isSome_iff_exists.mp
    (List.getLast?_isSome.mpr hset.address_ne_nil)
  rw [← hsuffix, List.getLast?_append, List.getLast?_cons_of_ne_nil hset.address_ne_nil, hlast,
    Option.some_or]

/-- A set has a bound for what is nested in it that keeps it apart from all fragments below; for the
set of a fragment it is the number of that fragment. -/
theorem Ranking.exists_bound (hrank : Ranking d rank)
    (hset : d.HasSet schema parent? address items) :
    ∃ bound, bound ≤ d.fragments.length + 1 ∧ Below rank bound items ∧
      Apart schema d rank bound parent? address items ∧
      ∀ {name f}, d.placedFragment? name = some (address, f) → bound ≤ rank name := by
  -- A bound keeps the set apart as soon as no fragment below it has the same definition.
  have hapart {bound : ℕ} (hlast : ∀ {name place f}, d.placedFragment? name = some (place, f) →
      address.getLast? = place.getLast? → bound ≤ rank name) :
      Apart schema d rank bound parent? address items ∧
        ∀ {name f}, d.placedFragment? name = some (address, f) → bound ≤ rank name := by
    refine ⟨⟨fun hlt hplaced heq => ?_, fun hlt hplaced x hx y hy heq => ?_⟩,
      fun hplaced => hlast hplaced rfl⟩
    · exact absurd (hlast hplaced (by rw [heq])) (Nat.not_le.mpr hlt)
    · have hset' := Document.hasSet_of_placedFragment? schema hplaced
      refine absurd (hlast hplaced ?_) (Nat.not_le.mpr hlt)
      rw [← getLast?_of_mem_fieldsOf hset hx, heq, getLast?_of_mem_fieldsOf hset' hy]
  by_cases hsame : ∃ name place f, d.placedFragment? name = some (place, f) ∧
      address.getLast? = place.getLast?
  · obtain ⟨name, place, f, hplaced, hlast⟩ := hsame
    refine ⟨rank name, (hrank.bounded name).trans (Nat.le_succ _),
      hrank.below_of_getLast? hset hplaced hlast, hapart ?_⟩
    intro name' place' f' hplaced' hlast'
    obtain ⟨-, number, rfl, -⟩ := Document.placedFragment?_spec hplaced
    obtain ⟨-, number', rfl, -⟩ := Document.placedFragment?_spec hplaced'
    obtain rfl := Option.some.inj (hlast.symm.trans hlast')
    rw [Document.eq_of_placedFragment? hplaced hplaced']
  · refine ⟨d.fragments.length + 1, le_rfl, fun s _ => Nat.lt_succ_of_le (hrank.bounded s.name),
      hapart ?_⟩
    intro name place f hplaced hlast
    exact absurd ⟨name, place, f, hplaced, hlast⟩ hsame

end Apart

end Overlap

end GraphQLCheck

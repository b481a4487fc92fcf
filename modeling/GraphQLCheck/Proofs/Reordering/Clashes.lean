import GraphQLCheck.Proofs.FieldMerging
import GraphQLCheck.Proofs.Reordering.Visits

/-!
# Clashes do not depend on the order of definitions

If the definitions of a document change places, the address of every selection set changes in its
last number, that of the definition. Whether two fields conflict depends on addresses only in as far
as they tell fields apart, and fragments that have a name of their own are found in their new places.
So the fields that clash in one order clash in the other (`Reordered.clash`).
-/

namespace GraphQLCheck

/-! ### New numbers for definitions -/

/-- The address with another number of the definition. -/
def Address.renumber (σ : ℕ → ℕ) : Address → Address
  | [] => []
  | [number] => [σ number]
  | index :: next :: rest => index :: renumber σ (next :: rest)

namespace Address

variable {σ : ℕ → ℕ}

theorem renumber_cons {a : Address} (h : a ≠ []) (index : ℕ) :
    renumber σ (index :: a) = index :: renumber σ a := by
  cases a with
  | nil => exact absurd rfl h
  | cons next rest => rfl

theorem length_renumber (σ : ℕ → ℕ) (a : Address) : (renumber σ a).length = a.length := by
  fun_induction renumber σ a with
  | case1 => rfl
  | case2 number => rfl
  | case3 index next rest ih => exact congrArg (· + 1) ih

theorem renumber_injective (h : Function.Injective σ) : Function.Injective (renumber σ) := by
  intro a b heq
  have hlength : a.length = b.length := by
    rw [← length_renumber σ a, heq, length_renumber]
  induction a generalizing b with
  | nil => exact (List.length_eq_zero_iff.mp hlength.symm).symm
  | cons i a ih =>
    obtain ⟨j, b, rfl⟩ := List.exists_cons_of_length_eq_add_one hlength.symm
    have hrest : a.length = b.length := by simpa using hlength
    cases a with
    | nil =>
      obtain rfl := List.length_eq_zero_iff.mp hrest.symm
      rw [h (List.cons.inj heq).1]
    | cons next rest =>
      have hb : b ≠ [] := List.ne_nil_of_length_eq_add_one hrest.symm
      rw [renumber_cons hb] at heq
      obtain ⟨rfl, htail⟩ := List.cons.inj heq
      rw [ih htail hrest]

end Address

/-- The elements of a list can be found in a list with another order under new numbers. -/
theorem exists_renumbering {α : Type} {list other : List α} (h : list.Perm other) :
    ∃ σ : ℕ → ℕ, Function.Injective σ ∧ ∀ i, other[σ i]? = list[i]? := by
  induction h with
  | nil => exact ⟨id, Function.injective_id, fun i => rfl⟩
  | cons a _ ih =>
    obtain ⟨σ, hσ, hget⟩ := ih
    refine ⟨fun i => Nat.casesOn i 0 (σ · + 1), ?_, ?_⟩
    · rintro (_ | i) (_ | j) heq
      · rfl
      · cases heq
      · cases heq
      · rw [hσ (Nat.succ.inj heq)]
    · rintro (_ | i)
      · rfl
      · exact hget i
  | swap a b list =>
    refine ⟨Equiv.swap 0 1, (Equiv.swap 0 1).injective, ?_⟩
    rintro (_ | _ | i)
    · rw [Equiv.swap_apply_left]
      rfl
    · rw [Equiv.swap_apply_right]
      rfl
    · rw [Equiv.swap_apply_of_ne_of_ne (by omega) (by omega)]
      rfl
  | trans _ _ ih ih' =>
    obtain ⟨σ, hσ, hget⟩ := ih
    obtain ⟨τ, hτ, hget'⟩ := ih'
    exact ⟨τ ∘ σ, hτ.comp hσ, fun i => (hget' (σ i)).trans (hget i)⟩

namespace Document

/-- The definitions of one document are found in another under new numbers. -/
structure Renumbers (d d' : Document) (σ : ℕ → ℕ) : Prop where
  /-- Different numbers stay different. -/
  injective : Function.Injective σ
  /-- A definition is found under its new number. -/
  definition : ∀ i, d'.definitions[σ i]? = d.definitions[i]?

variable {schema : Schema} {d d' : Document} {σ : ℕ → ℕ}

theorem HasSet.renumber (h : d.Renumbers d' σ) {type? : Option TypeDefinition} {address : Address}
    {items : List Selection} (hset : d.HasSet schema type? address items) :
    d'.HasSet schema type? (address.renumber σ) items := by
  induction hset with
  | operation hnumber ho => exact .operation ((h.definition _).trans hnumber) ho
  | fragment hnumber => exact .fragment ((h.definition _).trans hnumber)
  | field hset hitem ih =>
    rw [Address.renumber_cons hset.address_ne_nil]
    exact ih.field hitem
  | inline hset hitem ih =>
    rw [Address.renumber_cons hset.address_ne_nil]
    exact ih.inline hitem

/-- A fragment with a name of its own has one place. -/
theorem number_unique (hunique : (d.fragments.map (·.name)).Nodup) {i j : ℕ}
    {f : FragmentDefinition} (hi : d.definitions[i]? = some (.fragment f))
    (hj : d.definitions[j]? = some (.fragment f)) : i = j := by
  have hpairs := List.pairwise_filterMap.mp (List.pairwise_map.mp hunique)
  obtain ⟨hilt, hi⟩ := List.getElem?_eq_some_iff.mp hi
  obtain ⟨hjlt, hj⟩ := List.getElem?_eq_some_iff.mp hj
  rw [List.pairwise_iff_getElem] at hpairs
  rcases Nat.lt_trichotomy i j with hlt | heq | hgt
  · exact absurd rfl (hpairs i j hilt hjlt hlt f (by rw [hi]; rfl) f (by rw [hj]; rfl))
  · exact heq
  · exact absurd rfl (hpairs j i hjlt hilt hgt f (by rw [hj]; rfl) f (by rw [hi]; rfl))

/-- A fragment with a name of its own is found at its new place. -/
theorem Renumbers.placedFragment? (h : d.Renumbers d' σ)
    (hunique : (d'.fragments.map (·.name)).Nodup)
    (hfragment : ∀ name, d.fragment? name = d'.fragment? name) {name : String} {place : Address}
    {f : FragmentDefinition} (hplaced : d.placedFragment? name = some (place, f)) :
    d'.placedFragment? name = some (place.renumber σ, f) := by
  obtain ⟨hf, number, rfl, hnumber⟩ := placedFragment?_spec hplaced
  rw [hfragment, ← map_placedFragment?, Option.map_eq_some_iff] at hf
  obtain ⟨⟨place', g⟩, hplaced', rfl⟩ := hf
  obtain ⟨-, number', rfl, hnumber'⟩ := placedFragment?_spec hplaced'
  have heq : number' = σ number :=
    number_unique hunique hnumber' ((h.definition number).trans hnumber)
  rw [hplaced', heq]
  rfl

end Document

/-! ### Conflicts under new addresses -/

namespace Overlap

variable {schema : Schema} {d d' : Document} {σ : ℕ → ℕ} {parent? : Option TypeDefinition}
  {address : Address} {items : List Selection} {o : Occurrence}

/-- A field at its new address. -/
def Occurrence.renumber (σ : ℕ → ℕ) (o : Occurrence) : Occurrence :=
  { o with address := o.address.renumber σ }

theorem fieldsFrom_renumber (σ : ℕ → ℕ) (h : address ≠ []) (index : ℕ) :
    fieldsFrom schema parent? (address.renumber σ) index items =
      (fieldsFrom schema parent? address index items).map (Occurrence.renumber σ) := by
  induction items using Selection.items_induction generalizing parent? address index with
  | nil => rfl
  | field node span own rest ihOwn ihRest =>
    rw [fieldsFrom, fieldsFrom, ihRest h, List.map_append, fieldsOfItem, fieldsOfItem,
      ← Address.renumber_cons h]
    rfl
  | spread node rest ihRest =>
    rw [fieldsFrom, fieldsFrom, ihRest h, List.map_append, fieldsOfItem, fieldsOfItem]
    rfl
  | inline node span own rest ihOwn ihRest =>
    rw [fieldsFrom, fieldsFrom, ihRest h, List.map_append, fieldsOfItem, fieldsOfItem,
      ← Address.renumber_cons h, ihOwn (List.cons_ne_nil _ _)]

theorem Selects.address_ne_nil (h : Selects schema d parent? address items o) :
    o.address ≠ [] := by
  induction h with
  | field ho =>
    obtain ⟨j, -, hsuffix⟩ := entersFrom_of_mem_fieldsFrom ho
    exact fun hnil => List.cons_ne_nil _ _ (List.suffix_nil.mp (hnil ▸ hsuffix))
  | fragment _ _ _ ih => exact ih

section Transport

variable (h : d.Renumbers d' σ) (hunique : (d'.fragments.map (·.name)).Nodup)
  (hfragment : ∀ name, d.fragment? name = d'.fragment? name)

include h hunique hfragment

theorem Selects.renumber (hselects : Selects schema d parent? address items o)
    (haddress : address ≠ []) :
    Selects schema d' parent? (address.renumber σ) items (o.renumber σ) := by
  induction hselects with
  | field ho =>
    refine .field ?_
    rw [fieldsOf, fieldsFrom_renumber σ haddress]
    exact List.mem_map_of_mem ho
  | fragment hname hplaced _ ih =>
    have hplace := (Document.hasSet_of_placedFragment? schema hplaced).address_ne_nil
    exact .fragment hname (h.placedFragment? hunique hfragment hplaced) (ih hplace)

theorem Conflicts.renumber {differ : List Argument → List Argument → Prop} {exclusive : Bool}
    {a b : Occurrence} (hab : Conflicts schema d differ exclusive a b) (ha : a.address ≠ [])
    (hb : b.address ≠ []) :
    Conflicts schema d' differ exclusive (a.renumber σ) (b.renumber σ) := by
  induction hab with
  | names hexclusive hname => exact .names hexclusive hname
  | arguments hexclusive harguments => exact .arguments hexclusive harguments
  | types hf hg htypes => exact .types hf hg htypes
  | parts hx hy hne hname _ ih =>
    refine .parts (hx.renumber h hunique hfragment ha) (hy.renumber h hunique hfragment hb) ?_
      hname (ih hx.address_ne_nil hy.address_ne_nil)
    exact fun heq => hne (Address.renumber_injective h.injective heq)

/-- Fields that clash do so at their new addresses. -/
theorem Clash.renumber {differ : List Argument → List Argument → Prop}
    (hclash : Clash schema d differ) : Clash schema d' differ := by
  obtain ⟨type?, address, items, hset, x, y, hx, hy, hne, hname, hxy⟩ := hclash
  have haddress := hset.address_ne_nil
  refine ⟨type?, _, items, hset.renumber h, x.renumber σ, y.renumber σ,
    hx.renumber h hunique hfragment haddress, hy.renumber h hunique hfragment haddress, ?_, hname,
    hxy.renumber h hunique hfragment hx.address_ne_nil hy.address_ne_nil⟩
  exact fun heq => hne (Address.renumber_injective h.injective heq)

end Transport

end Overlap

/-- Fields that clash in one order of the definitions clash in any other, if fragments have names of
their own. -/
theorem Document.Reordered.clash {schema : Schema} {d d' : Document} (h : d.Reordered d')
    (hunique : (d.fragments.map (·.name)).Nodup)
    {differ : List Argument → List Argument → Prop} (hclash : Overlap.Clash schema d differ) :
    Overlap.Clash schema d' differ := by
  obtain ⟨σ, hσ, hget⟩ := exists_renumbering h.definitions
  exact hclash.renumber ⟨hσ, hget⟩ ((h.fragments.map _).nodup_iff.mp hunique)
    (h.fragment?_eq hunique)

end GraphQLCheck

import GraphQLCheck.Proofs.Overlap.Entries
import GraphQLCheck.Proofs.Overlap.Ranks
import GraphQLCheck.Proofs.Reports
import GraphQLCheck.Proofs.Typing.Fields

/-!
# The fields that the search for conflicts stores

The search for fields that cannot be merged stores the fields of a set under the address of the set,
and does not compute them again. A set may be met first by the walk, which knows its type only if
that is composite, or by a comparison of fields or a reference to a fragment, which know it in any
case. Wherever it is met first, what is stored is the fields of the set with their definitions, and
with its type or, if that is not composite, possibly without one (`Genuine`). This holds of all
documents, also if fragments refer to one another in cycles.
-/

namespace GraphQLCheck.Overlap

variable {schema : Schema} {d : Document} {type? other? : Option TypeDefinition}
  {address : Address} {items : List Selection} {x : Occurrence}

/-! ### Fields as they are stored -/

/-- The second type is the first one, or it is missing because the first one is not composite. -/
def MayDrop (type? other? : Option TypeDefinition) : Prop :=
  other? = type? ∨ other? = type?.filter (·.isComposite)

theorem MayDrop.refl (type? : Option TypeDefinition) : MayDrop type? type? := .inl rfl

theorem MayDrop.selectedField? (h : MayDrop type? other?) (hknows : schema.Knows type?)
    (name : String) :
    other?.bind (schema.selectedField? · name) = type?.bind (schema.selectedField? · name) := by
  rcases h with rfl | rfl
  · rfl
  · exact hknows.selectedField? name

theorem MayDrop.inline (h : MayDrop type? other?) (schema : Schema) (node : InlineFragment) :
    MayDrop (node.type? schema type?) (node.type? schema other?) := by
  unfold InlineFragment.type?
  cases node.condition? with
  | none => exact h
  | some name => exact .refl _

/-- A field of the document as it may be stored: all of it, but for the type that it is selected
from. -/
def IsStored (schema : Schema) (d : Document) (x : Occurrence) : Prop :=
  ∃ o, d.HasField schema o ∧ x = { o with parent? := x.parent? } ∧ MayDrop o.parent? x.parent?

theorem IsStored.own (h : IsStored schema d x) :
    d.HasSet schema (x.type? schema) x.address x.items := by
  obtain ⟨o, ho, heq, -⟩ := h
  rw [heq]
  exact ho.own

/-- The fields of a set, if its type may have been dropped. -/
theorem isStored_of_mem_fieldsOf (hset : d.HasSet schema type? address items)
    (hdrop : MayDrop type? other?) (hx : x ∈ fieldsOf schema other? address items) :
    IsStored schema d x := by
  refine fieldsOf_induction (P := fun other? address items x => ∀ type?,
    d.HasSet schema type? address items → MayDrop type? other? → IsStored schema d x) ?_ ?_ hx
    type? hset hdrop
  · intro other? address items index node span own hitem type? hset hdrop
    refine ⟨_, hset.hasField hitem, ?_, hdrop⟩
    simp only [Occurrence.ofField, hdrop.selectedField? hset.knows]
  · intro other? address items index node span own x hitem ih type? hset hdrop
    exact ih _ (hset.inline hitem) (hdrop.inline schema node)

/-! ### Entries -/

/-- The fields of an entry. -/
def Entry.stored (e : Entry) : List Occurrence := e.fields.flatMap (·.2)

theorem Entry.mem_stored {e : Entry} : x ∈ e.stored ↔ ∃ group ∈ e.fields, x ∈ group.2 :=
  List.mem_flatMap

theorem address_of (schema : Schema) (other? : Option TypeDefinition) (address : Address)
    (items : List Selection) : (Entry.of schema other? address items).address = address := by
  rw [Entry.of, addSelections_eq]

/-- The entry that is computed for a set has its fields. -/
theorem mem_stored_of :
    x ∈ (Entry.of schema other? address items).stored ↔
      x ∈ fieldsOf schema other? address items := by
  have hgroups : Groups (Entry.of schema other? address items).fields
      (fieldsOf schema other? address items) := by
    rw [Entry.of, addSelections_eq]
    exact Groups.empty.addAll _
  rw [Entry.mem_stored]
  constructor
  · rintro ⟨⟨name, group⟩, hgroup, hx⟩
    rw [hgroups.eq_filter hgroup] at hx
    exact (List.mem_filter.mp hx).1
  · intro hx
    obtain ⟨group, hgroup, hmem⟩ := hgroups.exists_group hx
    exact ⟨_, hgroup, hmem⟩

/-- The entry is computed for a set of the document from its type, which may have been dropped. -/
def Genuine (schema : Schema) (d : Document) (e : Entry) : Prop :=
  ∃ type? other? items, d.HasSet schema type? e.address items ∧ MayDrop type? other? ∧
    e = Entry.of schema other? e.address items

variable {e e' : Entry}

theorem Genuine.isStored (h : Genuine schema d e) (hx : x ∈ e.stored) : IsStored schema d x := by
  obtain ⟨type?, other?, items, hset, hdrop, heq⟩ := h
  rw [heq] at hx
  exact isStored_of_mem_fieldsOf hset hdrop (mem_stored_of.mp hx)

/-- A field of a set is among its fields. -/
theorem mem_fieldsFrom (schema : Schema) (other? : Option TypeDefinition) (address : Address)
    {k : ℕ} {node : Field} {span : Span} {own : List Selection}
    (hitem : items[k]? = some (.field node span own)) (index : ℕ) :
    .ofField schema other? ((index + k) :: address) node own ∈
      fieldsFrom schema other? address index items := by
  induction items generalizing index k with
  | nil => cases hitem
  | cons first rest ih =>
    rw [fieldsFrom, List.mem_append]
    cases k with
    | zero =>
      obtain rfl := Option.some.inj hitem
      exact .inl List.mem_cons_self
    | succ k =>
      have hrest := ih hitem (index + 1)
      rw [Nat.add_right_comm] at hrest
      exact .inr hrest

/-- The entry of a set has the fields of the set. -/
theorem Genuine.stores (h : Genuine schema d e) (hset : d.HasSet schema type? e.address items)
    {index : ℕ} {node : Field} {span : Span} {own : List Selection}
    (hitem : items[index]? = some (.field node span own)) :
    ∃ x ∈ e.stored, x.address = index :: e.address := by
  obtain ⟨type'?, other?, items', hset', -, heq⟩ := h
  obtain ⟨rfl, rfl⟩ := hset.unique hset'
  refine ⟨.ofField schema other? (index :: e.address) node own, ?_, rfl⟩
  have hmem := mem_fieldsFrom schema other? e.address hitem 0
  rw [Nat.zero_add] at hmem
  rw [heq, address_of]
  exact mem_stored_of.mpr hmem

/-! ### The memory -/

/-- All entries of the memory are genuine, and the given ones are still among them. -/
structure Remembers (schema : Schema) (d : Document) (base : List Entry) (m : Memory) : Prop where
  /-- The entries are genuine. -/
  genuine : ∀ e ∈ m.entries, Genuine schema d e
  /-- Entries are never given up. -/
  kept : base ⊆ m.entries

/-- The fields of all entries. -/
def Memory.stored (m : Memory) : List Occurrence := m.entries.flatMap (·.stored)

variable {base : List Entry} {m : Memory}

/-- The entry that the memory gives for a set. -/
theorem Remembers.entry (h : Remembers schema d base m) (hset : d.HasSet schema type? address items)
    (hdrop : MayDrop type? other?) :
    Genuine schema d (m.entry schema other? address items).1 ∧
      (m.entry schema other? address items).1.address = address ∧
      (m.entry schema other? address items).1 ∈ (m.entry schema other? address items).2.entries ∧
      Remembers schema d base (m.entry schema other? address items).2 := by
  unfold Memory.entry
  cases hfind : m.entries.find? (·.address = address) with
  | some known =>
    have hmem := List.mem_of_find?_eq_some hfind
    exact ⟨h.genuine known hmem, by simpa using List.find?_some hfind, hmem, h⟩
  | none =>
    have haddress := address_of schema other? address items
    have hnew : Genuine schema d (Entry.of schema other? address items) :=
      ⟨type?, other?, items, by rwa [haddress], hdrop, by rw [haddress]⟩
    refine ⟨hnew, haddress, List.mem_cons_self, fun e he => ?_, fun e he => ?_⟩
    · rcases List.mem_cons.mp he with rfl | he
      · exact hnew
      · exact h.genuine e he
    · exact List.mem_cons_of_mem _ (h.kept he)

theorem Remembers.fragmentEntry (h : Remembers schema d base m) {name : String} {place : Address}
    {f : FragmentDefinition} (hplaced : d.placedFragment? name = some (place, f)) :
    Genuine schema d (Overlap.fragmentEntry schema place f m).1 ∧
      Remembers schema d base (Overlap.fragmentEntry schema place f m).2 := by
  obtain ⟨hgenuine, -, -, hremembers⟩ :=
    h.entry (Document.hasSet_of_placedFragment? schema hplaced) (.refl _)
  exact ⟨hgenuine, hremembers⟩

/-! ### The search keeps the memory genuine -/

/-- What every step keeps is kept by all of them. -/
theorem forEach_keeps {α β σ : Type} {P : σ → Prop} {find : α → σ → List β × σ} {list : List α}
    {s : σ} (hs : P s) (h : ∀ a ∈ list, ∀ s, P s → P (find a s).2) : P (forEach find list s).2 := by
  induction list generalizing s with
  | nil => exact hs
  | cons a list ih =>
    exact ih (h a List.mem_cons_self s hs) fun b hb => h b (List.mem_cons_of_mem a hb)

/-- A comparison of two stored fields keeps the memory genuine. -/
def Keeps (schema : Schema) (d : Document) (compare : Comparison) : Prop :=
  ∀ base exclusive c m, IsStored schema d c.first → IsStored schema d c.second →
    Remembers schema d base m → Remembers schema d base (compare exclusive c m).2

section Level

variable {compare : Comparison} (hcompare : Keeps schema d compare)

include hcompare

theorem Remembers.between (h : Remembers schema d base m) (exclusive : Bool)
    (he : Genuine schema d e) (he' : Genuine schema d e') :
    Remembers schema d base
      (forEach (compare exclusive) (Candidate.between e.fields e'.fields) m).2 := by
  refine forEach_keeps h fun c hc m hm =>
    hcompare _ _ _ _ (he.isStored (Entry.mem_stored.mpr ?_))
      (he'.isStored (Entry.mem_stored.mpr ?_)) hm
  · obtain ⟨group, hgroup, hc⟩ := List.mem_flatMap.mp hc
    obtain ⟨a, ha, hc⟩ := List.mem_flatMap.mp hc
    obtain ⟨b, -, rfl⟩ := List.mem_map.mp hc
    exact ⟨group, hgroup, ha⟩
  · obtain ⟨group, -, hc⟩ := List.mem_flatMap.mp hc
    obtain ⟨a, -, hc⟩ := List.mem_flatMap.mp hc
    obtain ⟨b, hb, rfl⟩ := List.mem_map.mp hc
    cases hlookup : e'.fields.lookup group.1 with
    | none =>
      rw [hlookup] at hb
      cases hb
    | some others =>
      rw [hlookup] at hb
      obtain ⟨before, after, hsplit, -⟩ := List.lookup_eq_some_iff.mp hlookup
      exact ⟨_, by rw [hsplit]; exact List.mem_append_right _ List.mem_cons_self, hb⟩

theorem Remembers.within (h : Remembers schema d base m) (he : Genuine schema d e) :
    Remembers schema d base (forEach (compare false) (Candidate.within e.fields) m).2 := by
  refine forEach_keeps h fun c hc m hm => ?_
  obtain ⟨group, hgroup, hc⟩ := List.mem_flatMap.mp hc
  obtain ⟨⟨a, b⟩, hab, rfl⟩ := List.mem_map.mp hc
  have hpair : group.2.Pairwise fun _ _ => True := List.pairwise_of_forall fun _ _ => trivial
  obtain ⟨ha, hb, -⟩ := rel_of_mem_pairs hpair hab
  have hmem {x : Occurrence} (hx : x ∈ group.2) : x ∈ e.stored :=
    Entry.mem_stored.mpr ⟨group, hgroup, hx⟩
  exact hcompare _ _ _ _ (he.isStored (hmem ha)) (he.isStored (hmem hb)) hm

theorem Remembers.withFragment (exclusive : Bool) (he : Genuine schema d e) (depth : ℕ)
    (name : String) (s : List String × Memory) (h : Remembers schema d base s.2) :
    Remembers schema d base
      (Overlap.withFragment schema d compare exclusive e depth name s).2.2 := by
  induction depth generalizing name s with
  | zero => exact h
  | succ depth ih =>
    obtain ⟨names, m⟩ := s
    rw [Overlap.withFragment]
    split
    · exact h
    · cases hplaced : d.placedFragment? name with
      | none => exact h
      | some placed =>
        obtain ⟨place, f⟩ := placed
        obtain ⟨hother, hm⟩ := h.fragmentEntry hplaced
        dsimp only
        split
        · exact hm
        · exact forEach_keeps (P := fun s : List String × Memory => Remembers schema d base s.2)
            (hm.between hcompare exclusive he hother) fun n _ s hs => ih n s hs

theorem Remembers.withFragments (h : Remembers schema d base m) (exclusive : Bool)
    (he : Genuine schema d e) (names : List String) :
    Remembers schema d base (Overlap.withFragments schema d compare exclusive e names m).2 :=
  forEach_keeps (P := fun s : List String × Memory => Remembers schema d base s.2) h
    fun n _ s hs => .withFragment hcompare exclusive he _ n s hs

theorem Remembers.betweenFragments (h : Remembers schema d base m) (exclusive : Bool) (depth : ℕ)
    (pair : String × String) :
    Remembers schema d base
      (Overlap.betweenFragments schema d compare exclusive depth pair m).2 := by
  induction depth generalizing pair m with
  | zero => exact h
  | succ depth ih =>
    obtain ⟨a, b⟩ := pair
    rw [Overlap.betweenFragments]
    split
    · exact h
    · split
      · exact h
      · have hm : Remembers schema d base { m with compared := m.compared.insert a b exclusive } :=
          ⟨h.genuine, h.kept⟩
        cases ha : d.placedFragment? a with
        | none => exact hm
        | some placed =>
          cases hb : d.placedFragment? b with
          | none => exact hm
          | some other =>
            obtain ⟨he, hm⟩ := hm.fragmentEntry ha
            obtain ⟨he', hm⟩ := hm.fragmentEntry hb
            have hfields := hm.between hcompare exclusive he he'
            have hfragments {names : List (String × String)} {m : Memory}
                (h : Remembers schema d base m) : Remembers schema d base
                  (forEach (Overlap.betweenFragments schema d compare exclusive depth) names m).2 :=
              forEach_keeps h fun pair _ m hm => ih hm pair
            exact hfragments (hfragments hfields)

theorem Remembers.betweenSets (h : Remembers schema d base m) (exclusive : Bool) {a b : Occurrence}
    (ha : IsStored schema d a) (hb : IsStored schema d b) :
    Remembers schema d base (Overlap.betweenSets schema d compare exclusive a b m).2 := by
  obtain ⟨he, -, -, hm⟩ := h.entry ha.own (.refl _)
  obtain ⟨he', -, -, hm⟩ := hm.entry hb.own (.refl _)
  have hfields := hm.between hcompare exclusive he he'
  have hright {names : List String} := hfields.withFragments hcompare exclusive he names
  have hleft {names names' : List String} :=
    (@hright names).withFragments hcompare exclusive he' names'
  exact forEach_keeps hleft fun pair _ m hm => hm.betweenFragments hcompare exclusive _ pair

theorem Remembers.fragmentsWithin (he : Genuine schema d e) (names : List String)
    (s : List String × Memory) (h : Remembers schema d base s.2) :
    Remembers schema d base (Overlap.fragmentsWithin schema d compare e names s).2.2 := by
  induction names generalizing s with
  | nil => exact h
  | cons name rest ih =>
    have hfields := Remembers.withFragment hcompare false he (fragmentDepth d) name s h
    have hpairs := forEach_keeps hfields fun pair (_ : pair ∈ rest.map (name, ·)) m hm =>
      hm.betweenFragments hcompare false (pairDepth d) pair
    exact ih (_, _) hpairs

/-- The entry of a set is in the memory once its fields were compared. -/
theorem Remembers.withinSet (h : Remembers schema d base m)
    (hset : d.HasSet schema type? address items) (hdrop : MayDrop type? other?) :
    Remembers schema d base (Overlap.withinSet schema d compare other? address items m).2 ∧
      ∃ e ∈ (Overlap.withinSet schema d compare other? address items m).2.entries,
        e.address = address := by
  obtain ⟨he, haddress, hmem, hm⟩ := h.entry hset hdrop
  have hall : Remembers schema d
      (m.entry schema other? address items).2.entries
      (Overlap.withinSet schema d compare other? address items m).2 := by
    have hstart : Remembers schema d (m.entry schema other? address items).2.entries
        (m.entry schema other? address items).2 := ⟨hm.genuine, List.Subset.refl _⟩
    exact Remembers.fragmentsWithin hcompare he _ ([], _) (hstart.within hcompare he)
  exact ⟨⟨hall.genuine, List.Subset.trans hm.kept hall.kept⟩, _, hall.kept hmem, haddress⟩

end Level

theorem keeps_compareFields (schema : Schema) (d : Document) (depth : ℕ) :
    Keeps schema d (compareFields schema d depth) := by
  induction depth with
  | zero => exact fun _ _ _ _ _ _ h => h
  | succ depth ih =>
    intro base exclusive c m hfirst hsecond h
    rw [compareFields]
    dsimp only
    split
    · exact h
    · split
      · exact h
      · have hparts := h.betweenSets ih (exclusive || fromDifferentObjects c.first c.second) hfirst
          hsecond
        split
        · exact hparts
        · exact hparts

/-! ### The memory along the walk -/

/-- What the rule remembers after a visit. -/
def nextMemory (schema : Schema) (d : Document) (m : Memory) (v : Visit) : Memory :=
  (RuleName.overlappingFieldsCanBeMerged.machine.step (.of schema d) m v).1

/-- What the rule remembers after the first visits of a walk. -/
def memoryAfter (schema : Schema) (d : Document) (visits : List Visit) : Memory :=
  visits.foldl (nextMemory schema d) RuleName.overlappingFieldsCanBeMerged.machine.start

theorem memoryAfter_eq_foldl (schema : Schema) (d : Document) (visits : List Visit) :
    memoryAfter schema d visits = visits.foldl (nextMemory schema d) .empty :=
  rfl

theorem nextMemory_enter (schema : Schema) (d : Document) (m : Memory) (address : Address)
    (set : SelectionSet) (s : Scope) :
    nextMemory schema d m ⟨.enter (.selectionSet address set), s⟩ =
      (withinSet schema d (compareFields schema d (searchDepth d)) s.parent? address set.items
        m).2 :=
  (rfl)

theorem nextMemory_eq_self {v : Visit}
    (h : ∀ address set, v.hook ≠ .enter (.selectionSet address set)) :
    nextMemory schema d m v = m := by
  obtain ⟨hook, s⟩ := v
  cases hook with
  | enter node =>
    cases node with
    | selectionSet address set => exact absurd rfl (h address set)
    | _ => rfl
  | _ => rfl

/-- Entering a set stores it. -/
theorem Remembers.nextMemory_enter {set : SelectionSet} {s : Scope}
    (hv : ⟨.enter (.selectionSet address set), s⟩ ∈ d.visits schema)
    (h : Remembers schema d base m) :
    Remembers schema d base
        (nextMemory schema d m ⟨.enter (.selectionSet address set), s⟩) ∧
      ∃ e ∈ (nextMemory schema d m ⟨.enter (.selectionSet address set), s⟩).entries,
        e.address = address := by
  obtain ⟨type?, hset, hinside⟩ := Document.hasSet_of_mem_visits hv
  rw [Overlap.nextMemory_enter]
  exact h.withinSet (keeps_compareFields schema d _) hset (.inr hinside.parent)

theorem Remembers.nextMemory {v : Visit} (hv : v ∈ d.visits schema)
    (h : Remembers schema d base m) : Remembers schema d base (nextMemory schema d m v) := by
  by_cases henter : ∃ address set, v.hook = .enter (.selectionSet address set)
  · obtain ⟨address, set, hhook⟩ := henter
    obtain ⟨_, s⟩ := v
    subst hhook
    exact (h.nextMemory_enter hv).1
  · rw [nextMemory_eq_self fun address set hhook => henter ⟨address, set, hhook⟩]
    exact h

theorem Remembers.foldl {visits : List Visit} (hvisits : visits ⊆ d.visits schema)
    (h : Remembers schema d base m) :
    Remembers schema d base (visits.foldl (Overlap.nextMemory schema d) m) := by
  induction visits generalizing m with
  | nil => exact h
  | cons v visits ih =>
    obtain ⟨hv, hvisits⟩ := List.cons_subset.mp hvisits
    exact ih hvisits (h.nextMemory hv)

/-- Nothing is stored before the walk. -/
theorem remembers_empty (schema : Schema) (d : Document) : Remembers schema d [] .empty :=
  ⟨by rintro e ⟨⟩, List.nil_subset _⟩

/-- At any point of the walk, all that is stored is fields of the document. -/
theorem isStored_of_memoryAfter {visits : List Visit} (hvisits : visits ⊆ d.visits schema)
    (hx : x ∈ (memoryAfter schema d visits).stored) : IsStored schema d x := by
  obtain ⟨e, he, hx⟩ := List.mem_flatMap.mp hx
  exact (((remembers_empty schema d).foldl hvisits).genuine e he).isStored hx

/-- After the walk, all fields of the document are stored: the set that has a field was entered, and
what was stored then is still there. -/
theorem exists_stored_memoryAfter {o : Occurrence} (ho : d.HasField schema o) :
    ∃ x ∈ (memoryAfter schema d (d.visits schema)).stored, x.address = o.address := by
  obtain ⟨address, items, index, span, hset, hitem, heq⟩ := ho
  obtain ⟨s, hs⟩ := hset.walked_of_mem (List.mem_of_getElem? hitem)
  obtain ⟨span, hv⟩ := hs.entered
  obtain ⟨before, after, hsplit⟩ := List.append_of_mem hv
  have hsub : before ⊆ d.visits schema := by
    rw [hsplit]
    exact List.subset_append_left _ _
  have hsub' : after ⊆ d.visits schema := by
    rw [hsplit]
    exact List.subset_append_of_subset_right _ (List.subset_cons_self _ _)
  have hbefore := (remembers_empty schema d).foldl hsub
  obtain ⟨hentered, e, he, haddress⟩ := hbefore.nextMemory_enter hv
  have hafter := Remembers.foldl hsub' ⟨hentered.genuine, List.Subset.refl _⟩
  have hmem : e ∈ (memoryAfter schema d (d.visits schema)).entries := by
    rw [memoryAfter_eq_foldl, hsplit, List.foldl_append, List.foldl_cons]
    exact hafter.kept he
  obtain ⟨x, hx, hplace⟩ := (hentered.genuine e he).stores (haddress ▸ hset) hitem
  refine ⟨x, List.mem_flatMap.mpr ⟨e, hmem, hx⟩, ?_⟩
  rw [hplace, haddress, heq]
  rfl

end GraphQLCheck.Overlap

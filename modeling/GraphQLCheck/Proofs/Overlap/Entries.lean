import GraphQLCheck.Proofs.Overlap.Fields

/-!
# What the search remembers of sets

An `Entry` groups the fields of a set by response name (`Groups`). So the pairs that are compared
are the pairs of different fields with the same response name, and the entry that the memory holds
for an address describes the set there, whether it was computed for the type of a field or for the
composite type that a walk is inside of (`Faithful`).
-/

namespace GraphQLCheck.Overlap

/-! ### Fields by response name -/

/-- The map has all these fields, each under its response name. -/
structure Groups (fields : FieldMap) (list : List Occurrence) : Prop where
  /-- There is one group for a name. -/
  keys : (fields.map (·.1)).Nodup
  /-- The group of a name has all fields of that name. -/
  group : ∀ name, (fields.lookup name).getD [] = list.filter (·.node.responseName = name)

section Groups

variable {fields others : FieldMap} {list rest : List Occurrence} {a b : Occurrence}
  {name : String}

theorem lookup_add (fields : FieldMap) (name other : String) (o : Occurrence) :
    (fields.add name o).lookup other =
      if other = name then some ((fields.lookup name).getD [] ++ [o]) else fields.lookup other := by
  have hbeq {s t : String} (h : ¬ s = t) : (s == t) = false := beq_eq_false_iff_ne.mpr h
  induction fields with
  | nil =>
    by_cases h : other = name
    · simp [FieldMap.add, h]
    · simp [FieldMap.add, List.lookup_cons, h, hbeq h]
  | cons first fields ih =>
    obtain ⟨key, group⟩ := first
    by_cases hkey : key = name
    · subst hkey
      by_cases h : other = key
      · simp [FieldMap.add, h]
      · simp [FieldMap.add, List.lookup_cons, h, hbeq h]
    · rw [FieldMap.add, if_neg hkey, List.lookup_cons, ih]
      by_cases h : other = name
      · subst h
        simp [List.lookup_cons, hbeq (Ne.symm hkey)]
      · simp [List.lookup_cons, h]

theorem keys_add (fields : FieldMap) (name : String) (o : Occurrence) :
    (fields.add name o).map (·.1) =
      if name ∈ fields.map (·.1) then fields.map (·.1) else fields.map (·.1) ++ [name] := by
  induction fields with
  | nil => rfl
  | cons first fields ih =>
    obtain ⟨key, group⟩ := first
    by_cases hkey : key = name
    · simp [FieldMap.add, hkey]
    · have hname : ¬ name = key := fun h => hkey h.symm
      rw [FieldMap.add, if_neg hkey, List.map_cons, ih]
      by_cases h : name ∈ fields.map (·.1) <;> simp [hname, h]

theorem Groups.empty : Groups [] [] := ⟨List.nodup_nil, fun _ => rfl⟩

theorem Groups.add (h : Groups fields list) (o : Occurrence) :
    Groups (fields.add o.node.responseName o) (list ++ [o]) := by
  constructor
  · rw [keys_add]
    split
    · exact h.keys
    · rename_i hmem
      exact List.nodup_append'.mpr ⟨h.keys, List.nodup_singleton _, by simpa using hmem⟩
  · intro name
    rw [lookup_add, List.filter_append, ← h.group name]
    by_cases hname : o.node.responseName = name
    · simp [hname]
    · have hname' : ¬ name = o.node.responseName := fun h => hname h.symm
      simp [hname, hname']

theorem Groups.addAll (h : Groups fields list) (more : List Occurrence) :
    Groups (more.foldl (fun fields o => fields.add o.node.responseName o) fields)
      (list ++ more) := by
  induction more generalizing fields list with
  | nil => rwa [List.append_nil]
  | cons o more ih =>
    rw [List.foldl_cons, List.append_cons]
    exact ih (h.add o)

/-- A group of the map has all fields of its name. -/
theorem Groups.eq_filter (h : Groups fields list) {group : List Occurrence}
    (hmem : (name, group) ∈ fields) : group = list.filter (·.node.responseName = name) := by
  have hlookup : fields.lookup name = some group := by
    obtain ⟨before, after, rfl⟩ := List.append_of_mem hmem
    rw [List.lookup_eq_some_iff]
    refine ⟨before, after, rfl, fun p hp => ?_⟩
    have hnodup := h.keys
    rw [List.map_append, List.nodup_append'] at hnodup
    have hne := hnodup.2.2 (List.mem_map_of_mem hp)
    rw [List.map_cons, List.mem_cons] at hne
    exact bne_iff_ne.mpr fun heq => hne (.inl heq.symm)
  rw [← h.group name, hlookup, Option.getD_some]

/-- Every field is in the group of its name. -/
theorem Groups.exists_group (h : Groups fields list) (ha : a ∈ list) :
    ∃ group, (a.node.responseName, group) ∈ fields ∧ a ∈ group := by
  have hmem : a ∈ (fields.lookup a.node.responseName).getD [] := by
    rw [h.group]
    exact List.mem_filter.mpr ⟨ha, by simp⟩
  cases hlookup : fields.lookup a.node.responseName with
  | none =>
    rw [hlookup] at hmem
    cases hmem
  | some group =>
    rw [hlookup, Option.getD_some] at hmem
    obtain ⟨before, after, rfl, -⟩ := List.lookup_eq_some_iff.mp hlookup
    exact ⟨group, by simp, hmem⟩

theorem rel_of_mem_pairs {related : Occurrence → Occurrence → Prop} (h : list.Pairwise related)
    (hab : (a, b) ∈ Candidate.pairs list) : a ∈ list ∧ b ∈ list ∧ related a b := by
  induction list with
  | nil => simp [Candidate.pairs] at hab
  | cons o list ih =>
    rw [List.pairwise_cons] at h
    rw [Candidate.pairs, List.mem_append, List.mem_map] at hab
    rcases hab with ⟨c, hc, hab⟩ | hab
    · obtain ⟨rfl, rfl⟩ := Prod.mk.inj hab
      exact ⟨List.mem_cons_self, List.mem_cons_of_mem _ hc, h.1 _ hc⟩
    · obtain ⟨ha, hb, hrel⟩ := ih h.2 hab
      exact ⟨List.mem_cons_of_mem _ ha, List.mem_cons_of_mem _ hb, hrel⟩

theorem mem_pairs_of_ne (ha : a ∈ list) (hb : b ∈ list) (hne : a ≠ b) :
    (a, b) ∈ Candidate.pairs list ∨ (b, a) ∈ Candidate.pairs list := by
  induction list with
  | nil => cases ha
  | cons o list ih =>
    simp only [Candidate.pairs, List.mem_append, List.mem_map]
    rcases List.mem_cons.mp ha with rfl | ha' <;> rcases List.mem_cons.mp hb with rfl | hb'
    · exact absurd rfl hne
    · exact .inl (.inl ⟨b, hb', rfl⟩)
    · exact .inr (.inl ⟨a, ha', rfl⟩)
    · rcases ih ha' hb' with h | h
      · exact .inl (.inr h)
      · exact .inr (.inr h)

/-- The candidates of one map are pairs of its fields. -/
theorem Groups.of_mem_within (h : Groups fields list) (hlist : list.Pairwise (·.address ≠ ·.address))
    {c : Candidate} (hc : c ∈ Candidate.within fields) :
    c.first ∈ list ∧ c.second ∈ list ∧
      c.first.node.responseName = c.second.node.responseName ∧
      c.first.address ≠ c.second.address := by
  obtain ⟨⟨name, group⟩, hgroup, hc⟩ := List.mem_flatMap.mp hc
  obtain ⟨⟨x, y⟩, hxy, rfl⟩ := List.mem_map.mp hc
  rw [h.eq_filter hgroup] at hxy
  obtain ⟨hx, hy, hne⟩ := rel_of_mem_pairs (hlist.filter _) hxy
  obtain ⟨hx, hname⟩ := List.mem_filter.mp hx
  obtain ⟨hy, hname'⟩ := List.mem_filter.mp hy
  exact ⟨hx, hy, (of_decide_eq_true hname).trans (of_decide_eq_true hname').symm, hne⟩

/-- Different fields with the same response name are a candidate, in one of the two orders. -/
theorem Groups.mem_within (h : Groups fields list) (ha : a ∈ list) (hb : b ∈ list) (hne : a ≠ b)
    (hname : a.node.responseName = b.node.responseName) :
    ∃ c ∈ Candidate.within fields,
      c.first = a ∧ c.second = b ∨ c.first = b ∧ c.second = a := by
  obtain ⟨group, hgroup, hmem⟩ := h.exists_group ha
  have hmem' : b ∈ group := by
    rw [h.eq_filter hgroup]
    exact List.mem_filter.mpr ⟨hb, by simp [hname]⟩
  rcases mem_pairs_of_ne hmem hmem' hne with hpair | hpair
  · exact ⟨_, List.mem_flatMap.mpr ⟨_, hgroup, List.mem_map.mpr ⟨_, hpair, rfl⟩⟩, .inl ⟨rfl, rfl⟩⟩
  · exact ⟨_, List.mem_flatMap.mpr ⟨_, hgroup, List.mem_map.mpr ⟨_, hpair, rfl⟩⟩, .inr ⟨rfl, rfl⟩⟩

/-- The candidates of two maps are the pairs of their fields that have the same response name. -/
theorem Groups.mem_between (h : Groups fields list) (h' : Groups others rest) {c : Candidate} :
    c ∈ Candidate.between fields others ↔
      c.first ∈ list ∧ c.second ∈ rest ∧ c.name = c.first.node.responseName ∧
        c.name = c.second.node.responseName := by
  constructor
  · intro hc
    obtain ⟨⟨name, group⟩, hgroup, hc⟩ := List.mem_flatMap.mp hc
    obtain ⟨x, hx, hc⟩ := List.mem_flatMap.mp hc
    obtain ⟨y, hy, rfl⟩ := List.mem_map.mp hc
    rw [h.eq_filter hgroup] at hx
    rw [h'.group name] at hy
    obtain ⟨hx, hname⟩ := List.mem_filter.mp hx
    obtain ⟨hy, hname'⟩ := List.mem_filter.mp hy
    exact ⟨hx, hy, (of_decide_eq_true hname).symm, (of_decide_eq_true hname').symm⟩
  · obtain ⟨name, x, y⟩ := c
    rintro ⟨hx, hy, hname, hname'⟩
    change name = x.node.responseName at hname
    subst hname
    obtain ⟨group, hgroup, hmem⟩ := h.exists_group hx
    refine List.mem_flatMap.mpr ⟨_, hgroup, List.mem_flatMap.mpr ⟨x, hmem, ?_⟩⟩
    refine List.mem_map.mpr ⟨y, ?_, rfl⟩
    rw [h'.group]
    exact List.mem_filter.mpr ⟨hy, by simpa using hname'.symm⟩

end Groups

/-! ### Entries -/

section Entries

variable {schema : Schema} {d : Document} {parent? other? : Option TypeDefinition}
  {address : Address} {items : List Selection}

/-- Add a name to a list of names without repeats. -/
def addName (names : List String) (name : String) : List String :=
  if name ∈ names then names else names ++ [name]

theorem addFragment_eq (e : Entry) (name : String) :
    e.addFragment name = ⟨e.address, e.fields, addName e.fragments name⟩ := by
  unfold Entry.addFragment addName
  split <;> rfl

theorem mem_foldl_addName (names more : List String) (name : String) :
    name ∈ more.foldl addName names ↔ name ∈ names ∨ name ∈ more := by
  induction more generalizing names with
  | nil => simp
  | cons first more ih =>
    rw [List.foldl_cons, ih, addName, List.mem_cons]
    split
    · rename_i hmem
      constructor
      · exact Or.imp_right .inr
      · rintro (h | rfl | h)
        · exact .inl h
        · exact .inl hmem
        · exact .inr h
    · rw [List.mem_append, List.mem_singleton, or_assoc]

/-- The fields and the names of fragments that selections add to an entry. -/
theorem addSelections_eq (schema : Schema) (parent? : Option TypeDefinition) (address : Address)
    (index : ℕ) (items : List Selection) (e : Entry) :
    Entry.addSelections schema parent? address index items e =
      ⟨e.address, (fieldsFrom schema parent? address index items).foldl
          (fun fields o => fields.add o.node.responseName o) e.fields,
        (namesOf items).foldl addName e.fragments⟩ := by
  induction items using Selection.items_induction generalizing parent? address index e with
  | nil => simp [Entry.addSelections, fieldsFrom, namesOf]
  | field node span own rest ihOwn ihRest =>
    rw [Entry.addSelections, Entry.addSelection, ihRest, fieldsFrom, fieldsOfItem, namesOf,
      namesOfItem]
    rfl
  | spread node rest ihRest =>
    rw [Entry.addSelections, Entry.addSelection, ihRest, addFragment_eq, fieldsFrom, fieldsOfItem,
      namesOf, namesOfItem]
    rfl
  | inline node span own rest ihOwn ihRest =>
    rw [Entry.addSelections, Entry.addSelection, ihRest, ihOwn, fieldsFrom, fieldsOfItem, namesOf,
      namesOfItem, List.foldl_append, List.foldl_append]
    rfl

/-- The entry has the fields of the set and the names of the fragments that it refers to. -/
structure Describes (schema : Schema) (parent? : Option TypeDefinition) (address : Address)
    (items : List Selection) (e : Entry) : Prop where
  /-- It is the entry of the address. -/
  place : e.address = address
  /-- It has the fields of the set, selected from a type that agrees with the given one. -/
  fields : ∃ other?, Agree schema parent? other? ∧
    Groups e.fields (fieldsOf schema other? address items)
  /-- It has the names of the fragments. -/
  fragments : ∀ name, name ∈ e.fragments ↔ name ∈ namesOf items

theorem describes_of (h : Agree schema parent? other?) (address : Address)
    (items : List Selection) :
    Describes schema parent? address items (Entry.of schema other? address items) := by
  rw [Entry.of, addSelections_eq]
  refine ⟨rfl, ⟨other?, h, ?_⟩, fun name => ?_⟩
  · exact Groups.empty.addAll _
  · rw [mem_foldl_addName]
    simp

/-- What a set selects, by its entry. -/
theorem Describes.selects_iff {e : Entry} (h : Describes schema parent? address items e)
    (o : Occurrence) :
    Selects schema d parent? address items o ↔
      FieldOf schema parent? address items o ∨
        ∃ n ∈ e.fragments, FragmentSelects schema d n o := by
  rw [Overlap.selects_iff]
  simp only [h.fragments]

theorem eq_of_known {a b : Occurrence} (h : a.known = b.known) :
    a.node = b.node ∧ a.address = b.address ∧ a.items = b.items ∧
      a.definition? = b.definition? := by
  obtain ⟨hnode, haddress, hitems, hdefinition, -⟩ := Occurrence.mk.inj h
  exact ⟨hnode, haddress, hitems, hdefinition⟩

/-- A field selected from a type is one selected from a type that agrees, but for the type that it
holds. -/
theorem exists_known (h : Agree schema parent? other?) {x : Occurrence}
    (hx : x ∈ fieldsOf schema parent? address items) :
    ∃ y ∈ fieldsOf schema other? address items, y.known = x.known := by
  have hmem : x.known ∈ (fieldsOf schema other? address items).map Occurrence.known := by
    rw [fieldsOf, ← map_known_fieldsFrom h]
    exact List.mem_map_of_mem hx
  exact List.mem_map.mp hmem

theorem Agree.symm (h : Agree schema parent? other?) : Agree schema other? parent? :=
  ⟨h.right, h.left, h.composite.symm⟩

section Candidates

variable {place : Address} {others : List Selection} {type? : Option TypeDefinition}
  {e e' : Entry} {x y : Occurrence} {c : Candidate}

theorem Describes.of_mem_within (h : Describes schema parent? address items e)
    (hc : c ∈ Candidate.within e.fields) :
    ∃ x ∈ fieldsOf schema parent? address items, ∃ y ∈ fieldsOf schema parent? address items,
      x.known = c.first.known ∧ y.known = c.second.known ∧ x.address ≠ y.address ∧
      x.node.responseName = y.node.responseName := by
  obtain ⟨other?, hagree, hgroups⟩ := h.fields
  obtain ⟨hfirst, hsecond, hname, hne⟩ :=
    hgroups.of_mem_within (pairwise_fieldsFrom schema other? address 0 items) hc
  obtain ⟨x, hx, hxknown⟩ := exists_known hagree.symm hfirst
  obtain ⟨y, hy, hyknown⟩ := exists_known hagree.symm hsecond
  obtain ⟨hxnode, hxaddress, -⟩ := eq_of_known hxknown
  obtain ⟨hynode, hyaddress, -⟩ := eq_of_known hyknown
  refine ⟨x, hx, y, hy, hxknown, hyknown, ?_, ?_⟩
  · rwa [hxaddress, hyaddress]
  · rw [hxnode, hynode, hname]

theorem Describes.mem_within (h : Describes schema parent? address items e)
    (hx : x ∈ fieldsOf schema parent? address items)
    (hy : y ∈ fieldsOf schema parent? address items) (hne : x.address ≠ y.address)
    (hname : x.node.responseName = y.node.responseName) :
    ∃ c ∈ Candidate.within e.fields, c.first.known = x.known ∧ c.second.known = y.known ∨
      c.first.known = y.known ∧ c.second.known = x.known := by
  obtain ⟨other?, hagree, hgroups⟩ := h.fields
  obtain ⟨a, ha, haknown⟩ := exists_known hagree hx
  obtain ⟨b, hb, hbknown⟩ := exists_known hagree hy
  obtain ⟨hanode, haaddress, -⟩ := eq_of_known haknown
  obtain ⟨hbnode, hbaddress, -⟩ := eq_of_known hbknown
  have hab : a ≠ b := by
    rintro rfl
    exact hne (haaddress.symm.trans hbaddress)
  obtain ⟨c, hc, hcase⟩ := hgroups.mem_within ha hb hab (by rw [hanode, hbnode, hname])
  refine ⟨c, hc, ?_⟩
  rcases hcase with ⟨rfl, rfl⟩ | ⟨rfl, rfl⟩
  · exact .inl ⟨haknown, hbknown⟩
  · exact .inr ⟨hbknown, haknown⟩

theorem Describes.of_mem_between (h : Describes schema parent? address items e)
    (h' : Describes schema type? place others e')
    (hc : c ∈ Candidate.between e.fields e'.fields) :
    ∃ x ∈ fieldsOf schema parent? address items, ∃ y ∈ fieldsOf schema type? place others,
      x.known = c.first.known ∧ y.known = c.second.known ∧
      x.node.responseName = y.node.responseName := by
  obtain ⟨other?, hagree, hgroups⟩ := h.fields
  obtain ⟨other'?, hagree', hgroups'⟩ := h'.fields
  obtain ⟨hfirst, hsecond, hname, hname'⟩ := (hgroups.mem_between hgroups').mp hc
  obtain ⟨x, hx, hxknown⟩ := exists_known hagree.symm hfirst
  obtain ⟨y, hy, hyknown⟩ := exists_known hagree'.symm hsecond
  refine ⟨x, hx, y, hy, hxknown, hyknown, ?_⟩
  rw [(eq_of_known hxknown).1, (eq_of_known hyknown).1, ← hname, ← hname']

theorem Describes.mem_between (h : Describes schema parent? address items e)
    (h' : Describes schema type? place others e')
    (hx : x ∈ fieldsOf schema parent? address items)
    (hy : y ∈ fieldsOf schema type? place others)
    (hname : x.node.responseName = y.node.responseName) :
    ∃ c ∈ Candidate.between e.fields e'.fields,
      c.first.known = x.known ∧ c.second.known = y.known := by
  obtain ⟨other?, hagree, hgroups⟩ := h.fields
  obtain ⟨other'?, hagree', hgroups'⟩ := h'.fields
  obtain ⟨a, ha, haknown⟩ := exists_known hagree hx
  obtain ⟨b, hb, hbknown⟩ := exists_known hagree' hy
  refine ⟨⟨a.node.responseName, a, b⟩, ?_, haknown, hbknown⟩
  refine (hgroups.mem_between hgroups').mpr ⟨ha, hb, rfl, ?_⟩
  change a.node.responseName = b.node.responseName
  rw [(eq_of_known haknown).1, (eq_of_known hbknown).1, hname]

end Candidates

/-! ### The memory -/

/-- All entries of the memory describe sets of the document. -/
def Faithful (schema : Schema) (d : Document) (m : Memory) : Prop :=
  ∀ e ∈ m.entries, ∃ type? items, d.HasSet schema type? e.address items ∧
    Describes schema type? e.address items e

theorem faithful_empty : Faithful schema d .empty := fun _ h => absurd h List.not_mem_nil

/-- The entry that the memory gives for a set describes it. -/
theorem entry_spec {m : Memory} (hm : Faithful schema d m)
    (hset : d.HasSet schema parent? address items) (hagree : Agree schema parent? other?) :
    Describes schema parent? address items (m.entry schema other? address items).1 ∧
      Faithful schema d (m.entry schema other? address items).2 ∧
      (m.entry schema other? address items).2.compared = m.compared := by
  unfold Memory.entry
  cases hfind : m.entries.find? (·.address = address) with
  | some known =>
    have haddress : known.address = address := by simpa using List.find?_some hfind
    obtain ⟨type?, items', hset', hdescribes⟩ := hm known (List.mem_of_find?_eq_some hfind)
    rw [haddress] at hset' hdescribes
    obtain ⟨rfl, rfl⟩ := hset.unique hset'
    exact ⟨hdescribes, hm, rfl⟩
  | none =>
    have hnew := describes_of hagree address items
    refine ⟨hnew, fun e he => ?_, rfl⟩
    rcases List.mem_cons.mp he with rfl | he
    · rw [hnew.place]
      exact ⟨parent?, items, hset, hnew⟩
    · exact hm e he

end Entries

end GraphQLCheck.Overlap

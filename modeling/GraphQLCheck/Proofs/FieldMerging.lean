import GraphQLCheck.Proofs.BuiltSchemas
import GraphQLCheck.Proofs.Overlap.Search
import GraphQLCheck.Proofs.Reports

/-!
# Fields that cannot be merged are reported

The rule about fields under one response name, over the whole walk and with all that it remembers,
against its plain meaning: in a document without cycles of fragments it reports something exactly if
there is a clash. For arguments this has to be taken with care, because the comparison of two lists
of arguments depends on their order if a name is given twice: a clash over arguments that differ in
both orders is always reported, one that is reported is a clash over arguments that differ in one
order, and both are the same if no field gives an argument twice.
-/

namespace GraphQLCheck.Overlap

open Report

variable {schema : Schema} {d : Document} {rank : String → ℕ} {m : Memory}

/-! ### The search along a walk -/

/-- What the rule does at a visit. -/
def look (schema : Schema) (d : Document) (v : Visit) (m : Memory) : List Conflict × Memory :=
  match v.hook with
  | .enter (.selectionSet address set) =>
    withinSet schema d (compareFields schema d (searchDepth d)) v.scope.parent? address set.items m
  | _ => ([], m)

/-- What the rule finds along a walk is what it finds at its visits. -/
theorem flatten_scan_overlapping (visits : List Visit) (m : Memory) :
    (scanFrom (fun memory visit =>
        match visit.hook with
        | .enter (.selectionSet address set) =>
          let (conflicts, memory) := withinSet schema d (compareFields schema d (searchDepth d))
            visit.scope.parent? address set.items memory
          (memory, conflicts.map (·.finding))
        | _ => (memory, [])) m visits).flatten =
      (forEach (look schema d) visits m).1.map (·.finding) := by
  induction visits generalizing m with
  | nil => rfl
  | cons v visits ih =>
    rw [scanFrom, List.flatten_cons, forEach, List.map_append, ih]
    unfold look
    split <;> rfl

theorem diagnostics_overlapping (schema : Schema) (d : Document) :
    (Validation.ofRules [.overlappingFieldsCanBeMerged]).diagnostics schema d =
      ((forEach (look schema d) (d.visits schema) .empty).1.map (·.finding)).map
        (Diagnostic.ofFinding .overlappingFieldsCanBeMerged) := by
  rw [Validation.diagnostics_single, ← flatten_scan_overlapping]
  rfl

/-- No two fields conflict that one fragment selects, at least for the fragments that are below the
one at an address. -/
def TrustedAt (schema : Schema) (d : Document) (rank : String → ℕ) (address : Address) : Prop :=
  ∀ bound, (∀ {name f}, d.placedFragment? name = some (address, f) → bound ≤ rank name) →
    Trusted schema d rank bound

/-- A visit enters a set that selects fields that conflict, although those do not that fragments
below select. -/
def TroubleAt (schema : Schema) (d : Document) (rank : String → ℕ) (v : Visit) : Prop :=
  ∃ type? address set, v.hook = .enter (.selectionSet address set) ∧
    d.HasSet schema type? address set.items ∧ TrustedAt schema d rank address ∧
    Meet (Strongly schema d false) (Selects schema d type? address set.items)
      (Selects schema d type? address set.items)

/-- A visit that enters a set knows of the type that it selects from what is needed. -/
theorem exists_set_of_mem_visits {v : Visit} (hv : v ∈ d.visits schema) {address : Address}
    {set : SelectionSet} (hhook : v.hook = .enter (.selectionSet address set)) :
    ∃ type?, d.HasSet schema type? address set.items ∧ Agree schema type? v.scope.parent? := by
  obtain ⟨hook, s⟩ := v
  obtain rfl : hook = .enter (.selectionSet address set) := hhook
  obtain ⟨type?, hset, hinside⟩ := Document.hasSet_of_mem_visits hv
  refine ⟨type?, hset, ?_⟩
  rw [hinside.parent]
  exact ⟨hset.knows, hset.knows.filter _, by simp [Option.filter_filter]⟩

/-- The search at a visit. -/
theorem look_outcome (hrank : Ranking d rank) {v : Visit} (hv : v ∈ d.visits schema)
    (hm : Faithful schema d m) :
    Outcome (memoryRegime schema d rank (2 * (d.fragments.length + 1)))
      (Clash schema d DifferEitherWay) (TroubleAt schema d rank v) m (look schema d v m) := by
  unfold look
  split
  · rename_i address set hhook
    obtain ⟨type?, hset, hagree⟩ := exists_set_of_mem_visits hv hhook
    obtain ⟨bound, hle, hbelow, hapart, hbound⟩ := hrank.exists_bound hset
    have hwithin := withinSet_outcome hrank (decides_compareFields hrank (searchDepth d)) hset hagree
      hbelow hapart (fits_searchDepth hrank hset) hm
    refine (hwithin.mono (by omega)).imp ?_ ?_
    · intro hmeet
      exact ⟨type?, address, set.items, hset, hmeet⟩
    · rintro ⟨type'?, address', set', hhook', hset', htrusted, hmeet⟩
      obtain ⟨rfl, rfl⟩ := Node.selectionSet.inj (Hook.enter.inj (hhook.symm.trans hhook'))
      obtain ⟨rfl, -⟩ := hset.unique hset'
      exact ⟨htrusted bound hbound, hmeet⟩
  · rename_i hother
    refine .nothing hm fun _ => ?_
    rintro ⟨_, address, set, hhook, -⟩
    exact hother address set hhook

/-- No two fields of one fragment conflict if there is no trouble at any visit: fragments are taken
by their numbers, so at the set of each all those below are trusted. -/
theorem trusted_of_not_troubleAt (hnone : ∀ v ∈ d.visits schema, ¬ TroubleAt schema d rank v)
    (bound : ℕ) : Trusted schema d rank bound := by
  induction bound with
  | zero => exact fun name hname => absurd hname (Nat.not_lt_zero _)
  | succ n ih =>
    intro name hname hmeet
    by_cases hlt : rank name < n
    · exact ih name hlt hmeet
    · obtain ⟨x, y, ⟨place, f, hplaced, hx⟩, hy, hrest⟩ := hmeet
      have hset := Document.hasSet_of_placedFragment? schema hplaced
      obtain ⟨s, hs⟩ := hset.walked fun hnil => not_selects_nil (hnil ▸ hx)
      obtain ⟨span, hv⟩ := hs.entered
      refine hnone _ hv ⟨_, _, _, rfl, hset, fun less hless => ?_, x, y, hx, ?_, hrest⟩
      · have hle := hless hplaced
        exact ih.mono (by omega)
      · exact (fragmentSelects_iff_selects hplaced).mp hy

/-- Whatever the rule finds is a clash, and it finds something if arguments differ in both orders. -/
theorem search_outcome (schema : Schema) (hrank : Ranking d rank) :
    ((forEach (look schema d) (d.visits schema) .empty).1 ≠ [] → Clash schema d DifferEitherWay) ∧
      (Clash schema d DifferBothWays →
        (forEach (look schema d) (d.visits schema) .empty).1 ≠ []) := by
  have hsearch := Outcome.forEach (fun _ => Clash schema d DifferEitherWay)
    (TroubleAt schema d rank) (d.visits schema) faithful_empty
    fun v hv m hm => look_outcome hrank hv hm
  constructor
  · intro hne
    obtain ⟨v, -, hclash⟩ := hsearch.sound hne
    exact hclash
  · rintro ⟨type?, address, items, hset, x, y, hx, hy, hrest⟩ hnil
    have hinv : (memoryRegime schema d rank (2 * (d.fragments.length + 1))).inv .empty :=
      fun a b exclusive _ hcontains => absurd hcontains Bool.false_ne_true
    have hnone : ∀ v ∈ d.visits schema, ¬ TroubleAt schema d rank v :=
      fun v hv htrouble => hsearch.complete hnil hinv ⟨v, hv, htrouble⟩
    obtain ⟨s, hs⟩ := hset.walked fun hempty => not_selects_nil (hempty ▸ hx)
    obtain ⟨span, hv⟩ := hs.entered
    exact hnone _ hv ⟨type?, address, ⟨span, items⟩, rfl, hset,
      fun bound _ => trusted_of_not_troubleAt hnone bound, x, y, hx, hy, hrest⟩

/-! ### Arguments and their order -/

/-- Arguments that differ in one order differ in the given one, if the fields may be exchanged. -/
theorem Conflicts.differ_or {exclusive : Bool} {a b : Occurrence}
    (h : Conflicts schema d DifferEitherWay exclusive a b) :
    Conflicts schema d Differ exclusive a b ∨ Conflicts schema d Differ exclusive b a := by
  induction h with
  | names hexclusive hname => exact .inl (.names hexclusive hname)
  | arguments hexclusive harguments =>
    rcases harguments with harguments | harguments
    · exact .inl (.arguments hexclusive harguments)
    · exact .inr (.arguments (by rwa [fromDifferentObjects_comm]) harguments)
  | types hf hg htypes => exact .inl (.types hf hg htypes)
  | parts hx hy hne hname _ ih =>
    rcases ih with ih | ih
    · exact .inl (.parts hx hy hne hname ih)
    · rw [fromDifferentObjects_comm] at ih
      exact .inr (.parts hy hx hne.symm hname.symm ih)

/-- A clash is one between two fields in some order. -/
theorem Clash.differ (h : Clash schema d DifferEitherWay) : Clash schema d Differ := by
  obtain ⟨type?, address, items, hset, x, y, hx, hy, hne, hname, hxy⟩ := h
  rcases hxy.differ_or with hxy | hyx
  · exact ⟨type?, address, items, hset, x, y, hx, hy, hne, hname, hxy⟩
  · exact ⟨type?, address, items, hset, y, x, hy, hx, hne.symm, hname.symm, hyx⟩

/-- No argument is given twice. -/
def Unrepeated (arguments : List Argument) : Prop := (arguments.map (·.name)).Nodup

/-- The order does not matter if no argument is given twice. -/
theorem sameArguments_symm {first second : List Argument} (hfirst : Unrepeated first)
    (h : sameArguments first second = true) : sameArguments second first = true := by
  obtain ⟨hperm, hvalues⟩ := (sameArguments_iff_perm hfirst).mp h
  refine (sameArguments_iff_perm (hperm.nodup hfirst)).mpr ⟨hperm.symm, fun b hb a ha hname => ?_⟩
  exact (hvalues a ha b hb hname.symm).symm

theorem DifferBothWays.of_differ {first second : List Argument} (hsecond : Unrepeated second)
    (h : Differ first second) : DifferBothWays first second := by
  refine ⟨h, Bool.eq_false_iff.mpr fun hsame => ?_⟩
  have htrue := sameArguments_symm hsecond hsame
  rw [show sameArguments first second = false from h] at htrue
  cases htrue

/-- No field of the document gives an argument twice. -/
def UniqueArguments (schema : Schema) (d : Document) : Prop :=
  ∀ {type? address items}, d.HasSet schema type? address items →
    ∀ {node span own}, .field node span own ∈ items → Unrepeated node.arguments

theorem UniqueArguments.of_selects (h : UniqueArguments schema d) {type? : Option TypeDefinition}
    {address : Address} {items : List Selection} {o : Occurrence}
    (hset : d.HasSet schema type? address items) (ho : Selects schema d type? address items o) :
    Unrepeated o.node.arguments := by
  induction ho with
  | field ho =>
    obtain ⟨_, _, around, index, span, -, hinner, hitem, -⟩ := exists_set_of_mem_fieldsOf hset ho
    exact h hinner (List.mem_of_getElem? hitem)
  | fragment _ hplaced _ ih => exact ih (Document.hasSet_of_placedFragment? schema hplaced)

/-- If no argument is given twice, arguments that differ do so in both orders. -/
theorem Conflicts.bothWays (h : UniqueArguments schema d) {exclusive : Bool} {a b : Occurrence}
    (hab : Conflicts schema d Differ exclusive a b) (ha : Placed schema d a) (hb : Placed schema d b)
    (harguments : Unrepeated b.node.arguments) :
    Conflicts schema d DifferBothWays exclusive a b := by
  induction hab with
  | names hexclusive hname => exact .names hexclusive hname
  | arguments hexclusive hdiffer => exact .arguments hexclusive (.of_differ harguments hdiffer)
  | types hf hg htypes => exact .types hf hg htypes
  | parts hx hy hne hname _ ih =>
    refine .parts hx hy hne hname ?_
    exact ih (placed_of_selects ha.own hx) (placed_of_selects hb.own hy) (h.of_selects hb.own hy)

theorem Clash.bothWays (h : UniqueArguments schema d) (hclash : Clash schema d Differ) :
    Clash schema d DifferBothWays := by
  obtain ⟨type?, address, items, hset, x, y, hx, hy, hne, hname, hxy⟩ := hclash
  refine ⟨type?, address, items, hset, x, y, hx, hy, hne, hname, ?_⟩
  exact hxy.bothWays h (placed_of_selects hset hx) (placed_of_selects hset hy) (h.of_selects hset hy)

end GraphQLCheck.Overlap

namespace GraphQLCheck

open Overlap

/-- Without cycles of fragments, the rule reports only clashes. It reports something if there is one
over arguments that differ in both orders, hence if there is one at all and no field gives an
argument twice. -/
theorem overlappingFields_reported_iff_clash (schema : Schema) (d : Document) (h : d.Acyclic) :
    let reported := (Validation.ofRules [.overlappingFieldsCanBeMerged]).diagnostics schema d
    (reported ≠ [] → Clash schema d Differ) ∧
      (Clash schema d DifferBothWays → reported ≠ []) ∧
      (UniqueArguments schema d → (reported ≠ [] ↔ Clash schema d Differ)) := by
  obtain ⟨rank, hrank⟩ := exists_ranking h
  obtain ⟨hsound, hcomplete⟩ := search_outcome schema hrank
  intro reported
  have hreported : reported ≠ [] ↔ (forEach (look schema d) (d.visits schema) .empty).1 ≠ [] := by
    simp [reported, diagnostics_overlapping]
  rw [hreported]
  have hdiffer := fun hne => (hsound hne).differ
  refine ⟨hdiffer, hcomplete, fun hunique => ⟨hdiffer, fun hclash => ?_⟩⟩
  exact hcomplete (hclash.bothWays hunique)

/-! ### Two fields with arguments -/

/-- The definition of a query type with a field that has two parameters. -/
def pairType : List Sdl.Definition :=
  [.type ⟨⟨1, 1⟩, "Query", .object []
    [⟨⟨1, 14⟩, "f", [⟨⟨1, 16⟩, "a", .named "Int" true, none⟩,
      ⟨⟨1, 24⟩, "b", .named "Int" true, none⟩], .named "Int" true, []⟩]⟩]

/-- The schema of that definition. -/
def pairSchema : Schema := (Schema.ofDefinitions "pair" pairType).toOption.getD default

theorem built_pairSchema : pairSchema.Built := by
  have hbuild : Schema.ofDefinitions "pair" pairType = .ok pairSchema := rfl
  exact Schema.built_of_ofDefinitions hbuild

/-- The field with the given arguments. -/
def pairField (column : ℕ) (arguments : List (String × ℤ)) : Selection :=
  .field ⟨⟨1, column⟩, none, "f", arguments.map fun (name, value) => ⟨name, .atom (.int value)⟩, []⟩
    ⟨⟨1, column⟩, ⟨1, column⟩⟩ []

/-- A fragment that selects the field, and a query with the fragment and the field. -/
def pairDocument (inFragment inQuery : List (String × ℤ)) : Document :=
  ⟨[.fragment ⟨⟨1, 1⟩, "F", "Query", [], ⟨⟨⟨1, 21⟩, ⟨1, 37⟩⟩, [pairField 23 inFragment]⟩⟩,
    .bare ⟨⟨⟨1, 39⟩, ⟨1, 60⟩⟩, [.spread ⟨⟨1, 44⟩, "F", []⟩, pairField 46 inQuery]⟩], []⟩

theorem acyclic_pairDocument (inFragment inQuery : List (String × ℤ)) :
    (pairDocument inFragment inQuery).Acyclic := by
  have hnone (a b : String) : ¬ (pairDocument inFragment inQuery).Refers a b := by
    intro h
    obtain ⟨f, hf⟩ := Option.isSome_iff_exists.mp h.source_defined
    obtain ⟨⟨s, hs, -⟩, -⟩ := (Document.refers_iff hf).mp h
    obtain rfl := List.mem_singleton.mp (Document.mem_of_fragment? hf)
    cases hs
  intro a h
  obtain ⟨b, hb, -⟩ := Relation.TransGen.head'_iff.mp h
  exact hnone a b hb

/-- A clash that is reported. -/
theorem overlappingFields_reported_pair :
    (pairDocument [("a", 1)] [("a", 2)]).Acyclic ∧
      (Validation.ofRules [.overlappingFieldsCanBeMerged]).diagnostics pairSchema
        (pairDocument [("a", 1)] [("a", 2)]) ≠ [] ∧
      Clash pairSchema (pairDocument [("a", 1)] [("a", 2)]) Differ := by
  have hacyclic := acyclic_pairDocument [("a", 1)] [("a", 2)]
  have hreported : (Validation.ofRules [.overlappingFieldsCanBeMerged]).diagnostics pairSchema
      (pairDocument [("a", 1)] [("a", 2)]) ≠ [] := by decide
  exact ⟨hacyclic, hreported,
    (overlappingFields_reported_iff_clash pairSchema _ hacyclic).1 hreported⟩

/-- A clash that is not reported: the query gives one argument twice, so all its arguments are found
in the fragment, but not the other way round. -/
theorem overlappingFields_silent_on_repeated_argument :
    pairSchema.Built ∧ (pairDocument [("a", 1), ("b", 2)] [("a", 1), ("a", 1)]).Acyclic ∧
      Clash pairSchema (pairDocument [("a", 1), ("b", 2)] [("a", 1), ("a", 1)]) Differ ∧
      (Validation.ofRules [.overlappingFieldsCanBeMerged]).diagnostics pairSchema
        (pairDocument [("a", 1), ("b", 2)] [("a", 1), ("a", 1)]) = [] := by
  refine ⟨built_pairSchema, acyclic_pairDocument _ _, ?_, by decide⟩
  have hquery : (pairDocument [("a", 1), ("b", 2)] [("a", 1), ("a", 1)]).definitions[1]? =
      some (.bare ⟨⟨⟨1, 39⟩, ⟨1, 60⟩⟩,
        [.spread ⟨⟨1, 44⟩, "F", []⟩, pairField 46 [("a", 1), ("a", 1)]]⟩) := rfl
  refine ⟨_, _, _, .operation hquery rfl, _, _,
    .fragment List.mem_cons_self rfl (.field List.mem_cons_self),
    .field List.mem_cons_self, ?_, rfl, .arguments ?_ ?_⟩
  · decide
  · decide
  · show sameArguments _ _ = false
    decide

end GraphQLCheck

import GraphQLCheck.Proofs.ReportedCycles

/-!
# Runs that cannot fail

Two questions in a run have no answer for some states: where the directives at hand stand, if the
node around them can carry none, and which references were followed after a given number of them, if
there were fewer. Neither is asked in such a state (`run_never_fails`). A directive is entered right
inside a part that carries it, so the innermost node that is not a directive is that part. And the
search for cycles has a result for each definition that is entered, which it has only if all
questions that it asks on the way are answered (`CycleSearch.step_le_of_looks`).
-/

namespace GraphQLCheck

/-! ### Directives and what carries them -/

/-- Where the directives of an operation stand. -/
def OperationKind.location : OperationKind → DirectiveLocation
  | query => .query
  | mutation => .mutation
  | subscription => .subscription

/-- The directives that a part carries and where they stand, if it is one of those that can. -/
def Part.carried? : Part → Option (DirectiveLocation × List Directive)
  | operation _ _ o => some (o.kind.location, o.directives)
  | fragmentDefinition _ f => some (.fragmentDefinition, f.directives)
  | selection _ (.field node _ _) => some (.field, node.directives)
  | selection _ (.spread node) => some (.fragmentSpread, node.directives)
  | selection _ (.inline node _ _) => some (.inlineFragment, node.directives)
  | _ => none

namespace Item

variable {x : Directive} {list : List Directive}

theorem directive_mem_ofDirectives :
    part (.directive x) ∈ ofDirectives list ↔ x ∈ list := by
  simp [ofDirectives]

theorem directive_not_mem_ofArguments {position : Position} {arguments : List Argument} :
    part (.directive x) ∉ ofArguments position arguments := by
  simp [ofArguments]

/-- Only a directive is entered as one. -/
theorem eq_directive_of_hook {item : Item} {kind : CallKind}
    (h : item.hook? kind = some (.enter (.directive x))) : item = part (.directive x) := by
  cases item with
  | arguments position list | directives list => cases kind <;> cases h
  | part p =>
    cases kind with
    | leave | announce => cases h
    | enter =>
      cases p with
      | selection address item => cases item <;> cases h
      | _ => cases h <;> rfl

/-- What is found on a way inwards is where the way starts, or stands in a part found on the way. -/
theorem at?_cases {above path : List Part} {first item : Item} {place : List ℕ}
    (h : first.at? path place = some (above, item)) :
    (place = [] ∧ above = path ∧ item = first) ∨
      ∃ outer k p rest, place = outer ++ [k] ∧ above = p :: rest ∧
        first.at? path outer = some (rest, .part p) ∧ p.items[k]? = some item := by
  induction place generalizing first path with
  | nil =>
    obtain ⟨rfl, rfl⟩ := Prod.mk.inj (Option.some.inj h)
    exact .inl ⟨rfl, rfl, rfl⟩
  | cons j place ih =>
    cases first with
    | arguments position list | directives list => cases h
    | part p =>
      obtain ⟨next, hnext, hat⟩ := Option.bind_eq_some_iff.mp h
      rcases ih hat with ⟨rfl, rfl, rfl⟩ | ⟨outer, k, q, rest, rfl, rfl, houter, hk⟩
      · exact .inr ⟨[], j, p, path, rfl, rfl, rfl, hnext⟩
      · exact .inr ⟨j :: outer, k, q, rest, rfl, rfl,
          Option.bind_eq_some_iff.mpr ⟨next, hnext, houter⟩, hk⟩

end Item

/-- What is found in a document is the document or stands in a part of it. -/
theorem Document.at?_cases {d : Document} {place : List ℕ} {above : List Part} {item : Item}
    (h : d.at? place = some (above, item)) :
    item = .part (.document d) ∨
      ∃ outer k p rest, place = outer ++ [k] ∧ above = p :: rest ∧
        d.at? outer = some (rest, .part p) ∧ p.items[k]? = some item := by
  obtain ⟨place, rfl, hat⟩ : ∃ inner, place = 0 :: inner ∧
      (Item.part (.document d)).at? [] inner = some (above, item) := by
    match place with
    | [] => cases h
    | 0 :: place => exact ⟨place, rfl, h⟩
    | (j + 1) :: place => cases h
  rcases Item.at?_cases hat with ⟨-, -, heq⟩ | ⟨outer, k, p, rest, rfl, habove, houter, hk⟩
  · exact .inl heq
  · exact .inr ⟨0 :: outer, k, p, rest, rfl, habove, houter, hk⟩

namespace Part

variable {p : Part} {x : Directive} {location : DirectiveLocation} {list : List Directive}

/-- A directive that stands in a part is one of those that the part carries. -/
theorem carried_of_mem_items (h : .part (.directive x) ∈ p.items) :
    ∃ location list, p.carried? = some (location, list) ∧ x ∈ list := by
  cases p with
  | operation number index o =>
    refine ⟨_, _, rfl, ?_⟩
    simpa [items, Item.directive_mem_ofDirectives] using h
  | fragmentDefinition number f =>
    refine ⟨_, _, rfl, ?_⟩
    simpa [items, Item.directive_mem_ofDirectives] using h
  | selection address item =>
    cases item with
    | field node span inner =>
      refine ⟨_, _, rfl, ?_⟩
      cases inner with
      | nil | cons first rest =>
        simpa [items, Item.directive_mem_ofDirectives, Item.directive_not_mem_ofArguments] using h
    | spread node => exact ⟨_, _, rfl, Item.directive_mem_ofDirectives.mp h⟩
    | inline node span inner =>
      refine ⟨_, _, rfl, ?_⟩
      simpa [items, Item.directive_mem_ofDirectives] using h
  | document d =>
    obtain ⟨number, hnumber, heq⟩ := List.mem_mapIdx.mp h
    cases hdefinition : d.definitions[number] with
    | operation o | bare set | fragment f =>
      rw [hdefinition] at heq
      cases heq
  | directive node => exact absurd h Item.directive_not_mem_ofArguments
  | value position v => cases v <;> simp [items] at h
  | variableDefinition v => simp [items] at h
  | selectionSet address set => simp [items] at h
  | argument position a => simp [items] at h

/-- The location of what a part carries is the one of its kind, which is not that of a directive. -/
theorem location_of_carried (h : p.carried? = some (location, list)) :
    p.node.kind ≠ .directive ∧ p.node.kind.directiveLocation? = some location := by
  cases p with
  | operation number index o =>
    cases h
    refine ⟨NodeKind.noConfusion, ?_⟩
    change (NodeKind.operation o.kind).directiveLocation? = _
    cases o.kind <;> rfl
  | fragmentDefinition number f =>
    cases h
    exact ⟨NodeKind.noConfusion, rfl⟩
  | selection address item =>
    cases item with
    | field node span inner | spread node | inline node span inner =>
      cases h
      exact ⟨NodeKind.noConfusion, rfl⟩
  | _ => cases h

end Part

/-- Where a directive is entered, the location at hand is that of the part that carries it. -/
theorem Scope.Shows.location_of_carried {schema : Schema} {s : Scope} {x : Directive} {p : Part}
    {above : List Part} (h : s.Shows schema (.directive x :: p :: above))
    {location : DirectiveLocation} {list : List Directive}
    (hp : p.carried? = some (location, list)) : s.directiveLocation? = some location := by
  obtain ⟨hkind, hlocation⟩ := Part.location_of_carried hp
  have howner : s.owner? = some p.node.kind := by
    rw [Scope.owner?, h.ancestors, List.map_cons, List.map_cons,
      List.find?_cons_of_neg (by simp [Part.node, Node.kind]),
      List.find?_cons_of_pos (by simpa using hkind)]
  rw [Scope.directiveLocation?, howner, Option.bind_some, hlocation]

/-- A call enters a directive at a place right inside a part that carries it, and the location known
there is where the directives of that part stand. -/
def Document.Locates (d : Document) (call : Call) (x : Directive) (s : Scope) : Prop :=
  ∃ outer k above owner location list, call.place = outer ++ [k] ∧
    d.at? outer = some (above, .part owner) ∧ owner.items[k]? = some (.part (.directive x)) ∧
    owner.carried? = some (location, list) ∧ x ∈ list ∧ s.directiveLocation? = some location

theorem Document.Sees.locates {schema : Schema} {d : Document} {call : Call} {visit : Visit}
    (h : d.Sees schema call visit) {x : Directive} (hx : visit.hook = .enter (.directive x)) :
    d.Locates call x visit.scope := by
  obtain ⟨above, item, hat, hhook, hshows⟩ := h
  obtain rfl : item = .part (.directive x) := Item.eq_directive_of_hook (hx ▸ hhook)
  rcases Document.at?_cases hat with heq | ⟨outer, k, owner, above, hplace, rfl, houter, hk⟩
  · cases heq
  · obtain ⟨location, list, hcarried, hmem⟩ := Part.carried_of_mem_items (List.mem_of_getElem? hk)
    exact ⟨outer, k, above, owner, location, list, hplace, houter, hk, hcarried, hmem,
      hshows.location_of_carried hcarried⟩

/-- The walk is a tour of the document that locates each directive. -/
theorem Document.exists_located_tour (schema : Schema) (d : Document) :
    ∃ calls, d.Tours calls ∧
      List.Forall₂ (fun call visit => d.Sees schema call visit ∧
        ∀ x, visit.hook = .enter (.directive x) → d.Locates call x visit.scope)
        calls (d.visits schema) := by
  obtain ⟨stops, htour, hhooks⟩ := d.exists_tour schema
  have hvisits : d.visits schema = stops.map (·.2) := by
    rw [visits, ← hhooks]
    exact (htour.along_and_after fun p _ => Part.fits_of_idle ⟨rfl, rfl⟩ p).1
  refine ⟨stops.map Prod.fst, Document.tours_of_tour htour, ?_⟩
  rw [hvisits, List.forall₂_map_left_iff, List.forall₂_map_right_iff, List.forall₂_same]
  intro stop hstop
  obtain ⟨above, item, hfound, hhook, hscope⟩ := htour.found_of_mem hstop
  have hsees : d.Sees schema stop.1 stop.2 :=
    ⟨above, item, Document.found_iff.mp hfound, hhook, hscope ▸ Scope.shows_inside schema _⟩
  exact ⟨hsees, fun x hx => hsees.locates hx⟩

/-! ### Steps of the search for cycles -/

namespace CycleSearch

/-- The state in which the references of a fragment are followed. -/
def opened (s : CycleSearch) (f : FragmentDefinition) : CycleSearch :=
  ⟨s.path, (f.name, s.path.length) :: s.steps, f.name :: s.explored⟩

/-- Exploring a fragment from a state comes to look at a reference in another state: at one of its
own references, those before it having been followed, or at one in a fragment that is explored for
one of these. -/
inductive Looks (d : Document) :
    ℕ → FragmentDefinition → CycleSearch → FragmentSpread → CycleSearch → Prop where
  /-- At a reference of the fragment. -/
  | own {depth : ℕ} {f : FragmentDefinition} {s t : CycleSearch} {spread : FragmentSpread}
      {before after : List FragmentSpread} {found : List Finding}
      (hsplit : f.selectionSet.spreads = before ++ spread :: after)
      (hbefore : followAll d (explore d depth) before (s.opened f) = some (t, found)) :
      Looks d (depth + 1) f s spread t
  /-- At a reference in a fragment that a reference leads to. -/
  | inner {depth : ℕ} {f g : FragmentDefinition} {s t u : CycleSearch}
      {spread other : FragmentSpread} {before after : List FragmentSpread} {found : List Finding}
      (hsplit : f.selectionSet.spreads = before ++ spread :: after)
      (hbefore : followAll d (explore d depth) before (s.opened f) = some (t, found))
      (hstep : t.steps.lookup spread.name = none) (hnew : spread.name ∉ t.explored)
      (hfragment : d.fragment? spread.name = some g)
      (hinner : Looks d depth g { t with path := t.path ++ [spread] } other u) :
      Looks d (depth + 1) f s other u

section Results

variable {d : Document} {depth : ℕ} {f g : FragmentDefinition} {s t : CycleSearch}
  {spread : FragmentSpread} {before after : List FragmentSpread} {found : List Finding}
  {result : CycleSearch × List Finding}
  {inner : FragmentDefinition → CycleSearch → Option (CycleSearch × List Finding)}

/-- References that are followed one after another are followed each. -/
theorem follow_of_followAll
    (h : followAll d inner (before ++ spread :: after) s = some result)
    (hbefore : followAll d inner before s = some (t, found)) :
    ∃ result', follow d inner spread t = some result' := by
  induction before generalizing s result found with
  | nil =>
    cases hbefore
    obtain ⟨result', hresult, -⟩ := Option.bind_eq_some_iff.mp h
    exact ⟨result', hresult⟩
  | cons first before ih =>
    obtain ⟨⟨u, here⟩, hfirst, hrest⟩ := Option.bind_eq_some_iff.mp h
    obtain ⟨⟨u', here'⟩, hfirst', hrest'⟩ := Option.bind_eq_some_iff.mp hbefore
    cases hfirst.symm.trans hfirst'
    obtain ⟨⟨v, more⟩, hall, -⟩ := Option.bind_eq_some_iff.mp hrest
    obtain ⟨⟨v', more'⟩, hall', heq⟩ := Option.bind_eq_some_iff.mp hrest'
    cases heq
    exact ih hall hall'

theorem follow_of_explore (h : explore d (depth + 1) f s = some result)
    (hsplit : f.selectionSet.spreads = before ++ spread :: after)
    (hbefore : followAll d (explore d depth) before (s.opened f) = some (t, found)) :
    ∃ result', follow d (explore d depth) spread t = some result' := by
  have hall : ∃ result',
      followAll d (explore d depth) f.selectionSet.spreads (s.opened f) = some result' := by
    rw [explore] at h
    split at h
    · next hnil =>
      rw [hnil] at hsplit
      exact absurd hsplit.symm (List.append_ne_nil_of_right_ne_nil _ (List.cons_ne_nil _ _))
    · obtain ⟨result', hresult, -⟩ := Option.bind_eq_some_iff.mp h
      exact ⟨result', hresult⟩
  obtain ⟨result', hresult⟩ := hall
  exact follow_of_followAll (hsplit ▸ hresult) hbefore

/-- If exploring a fragment has a result, then no number that it asks for on the way is greater than
that of the references followed. -/
theorem step_le_of_looks (hlooks : Looks d depth f s spread t)
    (h : explore d depth f s = some result) {step : ℕ}
    (hstep : t.steps.lookup spread.name = some step) : step ≤ t.path.length := by
  induction hlooks generalizing result with
  | own hsplit hbefore =>
    obtain ⟨result', hfollow⟩ := follow_of_explore h hsplit hbefore
    by_contra hle
    simp [follow, hstep, pathFrom?, hle] at hfollow
  | inner hsplit hbefore hnone hnew hfragment hinner ih =>
    obtain ⟨result', hfollow⟩ := follow_of_explore h hsplit hbefore
    simp only [follow, hnone, hnew, hfragment, List.contains_eq_mem, decide_false] at hfollow
    obtain ⟨result', hexplore, -⟩ := Option.bind_eq_some_iff.mp hfollow
    exact ih hexplore hstep

end Results

/-- In a run the search has a result for each definition that is entered. -/
theorem exists_enter {schema : Schema} {d : Document} {v : Validation} {before after : List Visit}
    {visit : Visit} {s : CycleSearch} {f : FragmentDefinition}
    (hsplit : d.visits schema = before ++ visit :: after)
    (hs : (⟨.noFragmentCycles, s⟩ : ActiveRule) ∈ v.rulesAfter schema d before)
    (hf : visit.hook = .enter (.fragmentDefinition f)) : ∃ result, s.enter d f = some result := by
  obtain ⟨found, new, done, -, hadvance, hdone⟩ := searched_of_mem hsplit hs
  have hentered : visit.hook.enteredFragment? = some f := by rw [hf]; rfl
  have hfragments : d.fragments = before.filterMap (·.hook.enteredFragment?) ++ [f] ++
      after.filterMap (·.hook.enteredFragment?) := by
    rw [← entered_visits schema d, hsplit, List.filterMap_append, List.filterMap_cons, hentered,
      List.append_assoc, List.singleton_append]
  have hexplored : ∀ g ∈ before.filterMap (·.hook.enteredFragment?), g.name ∈ s.explored :=
    fun g hg => (hadvance.progress.explored _).mpr (.inl (hdone g hg))
  obtain ⟨s', found', new', done', hsearch, -⟩ :=
    searchAll_segment hfragments hexplored hadvance.path hadvance.steps hadvance.progress
  obtain ⟨result, hresult, -⟩ := Option.bind_eq_some_iff.mp hsearch
  exact ⟨result, hresult⟩

end CycleSearch

/-! ### Runs -/

/-- A run never fails. Wherever the walk enters a directive, the location of the directives at hand
is known and is where those of the part that carries it stand. And wherever it enters the definition
of a fragment, the search for cycles has a result, and no number of references that it keeps for a
fragment and looks up on the way is greater than that of the references on the path. -/
theorem run_never_fails (schema : Schema) (d : Document) :
    (∃ calls, d.Tours calls ∧
      List.Forall₂ (fun call visit => d.Sees schema call visit ∧
        ∀ x, visit.hook = .enter (.directive x) → d.Locates call x visit.scope)
        calls (d.visits schema)) ∧
    ∀ rules before visit after, d.visits schema = before ++ visit :: after →
      ∀ f, visit.hook = .enter (.fragmentDefinition f) → ∀ s : CycleSearch,
        (⟨.noFragmentCycles, s⟩ : ActiveRule) ∈
            (Validation.ofRules rules).rulesAfter schema d before →
          (∃ result, s.enter d f = some result) ∧
          (f.name ∉ s.explored → ∀ spread t step,
            CycleSearch.Looks d d.fragments.length f s spread t →
              t.steps.lookup spread.name = some step → step ≤ t.path.length) := by
  constructor
  · exact d.exists_located_tour schema
  · intro rules before visit after hsplit f hf s hs
    obtain ⟨result, hresult⟩ := CycleSearch.exists_enter hsplit hs hf
    refine ⟨⟨result, hresult⟩, fun hnew spread t step hlooks hstep => ?_⟩
    rw [CycleSearch.enter, if_neg hnew] at hresult
    exact CycleSearch.step_le_of_looks hlooks hresult hstep

section Mutual

/-- A reference with a directive. -/
def mutualFirst : FragmentSpread := ⟨⟨1, 23⟩, "B", [⟨⟨1, 28⟩, "skip", []⟩]⟩

/-- The reference back. -/
def mutualSecond : FragmentSpread := ⟨⟨2, 23⟩, "A", []⟩

/-- A fragment with the first reference. -/
def mutualFragment : FragmentDefinition :=
  ⟨⟨1, 1⟩, "A", "Query", [], ⟨⟨⟨1, 21⟩, ⟨1, 34⟩⟩, [.spread mutualFirst]⟩⟩

/-- The fragment that it leads to, with the reference back. -/
def mutualOther : FragmentDefinition :=
  ⟨⟨2, 1⟩, "B", "Query", [], ⟨⟨⟨2, 21⟩, ⟨2, 28⟩⟩, [.spread mutualSecond]⟩⟩

/-- Two fragments that refer to each other. -/
def mutualDocument : Document := ⟨[.fragment mutualFragment, .fragment mutualOther], []⟩

/-- The state in which the reference back is looked at. -/
def mutualState : CycleSearch := ⟨[mutualFirst], [("B", 1), ("A", 0)], ["B", "A"]⟩

theorem looks_mutualSecond :
    CycleSearch.Looks mutualDocument 2 mutualFragment .start mutualSecond mutualState :=
  have hsingle (span : Span) (node : FragmentSpread) :
      SelectionSet.spreads ⟨span, [.spread node]⟩ = [] ++ node :: [] := by
    simp [SelectionSet.spreads, SelectionSet.spreadsOf, SelectionSet.directSpreads,
      SelectionSet.directSets, Selection.spread?, Selection.nested?, List.filterMap_cons]
  have hfirst : mutualFragment.selectionSet.spreads = [] ++ mutualFirst :: [] := hsingle _ _
  have hsecond : mutualOther.selectionSet.spreads = [] ++ mutualSecond :: [] := hsingle _ _
  .inner hfirst rfl rfl (by decide) rfl (.own hsecond rfl)

/-- The directive of the first reference is located, and the reference back finds the number of
references kept for the first fragment on the path. -/
theorem mutual_run_never_fails :
    (∃ call, mutualDocument.Locates call ⟨⟨1, 28⟩, "skip", []⟩
      (mutualDocument.visits default)[6].scope) ∧
    (∃ result, CycleSearch.start.enter mutualDocument mutualFragment = some result) ∧
    mutualState.steps.lookup mutualSecond.name = some 0 ∧ 0 ≤ mutualState.path.length := by
  obtain ⟨⟨calls, -, hsees⟩, hsearch⟩ := run_never_fails default mutualDocument
  constructor
  · have hcalls : 6 < calls.length := by
      rw [hsees.length_eq]
      decide
    exact ⟨_, (hsees.get hcalls (by decide)).2 _ rfl⟩
  · have hsplit : mutualDocument.visits default = (mutualDocument.visits default).take 1 ++
        (mutualDocument.visits default)[1] :: (mutualDocument.visits default).drop 2 := rfl
    obtain ⟨hresult, hbound⟩ := hsearch [.noFragmentCycles] _ _ _ hsplit mutualFragment rfl .start
      (List.mem_singleton.mpr rfl)
    exact ⟨hresult, rfl, hbound (by decide) _ _ 0 looks_mutualSecond rfl⟩

end Mutual

end GraphQLCheck

import GraphQLCheck.Proofs.Occurrences
import GraphQLCheck.Proofs.SpreadGraph

/-!
# The variables that an operation reaches

An operation reaches the sets nested in its own and those of the fragments that they refer to, again
and again (`Operation.HasSet`). The search for uses of variables follows each fragment once: it
marks a fragment when it first meets a reference to it, in the middle of another fragment. Nothing
is missed by that, also if fragments refer to one another in cycles.

## What is proved

* `Runs` — the search as its calls, without a depth. There is one result, and it is the one that
  the search comes to with the depth that is given (`Operation.runs_iff`), because the fragments not
  yet followed (`Document.unvisited`) become fewer with every fragment that is entered.
* `Runs.collects` — what a call adds: the uses of what it was to search and those of the fragments
  that it was the first to follow. These can all be reached, and what they refer to has been
  followed when the call ends.
* `Operation.Gives.uses_subset` — for every argument that the operation reaches, all variables in it
  have been found.
-/

namespace GraphQLCheck

open Relation

open scoped List

namespace Operation

/-! ### What an operation reaches -/

/-- The selections that an operation reaches and the type that they select from. -/
inductive HasSet (schema : Schema) (d : Document) (o : Operation) :
    Option TypeDefinition → List Selection → Prop where
  /-- The set of the operation. -/
  | own : HasSet schema d o (schema.root? o.kind) o.selectionSet.items
  /-- The own set of a field. -/
  | field {parent? : Option TypeDefinition} {items : List Selection} {node : Field} {span : Span}
      {own : List Selection} :
      HasSet schema d o parent? items → .field node span own ∈ items →
      HasSet schema d o (node.type? schema parent?) own
  /-- The set of an inline fragment. -/
  | inline {parent? : Option TypeDefinition} {items : List Selection} {node : InlineFragment}
      {span : Span} {own : List Selection} :
      HasSet schema d o parent? items → .inline node span own ∈ items →
      HasSet schema d o (node.type? schema parent?) own
  /-- The set of a fragment that is referred to. -/
  | fragment {parent? : Option TypeDefinition} {items : List Selection} {node : FragmentSpread}
      {f : FragmentDefinition} :
      HasSet schema d o parent? items → .spread node ∈ items → d.fragment? node.name = some f →
      HasSet schema d o (schema.type? f.condition) f.selectionSet.items

/-- The directives that an operation reaches. -/
inductive HasDirective (schema : Schema) (d : Document) (o : Operation) : Directive → Prop where
  /-- A directive of the operation. -/
  | own {directive : Directive} : directive ∈ o.directives → HasDirective schema d o directive
  /-- A directive of a selection. -/
  | selection {parent? : Option TypeDefinition} {items : List Selection} {item : Selection}
      {directive : Directive} :
      o.HasSet schema d parent? items → item ∈ items → directive ∈ item.directives →
      HasDirective schema d o directive
  /-- A directive of the definition of a fragment. -/
  | fragment {parent? : Option TypeDefinition} {items : List Selection} {node : FragmentSpread}
      {f : FragmentDefinition} {directive : Directive} :
      o.HasSet schema d parent? items → .spread node ∈ items → d.fragment? node.name = some f →
      directive ∈ f.directives → HasDirective schema d o directive

/-- The arguments for known parameters that an operation reaches. -/
inductive Gives (schema : Schema) (d : Document) (o : Operation) :
    Argument → InputValue → Prop where
  /-- An argument of a field. -/
  | field {parent? : Option TypeDefinition} {items : List Selection} {node : Field} {span : Span}
      {own : List Selection} {a : Argument} {p : InputValue} :
      o.HasSet schema d parent? items → .field node span own ∈ items → a ∈ node.arguments →
      (parent?.bind (schema.selectedField? · node.name)).bind (·.parameter? a.name) = some p →
      Gives schema d o a p
  /-- An argument of a directive. -/
  | directive {directive : Directive} {a : Argument} {p : InputValue} :
      o.HasDirective schema d directive → a ∈ directive.arguments →
      (schema.directive? directive.name).bind (·.parameter? a.name) = some p →
      Gives schema d o a p

end Operation

namespace VariableUse

variable {schema : Schema} {d : Document}

/-- The uses in the first definition of a fragment, if there is one. -/
def usesInFragment (schema : Schema) (d : Document) (name : String) : List VariableUse :=
  match d.fragment? name with
  | some f =>
    inDirectives schema f.directives ++
      usesInSet schema (schema.type? f.condition) f.selectionSet.items
  | none => []

/-- The names of the fragments that selections refer to. -/
def spreadNames (items : List Selection) : List String :=
  (Selection.spreadsWithin items).map (·.name)

theorem spreadNames_field (node : Field) (span : Span) (own rest : List Selection) :
    spreadNames (.field node span own :: rest) = spreadNames own ++ spreadNames rest := by
  simp [spreadNames]

theorem spreadNames_spread (node : FragmentSpread) (rest : List Selection) :
    spreadNames (.spread node :: rest) = [node.name] ++ spreadNames rest := by
  simp [spreadNames]

theorem spreadNames_inline (node : InlineFragment) (span : Span) (own rest : List Selection) :
    spreadNames (.inline node span own :: rest) = spreadNames own ++ spreadNames rest := by
  simp [spreadNames]

namespace Found

variable {parent? : Option TypeDefinition} {items : List Selection}
  {found found' result : Found}

/-! ### The calls of the search -/

/-- A fragment is marked as followed. -/
def mark (found : Found) (name : String) : Found :=
  { found with followed := name :: found.followed }

/-- The search through selections from a type as the calls that it makes. -/
inductive Runs (schema : Schema) (d : Document) :
    Option TypeDefinition → List Selection → Found → Found → Prop where
  /-- There is nothing left. -/
  | nil {parent? : Option TypeDefinition} {found : Found} : Runs schema d parent? [] found found
  /-- A field is searched, and then its own set. -/
  | field {parent? : Option TypeDefinition} {node : Field} {span : Span}
      {own rest : List Selection} {found mid result : Found} :
      Runs schema d (node.type? schema parent?) own
        ((found.add (inField schema (parent?.bind (schema.selectedField? · node.name)) node)).add
          (inDirectives schema node.directives)) mid →
      Runs schema d parent? rest mid result →
      Runs schema d parent? (.field node span own :: rest) found result
  /-- An inline fragment is searched. -/
  | inline {parent? : Option TypeDefinition} {node : InlineFragment} {span : Span}
      {own rest : List Selection} {found mid result : Found} :
      Runs schema d (node.type? schema parent?) own
        (found.add (inDirectives schema node.directives)) mid →
      Runs schema d parent? rest mid result →
      Runs schema d parent? (.inline node span own :: rest) found result
  /-- The fragment was followed before. -/
  | again {parent? : Option TypeDefinition} {node : FragmentSpread} {rest : List Selection}
      {found result : Found} :
      node.name ∈ found.followed →
      Runs schema d parent? rest (found.add (inDirectives schema node.directives)) result →
      Runs schema d parent? (.spread node :: rest) found result
  /-- There is no such fragment. -/
  | missing {parent? : Option TypeDefinition} {node : FragmentSpread} {rest : List Selection}
      {found result : Found} :
      node.name ∉ found.followed → d.fragment? node.name = none →
      Runs schema d parent? rest
        ((found.add (inDirectives schema node.directives)).mark node.name) result →
      Runs schema d parent? (.spread node :: rest) found result
  /-- The fragment is searched. -/
  | fragment {parent? : Option TypeDefinition} {node : FragmentSpread} {f : FragmentDefinition}
      {rest : List Selection} {found mid result : Found} :
      node.name ∉ found.followed → d.fragment? node.name = some f →
      Runs schema d (schema.type? f.condition) f.selectionSet.items
        (((found.add (inDirectives schema node.directives)).mark node.name).add
          (inDirectives schema f.directives)) mid →
      Runs schema d parent? rest mid result →
      Runs schema d parent? (.spread node :: rest) found result

theorem Runs.unique {other : Found} (h : Runs schema d parent? items found result)
    (h' : Runs schema d parent? items found other) : result = other := by
  induction h generalizing other with
  | nil =>
    cases h'
    rfl
  | field _ _ ihOwn ihRest =>
    cases h' with
    | field hown hrest =>
      obtain rfl := ihOwn hown
      exact ihRest hrest
  | inline _ _ ihOwn ihRest =>
    cases h' with
    | inline hown hrest =>
      obtain rfl := ihOwn hown
      exact ihRest hrest
  | again hmem _ ih =>
    cases h' with
    | again _ h' => exact ih h'
    | missing hnot | fragment hnot => exact absurd hmem hnot
  | missing hnot hnone _ ih =>
    cases h' with
    | again hmem => exact absurd hmem hnot
    | missing _ _ h' => exact ih h'
    | fragment _ hsome =>
      rw [hnone] at hsome
      cases hsome
  | fragment hnot hsome _ _ ihOwn ihRest =>
    cases h' with
    | again hmem => exact absurd hmem hnot
    | missing _ hnone =>
      rw [hnone] at hsome
      cases hsome
    | fragment _ hsome' hown hrest =>
      obtain rfl := Option.some.inj (hsome.symm.trans hsome')
      obtain rfl := ihOwn hown
      exact ihRest hrest

theorem Runs.followed_subset (h : Runs schema d parent? items found result) :
    found.followed ⊆ result.followed := by
  induction h with
  | nil => exact List.Subset.refl _
  | field _ _ ihOwn ihRest | inline _ _ ihOwn ihRest => exact List.Subset.trans ihOwn ihRest
  | again _ _ ih => exact ih
  | missing _ _ _ ih => exact List.Subset.trans (List.subset_cons_self _ _) ih
  | fragment _ _ _ _ ihOwn ihRest =>
    exact List.Subset.trans (List.subset_cons_self _ _) (List.Subset.trans ihOwn ihRest)

/-- Entering a fragment searches it, as long as fewer than `depth` fragments are not followed
yet. -/
def Enters (schema : Schema) (d : Document) (depth : ℕ)
    (enter : FragmentDefinition → Found → Found) : Prop :=
  ∀ f found, d.unvisited found.followed < depth →
    Runs schema d (schema.type? f.condition) f.selectionSet.items
      (found.add (inDirectives schema f.directives)) (enter f found)

theorem runs_of_enters {depth : ℕ} {enter : FragmentDefinition → Found → Found}
    (henter : Enters schema d depth enter) (parent? : Option TypeDefinition)
    (items : List Selection) (found : Found) (hdepth : d.unvisited found.followed ≤ depth) :
    Runs schema d parent? items found (selections schema d enter parent? items found) := by
  have hafter {parent? : Option TypeDefinition} {items : List Selection} {found result : Found}
      (h : Runs schema d parent? items found result)
      (hdepth : d.unvisited found.followed ≤ depth) : d.unvisited result.followed ≤ depth :=
    (Document.unvisited_le h.followed_subset).trans hdepth
  induction items using Selection.items_induction generalizing parent? found with
  | nil => exact .nil
  | field node span own rest ihOwn ihRest =>
    set definition? := parent?.bind (schema.selectedField? · node.name)
    have hown := ihOwn (node.type? schema parent?)
      ((found.add (inField schema definition? node)).add (inDirectives schema node.directives))
      hdepth
    exact .field hown (ihRest parent? _ (hafter hown hdepth))
  | inline node span own rest ihOwn ihRest =>
    have hown := ihOwn (node.type? schema parent?)
      (found.add (inDirectives schema node.directives)) hdepth
    exact .inline hown (ihRest parent? _ (hafter hown hdepth))
  | spread node rest ihRest =>
    rw [selections, selection, follow]
    split_ifs with hmem
    · exact .again hmem (ihRest parent? _ hdepth)
    · set marked := (found.add (inDirectives schema node.directives)).mark node.name
      have hmark : d.unvisited marked.followed ≤ depth :=
        (Document.unvisited_le (List.subset_cons_self _ _)).trans hdepth
      cases hf : d.fragment? node.name with
      | none => exact .missing hmem hf (ihRest parent? marked hmark)
      | some f =>
        have hname := Document.name_of_fragment? hf
        have hfewer : d.unvisited marked.followed < depth := by
          rw [← hname] at hmem
          have hlt := Document.unvisited_lt (Document.mem_of_fragment? hf) hmem
          rw [hname] at hlt
          exact hlt.trans_le hdepth
        have hown := henter f marked hfewer
        exact .fragment hmem hf hown (ihRest parent? _ (hafter hown hmark))

theorem enters_fragment (schema : Schema) (d : Document) (depth : ℕ) :
    Enters schema d depth (fragment schema d depth) := by
  induction depth with
  | zero => exact fun f found hdepth => absurd hdepth (Nat.not_lt_zero _)
  | succ depth ih =>
    exact fun f found hdepth => runs_of_enters ih (schema.type? f.condition) f.selectionSet.items
      (found.add (inDirectives schema f.directives)) (Nat.le_of_lt_succ hdepth)

/-- The depth that is given suffices, so that the search comes to an end. -/
theorem runs_selections (schema : Schema) (d : Document) (parent? : Option TypeDefinition)
    (items : List Selection) (found : Found) :
    Runs schema d parent? items found
      (selections schema d (fragment schema d d.fragments.length) parent? items found) :=
  runs_of_enters (enters_fragment schema d _) parent? items found List.countP_le_length

/-! ### What a call adds -/

/-- What a call adds that has to search `own` and to follow the references `starts`, and follows the
fragments `new` that were not followed before. -/
structure Collects (schema : Schema) (d : Document) (starts : List String) (own : List VariableUse)
    (new : List String) (found result : Found) : Prop where
  /-- The new fragments are marked. -/
  followed : result.followed = new ++ found.followed
  /-- No fragment is marked twice. -/
  nodup : found.followed.Nodup → result.followed.Nodup
  /-- The uses of what was to be searched and of the new fragments are added. -/
  uses : result.uses ~ found.uses ++ (own ++ new.flatMap (usesInFragment schema d))
  /-- The new fragments can be reached. -/
  reached : ∀ name ∈ new, (d.fragment? name).isSome →
    ∃ start ∈ starts, ReflTransGen d.Refers start name
  /-- The references that were to be followed have been followed. -/
  starts : starts ⊆ result.followed
  /-- The references in the new fragments have been followed. -/
  closed : ∀ name ∈ new, ∀ f, d.fragment? name = some f →
    spreadNames f.selectionSet.items ⊆ result.followed

variable {starts starts' new new' : List String} {own own' : List VariableUse} {name : String}

theorem Collects.subset (h : Collects schema d starts own new found result) :
    found.followed ⊆ result.followed := by
  rw [h.followed]
  exact List.subset_append_right _ _

theorem Collects.refl (schema : Schema) (d : Document) (found : Found)
    (hstarts : starts ⊆ found.followed) : Collects schema d starts [] [] found found where
  followed := rfl
  nodup h := h
  uses := by simp
  reached := by simp
  starts := hstarts
  closed := by simp

theorem collects_add (schema : Schema) (d : Document) (found : Found) (own : List VariableUse) :
    Collects schema d [] own [] found (found.add own) where
  followed := rfl
  nodup h := h
  uses := by simp [add]
  reached := by simp
  starts := List.nil_subset _
  closed := by simp

theorem Collects.trans (h : Collects schema d starts own new found found')
    (h' : Collects schema d starts' own' new' found' result) :
    Collects schema d (starts ++ starts') (own ++ own') (new' ++ new) found result where
  followed := by rw [h'.followed, h.followed, List.append_assoc]
  nodup hnodup := h'.nodup (h.nodup hnodup)
  uses := by
    rw [List.perm_iff_count]
    intro u
    have hfirst := h.uses.count_eq u
    have hsecond := h'.uses.count_eq u
    simp only [List.count_append, List.flatMap_append] at hfirst hsecond ⊢
    omega
  reached name hname hdefined := by
    rcases List.mem_append.mp hname with hname | hname
    · obtain ⟨start, hstart, hpath⟩ := h'.reached name hname hdefined
      exact ⟨start, List.mem_append_right _ hstart, hpath⟩
    · obtain ⟨start, hstart, hpath⟩ := h.reached name hname hdefined
      exact ⟨start, List.mem_append_left _ hstart, hpath⟩
  starts := List.append_subset.mpr ⟨List.Subset.trans h.starts h'.subset, h'.starts⟩
  closed name hname f hf := by
    rcases List.mem_append.mp hname with hname | hname
    · exact h'.closed name hname f hf
    · exact List.Subset.trans (h.closed name hname f hf) h'.subset

/-- A reference to a fragment that is not defined is marked and nothing else. -/
theorem collects_missing (hnot : name ∉ found.followed) (hnone : d.fragment? name = none) :
    Collects schema d [name] [] [name] found (found.mark name) where
  followed := rfl
  nodup h := List.nodup_cons.mpr ⟨hnot, h⟩
  uses := by simp [usesInFragment, hnone, mark]
  reached := by simp [hnone]
  starts := by simp [mark]
  closed := by simp [hnone]

/-- Following a reference adds the uses of the fragment. -/
theorem Collects.follow {f : FragmentDefinition} (hnot : name ∉ found.followed)
    (hsome : d.fragment? name = some f)
    (h : Collects schema d (spreadNames f.selectionSet.items)
      (inDirectives schema f.directives ++
        usesInSet schema (schema.type? f.condition) f.selectionSet.items)
      new (found.mark name) result) :
    Collects schema d [name] [] (new ++ [name]) found result where
  followed := by simpa [mark] using h.followed
  nodup hnodup := h.nodup (List.nodup_cons.mpr ⟨hnot, hnodup⟩)
  uses := by
    rw [List.perm_iff_count]
    intro u
    have hcount := h.uses.count_eq u
    simp only [List.count_append, List.flatMap_append, List.flatMap_cons, List.flatMap_nil,
      usesInFragment, hsome, List.count_nil, mark] at hcount ⊢
    omega
  reached other hother hdefined := by
    refine ⟨name, List.mem_singleton_self _, ?_⟩
    rcases List.mem_append.mp hother with hother | hother
    · obtain ⟨start, hstart, hpath⟩ := h.reached other hother hdefined
      obtain ⟨s, hs, rfl⟩ := List.mem_map.mp hstart
      -- Where a path to a defined fragment starts, a fragment is defined.
      have hstartDefined : (d.fragment? s.name).isSome := by
        rcases hpath.cases_head with rfl | ⟨next, hnext, -⟩
        · exact hdefined
        · exact hnext.source_defined
      exact .head ((Document.refers_iff hsome).mpr ⟨⟨s, hs, rfl⟩, hstartDefined⟩) hpath
    · rw [List.mem_singleton.mp hother]
  starts := List.cons_subset.mpr ⟨h.subset List.mem_cons_self, List.nil_subset _⟩
  closed other hother g hg := by
    rcases List.mem_append.mp hother with hother | hother
    · exact h.closed other hother g hg
    · rw [List.mem_singleton.mp hother, hsome] at hg
      obtain rfl := Option.some.inj hg
      exact h.starts

/-- A call adds the uses of its set and follows the references in it. -/
theorem Runs.collects (h : Runs schema d parent? items found result) :
    ∃ new, Collects schema d (spreadNames items) (usesInSet schema parent? items) new found
      result := by
  induction h with
  | nil => exact ⟨[], .refl schema d _ (List.nil_subset _)⟩
  | @field parent? node _ _ _ found _ _ _ _ ihOwn ihRest =>
    rw [spreadNames_field, usesInSet, usesInSelection]
    set definition? := parent?.bind (schema.selectedField? · node.name)
    obtain ⟨new, hown⟩ := ihOwn
    obtain ⟨new', hrest⟩ := ihRest
    have hadd := (collects_add schema d found (inField schema definition? node)).trans
      (collects_add schema d _ (inDirectives schema node.directives))
    exact ⟨_, (hadd.trans hown).trans hrest⟩
  | @inline _ node _ _ _ found _ _ _ _ ihOwn ihRest =>
    rw [spreadNames_inline, usesInSet, usesInSelection]
    obtain ⟨new, hown⟩ := ihOwn
    obtain ⟨new', hrest⟩ := ihRest
    have hadd := collects_add schema d found (inDirectives schema node.directives)
    exact ⟨_, (hadd.trans hown).trans hrest⟩
  | @again _ node _ found _ hmem _ ihRest =>
    rw [spreadNames_spread, usesInSet, usesInSelection]
    obtain ⟨new, hrest⟩ := ihRest
    have hadd := collects_add schema d found (inDirectives schema node.directives)
    have hfollowed : [node.name] ⊆ found.followed :=
      List.cons_subset.mpr ⟨hmem, List.nil_subset _⟩
    have hagain := hadd.trans (.refl schema d _ hfollowed)
    rw [List.append_nil] at hagain
    exact ⟨_, hagain.trans hrest⟩
  | @missing _ node _ found _ hnot hnone _ ihRest =>
    rw [spreadNames_spread, usesInSet, usesInSelection]
    obtain ⟨new, hrest⟩ := ihRest
    have hadd := collects_add schema d found (inDirectives schema node.directives)
    have hmissing := hadd.trans (collects_missing hnot hnone)
    rw [List.append_nil] at hmissing
    exact ⟨_, hmissing.trans hrest⟩
  | @fragment _ node f _ found _ _ hnot hsome _ _ ihOwn ihRest =>
    rw [spreadNames_spread, usesInSet, usesInSelection]
    obtain ⟨new, hown⟩ := ihOwn
    obtain ⟨new', hrest⟩ := ihRest
    have hadd := collects_add schema d found (inDirectives schema node.directives)
    have hbody := (collects_add schema d _ (inDirectives schema f.directives)).trans hown
    have hfollow := hadd.trans (hbody.follow hnot hsome)
    rw [List.append_nil] at hfollow
    exact ⟨_, hfollow.trans hrest⟩

end Found

/-! ### Parts of what has been searched -/

theorem spreadNames_eq_flatMap (items : List Selection) :
    spreadNames items = items.flatMap fun item => spreadNames [item] := by
  have hcons (item : Selection) (rest : List Selection) :
      spreadNames (item :: rest) = spreadNames [item] ++ spreadNames rest := by
    cases item <;> simp [spreadNames]
  induction items with
  | nil => rfl
  | cons item rest ih => rw [hcons, List.flatMap_cons, ← ih]

theorem inDirectives_subset_usesInSelection (schema : Schema) (parent? : Option TypeDefinition)
    (item : Selection) :
    inDirectives schema item.directives ⊆ usesInSelection schema parent? item := by
  intro u hu
  cases item with
  | field node span own => exact List.mem_append_left _ (List.mem_append_right _ hu)
  | spread node => exact hu
  | inline node span own => exact List.mem_append_left _ hu

theorem inDirective_subset_inDirectives {directive : Directive} {list : List Directive}
    (h : directive ∈ list) : inDirective schema directive ⊆ inDirectives schema list :=
  fun _ hu => List.mem_flatMap.mpr ⟨directive, h, hu⟩

theorem inLiteral_subset_inArguments {position : Position} {parameter? : String → Option InputValue}
    {list : List Argument} {a : Argument} {p : InputValue} (ha : a ∈ list)
    (hp : parameter? a.name = some p) :
    inLiteral schema position (some p.type) a.value ⊆
      inArguments schema position parameter? list := by
  intro u hu
  refine List.mem_flatMap.mpr ⟨a, ha, ?_⟩
  rw [hp]
  exact hu

end VariableUse

namespace Operation

open VariableUse

variable {schema : Schema} {d : Document} {o : Operation}

/-! ### What has been found in the end -/

/-- What the search for the variables that an operation reaches comes to. -/
def found (schema : Schema) (d : Document) (o : Operation) : Found :=
  Found.selections schema d (Found.fragment schema d d.fragments.length) (schema.root? o.kind)
    o.selectionSet.items ⟨[], inDirectives schema o.directives⟩

theorem uses_found (schema : Schema) (d : Document) (o : Operation) :
    (o.found schema d).uses = o.variableUses schema d := rfl

/-- The search without a depth comes to the same, and to nothing else. -/
theorem runs_iff {result : Found} :
    Found.Runs schema d (schema.root? o.kind) o.selectionSet.items
      ⟨[], inDirectives schema o.directives⟩ result ↔ result = o.found schema d := by
  have hfound := Found.runs_selections schema d (schema.root? o.kind) o.selectionSet.items
    ⟨[], inDirectives schema o.directives⟩
  constructor
  · exact fun h => h.unique hfound
  · rintro rfl
    exact hfound

/-- The fragments that have been followed in the end are those that the search was the first to
follow. -/
theorem collects_found (schema : Schema) (d : Document) (o : Operation) :
    Found.Collects schema d (spreadNames o.selectionSet.items)
      (usesInSet schema (schema.root? o.kind) o.selectionSet.items) (o.found schema d).followed
      ⟨[], inDirectives schema o.directives⟩ (o.found schema d) := by
  obtain ⟨new, hcollects⟩ := (runs_iff.mpr (rfl : o.found schema d = _)).collects
  have hnew : (o.found schema d).followed = new := by
    rw [hcollects.followed, List.append_nil]
  rwa [hnew]

/-- The uses in selections from a type have been found, and the references in them followed. -/
structure Searched (schema : Schema) (d : Document) (o : Operation)
    (parent? : Option TypeDefinition) (items : List Selection) : Prop where
  /-- The uses have been found. -/
  uses : usesInSet schema parent? items ⊆ o.variableUses schema d
  /-- The references have been followed. -/
  references : spreadNames items ⊆ (o.found schema d).followed

variable {parent? : Option TypeDefinition} {items : List Selection}

theorem Searched.uses_of_mem (h : o.Searched schema d parent? items) {item : Selection}
    (hitem : item ∈ items) : usesInSelection schema parent? item ⊆ o.variableUses schema d := by
  intro u hu
  refine h.uses ?_
  rw [usesInSet_eq_flatMap]
  exact List.mem_flatMap.mpr ⟨item, hitem, hu⟩

theorem Searched.references_of_mem (h : o.Searched schema d parent? items) {item : Selection}
    (hitem : item ∈ items) : spreadNames [item] ⊆ (o.found schema d).followed := by
  intro name hname
  refine h.references ?_
  rw [spreadNames_eq_flatMap]
  exact List.mem_flatMap.mpr ⟨item, hitem, hname⟩

/-- A fragment that has been followed is searched. -/
theorem searched_fragment {name : String} (h : name ∈ (o.found schema d).followed)
    {f : FragmentDefinition} (hf : d.fragment? name = some f) :
    inDirectives schema f.directives ⊆ o.variableUses schema d ∧
      o.Searched schema d (schema.type? f.condition) f.selectionSet.items := by
  have hcollects := o.collects_found schema d
  have huses : usesInFragment schema d name ⊆ o.variableUses schema d := fun u hu =>
    hcollects.uses.mem_iff.mpr (List.mem_append_right _
      (List.mem_append_right _ (List.mem_flatMap.mpr ⟨name, h, hu⟩)))
  rw [usesInFragment, hf] at huses
  obtain ⟨hdirectives, hset⟩ := List.append_subset.mp huses
  exact ⟨hdirectives, hset, hcollects.closed name h f hf⟩

/-- All sets that an operation reaches are searched. -/
theorem HasSet.searched (h : o.HasSet schema d parent? items) :
    o.Searched schema d parent? items := by
  induction h with
  | own =>
    have hcollects := o.collects_found schema d
    refine ⟨fun u hu => hcollects.uses.mem_iff.mpr ?_, hcollects.starts⟩
    exact List.mem_append_right _ (List.mem_append_left _ hu)
  | field _ hitem ih =>
    refine ⟨fun u hu => ih.uses_of_mem hitem (List.mem_append_right _ hu),
      fun name hname => ih.references_of_mem hitem ?_⟩
    rw [spreadNames_field]
    exact List.mem_append_left _ hname
  | inline _ hitem ih =>
    refine ⟨fun u hu => ih.uses_of_mem hitem (List.mem_append_right _ hu),
      fun name hname => ih.references_of_mem hitem ?_⟩
    rw [spreadNames_inline]
    exact List.mem_append_left _ hname
  | fragment _ hitem hf ih =>
    exact (searched_fragment (ih.references_of_mem hitem List.mem_cons_self) hf).2

theorem HasDirective.searched {directive : Directive} (h : o.HasDirective schema d directive) :
    inDirective schema directive ⊆ o.variableUses schema d := by
  cases h with
  | own h =>
    exact fun u hu => (o.collects_found schema d).uses.mem_iff.mpr
      (List.mem_append_left _ (inDirective_subset_inDirectives h hu))
  | selection hset hitem h =>
    exact fun u hu => hset.searched.uses_of_mem hitem
      (inDirectives_subset_usesInSelection schema _ _ (inDirective_subset_inDirectives h hu))
  | fragment hset hitem hf h =>
    have hfollowed := hset.searched.references_of_mem hitem List.mem_cons_self
    exact List.Subset.trans (inDirective_subset_inDirectives h) (searched_fragment hfollowed hf).1

/-- The variables in an argument that an operation reaches are among those that the search finds. -/
theorem Gives.uses_subset {a : Argument} {p : InputValue} (h : o.Gives schema d a p) :
    ∃ position, inLiteral schema position (some p.type) a.value ⊆ o.variableUses schema d := by
  cases h with
  | @field _ _ node _ _ a p hset hitem ha hp =>
    refine ⟨node.position, fun u hu => hset.searched.uses_of_mem hitem ?_⟩
    exact List.mem_append_left _ (List.mem_append_left _ (inLiteral_subset_inArguments ha hp hu))
  | @directive directive a p hdirective ha hp =>
    exact ⟨directive.position,
      List.Subset.trans (inLiteral_subset_inArguments ha hp) hdirective.searched⟩

end Operation

end GraphQLCheck

import GraphQLCheck.Proofs.Reports
import GraphQLCheck.Proofs.VariableUses

/-!
# Every occurrence of a variable, once

What the search for the variables that an operation reaches has in the end are the uses in the
operation and in the first definition of every fragment that can be reached from it in the graph of
fragments (`Operation.UsesAt`), each of them once and no others, in whatever way the fragments are
shared, missing or refer to one another. So the rules on undefined and on unused variables compare
the names that an operation declares with those that stand at these places.
-/

namespace GraphQLCheck

open Relation

open scoped List

/-- A place in a document: a path into the first definition of a fragment, or into an operation. -/
structure VariableUse.Place where
  /-- The name of the fragment. -/
  fragment? : Option String
  /-- The path in the definition. -/
  path : List VariableUse.Step
  deriving DecidableEq, Repr

namespace Operation

open VariableUse

variable {schema : Schema} {d : Document} {o : Operation}

/-- A fragment that an operation refers to, directly or through other fragments. -/
def Reaches (d : Document) (o : Operation) (name : String) : Prop :=
  ∃ s ∈ Selection.spreadsWithin o.selectionSet.items, ReflTransGen d.Refers s.name name

/-- The uses of variables that belong to an operation: those in its directives and its set, and
those in the directives and the set of the first definition of each fragment that it reaches. -/
inductive UsesAt (schema : Schema) (d : Document) (o : Operation) : Place → VariableUse → Prop where
  /-- In a directive of the operation. -/
  | directive {path : List Step} {u : VariableUse} :
      InDirectivesAt schema o.directives path u → UsesAt schema d o ⟨none, path⟩ u
  /-- In the set of the operation. -/
  | set {path : List Step} {u : VariableUse} :
      InSetAt schema (schema.root? o.kind) o.selectionSet.items path u →
      UsesAt schema d o ⟨none, path⟩ u
  /-- In a directive of a fragment. -/
  | fragmentDirective {name : String} {f : FragmentDefinition} {path : List Step}
      {u : VariableUse} :
      o.Reaches d name → d.fragment? name = some f → InDirectivesAt schema f.directives path u →
      UsesAt schema d o ⟨some name, path⟩ u
  /-- In the set of a fragment. -/
  | fragmentSet {name : String} {f : FragmentDefinition} {path : List Step} {u : VariableUse} :
      o.Reaches d name → d.fragment? name = some f →
      InSetAt schema (schema.type? f.condition) f.selectionSet.items path u →
      UsesAt schema d o ⟨some name, path⟩ u

/-! ### What has been found in the end -/

/-- The defined fragments that have been followed are those that can be reached. -/
theorem mem_followed_iff {name : String} (hdefined : (d.fragment? name).isSome) :
    name ∈ (o.found schema d).followed ↔ o.Reaches d name := by
  constructor
  · intro hname
    obtain ⟨start, hstart, hpath⟩ := (o.collects_found schema d).reached name hname hdefined
    obtain ⟨s, hs, rfl⟩ := List.mem_map.mp hstart
    exact ⟨s, hs, hpath⟩
  · rintro ⟨s, hs, hpath⟩
    -- The fragments along the path are followed one after another.
    induction hpath with
    | refl => exact HasSet.own.searched.references (List.mem_map_of_mem hs)
    | @tail a b _ hstep ih =>
      obtain ⟨f, hf⟩ := Option.isSome_iff_exists.mp hstep.source_defined
      obtain ⟨⟨t, ht, rfl⟩, -⟩ := (Document.refers_iff hf).mp hstep
      exact (searched_fragment (ih hstep.source_defined) hf).2.references (List.mem_map_of_mem ht)

theorem enumerates_usesInFragment (schema : Schema) (d : Document) (name : String) :
    Enumerates (usesInFragment schema d name) fun path u => ∃ f, d.fragment? name = some f ∧
      (InDirectivesAt schema f.directives path u ∨
        InSetAt schema (schema.type? f.condition) f.selectionSet.items path u) := by
  unfold usesInFragment
  cases hf : d.fragment? name with
  | none => exact .nil (by simp)
  | some f =>
    refine ((enumerates_inDirectives schema f.directives).append
      (enumerates_usesInSet schema _ _) ?_).congr fun path u => ?_
    · rintro path u v ⟨n, directive, rest, -, rfl, -⟩ ⟨m, item, rest', -, ⟨⟩, -⟩
    · simp

/-- The search finds the uses that belong to the operation, each of them once. -/
theorem enumerates_variableUses (schema : Schema) (d : Document) (o : Operation) :
    Enumerates (o.variableUses schema d) (o.UsesAt schema d) := by
  have hcollects := o.collects_found schema d
  have hnodup : (o.found schema d).followed.Nodup := hcollects.nodup List.nodup_nil
  have hown : Function.Injective (Place.mk none) := fun x y h => (Place.mk.inj h).2
  have hfragment (name : String) : Function.Injective (Place.mk (some name)) :=
    fun x y h => (Place.mk.inj h).2
  have hdirectives := (enumerates_inDirectives schema o.directives).relabel hown
  have hset := (enumerates_usesInSet schema (schema.root? o.kind) o.selectionSet.items).relabel hown
  have hfragments := Enumerates.flatMap
    (fun name (_ : name ∈ (o.found schema d).followed) =>
      enumerates_usesInFragment schema d name) hfragment
    (hnodup.imp fun hne x y h => hne (Option.some.inj (Place.mk.inj h).1))
  have hall := hdirectives.append (hset.append hfragments ?_) ?_
  · refine (hall.perm hcollects.uses).congr fun x u => ⟨?_, ?_⟩
    · rintro (⟨path, rfl, h⟩ | ⟨path, rfl, h⟩ | ⟨name, hname, path, rfl, f, hf, h⟩)
      · exact .directive h
      · exact .set h
      · have hdefined : (d.fragment? name).isSome := by simp [hf]
        rcases h with h | h
        · exact .fragmentDirective ((mem_followed_iff hdefined).mp hname) hf h
        · exact .fragmentSet ((mem_followed_iff hdefined).mp hname) hf h
    · intro h
      cases h with
      | directive h => exact .inl ⟨_, rfl, h⟩
      | set h => exact .inr (.inl ⟨_, rfl, h⟩)
      | @fragmentDirective name f path u hname hf h =>
        have hdefined : (d.fragment? name).isSome := by simp [hf]
        exact .inr (.inr ⟨name, (mem_followed_iff hdefined).mpr hname, path, rfl, f, hf, .inl h⟩)
      | @fragmentSet name f path u hname hf h =>
        have hdefined : (d.fragment? name).isSome := by simp [hf]
        exact .inr (.inr ⟨name, (mem_followed_iff hdefined).mpr hname, path, rfl, f, hf, .inr h⟩)
  · rintro x u v ⟨path, rfl, -⟩ ⟨name, -, path', ⟨⟩, -⟩
  · rintro x u v ⟨path, rfl, n, directive, rest, -, rfl, -⟩ (hset | hfragment)
    · obtain ⟨path', heq, m, item, rest', -, rfl, -⟩ := hset
      cases (Place.mk.inj heq).2
    · obtain ⟨name, -, path', heq, -⟩ := hfragment
      cases (Place.mk.inj heq).1

end Operation

/-! ### The rules on variables -/

/-- A rule finds nothing where the operation of a given number is entered and left. -/
def RuleName.SilentOn (r : RuleName) (schema : Schema) (d : Document) (i : ℕ) : Prop :=
  ∀ visit findings,
    (visit, findings) ∈ (d.visits schema).zip (r.report (.of schema d) (d.visits schema)) →
    ∀ o, visit.hook.OfOperation i o → findings = []

theorem RuleName.silentOn_each_iff {r : RuleName} {look : Setting → Visit → List Finding}
    (hlook : r.report = Report.each look) {schema : Schema} {d : Document} {i : ℕ} :
    r.SilentOn schema d i ↔ ∀ visit ∈ d.visits schema, ∀ o, visit.hook.OfOperation i o →
      look (.of schema d) visit = [] := by
  have hzip (visits : List Visit) : visits.zip (visits.map (look (.of schema d))) =
      visits.map fun visit => (visit, look (.of schema d) visit) := by
    induction visits with
    | nil => rfl
    | cons visit visits ih => rw [List.map_cons, List.zip_cons_cons, ih, List.map_cons]
  rw [SilentOn, hlook, Report.each, hzip]
  simp only [List.mem_map, Prod.mk.injEq]
  constructor
  · intro h visit hvisit
    exact h visit _ ⟨visit, hvisit, rfl, rfl⟩
  · rintro h visit findings ⟨_, hvisit, rfl, rfl⟩
    exact h _ hvisit

section Rules

variable {schema : Schema} {d : Document} {i : ℕ} {o : Operation}

/-- A rule whose findings at an operation do not depend on the scope is silent on it if it finds
nothing where the operation is entered and where it is left. -/
theorem RuleName.silentOn_iff {r : RuleName} {look : Setting → Visit → List Finding}
    (hlook : r.report = Report.each look) (h : d.operations[i]? = some o)
    {entered left : List Finding}
    (hentered : ∀ s, look (.of schema d) ⟨.enter (.operation i o), s⟩ = entered)
    (hleft : ∀ s, look (.of schema d) ⟨.leave (.operation i o), s⟩ = left) :
    r.SilentOn schema d i ↔ entered = [] ∧ left = [] := by
  rw [silentOn_each_iff hlook]
  constructor
  · intro hsilent
    obtain ⟨s, henter, hleave, -⟩ := Document.exists_visits_of_operation schema h
    rw [← hentered s, ← hleft s]
    exact ⟨hsilent _ henter o (.inl rfl), hsilent _ hleave o (.inr rfl)⟩
  · rintro ⟨rfl, rfl⟩ ⟨hook, s⟩ hvisit o' hhook
    have hnumber := Document.getElem?_operations_of_visit hvisit hhook
    obtain rfl := Option.some.inj (h.symm.trans hnumber)
    rcases hhook with rfl | rfl
    · exact hentered s
    · exact hleft s

theorem noUndefinedVariables_silentOn_iff (h : d.operations[i]? = some o) :
    RuleName.noUndefinedVariables.SilentOn schema d i ↔
      ∀ u ∈ o.variableUses schema d, ∃ v ∈ o.declared, v.name = u.name := by
  rw [RuleName.silentOn_iff rfl h (fun _ => rfl) fun _ => rfl, Setting.usesOf_operation h]
  simp

theorem noUnusedVariables_silentOn_iff (h : d.operations[i]? = some o) :
    RuleName.noUnusedVariables.SilentOn schema d i ↔
      ∀ v ∈ o.declared, ∃ u ∈ o.variableUses schema d, u.name = v.name := by
  rw [RuleName.silentOn_iff rfl h (fun _ => rfl) fun _ => rfl, Setting.usesOf_operation h]
  simp

end Rules

/-- The search for the variables of an operation finds every use that belongs to the operation
once, and no other, with the type that is expected at its place. So the rules on undefined and on
unused variables are both silent on the operation exactly if the names used at these places are the
names that it declares. -/
theorem variableUses_every_place_once (schema : Schema) (d : Document)
    (i : Fin d.operations.length) :
    VariableUse.Enumerates (d.operations[i].variableUses schema d)
        (d.operations[i].UsesAt schema d) ∧
      (RuleName.noUndefinedVariables.SilentOn schema d i ∧
          RuleName.noUnusedVariables.SilentOn schema d i ↔
        ∀ name, (∃ place u, d.operations[i].UsesAt schema d place u ∧ u.name = name) ↔
          ∃ v ∈ d.operations[i].declared, v.name = name) := by
  have hget : d.operations[i.val]? = some d.operations[i] := List.getElem?_eq_getElem i.isLt
  have henumerates := d.operations[i].enumerates_variableUses schema d
  have huses (u : VariableUse) := henumerates.mem_iff u
  refine ⟨henumerates, ?_⟩
  rw [noUndefinedVariables_silentOn_iff hget, noUnusedVariables_silentOn_iff hget]
  constructor
  · rintro ⟨hdeclared, hused⟩ name
    constructor
    · rintro ⟨place, u, hu, rfl⟩
      exact hdeclared u ((huses u).mpr ⟨place, hu⟩)
    · rintro ⟨v, hv, rfl⟩
      obtain ⟨u, hu, hname⟩ := hused v hv
      obtain ⟨place, hplace⟩ := (huses u).mp hu
      exact ⟨place, u, hplace, hname⟩
  · intro h
    refine ⟨fun u hu => ?_, fun v hv => ?_⟩
    · obtain ⟨place, hplace⟩ := (huses u).mp hu
      exact (h u.name).mp ⟨place, u, hplace, rfl⟩
    · obtain ⟨place, u, hplace, hname⟩ := (h v.name).mpr ⟨v, hv, rfl⟩
      exact ⟨u, (huses u).mpr ⟨place, hplace⟩, hname⟩

end GraphQLCheck
